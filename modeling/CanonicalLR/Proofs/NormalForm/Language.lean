import CanonicalLR.Proofs.Grammar.Built

/-!
# Normal forms and the language

A grammar in normal form without merging says what the grammar says that it comes from: a term that
is left generates the same sequences of names (`generates_normalize`).

Merging is not as harmless.  It keeps what is said if only terms with the same rules are merged,
which is so exactly if as many different right sides are left of one term as of the other whenever
two are merged (`mergeDuplicates_faithful_iff`).  But the test for duplicates lets other terms pass,
and then the language may change (`mergeDuplicates_shrinks`).
-/

namespace CanonicalLR.Grammar

variable {g n : Grammar}

/-! ### Elimination -/

/-- What a grammar keeps, it generates under the same names. -/
theorem Keeps.generates_iff {g' : Grammar} (h : Keeps g g') {t : TermId}
    (ht : g.contains (.term t)) {names : List String} :
  g'.Generates t names ↔ g.Generates t names
  := by
  have htoken : g'.tokenName = g.tokenName := by
    funext m
    change (g'.tokens.name? m).getD "" = _
    rw [h.tokens_eq]
    rfl
  simp only [Grammar.generates_iff, h.derived_iff t ht, htoken]

/-- The normal form without merging has the same start term; a term that is left in it keeps its
name, and generates the same sequences of names as before. -/
theorem generates_normalize {start : TermId} (hg : g.Built) (hs : g.start = some start)
    (hn : g.normalize false = .ok n) :
  n.start = some start ∧ n.contains (.term start) ∧
    (∀ names, n.Generates start names ↔ g.Generates start names) ∧
    ∀ t, g.contains (.term t) → n.contains (.term t) →
      n.termName t = g.termName t ∧ ∀ names, n.Generates t names ↔ g.Generates t names
  := by
  obtain ⟨g₁, he, rfl⟩ := exists_of_map_eq_ok hn
  have hg := hg.wellFormed
  have htidy := keeps_tidyRules hg
  have hkeeps := htidy.trans (keeps_eliminate htidy.wellFormed he)
  have hs₁ := hkeeps.start_eq.trans hs
  have hleft (t : TermId) (ht : g.contains (.term t))
      (hleft : g₁.removeUnreachable.contains (.term t)) (names : List String) :
      g₁.removeUnreachable.Generates t names ↔ g.Generates t names :=
    (generates_removeUnreachable hkeeps.wellFormed hs₁ hleft).trans (hkeeps.generates_iff ht)
  have hstart : g₁.removeUnreachable.start = some start := start_removeUnreachable.trans hs₁
  have hmember := hkeeps.wellFormed.removeUnreachable.start_mem start hstart
  refine ⟨hstart, hmember, hleft start (hg.start_mem start hs) hmember, fun t ht htl => ⟨?_, ?_⟩⟩
  · apply (hkeeps.wellFormed.nameOf_removeUnreachable htl).trans (hkeeps.nameOf_eq hg ht)
  · apply hleft t ht htl

/-- A grammar of sums, in which left recursion is hidden behind a term that derives nothing. -/
def hiddenSums : Grammar :=
  ((ofProductions "E" [⟨"E", [⟨.term, "O"⟩, ⟨.term, "E"⟩, ⟨.token, "+"⟩, ⟨.token, "n"⟩]⟩,
    ⟨"E", [⟨.token, "n"⟩]⟩, ⟨"O", [⟨.prompt, "p"⟩]⟩]).toOption).getD empty

theorem built_hiddenSums :
  hiddenSums.Built
  := built_getD_ofProductions

/-- The normal form of the grammar of sums. -/
def hiddenSumsNormal : Grammar :=
  ((hiddenSums.normalize false).toOption).getD empty

/-- The normal form of the grammar of sums has other rules, and its start term generates the
same. -/
theorem generates_normalize_hiddenSums :
  hiddenSums.normalize false = .ok hiddenSumsNormal ∧ hiddenSumsNormal ≠ hiddenSums ∧
    ∀ names, hiddenSumsNormal.Generates 0 names ↔ hiddenSums.Generates 0 names
  := by
  have hn : hiddenSums.normalize false = .ok hiddenSumsNormal := by decide +kernel
  refine ⟨hn, by decide +kernel, ?_⟩
  apply (generates_normalize built_hiddenSums (by decide +kernel) hn).2.2.1

/-! ### Merging -/

/-- Terms that pass for duplicates have the same rules exactly if as many different right sides are
left of one as of the other.  If this is so whenever two terms are merged, and only then, merging is
faithful: only terms with the same rules are merged, and so every term that is left generates what
it did, and the survivor of a term that is dropped generates what that term did. -/
theorem mergeDuplicates_faithful_iff (hg : g.Built) :
  (∀ a b, g.isDuplicateTerm a b = true → (g.SameRules b a ↔
    (g.renamedRights b a a).dedup.length = (g.renamedRights b a b).dedup.length)) ∧
  ((g.tidyRules.MergesSameRules ∧ g.tidyRules.mergeDuplicates.start = g.start ∧
    ∀ t, g.contains (.term t) →
      g.tidyRules.mergeDuplicates.contains (.term (g.tidyRules.survivor t)) ∧
      (g.tidyRules.mergeDuplicates.contains (.term t) → g.tidyRules.survivor t = t) ∧
      ∀ names, g.tidyRules.mergeDuplicates.Generates (g.tidyRules.survivor t) names ↔
        g.Generates t names) ↔
  ∀ h, g.tidyRules.MergesTo h →
    ∀ a b, firstPair? h.isDuplicateTerm h.terms.ids = some (a, b) →
      (h.renamedRights b a a).dedup.length = (h.renamedRights b a b).dedup.length)
  := by
  refine ⟨fun a b => sameRules_iff_of_isDuplicateTerm, ?_⟩
  have hg := hg.wellFormed
  have htidy := keeps_tidyRules hg
  constructor
  · rintro ⟨hsame, -⟩ h hto a b hpair
    have hdup := (firstPair?_eq_some hpair).2.2.1
    apply (sameRules_iff_of_isDuplicateTerm hdup).mp (hsame h hto a b hpair)
  · intro hcounts
    have hsame : g.tidyRules.MergesSameRules := by
      intro h hto a b hpair
      have hdup := (firstPair?_eq_some hpair).2.2.1
      apply (sameRules_iff_of_isDuplicateTerm hdup).mpr (hcounts h hto a b hpair)
    refine ⟨hsame, (tokens_start_mergeDuplicates htidy.wellFormed).2, fun t ht => ⟨?_, ?_, ?_⟩⟩
    · apply contains_survivorAfter htidy.wellFormed (htidy.contains ht)
    · apply survivorAfter_eq_self htidy.wellFormed
    · intro names
      rw [generates_survivor htidy.wellFormed hsame, htidy.generates_iff ht]

/-- A grammar with two terms that have the same rules. -/
def twins : Grammar :=
  ((ofProductions "S" [⟨"S", [⟨.term, "A"⟩, ⟨.term, "B"⟩]⟩, ⟨"A", [⟨.token, "x"⟩, ⟨.term, "B"⟩]⟩,
    ⟨"A", [⟨.token, "y"⟩]⟩, ⟨"B", [⟨.token, "x"⟩, ⟨.term, "A"⟩]⟩,
    ⟨"B", [⟨.token, "y"⟩]⟩]).toOption).getD empty

theorem built_twins :
  twins.Built
  := built_getD_ofProductions

/-- The only merge is that of the two terms, which have the same rules; so the term that is left
generates what both of them did. -/
theorem mergeDuplicates_faithful_twins :
  twins.Built ∧ twins.tidyRules.survivor 2 = 1 ∧ twins.tidyRules.MergesSameRules ∧
    ∀ names, (twins.tidyRules.mergeDuplicates.Generates 1 names ↔ twins.Generates 1 names) ∧
      (twins.tidyRules.mergeDuplicates.Generates 1 names ↔ twins.Generates 2 names)
  := by
  have hfirst : firstPair? twins.tidyRules.isDuplicateTerm twins.tidyRules.terms.ids = some (1, 2) := by
    decide +kernel
  have hthen : ∀ h, twins.tidyRules.mergeStep = some h → h.mergeStep = none ∧
      firstPair? h.isDuplicateTerm h.terms.ids = none := by
    intro h hstep
    have he : twins.tidyRules.mergeStep = some twins.tidyRules.mergeDuplicates := by decide +kernel
    obtain rfl : twins.tidyRules.mergeDuplicates = h := Option.some.inj (he.symm.trans hstep)
    decide +kernel
  have hcounts : ∀ h, twins.tidyRules.MergesTo h →
      ∀ a b, firstPair? h.isDuplicateTerm h.terms.ids = some (a, b) →
        (h.renamedRights b a a).dedup.length = (h.renamedRights b a b).dedup.length := by
    intro h hto a b hpair
    rcases hto.cases_head with rfl | ⟨h₁, hstep, hto⟩
    · rw [hfirst] at hpair
      cases hpair
      decide +kernel
    · obtain ⟨hstuck, hnone⟩ := hthen h₁ hstep
      rcases hto.cases_head with rfl | ⟨h₂, hstep₂, -⟩
      · rw [hnone] at hpair
        cases hpair
      · rw [hstuck] at hstep₂
        cases hstep₂
  obtain ⟨hsame, -, hterms⟩ := (mergeDuplicates_faithful_iff built_twins).2.mpr hcounts
  have hone : twins.tidyRules.survivor 1 = 1 := by decide +kernel
  have htwo : twins.tidyRules.survivor 2 = 1 := by decide +kernel
  have h₁ := (hterms 1 (by decide +kernel)).2.2
  have h₂ := (hterms 2 (by decide +kernel)).2.2
  rw [hone] at h₁
  rw [htwo] at h₂
  use built_twins, htwo, hsame, fun names => ⟨h₁ names, h₂ names⟩

/-- A grammar with two terms that pass for duplicates: two rules of the first coincide when the
second is read as the first. -/
def coinciding : Grammar :=
  ((ofProductions "A" [⟨"A", [⟨.token, "x"⟩, ⟨.term, "A"⟩]⟩, ⟨"A", [⟨.token, "x"⟩, ⟨.term, "B"⟩]⟩,
    ⟨"B", [⟨.token, "x"⟩, ⟨.term, "A"⟩]⟩, ⟨"B", [⟨.token, "y"⟩]⟩]).toOption).getD empty

theorem built_coinciding :
  coinciding.Built
  := built_getD_ofProductions

/-- Terms that pass for duplicates need not have the same rules, and when they are merged, the
start term may be left without a single sequence. -/
theorem mergeDuplicates_shrinks :
  coinciding.Built ∧ coinciding.tidyRules = coinciding ∧ coinciding.start = some 0 ∧
    coinciding.isDuplicateTerm 0 1 = true ∧ ¬ coinciding.SameRules 1 0 ∧
    coinciding.mergeDuplicates.start = some 0 ∧ coinciding.Generates 0 ["x", "y"] ∧
    ∀ names, ¬ coinciding.mergeDuplicates.Generates 0 names
  := by
  have hdup : coinciding.isDuplicateTerm 0 1 = true := by decide +kernel
  refine ⟨built_coinciding, by decide +kernel, by decide +kernel, hdup, ?_, by decide +kernel, ?_, ?_⟩
  · rw [sameRules_iff_of_isDuplicateTerm hdup]
    decide +kernel
  · have hA : ⟨1, 0, [.token 0, .term 1]⟩ ∈ coinciding.rules := by decide +kernel
    have hB : ⟨3, 1, [.token 1]⟩ ∈ coinciding.rules := by decide +kernel
    refine ⟨[0, 1], ?_, by decide +kernel⟩
    exact .term hA (.token (.term hB (.token .nil) .nil)) .nil
  · rintro names ⟨w, hw, -⟩
    have hrules : coinciding.mergeDuplicates.rules = [⟨0, 0, [.token 0, .term 0]⟩] := by
      decide +kernel
    apply reading_of_derived (L := fun _ _ => False) _ hw
    rintro t items ⟨r, hr, rfl, rfl⟩ w hw
    rw [hrules, List.mem_singleton] at hr
    subst hr
    obtain ⟨_, _, -, -, _, _, -, hnone, -⟩ := hw
    apply hnone

end CanonicalLR.Grammar
