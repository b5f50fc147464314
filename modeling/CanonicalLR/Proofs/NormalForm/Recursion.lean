import CanonicalLR.Proofs.Analysis.LeftRecursion
import CanonicalLR.Proofs.NormalForm.Tidiness

/-!
# Left recursion of normal forms

The elimination ends at a grammar without left recursion.  What is done afterwards leaves out rules,
which makes no term left recursive, and merges terms.  When a term takes the place of another one
that has all of its rules, no term becomes left recursive: what the two lead to as one, each of them
led to before, so a cycle of the new grammar can be followed in the old one from whichever of the
two (`exists_leads_of_substituteTerm`).

If the earlier of two terms stays, it has no rules that the later has not.  If the start term stays
although it is the later one, it may have more rules; then a normal form may be left recursive
(`leftRecursive_normalize_lopsided`).  If whenever this happens the two have the same rules, then it is
not (`leftRecursion_normalize`).
-/

namespace CanonicalLR.Grammar

variable {g g' n : Grammar} {source target t u u₀ v x : TermId} {items : List Symbol} {merge : Bool}

/-! ### Fewer rules -/

/-- What a term leads to by fewer rules, it leads to. -/
theorem leads_of_hasRule (hrules : ∀ t items, g'.HasRule t items → g.HasRule t items)
    (h : g'.Leads t u) :
  g.Leads t u
  := by
  obtain ⟨items, hr, before, after, rfl, hbefore⟩ := h
  refine ⟨_, hrules t _ hr, before, after, rfl, ?_⟩
  apply derives_iff_reads.mpr
  apply (derives_iff_reads.mp hbefore).mono
  intro t _ w hw
  apply reading_of_derived (fun t items hr _ => derived_of_hasRule (hrules t items hr)) hw

/-- With fewer rules, no term becomes left recursive. -/
theorem leftRecursive_of_hasRule (hrules : ∀ t items, g'.HasRule t items → g.HasRule t items)
    (h : g'.LeftRecursive t) :
  g.LeftRecursive t
  := by
  rw [leftRecursive_iff] at h ⊢
  apply Relation.TransGen.mono (fun _ _ => leads_of_hasRule hrules) _ _ h

theorem hasRule_of_hasRule_tidyRules (h : g.tidyRules.HasRule t items) :
  g.HasRule t items
  := by
  obtain ⟨r, hr, rfl, rfl⟩ := h
  apply hasRule_of_mem (g.tidyRules_sublist.subset hr)

theorem LeftRecursive.of_tidyRules (h : g.tidyRules.LeftRecursive t) :
  g.LeftRecursive t
  := leftRecursive_of_hasRule (fun _ _ => hasRule_of_hasRule_tidyRules) h

theorem hasRule_of_hasRule_removeUnreachable (h : g.removeUnreachable.HasRule t items) :
  g.HasRule t items
  := by
  obtain ⟨r, hr, rfl, rfl⟩ := h
  rw [removeUnreachable] at hr
  split at hr
  · apply hasRule_of_mem hr
  · apply hasRule_of_mem (mem_rules_removeSymbols.mp hr).1

/-! ### Putting a term in the place of another -/

section substituteTerm

variable (hsub : ∀ items ∈ g.renamedRights source target target,
  items ∈ g.renamedRights source target source)

include hsub

/-- What can lead a right side in which the target stands for the source, stands for a term that
can lead the right side. -/
theorem exists_canLead_of_renameItems
    (h : (g.substituteTerm source target).CanLead (renameItems source target items) v) :
  ∃ v₀, (if v₀ = source then target else v₀) = v ∧ g.CanLead items v₀
  := by
  obtain ⟨before, after, he, hbefore⟩ := h
  obtain ⟨before₀, rest, rfl, rfl, hrest⟩ := List.map_eq_append_iff.mp he
  obtain ⟨s, after₀, rfl, hs, rfl⟩ := List.map_eq_cons_iff.mp hrest
  have hbefore₀ : Derives g.rules before₀ [] := by
    apply derives_iff_reads.mpr
    apply (reads_renameItems.mp (derives_iff_reads.mp hbefore)).mono
    intro t _ w
    apply derived_of_derived_substituteTerm hsub
  split at hs
  · next hsource =>
    subst hsource
    obtain rfl : target = v := by simpa using hs
    use source, if_pos rfl, before₀, after₀
  · next hne =>
    subst hs
    use v, if_neg (by simpa using hne), before₀, after₀

/-- What a term leads to when the target takes the place of the source stands for something that
each term led to for which it stands. -/
theorem exists_leads_of_substituteTerm (h : (g.substituteTerm source target).Leads u v)
    (hu₀ : (if u₀ = source then target else u₀) = u) :
  ∃ v₀, (if v₀ = source then target else v₀) = v ∧ g.Leads u₀ v₀
  := by
  obtain ⟨_, hr', hlead⟩ := h
  obtain ⟨-, right, hr, rfl⟩ := hasRule_substituteTerm.mp hr'
  split at hu₀
  · next hsource =>
    subst hsource hu₀
    obtain ⟨right', hr', he⟩ := mem_renamedRights.mp (hsub _ (mem_renamedRights.mpr ⟨right, hr, rfl⟩))
    rw [he] at hlead
    obtain ⟨v₀, hv₀, hlead⟩ := exists_canLead_of_renameItems hsub hlead
    use v₀, hv₀, right', hr'
  · subst hu₀
    obtain ⟨v₀, hv₀, hlead⟩ := exists_canLead_of_renameItems hsub hlead
    use v₀, hv₀, right, hr

theorem exists_transGen_of_substituteTerm
    (h : Relation.TransGen (g.substituteTerm source target).Leads u v)
    (hu₀ : (if u₀ = source then target else u₀) = u) :
  ∃ v₀, (if v₀ = source then target else v₀) = v ∧ Relation.TransGen g.Leads u₀ v₀
  := by
  induction h with
  | single h =>
    obtain ⟨v₀, hv₀, h⟩ := exists_leads_of_substituteTerm hsub h hu₀
    use v₀, hv₀, .single h
  | tail _ h ih =>
    obtain ⟨w₀, hw₀, hmany⟩ := ih
    obtain ⟨v₀, hv₀, h⟩ := exists_leads_of_substituteTerm hsub h hw₀
    use v₀, hv₀, hmany.tail h

/-- If no term was left recursive, then none becomes so when a term takes the place of one that has
all of its rules. -/
theorem not_leftRecursive_substituteTerm (hg : ∀ t, ¬ g.LeftRecursive t) :
  ¬ (g.substituteTerm source target).LeftRecursive x
  := by
  simp only [leftRecursive_iff] at hg ⊢
  intro hcycle
  have hne : x ≠ source := by
    obtain ⟨_, ⟨_, hr, -⟩, -⟩ := Relation.TransGen.head'_iff.mp hcycle
    apply (hasRule_substituteTerm.mp hr).1
  -- The cycle is followed twice; `x` stands for two terms at most, so one of them is met again.
  obtain ⟨x₁, hx₁, hfirst⟩ := exists_transGen_of_substituteTerm hsub hcycle (if_neg hne)
  obtain ⟨x₂, hx₂, hsecond⟩ := exists_transGen_of_substituteTerm hsub hcycle hx₁
  have hstands {y : TermId} (hy : (if y = source then target else y) = x) : y = source ∨ y = x := by
    split at hy
    · next hs => exact .inl hs
    · exact .inr hy
  rcases hstands hx₁ with rfl | rfl
  · rcases hstands hx₂ with rfl | rfl
    · apply hg _ hsecond
    · apply hg _ (hfirst.trans hsecond)
  · apply hg _ hfirst

end substituteTerm

/-! ### Merging -/

/-- Whenever a term is merged into the start term although it comes before it, the two have the same
rules, the one being read as the other. -/
def StartMergesSameRules (g : Grammar) : Prop :=
  ∀ h, g.MergesTo h → ∀ a b, firstPair? h.isDuplicateTerm h.terms.ids = some (a, b) →
    h.start = some b → h.SameRules b a

/-- The term that stays has no rules that the term that goes has not, unless it is the start
term. -/
theorem renamedRights_subset_of_nextMerge (hg : g.StartMergesSameRules)
    (h : g.nextMerge? = some (source, target)) :
  ∀ items ∈ g.renamedRights source target target, items ∈ g.renamedRights source target source
  := by
  obtain ⟨⟨a, b⟩, hpair, he⟩ := Option.map_eq_some_iff.mp h
  simp only at he
  split at he
  · next hstart =>
    cases he
    exact fun items => ((hg g .refl _ _ hpair hstart).symm items).mpr
  · cases he
    apply (isDuplicateTerm_iff.mp (firstPair?_eq_some hpair).2.2.1).2.2

/-- Merging makes no term left recursive if terms are merged into a later start term only if the two
have the same rules. -/
theorem not_leftRecursive_mergeDuplicates (hsame : g.StartMergesSameRules)
    (hg : ∀ t, ¬ g.LeftRecursive t) :
  ¬ g.mergeDuplicates.LeftRecursive t
  := by
  let motive (h : Grammar) : Prop := g.MergesTo h ∧ ∀ t, ¬ h.LeftRecursive t
  refine (exhaust_induction (motive := motive) ?_ g.terms.size ⟨.refl, hg⟩).2 t
  rintro h h' ⟨hto, hh⟩ hstep
  have hto' := hto.tail hstep
  rw [mergeStep_eq] at hstep
  obtain ⟨⟨source, target⟩, hnext, rfl⟩ := Option.map_eq_some_iff.mp hstep
  use hto'
  intro t ht
  have hsub := renamedRights_subset_of_nextMerge (fun k hk => hsame k (hto.trans hk)) hnext
  apply not_leftRecursive_substituteTerm hsub hh
  apply ht.of_tidyRules

/-! ### Normal forms -/

/-- No term of a normal form is left recursive if no merging was asked for, or if, after the
elimination, terms are merged into a later start term only if the two have the same rules. -/
theorem not_leftRecursive_normalize (hg : g.WellFormed) (hn : g.normalize merge = .ok n)
    (hsame : merge = true → ∀ e, g.tidyRules.mergeDuplicates.eliminateLeftRecursion = .ok e →
      e.StartMergesSameRules) :
  ¬ n.LeftRecursive t
  := by
  obtain ⟨e, he, rfl⟩ := exists_of_map_eq_ok hn
  have hwell := (keeps_eliminate (hg.tidyRules.mergeIf merge) he).wellFormed
  have hnil := (eliminate_induction (motive := fun _ => True) (by simp) trivial he).2
  have helim := (Analysis.leftRecursion_eq_nil_iff hwell).mp hnil
  intro ht
  have ht := leftRecursive_of_hasRule (fun _ _ => hasRule_of_hasRule_removeUnreachable) ht
  cases merge with
  | false => apply helim t ht
  | true => apply not_leftRecursive_mergeDuplicates (hsame rfl e he) helim ht

/-- A grammar in normal form has no left recursion if no merging was asked for, or if, after the
elimination, terms are merged into a later start term only if the two have the same rules: none is
found, and no term can be rewritten to a sequence that begins with it. -/
theorem leftRecursion_normalize (hg : g.Built) (hn : g.normalize merge = .ok n)
    (hsame : merge = true → ∀ e, g.tidyRules.mergeDuplicates.eliminateLeftRecursion = .ok e →
      e.StartMergesSameRules) :
  n.analyze.leftRecursion = [] ∧ ∀ t, ¬ n.LeftRecursive t
  := by
  have hnone := fun t => not_leftRecursive_normalize (t := t) hg.wellFormed hn hsame
  use (Analysis.leftRecursion_eq_nil_iff (hg.wellFormed.normalize hn)).mpr hnone

/-- A grammar with two left recursive terms that repeat the same sequence. -/
def repeats : Grammar :=
  ((ofProductions "S" [⟨"S", [⟨.term, "A"⟩, ⟨.term, "B"⟩]⟩, ⟨"A", [⟨.term, "A"⟩, ⟨.token, "x"⟩]⟩,
    ⟨"A", [⟨.token, "a"⟩]⟩, ⟨"B", [⟨.term, "B"⟩, ⟨.token, "x"⟩]⟩,
    ⟨"B", [⟨.token, "b"⟩]⟩]).toOption).getD empty

theorem built_repeats :
  repeats.Built
  := built_getD_ofProductions

/-- The grammar without left recursion, in which the tails of the two terms are duplicates. -/
def repeatsEliminated : Grammar :=
  ((repeats.tidyRules.mergeDuplicates.eliminateLeftRecursion).toOption).getD empty

/-- After the elimination only the two tails are merged, so nothing is left recursive in the normal
form. -/
theorem leftRecursion_normalize_repeats :
  repeats.LeftRecursive 1 ∧ repeatsEliminated.StartMergesSameRules ∧
    ∃ n, repeats.normalize true = .ok n ∧ n.contains (.term 1) = true ∧ ∀ t, ¬ n.LeftRecursive t
  := by
  have he : repeats.tidyRules.mergeDuplicates.eliminateLeftRecursion = .ok repeatsEliminated := by
    decide +kernel
  have hsame : repeatsEliminated.StartMergesSameRules := by
    have hnot : ∀ h, repeatsEliminated.MergesTo h →
        h = repeatsEliminated ∨ h = repeatsEliminated.mergeDuplicates := by
      intro h hto
      have hstep : repeatsEliminated.mergeStep = some repeatsEliminated.mergeDuplicates := by
        decide +kernel
      have hstuck : repeatsEliminated.mergeDuplicates.mergeStep = none := by decide +kernel
      rcases hto.cases_head with rfl | ⟨h₁, hfirst, hto⟩
      · exact .inl rfl
      · obtain rfl := Option.some.inj (hstep.symm.trans hfirst)
        rcases hto.cases_head with rfl | ⟨h₂, hsecond, -⟩
        · exact .inr rfl
        · rw [hstuck] at hsecond
          cases hsecond
    intro h hto a b hpair hstart
    rcases hnot h hto with rfl | rfl
    · have hfirst : firstPair? repeatsEliminated.isDuplicateTerm repeatsEliminated.terms.ids =
          some (3, 4) := by decide +kernel
      rw [hfirst] at hpair
      cases hpair
      have hfour : repeatsEliminated.start ≠ some 4 := by decide +kernel
      apply absurd hstart hfour
    · have hnone : firstPair? repeatsEliminated.mergeDuplicates.isDuplicateTerm
          repeatsEliminated.mergeDuplicates.terms.ids = none := by decide +kernel
      rw [hnone] at hpair
      cases hpair
  have hn : repeats.normalize true = .ok (((repeats.normalize true).toOption).getD empty) := by
    decide +kernel
  refine ⟨?_, hsame, _, hn, by decide +kernel, ?_⟩
  · apply (Analysis.isLeftRecursive_analyze built_repeats.wellFormed).mp
    decide +kernel
  · apply (leftRecursion_normalize built_repeats hn _).2
    intro _ e he'
    obtain rfl : repeatsEliminated = e := Except.ok.inj (he.symm.trans he')
    apply hsame

/-- A grammar with a start term behind a term that passes for its duplicate once left recursion is
eliminated, but has fewer rules. -/
def lopsided : Grammar :=
  let answer := do
    let g ← ofProductions "A" [⟨"A", [⟨.term, "N"⟩, ⟨.term, "A"⟩]⟩,
      ⟨"A", [⟨.token, "x"⟩, ⟨.term, "A"⟩]⟩, ⟨"A", [⟨.token, "x"⟩, ⟨.term, "B"⟩]⟩,
      ⟨"B", [⟨.token, "x"⟩, ⟨.term, "A"⟩]⟩, ⟨"B", [⟨.term, "A"⟩, ⟨.token, "y"⟩]⟩, ⟨"N", []⟩]
    g.setStart "B"
  (answer.toOption.map (·.2)).getD empty

theorem built_lopsided :
  lopsided.Built
  := by
  rw [lopsided]
  apply built_getD_of_answer
  intro s g h
  obtain ⟨g₀, hrules, hstart⟩ := exists_of_bind_eq_ok h
  apply Built.setStart (built_of_ofProductions hrules) hstart

/-- The first term is merged into the start term, whose other rule begins with the first term; so the
start term of the normal form is left recursive. -/
theorem leftRecursive_normalize_lopsided :
  lopsided.Built ∧ ∃ n, lopsided.normalize true = .ok n ∧ n.analyze.leftRecursion = [2] ∧
    n.start = some 2 ∧ n.LeftRecursive 2
  := by
  have hn : lopsided.normalize true = .ok (((lopsided.normalize true).toOption).getD empty) := by
    decide +kernel
  refine ⟨built_lopsided, _, hn, by decide +kernel, by decide +kernel, ?_⟩
  apply (Analysis.isLeftRecursive_analyze (built_lopsided.wellFormed.normalize hn)).mp
  decide +kernel

end CanonicalLR.Grammar
