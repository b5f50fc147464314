import Mathlib.Data.List.Dedup
import Mathlib.Logic.Relation
import CanonicalLR.NormalForm.Normalize
import CanonicalLR.Proofs.NormalForm.Tidying

/-!
# Merging duplicate terms

When a term takes the place of another one that has the same rules (`Grammar.SameRules`), the two
being read as one, the language is kept: the one that stays derives what both of them derived
(`derived_substituteTerm`).

The test for duplicates does not make sure of that.  It compares how many rules there are and
whether those of the first term are rules of the second; when rules of the first coincide once the
second is read as the first, the second may have rules that the first has not.  The two have the
same rules exactly if as many different right sides are left of one as of the other
(`sameRules_iff_of_isDuplicateTerm`).

The term that stands in the place of a term when merging has come to its end is its *survivor*
(`Grammar.survivor`).  If only terms with the same rules are merged, then the survivor of a term
derives what the term derived (`derived_survivor`).
-/

namespace CanonicalLR

/-- The two values of the first pair are in the list, at different places, and related. -/
theorem firstPair?_eq_some {α : Type} {related : α → α → Bool} {as : List α} {a b : α}
    (h : firstPair? related as = some (a, b)) :
  a ∈ as ∧ b ∈ as ∧ related a b = true ∧ (as.Nodup → a ≠ b)
  := by
  induction as with
  | nil => cases h
  | cons c as ih =>
    rw [firstPair?] at h
    split at h
    · next d hd =>
      cases h
      have hb := List.mem_of_find?_eq_some hd
      refine ⟨List.mem_cons_self, List.mem_cons_of_mem _ hb, List.find?_some hd, ?_⟩
      rintro hnodup rfl
      apply (List.nodup_cons.mp hnodup).1 hb
    · obtain ⟨ha, hb, hrelated, hne⟩ := ih h
      refine ⟨List.mem_cons_of_mem _ ha, List.mem_cons_of_mem _ hb, hrelated, fun hnodup => ?_⟩
      apply hne (List.nodup_cons.mp hnodup).2

namespace Grammar

variable {g g' : Grammar} {a b source target t : TermId} {items : List Symbol} {w : List TokenId}

/-! ### Terms with the same rules -/

/-- The right sides of the term `t`, with the term `source` read as the term `target`. -/
def renamedRights (g : Grammar) (source target t : TermId) : List (List Symbol) :=
  (g.rulesOf t).map fun r => renameItems source target r.items

/-- Once the term `source` is read as the term `target`, the two have the same right sides. -/
def SameRules (g : Grammar) (source target : TermId) : Prop :=
  ∀ items, items ∈ g.renamedRights source target source ↔
    items ∈ g.renamedRights source target target

theorem mem_renamedRights :
  items ∈ g.renamedRights source target t ↔
    ∃ right, g.HasRule t right ∧ items = renameItems source target right
  := by
  simp only [renamedRights, List.mem_map, mem_rulesOf, HasRule]
  constructor
  · rintro ⟨r, ⟨hr, rfl⟩, rfl⟩
    exact ⟨r.items, ⟨r, hr, rfl, rfl⟩, rfl⟩
  · rintro ⟨_, ⟨r, hr, rfl, rfl⟩, rfl⟩
    exact ⟨r, ⟨hr, rfl⟩, rfl⟩

/-- To read one of two terms as the other, and then the other as the first, is the same as to read
the other as the first. -/
theorem renameItems_renameItems :
  renameItems a b (renameItems b a items) = renameItems a b items
  := by
  simp only [renameItems, List.map_map]
  apply List.map_congr_left
  intro s _
  by_cases ha : s = .term a
  · subst ha
    by_cases hab : a = b <;> simp [hab]
  · by_cases hb : s = .term b
    · simp [hb]
    · simp [ha, hb]

/-- It makes no difference which of the two terms is read as the other. -/
theorem SameRules.symm (h : g.SameRules a b) :
  g.SameRules b a
  := by
  have hswap {s t : TermId} (hst : ∀ items ∈ g.renamedRights a b s, items ∈ g.renamedRights a b t) :
      ∀ items ∈ g.renamedRights b a s, items ∈ g.renamedRights b a t := by
    intro items hitems
    obtain ⟨right, hr, rfl⟩ := mem_renamedRights.mp hitems
    obtain ⟨right', hr', he⟩ := mem_renamedRights.mp (hst _ (mem_renamedRights.mpr ⟨right, hr, rfl⟩))
    refine mem_renamedRights.mpr ⟨right', hr', ?_⟩
    rw [← renameItems_renameItems, he, renameItems_renameItems]
  exact fun items => ⟨hswap (fun items => (h items).mpr) items, hswap (fun items => (h items).mp) items⟩

/-- The test for duplicates: there are rules, as many of one term as of the other, and those of the
first are rules of the second. -/
theorem isDuplicateTerm_iff :
  g.isDuplicateTerm a b = true ↔
    g.renamedRights b a a ≠ [] ∧
      (g.renamedRights b a a).length = (g.renamedRights b a b).length ∧
      ∀ items ∈ g.renamedRights b a a, items ∈ g.renamedRights b a b
  := by
  simp [isDuplicateTerm, renamedRights, and_assoc]

/-- Duplicates have the same rules exactly if as many different right sides are left of one as of
the other once the second is read as the first. -/
theorem sameRules_iff_of_isDuplicateTerm (h : g.isDuplicateTerm a b = true) :
  g.SameRules b a ↔
    (g.renamedRights b a a).dedup.length = (g.renamedRights b a b).dedup.length
  := by
  obtain ⟨-, -, hsub⟩ := isDuplicateTerm_iff.mp h
  have hsubperm : (g.renamedRights b a a).dedup.Subperm (g.renamedRights b a b).dedup := by
    apply List.subperm_of_subset (List.nodup_dedup _)
    intro items hitems
    rw [List.mem_dedup] at hitems ⊢
    apply hsub items hitems
  constructor
  · intro hsame
    apply Nat.le_antisymm hsubperm.length_le
    apply (List.subperm_of_subset (List.nodup_dedup _) _).length_le
    intro items hitems
    rw [List.mem_dedup] at hitems ⊢
    apply (hsame items).mp hitems
  · intro hlength items
    have hperm := hsubperm.perm_of_length_le (Nat.le_of_eq hlength.symm)
    rw [← List.mem_dedup, ← hperm.mem_iff, List.mem_dedup]

/-! ### Putting a term in the place of one with the same rules -/

/-- Renamed symbols are read like the symbols when the source stands for what the target stands
for. -/
theorem reads_renameItems {L : Reading} :
  Reads L (renameItems source target items) w ↔
    Reads (fun t => L (if t = source then target else t)) items w
  := by
  induction items generalizing w with
  | nil => rfl
  | cons s items ih =>
    have hs : ∀ u, ReadsSymbol L (if s = .term source then .term target else s) u ↔
        ReadsSymbol (fun t => L (if t = source then target else t)) s u := by
      intro u
      obtain ⟨k, id⟩ := s
      cases k <;> by_cases he : id = source <;> simp [he, ReadsSymbol]
    simp only [renameItems, List.map_cons, Reads, hs]
    simp only [renameItems] at ih
    simp only [ih]

/-- The reading by which the terms read what they derive, and the target only what the source
derives too. -/
def readsBoth (g : Grammar) (source target : TermId) : Reading := fun t w =>
  derived g.rules t w ∧ (t = target → derived g.rules source w)

/-- What is read of the term that stands in the place of `t`, is derived from `t`. -/
theorem derived_of_readsBoth
    (hw : g.readsBoth source target (if t = source then target else t) w) :
  derived g.rules t w
  := by
  split at hw
  · next ht =>
    rw [ht]
    apply hw.2 rfl
  · apply hw.1

/-- What is derived when a term takes the place of one that has all of its rules, both of them
derived. -/
theorem derived_of_derived_substituteTerm
    (hsub : ∀ items ∈ g.renamedRights source target target,
      items ∈ g.renamedRights source target source)
    (hw : derived (g.substituteTerm source target).rules (if t = source then target else t) w) :
  derived g.rules t w
  := by
  have hreads {t : TermId} {right : List Symbol} {w : List TokenId} (hr : g.HasRule t right)
      (hw : Reads (g.readsBoth source target) (renameItems source target right) w) :
      derived g.rules t w :=
    derived_of_hasRule hr ((reads_renameItems.mp hw).mono fun _ _ _ => derived_of_readsBoth)
  suffices h : g.readsBoth source target (if t = source then target else t) w from
    derived_of_readsBoth h
  apply reading_of_derived (L := g.readsBoth source target) _ hw
  intro t items hr' w hw
  obtain ⟨-, right, hr, rfl⟩ := hasRule_substituteTerm.mp hr'
  use hreads hr hw
  rintro rfl
  have hmem := hsub _ (mem_renamedRights.mpr ⟨right, hr, rfl⟩)
  obtain ⟨right', hr', he⟩ := mem_renamedRights.mp hmem
  rw [he] at hw
  apply hreads hr' hw

/-- When a term takes the place of one that has the same rules, it derives what both of them
derived, and the other terms derive what they did. -/
theorem derived_substituteTerm (hne : source ≠ target) (hsame : g.SameRules source target) :
  derived (g.substituteTerm source target).rules (if t = source then target else t) w ↔
    derived g.rules t w
  := by
  constructor
  · apply derived_of_derived_substituteTerm fun items => (hsame items).mpr
  · intro hw
    apply reading_of_derived
      (L := fun t => derived (g.substituteTerm source target).rules (if t = source then target else t))
      _ hw
    intro t right hr w hw
    rw [← reads_renameItems] at hw
    split
    · next ht =>
      subst ht
      have hmem := (hsame _).mp (mem_renamedRights.mpr ⟨right, hr, rfl⟩)
      obtain ⟨right', hr', he⟩ := mem_renamedRights.mp hmem
      rw [he] at hw
      apply derived_of_hasRule (hasRule_substituteTerm.mpr ⟨hne.symm, right', hr', rfl⟩) hw
    · next ht => apply derived_of_hasRule (hasRule_substituteTerm.mpr ⟨ht, right, hr, rfl⟩) hw

/-! ### A merge -/

/-- The next merge: the term that goes, and the one that takes its place. -/
def nextMerge? (g : Grammar) : Option (TermId × TermId) :=
  (firstPair? g.isDuplicateTerm g.terms.ids).map fun (a, b) =>
    if g.start = some b then (a, b) else (b, a)

theorem mergeStep_eq :
  g.mergeStep = g.nextMerge?.map fun (source, target) => (g.substituteTerm source target).tidyRules
  := by
  rw [mergeStep, nextMerge?, Option.map_map]
  congr
  funext ⟨a, b⟩
  simp only [Function.comp_apply]
  split <;> rfl

/-- The two terms of the next merge are different members, duplicates in one order or the other,
and the one that goes is not the start term. -/
theorem exists_of_nextMerge?_eq_some (hg : g.WellFormed)
    (h : g.nextMerge? = some (source, target)) :
  source ≠ target ∧ g.contains (.term source) = true ∧ g.contains (.term target) = true ∧
    (∃ a b, firstPair? g.isDuplicateTerm g.terms.ids = some (a, b) ∧
      (source = a ∧ target = b ∨ source = b ∧ target = a)) ∧
    g.start ≠ some source
  := by
  obtain ⟨⟨a, b⟩, hpair, he⟩ := Option.map_eq_some_iff.mp h
  obtain ⟨ha, hb, hdup, hne⟩ := firstPair?_eq_some hpair
  have hne := hne (hg.proper .term).ids_nodup
  simp only at he
  split at he
  · next hstart =>
    cases he
    refine ⟨hne, contains_iff.mpr ha, contains_iff.mpr hb, ⟨_, _, hpair, .inl ⟨rfl, rfl⟩⟩, ?_⟩
    rw [hstart]
    simpa using hne.symm
  · next hstart =>
    cases he
    exact ⟨hne.symm, contains_iff.mpr hb, contains_iff.mpr ha,
      ⟨_, _, hpair, .inr ⟨rfl, rfl⟩⟩, hstart⟩

theorem WellFormed.mergeStep (hg : g.WellFormed) (h : g.mergeStep = some g') :
  g'.WellFormed
  := by
  rw [mergeStep_eq] at h
  obtain ⟨⟨source, target⟩, hnext, rfl⟩ := Option.map_eq_some_iff.mp h
  obtain ⟨hne, -, htarget, -⟩ := exists_of_nextMerge?_eq_some hg hnext
  apply (hg.substituteTerm hne htarget).tidyRules

theorem WellFormed.mergeDuplicates (hg : g.WellFormed) :
  g.mergeDuplicates.WellFormed
  := exhaust_induction (fun _ _ hg hstep => hg.mergeStep hstep) _ hg

/-- A merge changes neither the tokens nor the start term. -/
theorem tokens_start_mergeStep (hg : g.WellFormed) (h : g.mergeStep = some g') :
  g'.tokens = g.tokens ∧ g'.start = g.start
  := by
  rw [mergeStep_eq] at h
  obtain ⟨⟨source, target⟩, hnext, rfl⟩ := Option.map_eq_some_iff.mp h
  obtain ⟨hne, -, -, -, hstart⟩ := exists_of_nextMerge?_eq_some hg hnext
  refine ⟨rfl, (start_substituteTerm hne).trans ?_⟩
  cases hs : g.start with
  | none => rfl
  | some t =>
    have ht : t ≠ source := fun he => hstart (hs.trans (congrArg some he))
    simp [ht]

/-- Merging changes neither the tokens nor the start term. -/
theorem tokens_start_mergeDuplicates (hg : g.WellFormed) :
  g.mergeDuplicates.tokens = g.tokens ∧ g.mergeDuplicates.start = g.start
  := by
  let same (h : Grammar) : Prop := h.WellFormed ∧ h.tokens = g.tokens ∧ h.start = g.start
  refine (exhaust_induction (motive := same) ?_ g.terms.size ⟨hg, rfl, rfl⟩).2
  rintro h h' ⟨hh, htokens, hstart⟩ hstep
  obtain ⟨htokens', hstart'⟩ := tokens_start_mergeStep hh hstep
  use hh.mergeStep hstep, htokens'.trans htokens, hstart'.trans hstart

/-! ### Survivors -/

/-- The term that stands in the place of the term `t` after at most `bound` merges. -/
def survivorAfter : Nat → Grammar → TermId → TermId
  | 0, _, t => t
  | bound + 1, g, t =>
    match g.nextMerge? with
    | none => t
    | some (source, target) =>
      survivorAfter bound (g.substituteTerm source target).tidyRules
        (if t = source then target else t)

/-- The term that stands in the place of the term `t` when merging has come to its end. -/
def survivor (g : Grammar) (t : TermId) : TermId :=
  survivorAfter g.terms.size g t

/-- The grammar `h` comes from `g` by some number of merges. -/
def MergesTo (g h : Grammar) : Prop :=
  Relation.ReflTransGen (fun g g' => g.mergeStep = some g') g h

/-- Whatever two terms are merged on the way have the same rules. -/
def MergesSameRules (g : Grammar) : Prop :=
  ∀ h, g.MergesTo h → ∀ a b, firstPair? h.isDuplicateTerm h.terms.ids = some (a, b) → h.SameRules b a

theorem MergesSameRules.step (h : g.MergesSameRules) (hstep : g.mergeStep = some g') :
  g'.MergesSameRules
  := fun h' hto => h h' (.head hstep hto)

/-- The two terms of the next merge have the same rules. -/
theorem MergesSameRules.sameRules (h : g.MergesSameRules) (hg : g.WellFormed)
    (hnext : g.nextMerge? = some (source, target)) :
  g.SameRules source target
  := by
  obtain ⟨-, -, -, ⟨a, b, hpair, he⟩, -⟩ := exists_of_nextMerge?_eq_some hg hnext
  have hsame := h g .refl a b hpair
  rcases he with ⟨rfl, rfl⟩ | ⟨rfl, rfl⟩
  · apply hsame.symm
  · apply hsame

section survivor

variable {bound : Nat}

/-- Merging adds no symbol. -/
theorem contains_of_contains_exhaust {s : Symbol}
    (hs : (exhaust mergeStep bound g).contains s) :
  g.contains s
  := by
  let fewer (h : Grammar) : Prop := h.contains s → g.contains s
  refine exhaust_induction (motive := fewer) (fun h h' hh hstep hs => hh ?_) bound id hs
  rw [mergeStep_eq] at hstep
  obtain ⟨⟨source, target⟩, -, rfl⟩ := Option.map_eq_some_iff.mp hstep
  apply (contains_substituteTerm.mp hs).1

/-- What stands in the place of a member after some merges is a member. -/
theorem contains_survivorAfter (hg : g.WellFormed) (ht : g.contains (.term t)) :
  (exhaust mergeStep bound g).contains (.term (survivorAfter bound g t))
  := by
  induction bound generalizing g t with
  | zero => apply ht
  | succ bound ih =>
    rw [exhaust, mergeStep_eq, survivorAfter]
    cases hnext : g.nextMerge? with
    | none => apply ht
    | some pair =>
      obtain ⟨hne, -, htarget, -⟩ := exists_of_nextMerge?_eq_some hg hnext
      apply ih (hg.substituteTerm hne htarget).tidyRules
      apply contains_substituteTerm.mpr
      split
      · use htarget, by simpa using hne.symm
      · next hts => use ht, by simpa using hts

/-- A term that is left stands in its own place. -/
theorem survivorAfter_eq_self (hg : g.WellFormed)
    (ht : (exhaust mergeStep bound g).contains (.term t)) :
  survivorAfter bound g t = t
  := by
  induction bound generalizing g with
  | zero => rfl
  | succ bound ih =>
    rw [exhaust, mergeStep_eq] at ht
    rw [survivorAfter]
    cases hnext : g.nextMerge? with
    | none => rfl
    | some pair =>
      rw [hnext] at ht
      obtain ⟨source, target⟩ := pair
      obtain ⟨hne, -, htarget, -⟩ := exists_of_nextMerge?_eq_some hg hnext
      simp only [Option.map_some] at ht ⊢
      have hleft := contains_of_contains_exhaust ht
      rw [contains_tidyRules] at hleft
      have hts := (contains_substituteTerm.mp hleft).2
      rw [if_neg (by simpa using hts)]
      apply ih (hg.substituteTerm hne htarget).tidyRules ht

/-- If only terms with the same rules are merged, then what stands in the place of a term derives
what the term derived. -/
theorem derived_survivorAfter (hg : g.WellFormed) (hsame : g.MergesSameRules) :
  derived (exhaust mergeStep bound g).rules (survivorAfter bound g t) w ↔ derived g.rules t w
  := by
  induction bound generalizing g t with
  | zero => rfl
  | succ bound ih =>
    have hstep : g.mergeStep = _ := mergeStep_eq
    rw [exhaust, hstep, survivorAfter]
    cases hnext : g.nextMerge? with
    | none => rfl
    | some pair =>
      obtain ⟨source, target⟩ := pair
      obtain ⟨hne, -, htarget, -⟩ := exists_of_nextMerge?_eq_some hg hnext
      rw [hnext, Option.map_some] at hstep
      simp only [Option.map_some]
      rw [ih (hg.substituteTerm hne htarget).tidyRules (hsame.step hstep), derived_tidyRules]
      apply derived_substituteTerm hne (hsame.sameRules hg hnext)

end survivor

/-- If only terms with the same rules are merged, then the survivor of a term derives what the term
derived. -/
theorem derived_survivor (hg : g.WellFormed) (hsame : g.MergesSameRules) :
  derived g.mergeDuplicates.rules (g.survivor t) w ↔ derived g.rules t w
  := derived_survivorAfter hg hsame

/-- If only terms with the same rules are merged, then the survivor of a term generates what the
term generated. -/
theorem generates_survivor (hg : g.WellFormed) (hsame : g.MergesSameRules) {names : List String} :
  g.mergeDuplicates.Generates (g.survivor t) names ↔ g.Generates t names
  := by
  have htoken : g.mergeDuplicates.tokenName = g.tokenName := by
    funext n
    change ((g.mergeDuplicates.tokens).name? n).getD "" = _
    rw [(tokens_start_mergeDuplicates hg).1]
    rfl
  simp only [generates_iff, derived_survivor hg hsame, htoken]

end Grammar

end CanonicalLR
