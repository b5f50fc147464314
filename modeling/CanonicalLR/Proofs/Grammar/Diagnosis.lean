import CanonicalLR.Grammar.Diagnosis
import CanonicalLR.Proofs.NormalForm.Tidying

/-!
# When nothing is found

A grammar is *tidy* (`Grammar.Tidy`) if none of its rules repeats another one and none lets a term
stand for itself.  Nothing is found in a well-formed grammar exactly if it has a start term, is tidy,
and every symbol but the error token is reachable from the start term (`diagnose_eq_nil_iff`).
-/

namespace CanonicalLR.Grammar

variable {g : Grammar} {start : TermId} {rules earlier : List Rule}

/-- No rule repeats another one, and no rule lets a term stand for itself alone. -/
structure Tidy (g : Grammar) : Prop where
  distinct : g.rules.Pairwise fun r s => ¬ r.same s
  productive : ∀ r ∈ g.rules, ¬ r.isNonproductive

theorem Rule.same_iff {r s : Rule} :
  r.same s = true ↔ r.owner = s.owner ∧ r.items = s.items
  := by
  simp [Rule.same]

/-! ### The rules of a term -/

/-- Nothing is found in rules exactly if each of them is different from those before it and does not
let a term stand for itself. -/
theorem diagnoseRules_eq_nil_iff :
  g.diagnoseRules earlier rules = [] ↔
    (∀ r ∈ rules, (∀ e ∈ earlier, ¬ e.same r) ∧ ¬ r.isNonproductive) ∧
      rules.Pairwise fun r s => ¬ r.same s
  := by
  induction rules generalizing earlier with
  | nil => simp [diagnoseRules]
  | cons r rules ih =>
    have hduplicate : (if earlier.any fun prior => prior.same r then
        [Diagnostic.duplicateRule (g.production r)] else []) = [] ↔ ∀ e ∈ earlier, ¬ e.same r := by
      simp
    have hnonproductive : (if r.isNonproductive then
        [Diagnostic.nonproductiveRule (g.production r)] else []) = [] ↔ ¬ r.isNonproductive := by
      simp
    rw [diagnoseRules, List.append_eq_nil_iff, List.append_eq_nil_iff, ih, hduplicate,
      hnonproductive, List.pairwise_cons]
    simp only [List.mem_append, List.mem_cons, List.not_mem_nil, or_false]
    constructor
    · rintro ⟨⟨hr, hn⟩, hrules, hdistinct⟩
      refine ⟨?_, fun s hs => (hrules s hs).1 r (.inr rfl), hdistinct⟩
      rintro s (rfl | hs)
      · use hr, hn
      · use fun e he => (hrules s hs).1 e (.inl he), (hrules s hs).2
    · rintro ⟨hrules, hfirst, hdistinct⟩
      refine ⟨hrules r (.inl rfl), fun s hs => ⟨?_, (hrules s (.inr hs)).2⟩, hdistinct⟩
      rintro e (he | rfl)
      · apply (hrules s (.inr hs)).1 e he
      · apply hfirst s hs

/-- Nothing is found in the rules of any term exactly if the grammar is tidy. -/
theorem diagnoseRules_rulesOf_iff (hg : g.WellFormed) :
  (∀ t ∈ g.terms.ids, g.diagnoseRules [] (g.rulesOf t) = []) ↔ g.Tidy
  := by
  simp only [diagnoseRules_eq_nil_iff]
  constructor
  · intro h
    have howner {r : Rule} (hr : r ∈ g.rules) := h r.owner (contains_iff.mp (hg.owner_mem r hr))
    constructor
    · apply List.pairwise_iff_forall_sublist.mpr
      intro r s hsub hsame
      have hr : r ∈ g.rules := hsub.subset List.mem_cons_self
      apply List.pairwise_iff_forall_sublist.mp (howner hr).2 _ hsame
      have := hsub.filter fun x => x.owner == r.owner
      simpa [rulesOf, (Rule.same_iff.mp hsame).1] using this
    · intro r hr
      apply ((howner hr).1 r (mem_rulesOf.mpr ⟨hr, rfl⟩)).2
  · intro h t _
    refine ⟨fun r hr => ⟨by simp, ?_⟩, h.distinct.sublist List.filter_sublist⟩
    apply h.productive r (mem_rulesOf.mp hr).1

/-! ### The whole grammar -/

/-- Names of terms are not repeated. -/
theorem WellFormed.diagnoseNames_eq_nil (hg : g.WellFormed) :
  g.diagnoseNames = []
  := by
  rw [diagnoseNames, List.filterMap_eq_nil_iff]
  intro name _
  have := List.nodup_iff_count_le_one.mp (hg.proper .term).names_nodup name
  simp only [ite_eq_right_iff, reduceCtorEq, imp_false]
  apply Nat.not_lt.mpr this

theorem WellFormed.diagnoseError_eq_nil (hg : g.WellFormed) :
  g.diagnoseError = []
  := by
  rw [diagnoseError]
  split
  · rfl
  · next t ht => rw [if_pos (hg.error_mem t ht)]

/-- There is nothing unreachable exactly if every member but the error token can be reached. -/
theorem unreachable_eq_nil_iff :
  g.unreachable start = [] ↔
    ∀ s, g.contains s = true → g.isErrorToken s = false → Reaches g start s
  := by
  rw [List.eq_nil_iff_forall_not_mem]
  simp only [mem_unreachable_iff, not_and, not_not]

/-- If there is a start term, then the findings are those about rules, and then those about unreachable
members. -/
theorem WellFormed.diagnose_eq (hg : g.WellFormed) (hs : g.start = some start) :
  g.diagnose = (g.terms.ids.flatMap fun t => g.diagnoseRules [] (g.rulesOf t)) ++
    (g.unreachable start).map fun s => .unreachable (g.label s)
  := by
  have hmember := hg.start_mem start hs
  have hempty : g.isEmpty = false := by
    obtain ⟨name, hm⟩ := SymbolTable.mem_ids_iff.mp (contains_iff.mp hmember)
    have hne : g.terms.entries ≠ [] := List.ne_nil_of_mem hm
    simpa [isEmpty] using hne
  have hstart : g.diagnoseStart = [] := by simp [diagnoseStart, hs, hmember]
  have hmemberStart : g.memberStart? = some start := by
    simp [memberStart?, hs, Option.filter, hmember]
  simp only [diagnose, hempty, Bool.false_eq_true, if_false, hstart, hg.diagnoseError_eq_nil,
    hg.diagnoseNames_eq_nil, hmemberStart, List.nil_append]

/-- Nothing is found in a grammar exactly if it has a start term, its rules are tidy, and every
symbol but the error token can be reached from the start term. -/
theorem diagnose_eq_nil_iff (hg : g.WellFormed) :
  g.diagnose = [] ↔ ∃ start, g.start = some start ∧ g.Tidy ∧
    ∀ s, g.contains s = true → g.isErrorToken s = false → Reaches g start s
  := by
  cases hs : g.start with
  | none =>
    simp only [reduceCtorEq, false_and, exists_false, iff_false]
    rw [diagnose]
    split
    · simp
    · simp [diagnoseStart, hs]
  | some start =>
    simp only [hg.diagnose_eq hs, List.append_eq_nil_iff, List.flatMap_eq_nil_iff,
      diagnoseRules_rulesOf_iff hg, List.map_eq_nil_iff, unreachable_eq_nil_iff, Option.some.injEq,
      exists_eq_left']

end CanonicalLR.Grammar
