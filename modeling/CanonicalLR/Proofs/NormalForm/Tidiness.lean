import CanonicalLR.Proofs.Grammar.Built
import CanonicalLR.Proofs.Grammar.Diagnosis

/-!
# Normal forms are tidy

Rules are tidy once they were tidied (`tidy_tidyRules`), and to tidy them again changes nothing
(`Tidy.tidyRules_eq`).  The rules are tidied after every merge and after every step of the
elimination, and when symbols are removed, the rules that are left are as tidy as before; so a normal
form is tidy (`Tidy.normalize`).  As what cannot be reached is removed at the end, nothing is found
in the normal form of a grammar with a start term (`diagnose_normalize`).
-/

namespace CanonicalLR.Grammar

variable {g g' n : Grammar} {merge : Bool} {start : TermId} {s : Symbol}

/-! ### Tidied rules -/

/-- Of the values that are left none repeats an earlier one. -/
theorem eraseDupsBy_pairwise {α : Type} (same : α → α → Bool) :
  ∀ as : List α, (as.eraseDupsBy same).Pairwise fun a b => ¬ same b a
  | [] => .nil
  | a :: as => by
    rw [List.eraseDupsBy_cons]
    apply List.pairwise_cons.mpr ⟨fun b hb => ?_, eraseDupsBy_pairwise same _⟩
    have hleft := (eraseDupsBy_sublist same _).subset hb
    simpa using (List.mem_filter.mp hleft).2
  termination_by as => as.length
  decreasing_by apply Nat.lt_succ_of_le (List.length_filter_le _ _)

/-- If no value repeats an earlier one, all of them are left. -/
theorem eraseDupsBy_eq_self {α : Type} (same : α → α → Bool) {as : List α}
    (h : as.Pairwise fun a b => ¬ same b a) :
  as.eraseDupsBy same = as
  := by
  induction as with
  | nil => rfl
  | cons a as ih =>
    obtain ⟨ha, has⟩ := List.pairwise_cons.mp h
    have hall : as.filter (fun b => same b a = false) = as :=
      List.filter_eq_self.mpr fun b hb => by simpa using ha b hb
    rw [List.eraseDupsBy_cons, hall, ih has]

/-- Rules that say the same are the same when their fingerprints are compared first. -/
theorem sameMarked_iff {r s : Rule} :
  (fingerprint r == fingerprint s && r.same s) = true ↔ s.same r = true
  := by
  rw [Rule.same_iff, Bool.and_eq_true, Rule.same_iff, beq_iff_eq]
  constructor
  · rintro ⟨-, howner, hitems⟩
    use howner.symm, hitems.symm
  · rintro ⟨howner, hitems⟩
    refine ⟨?_, howner.symm, hitems.symm⟩
    rw [fingerprint, fingerprint, howner, hitems]

/-- No two of the rules that are left say the same. -/
theorem distinctRules_pairwise (rules : List Rule) :
  (distinctRules rules).Pairwise fun r s => ¬ r.same s
  := by
  have hmarked : ∀ m ∈ rules.map (fun r => (fingerprint r, r)), m.1 = fingerprint m.2 := by
    simp
  apply List.pairwise_map.mpr
  apply (eraseDupsBy_pairwise _ _).imp_of_mem
  intro m m' hm hm' hdistinct
  have h := hmarked m ((eraseDupsBy_sublist _ _).subset hm)
  have h' := hmarked m' ((eraseDupsBy_sublist _ _).subset hm')
  rwa [h, h', sameMarked_iff] at hdistinct

/-- Rules are tidy once they were tidied. -/
theorem tidy_tidyRules (g : Grammar) :
  g.tidyRules.Tidy
  := by
  constructor
  · apply distinctRules_pairwise
  · intro r hr
    have hleft := (distinctRules_sublist _).subset hr
    simpa using (List.mem_filter.mp hleft).2

namespace Tidy

/-- To tidy the rules of a tidy grammar changes nothing. -/
theorem tidyRules_eq (h : g.Tidy) :
  g.tidyRules = g
  := by
  have hproductive : g.removeNonproductiveRules = g := by
    have : g.rules.filter (fun r => !r.isNonproductive) = g.rules :=
      List.filter_eq_self.mpr fun r hr => by simpa using h.productive r hr
    rw [removeNonproductiveRules, removeRules, this]
  have hdistinct : distinctRules g.rules = g.rules := by
    rw [distinctRules, eraseDupsBy_eq_self, List.map_map]
    · apply List.map_id
    · apply List.pairwise_map.mpr
      apply h.distinct.imp
      intro r s hrs
      rwa [sameMarked_iff]
  rw [Grammar.tidyRules, hproductive, removeDuplicateRules, hdistinct]

/-- A grammar stays tidy when rules are left out. -/
theorem of_sublist (h : g.Tidy) (hs : g'.rules.Sublist g.rules) :
  g'.Tidy
  := ⟨h.distinct.sublist hs, fun r hr => h.productive r (hs.subset hr)⟩

theorem mergeIf (h : g.Tidy) (merge : Bool) :
  (g.mergeIf merge).Tidy
  := by
  rw [Grammar.mergeIf]
  split
  · apply exhaust_induction _ _ h
    intro h h' _ hstep
    rw [mergeStep_eq] at hstep
    obtain ⟨_, -, rfl⟩ := Option.map_eq_some_iff.mp hstep
    apply tidy_tidyRules
  · apply h

theorem eliminate (h : g.Tidy) {steps : Nat} (hg' : g.eliminate steps = .ok g') :
  g'.Tidy
  := (eliminate_induction (fun _ _ _ g' _ _ _ => tidy_tidyRules g') h hg').1

theorem removeUnreachable (h : g.Tidy) :
  g.removeUnreachable.Tidy
  := by
  rw [Grammar.removeUnreachable]
  split
  · apply h
  · apply h.of_sublist
    rw [rules_removeSymbols]
    apply List.filter_sublist

end Tidy

/-- A grammar in normal form is tidy. -/
theorem tidy_normalize (hn : g.normalize merge = .ok n) :
  n.Tidy
  := by
  obtain ⟨e, he, rfl⟩ := exists_of_map_eq_ok hn
  apply ((((tidy_tidyRules g).mergeIf merge).eliminate he).mergeIf merge).removeUnreachable

/-! ### Reachable symbols -/

section removeUnreachable

variable (hg : g.WellFormed) (hs : g.start = some start)

include hg hs

/-- What can be reached can still be reached when the other symbols are gone. -/
theorem reaches_removeUnreachable (h : Reaches g start s) :
  Reaches g.removeUnreachable start s
  := by
  induction h with
  | start => exact .start
  | step hreach hr hitem ih =>
    obtain ⟨hmem, rfl⟩ := mem_rulesOf.mp hr
    apply Reaches.step ih _ hitem
    apply mem_rulesOf.mpr ⟨(mem_rules_removeUnreachable hg hs).mpr ⟨hmem, hreach⟩, rfl⟩

/-- Once the unreachable symbols are removed, every member but the error token can be reached. -/
theorem reaches_of_contains_removeUnreachable (hleft : g.removeUnreachable.contains s)
    (herror : g.removeUnreachable.isErrorToken s = false) :
  Reaches g.removeUnreachable start s
  := by
  apply reaches_removeUnreachable hg hs
  have hspared : g.isErrorToken s = false := by
    rw [← herror]
    simp only [isErrorToken, error_removeUnreachable]
  rw [removeUnreachable, hs] at hleft
  obtain ⟨hmember, hnot⟩ := contains_removeSymbols.mp hleft
  rw [mem_unreachable_iff] at hnot
  by_contra hreach
  apply hnot ⟨hmember, hspared, hreach⟩

end removeUnreachable

/-- Bringing into normal form keeps the start term. -/
theorem start_normalize (hg : g.WellFormed) (hn : g.normalize merge = .ok n) :
  n.start = g.start
  := by
  obtain ⟨e, he, rfl⟩ := exists_of_map_eq_ok hn
  have hmerge {h : Grammar} (hh : h.WellFormed) : (h.mergeIf merge).start = h.start := by
    rw [mergeIf]
    split
    · apply (tokens_start_mergeDuplicates hh).2
    · rfl
  have hkeeps := keeps_eliminate (hg.tidyRules.mergeIf merge) he
  rw [start_removeUnreachable, hmerge hkeeps.wellFormed, hkeeps.start_eq, hmerge hg.tidyRules]
  rfl

theorem error_mergeIf (merge : Bool) (g : Grammar) :
  (g.mergeIf merge).error = g.error
  := by
  rw [mergeIf]
  split
  · refine exhaust_induction (motive := fun h : Grammar => h.error = g.error) ?_ g.terms.size rfl
    intro h h' hh hstep
    rw [mergeStep_eq] at hstep
    obtain ⟨_, -, rfl⟩ := Option.map_eq_some_iff.mp hstep
    apply hh
  · rfl

theorem error_eliminationStep {a : Analysis} {head : TermId} (h : g.eliminationStep a head = some g') :
  g'.error = g.error
  := by
  rcases eliminationStep_cases h with hsplit | ⟨-, rfl⟩
  · obtain ⟨-, tail, -, rfl⟩ := exists_of_splitHead_eq_some hsplit
    rw [error_replaceRules, error_replaceRules, freshTail, error_intern]
  · apply error_replaceRules

/-- Bringing into normal form keeps the error token. -/
theorem error_normalize (hn : g.normalize merge = .ok n) :
  n.error = g.error
  := by
  obtain ⟨e, he, rfl⟩ := exists_of_map_eq_ok hn
  rw [error_removeUnreachable, error_mergeIf]
  refine (eliminate_induction (motive := fun h : Grammar => h.error = g.error) ?_ ?_ he).1
  · intro h head path h' hh _ hstep
    apply (error_eliminationStep hstep).trans hh
  · apply error_mergeIf

/-! ### Diagnosis of normal forms -/

/-- Nothing is found in the normal form of a grammar that has a start term: the start term and the
error token are members, no rule repeats another one or lets a term stand for itself, and every
symbol but the error token is reachable from the start term. -/
theorem diagnose_normalize (hg : g.Built) (hs : g.start = some start)
    (hn : g.normalize merge = .ok n) :
  n.diagnose = [] ∧ n.start = some start ∧ n.contains (.term start) = true ∧
    (∀ t ∈ n.error, n.contains (.token t)) ∧ (n.rules.Pairwise fun r s => ¬ r.same s) ∧
    (∀ r ∈ n.rules, ¬ r.isNonproductive) ∧
    ∀ s, n.contains s = true → n.isErrorToken s = false → Reaches n start s
  := by
  have hwell := hg.wellFormed.normalize hn
  have hstart := (start_normalize hg.wellFormed hn).trans hs
  have htidy := tidy_normalize hn
  have hreach : ∀ s, n.contains s = true → n.isErrorToken s = false → Reaches n start s := by
    obtain ⟨e, he, rfl⟩ := exists_of_map_eq_ok hn
    have he := (keeps_eliminate (hg.wellFormed.tidyRules.mergeIf merge) he).wellFormed.mergeIf merge
    intro s
    apply reaches_of_contains_removeUnreachable he (start_removeUnreachable.symm.trans hstart)
  refine ⟨?_, hstart, hwell.start_mem start hstart, hwell.error_mem, htidy.distinct, htidy.productive,
    hreach⟩
  apply (diagnose_eq_nil_iff hwell).mpr ⟨start, hstart, htidy, hreach⟩

/-- A grammar in which a rule is repeated, a term stands for itself, and symbols are unreachable. -/
def untidySums : Grammar :=
  ((ofProductions "E" [⟨"E", [⟨.term, "E"⟩, ⟨.token, "+"⟩, ⟨.token, "n"⟩]⟩, ⟨"E", [⟨.term, "E"⟩]⟩,
    ⟨"E", [⟨.token, "n"⟩]⟩, ⟨"E", [⟨.token, "n"⟩]⟩,
    ⟨"U", [⟨.token, "u"⟩, ⟨.prompt, "p"⟩]⟩]).toOption).getD empty

theorem built_untidySums :
  untidySums.Built
  := built_getD_ofProductions

/-- There is much to be found in the grammar, and nothing in its normal form. -/
theorem diagnose_normalize_untidySums :
  untidySums.diagnose ≠ [] ∧ untidySums.start = some 0 ∧
    ∃ n, untidySums.normalize true = .ok n ∧ n.diagnose = [] ∧ n.rules ≠ []
  := by
  have hn : untidySums.normalize true =
      .ok (((untidySums.normalize true).toOption).getD empty) := by decide +kernel
  have hstart : untidySums.start = some 0 := by decide +kernel
  refine ⟨by decide +kernel, hstart, _, hn, ?_, by decide +kernel⟩
  apply (diagnose_normalize built_untidySums hstart hn).1

end CanonicalLR.Grammar
