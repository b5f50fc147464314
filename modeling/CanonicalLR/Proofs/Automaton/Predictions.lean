import CanonicalLR.Proofs.Automaton.LeastClosure
import CanonicalLR.Proofs.Automaton.States

/-!
# Predicted rules

A rule is *predicted* by an item set (`ItemSet.Predicted`) if its term is behind the dot of a core.
When an item set is closed, no rules are added but those that are predicted
(`exists_predicted_of_mem_closure`).  So in a state of the automaton every rule with the dot in front
is predicted, the start rule in the first state apart (`predicted_of_first`, `predicted_of_target`),
and there is one transition on its term (`exists_transition_of_predicted`, `target_unique`).
-/

namespace CanonicalLR

namespace ItemSet

variable {g : Grammar} {a : Analysis} {kernel : ItemSet} {d : DottedRule}

/-- The term of the rule is behind the dot of a core. -/
def Predicted (s : ItemSet) (r : Rule) : Prop :=
  ∃ d ∈ s.cores, d.next? = some (.term r.owner)

/-- The cores of the closure are those of the item set and rules that it predicts. -/
theorem exists_predicted_of_mem_closure (hg : g.WellFormed) (ha : Analysis.Known g a)
    (h : kernel.Proper g) (hd : d ∈ (kernel.closure g a).cores) :
  d ∈ kernel.cores ∨ ∃ r, d = .initial r ∧ (kernel.closure g a).Predicted r
  := by
  obtain ⟨lookahead, hl⟩ := mem_cores_iff.mp hd
  apply closure_induction (C := fun d _ => d ∈ kernel.cores ∨
    ∃ r, d = .initial r ∧ (kernel.closure g a).Predicted r) hg ha h _ _ _ hl
  · intro d lookahead hl
    left
    apply mem_cores_iff.mpr ⟨lookahead, hl⟩
  · intro d lookahead y after r hd _ hy hr
    right
    obtain ⟨-, rfl⟩ := Grammar.mem_rulesOf.mp hr
    use r, rfl, d, hd, (DottedRule.next?_and_rest_advance hy).1
  · intro r lookahead tokens hr _
    apply hr

end ItemSet

/-! ### The states -/

namespace Automaton

variable {g : AugmentedGrammar} {state : State} {t : Transition} {x : Symbol} {r : Rule}
  {target target' : StateId}

/-- In the first state a rule with the dot in front is the start rule or predicted. -/
theorem predicted_of_first (hg : g.WellFormed) {first : State}
    (hf : (build g).states[0]? = some first) (hr : .initial r ∈ first.items.cores) :
  r = g.startRule ∨ first.items.Predicted r
  := by
  obtain ⟨first', hf', hitems⟩ := exists_first hg
  obtain rfl := Option.some.inj (hf.symm.trans hf')
  rw [hitems] at hr ⊢
  rcases ItemSet.exists_predicted_of_mem_closure hg.grammar (known_analyze hg)
    (proper_initialKernel hg) hr with hkernel | ⟨r', heq, hpredicted⟩
  · left
    rw [ItemSet.cores, initialKernel, List.map_singleton, List.mem_singleton] at hkernel
    apply congrArg DottedRule.rule hkernel
  · right
    cases heq
    apply hpredicted

/-- In the state that a transition leads to, a rule with the dot in front is predicted. -/
theorem predicted_of_target (hg : g.WellFormed) (hs : state ∈ (build g).states)
    (ht : t ∈ state.transitions) {next : State} (hnext : (build g).states[t.target]? = some next)
    (hr : .initial r ∈ next.items.cores) :
  next.items.Predicted r
  := by
  obtain ⟨next', hnext', hitems⟩ := exists_target hg hs ht
  obtain rfl := Option.some.inj (hnext.symm.trans hnext')
  have hproper := proper_items hg hs
  rw [hitems] at hr ⊢
  rcases ItemSet.exists_predicted_of_mem_closure hg.grammar (known_analyze hg) hproper.advance hr
    with hkernel | ⟨r', heq, hpredicted⟩
  · obtain ⟨lookahead, hl⟩ := ItemSet.mem_cores_iff.mp hkernel
    obtain ⟨d, -, heq, -⟩ := hproper.lookahead?_advance_eq_some_iff.mp hl
    cases congrArg DottedRule.dot heq
  · cases heq
    apply hpredicted

/-- The start rule is never predicted. -/
theorem not_predicted_startRule (hg : g.WellFormed) (hs : state ∈ (build g).states) :
  ¬ state.items.Predicted g.startRule
  := by
  rintro ⟨d, hd, hnext⟩
  obtain ⟨lookahead, hl⟩ := ItemSet.mem_cores_iff.mp hd
  apply hg.startTerm_not_mem d.rule ((proper_items hg hs).rule_mem_of_lookahead? hl)
  rw [← hg.owner_startRule]
  apply DottedRule.mem_items_of_mem_rest (List.mem_of_head? hnext)

/-- There is a transition on the term of a predicted rule. -/
theorem exists_transition_of_predicted (hg : g.WellFormed) (hs : state ∈ (build g).states)
    (h : state.items.Predicted r) :
  ∃ target, ⟨.term r.owner, target⟩ ∈ state.transitions
  := by
  apply (exists_transition_iff hg hs).mpr
  use mem_nextSymbols.mpr h
  rintro ⟨⟩

/-- There is no transition on the end of the input. -/
theorem symbol_ne_eof (hg : g.WellFormed) (hs : state ∈ (build g).states)
    (ht : ⟨x, target⟩ ∈ state.transitions) :
  x ≠ .token g.eof
  := ((exists_transition_iff hg hs).mp ⟨target, ht⟩).2

/-- There is at most one transition on a symbol. -/
theorem target_unique (hg : g.WellFormed) (hs : state ∈ (build g).states)
    (ht : ⟨x, target⟩ ∈ state.transitions) (ht' : ⟨x, target'⟩ ∈ state.transitions) :
  target = target'
  := by
  obtain ⟨kernels, hsound, -⟩ := exists_kernels hg
  obtain ⟨id, hid⟩ := List.mem_iff_getElem?.mp hs
  obtain ⟨_, -, hstate⟩ := hsound.states id state hid
  have htarget := hstate.target _ ht
  have htarget' := hstate.target _ ht'
  apply (List.getElem?_inj (List.getElem?_eq_some_iff.mp htarget).1 hsound.nodup).mp
  rw [htarget, htarget']

end Automaton

end CanonicalLR
