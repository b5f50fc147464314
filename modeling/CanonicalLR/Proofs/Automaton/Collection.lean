import Mathlib.Logic.Relation
import CanonicalLR.Proofs.Automaton.LeastClosure
import CanonicalLR.Proofs.Automaton.Predictions
import CanonicalLR.Proofs.Grammar.Built

/-!
# The canonical collection of item sets

The states of the automaton of an augmented grammar are the canonical collection
(`isCollection_build`): the first one is the closure of the start rule, and from each state there is
one transition on every symbol behind a dot, to the closure of the item set advanced over it.  Every
state can be reached from the first one (`reflTransGen_leads`).

No two states have the same item set (`eq_of_lookahead?_eq`).  The construction tells states apart by
their kernels, and a kernel can be told from its closure (`IsKernel.eq_of_closure_eq`): it is the part of
the closure in which the dots are not in front.
-/

namespace CanonicalLR

namespace ItemSet

variable {s : ItemSet} {d : DottedRule} {x : Symbol}

/-- In an advanced item set the dots are not in front. -/
theorem dot_ne_zero_of_mem_advance (h : d ∈ (s.advance x).cores) :
  d.dot ≠ 0
  := by
  obtain ⟨e, he, rfl⟩ := List.mem_map.mp h
  obtain ⟨d', -, hd, -⟩ := Proper.mem_advance.mp he
  rw [hd]
  apply Nat.succ_ne_zero

/-- The advanced item set has cores if the symbol is behind a dot. -/
theorem exists_mem_advance (h : x ∈ s.nextSymbols) :
  ∃ d, d ∈ (s.advance x).cores
  := by
  obtain ⟨d, hd, hx⟩ := Automaton.mem_nextSymbols.mp h
  obtain ⟨⟨d, lookahead⟩, he, rfl⟩ := List.mem_map.mp hd
  use DottedRule.advance d
  have hmem : ⟨DottedRule.advance d, lookahead⟩ ∈ (s.advance x).entries :=
    Proper.mem_advance.mpr ⟨d, hx, rfl, he⟩
  apply List.mem_map_of_mem hmem

end ItemSet

namespace Automaton

open ItemSet

/-- A transition leads from the one state to the other. -/
def Leads (m : Automaton) (id id' : StateId) : Prop :=
  ∃ state, m.states[id]? = some state ∧ ∃ t ∈ state.transitions, t.target = id'

/-- The item set `s` is the closure of the item set `kernel` that is computed, and it is the least
closed item set that `kernel` is within. -/
def Closes (g : Grammar) (kernel s : ItemSet) : Prop :=
  s = kernel.closure g g.analyze ∧ IsClosureOf g g.analyze kernel s

/-- The states are the canonical collection of item sets: that of the start rule and those that are
reached from it, each of them once. -/
structure IsCollection (g : AugmentedGrammar) (m : Automaton) : Prop where
  first : ∃ first, m.states[0]? = some first ∧
    Closes g.grammar ⟨[⟨.initial g.startRule, .singleton g.eof⟩]⟩ first.items
  distinct : ∀ (id id' : StateId) (s s' : State), m.states[id]? = some s → m.states[id']? = some s' →
    (∀ d, s.items.lookahead? d = s'.items.lookahead? d) → id = id'
  reached : ∀ id < m.states.length, Relation.ReflTransGen m.Leads 0 id
  symbols : ∀ s ∈ m.states, ∀ x,
    (∃ target, ⟨x, target⟩ ∈ s.transitions) ↔ (∃ d ∈ s.items.cores, d.next? = some x) ∧ x ≠ .token g.eof
  nodup : ∀ s ∈ m.states, (s.transitions.map (·.symbol)).Nodup
  target : ∀ s ∈ m.states, ∀ t ∈ s.transitions, ∃ next, m.states[t.target]? = some next ∧
    Closes g.grammar (s.items.advance t.symbol) next.items
  accepts : ∀ s ∈ m.states,
    s.accepts = true ↔ ∃ d ∈ s.items.cores, d.next? = some (.token g.eof)

variable {g : AugmentedGrammar} {state state' : State} {id id' : StateId}

/-! ### Kernels of states -/

/-- The kernels behind the first one are advanced item sets of states. -/
theorem Building.Sound.exists_advance {b : Building} (h : b.Sound g) {kernel : ItemSet}
    (hk : b.kernels[id]? = some kernel) (hne : id ≠ 0) :
  ∃ s : State, ∃ x ∈ s.items.nextSymbols, kernel = s.items.advance x
  := by
  obtain ⟨origin, s, -, hs, t, ht, rfl⟩ :=
    h.reached id (List.getElem?_eq_some_iff.mp hk).1 hne
  obtain ⟨_, -, hstate⟩ := h.states origin s hs
  have hsymbol := List.mem_map_of_mem (f := (·.symbol)) ht
  rw [hstate.map_symbol] at hsymbol
  use s, t.symbol, List.mem_of_mem_filter hsymbol
  apply Option.some.inj (hk.symm.trans (hstate.target t ht))

/-- The item set is the one to begin with, or it has cores and in none of them the dot is in front. -/
structure IsKernel (g : AugmentedGrammar) (kernel : ItemSet) : Prop where
  proper : kernel.Proper g.grammar
  initial_or : kernel = initialKernel g ∨
    (∃ d, d ∈ kernel.cores) ∧ ∀ d ∈ kernel.cores, d.dot ≠ 0

theorem isKernel_initialKernel (hg : g.WellFormed) :
  IsKernel g (initialKernel g)
  := by
  use proper_initialKernel hg
  left
  rfl

/-- An item set advanced over a symbol behind a dot is a kernel. -/
theorem isKernel_advance {s : ItemSet} {x : Symbol} (h : (s.advance x).Proper g.grammar)
    (hx : x ∈ s.nextSymbols) :
  IsKernel g (s.advance x)
  := by
  use h
  right
  use exists_mem_advance hx
  intro d
  apply dot_ne_zero_of_mem_advance

/-- What the construction finds are kernels. -/
theorem Building.Sound.isKernel {b : Building} (h : b.Sound g) {kernel : ItemSet}
    (hk : kernel ∈ b.kernels) :
  IsKernel g kernel
  := by
  obtain ⟨id, hid⟩ := List.mem_iff_getElem?.mp hk
  by_cases hzero : id = 0
  · subst hzero
    use h.proper kernel hk
    left
    apply Option.some.inj (hid.symm.trans h.head)
  · obtain ⟨s, x, hx, rfl⟩ := h.exists_advance hid hzero
    apply isKernel_advance (h.proper _ hk) hx

/-- There is a core with the dot not in front in the closure of every kernel but that to begin with. -/
theorem IsKernel.eq_initialKernel (hg : g.WellFormed) {kernel : ItemSet} (h : IsKernel g kernel)
    (hdot : ∀ d ∈ (kernel.closure g.grammar g.grammar.analyze).cores, d.dot = 0) :
  kernel = initialKernel g
  := by
  apply h.initial_or.resolve_right
  rintro ⟨⟨d, hd⟩, hne⟩
  apply hne d hd
  apply hdot
  apply (within_closure hg.grammar (known_analyze hg) h.proper).mem_cores hd

/-- Kernels with the same closure are the same. -/
theorem IsKernel.eq_of_closure_eq (hg : g.WellFormed) {kernel kernel' : ItemSet}
    (h : IsKernel g kernel) (h' : IsKernel g kernel')
    (heq : kernel.closure g.grammar g.grammar.analyze = kernel'.closure g.grammar g.grammar.analyze) :
  kernel = kernel'
  := by
  rcases h.initial_or with rfl | ⟨-, hdot⟩
  · apply (h'.eq_initialKernel hg _).symm
    rw [← heq]
    apply dot_eq_zero_of_mem_closure_initialKernel hg
  rcases h'.initial_or with rfl | ⟨-, hdot'⟩
  · apply h.eq_initialKernel hg
    rw [heq]
    apply dot_eq_zero_of_mem_closure_initialKernel hg
  -- Both kernels are what the closure has to say about dots that are not in front.
  apply h.proper.ext h'.proper
  intro d
  by_cases hd : d.dot = 0
  · have hnone {s : ItemSet} (hs : ∀ d ∈ s.cores, d.dot ≠ 0) : s.lookahead? d = none := by
      rw [Option.eq_none_iff_forall_ne_some]
      intro lookahead hl
      apply hs d (mem_cores_iff.mpr ⟨lookahead, hl⟩) hd
    rw [hnone hdot, hnone hdot']
  · rw [← lookahead?_closure hg.grammar (known_analyze hg) h.proper hd, heq,
      lookahead?_closure hg.grammar (known_analyze hg) h'.proper hd]

/-- States with the same lookaheads are the same state. -/
theorem eq_of_lookahead?_eq (hg : g.WellFormed) (hs : (build g).states[id]? = some state)
    (hs' : (build g).states[id']? = some state')
    (h : ∀ d, state.items.lookahead? d = state'.items.lookahead? d) :
  id = id'
  := by
  obtain ⟨kernels, hsound, -⟩ := exists_kernels hg
  obtain ⟨kernel, hk, hstate⟩ := hsound.states id state hs
  obtain ⟨kernel', hk', hstate'⟩ := hsound.states id' state' hs'
  have hitems : state.items = state'.items := by
    apply (proper_items hg (List.mem_of_getElem? hs)).ext (proper_items hg (List.mem_of_getElem? hs')) h
  have heq : kernel = kernel' := by
    apply (hsound.isKernel (List.mem_of_getElem? hk)).eq_of_closure_eq hg
      (hsound.isKernel (List.mem_of_getElem? hk'))
    rw [← hstate.items_eq, ← hstate'.items_eq, hitems]
  apply (List.getElem?_inj (List.getElem?_eq_some_iff.mp hk).1 hsound.nodup).mp
  rw [hk, hk', heq]

/-! ### The collection -/

/-- Each state can be reached from the first one. -/
theorem reflTransGen_leads (hg : g.WellFormed) (hid : id < (build g).states.length) :
  Relation.ReflTransGen (build g).Leads 0 id
  := by
  obtain ⟨kernels, hsound, hlength⟩ := exists_kernels hg
  induction id using Nat.strong_induction_on with
  | h id ih =>
    rcases Nat.eq_zero_or_pos id with rfl | hpos
    · apply Relation.ReflTransGen.refl
    · obtain ⟨origin, s, horigin, hs, ht⟩ :=
        hsound.reached id (hlength ▸ hid) (Nat.pos_iff_ne_zero.mp hpos)
      apply (ih origin horigin (Nat.lt_trans horigin hid)).tail
      use s, hs

/-- Of the values of a list each is left once. -/
theorem nodup_eraseDups {α : Type} [DecidableEq α] :
  ∀ as : List α, as.eraseDups.Nodup
  | [] => List.nodup_nil
  | a :: as => by
    rw [List.eraseDups_cons, List.nodup_cons]
    constructor
    · rw [List.mem_eraseDups]
      simp
    · apply nodup_eraseDups
  termination_by as => as.length
  decreasing_by apply Nat.lt_succ_of_le (List.length_filter_le _ _)

/-- No two transitions of a state are on the same symbol. -/
theorem nodup_symbols (hg : g.WellFormed) (hs : state ∈ (build g).states) :
  (state.transitions.map (·.symbol)).Nodup
  := by
  obtain ⟨kernels, kernel, -, hstate⟩ := exists_kernel hg hs
  rw [hstate.map_symbol]
  apply (nodup_eraseDups _).filter

/-- The states of the automaton that is built are the canonical collection. -/
theorem isCollection_build {h : Grammar} (hh : h.Built) (ha : h.augment = .ok g) :
  IsCollection g (build g)
  := by
  have hg : g.WellFormed := (hh.wellFormed.augment ha).1
  have hclosure : ∀ {kernel : ItemSet}, kernel.Proper g.grammar →
      Closes g.grammar kernel (kernel.closure g.grammar g.grammar.analyze) := by
    intro kernel hproper
    constructor
    · rfl
    · apply isClosureOf_closure hg.grammar (known_analyze hg) hproper
  constructor
  · obtain ⟨first, hfirst, hitems⟩ := exists_first hg
    use first, hfirst
    rw [hitems]
    apply hclosure (proper_initialKernel hg)
  · intro id id' s s' hs hs' hl
    apply eq_of_lookahead?_eq hg hs hs' hl
  · intro id hid
    apply reflTransGen_leads hg hid
  · intro s hs x
    rw [exists_transition_iff hg hs, mem_nextSymbols]
  · intro s hs
    apply nodup_symbols hg hs
  · intro s hs t ht
    obtain ⟨next, hnext, hitems⟩ := exists_target hg hs ht
    use next, hnext
    rw [hitems]
    apply hclosure (proper_items hg hs).advance
  · intro s hs
    rw [accepts_iff hg hs, mem_nextSymbols]

/-- A grammar of lists, in which a state is reached on two ways. -/
def lists : Grammar :=
  ((Grammar.ofProductions "L" [⟨"L", [⟨.token, "["⟩, ⟨.term, "T"⟩, ⟨.token, "]"⟩]⟩, ⟨"T", []⟩,
    ⟨"T", [⟨.term, "L"⟩, ⟨.term, "T"⟩]⟩]).toOption).getD .empty

/-- The states of the automaton of the grammar of lists are its canonical collection. -/
theorem isCollection_build_lists :
  ∃ a, lists.augment = .ok a ∧ IsCollection a (build a)
  := by
  have hsome : lists.augment.toOption.isSome = true := by decide +kernel
  obtain ⟨a, ha⟩ := Option.isSome_iff_exists.mp hsome
  have ha := Grammar.eq_ok_of_toOption_eq_some ha
  use a, ha
  apply isCollection_build Grammar.built_getD_ofProductions ha

end Automaton

end CanonicalLR
