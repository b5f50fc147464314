import Mathlib.Data.Fintype.BigOperators
import Mathlib.Data.Fintype.Option
import Mathlib.Data.Set.Card
import CanonicalLR.Automaton.Basic
import CanonicalLR.Proofs.Automaton.Closure
import CanonicalLR.Proofs.Grammar.Augmented

/-!
# The states of the canonical automaton

Each state of the canonical automaton is the closure of a kernel, and its transitions lead to the
closures of its item set advanced (`IsStateOf`).  The construction keeps this (`Building.Sound.step`)
and never finds a kernel twice, and there are no more proper item sets than `itemSetBound` says
(`length_le_itemSetBound`), so it ends when each kernel has become a state (`exists_kernels`).
-/

namespace CanonicalLR.Automaton

open ItemSet

/-! ### The number of item sets -/

section count

variable {g : Grammar} {kernels : List ItemSet}

theorem mem_dottedRules {d : DottedRule} :
  d ∈ dottedRules g ↔ d.rule ∈ g.rules ∧ d.dot ≤ d.rule.arity
  := by
  obtain ⟨r, dot⟩ := d
  simp only [dottedRules, DottedRule.positions, List.mem_flatMap, List.mem_map, List.mem_range,
    DottedRule.mk.injEq, Nat.lt_succ_iff]
  constructor
  · rintro ⟨_, hr, _, hdot, rfl, rfl⟩
    use hr
  · rintro ⟨hr, hdot⟩
    use r, hr, dot

/-- What an item set tells about each dotted rule of the grammar: whether it is a core, and then
which tokens are in its lookahead. -/
def profile (g : Grammar) (s : ItemSet) :
    Fin (dottedRules g).length → Option (Fin g.tokens.ids.length → Bool) :=
  fun i => (s.lookahead? (dottedRules g)[i]).map fun lookahead j => decide (g.tokens.ids[j] ∈ lookahead)

/-- Sets of tokens of the grammar are the same if they are so as far as its tokens are concerned. -/
theorem eq_of_mem_ids {lookahead lookahead' : IndexSet}
    (h : ∀ n, n ∈ lookahead → n ∈ g.tokens.ids) (h' : ∀ n, n ∈ lookahead' → n ∈ g.tokens.ids)
    (he : ∀ j : Fin g.tokens.ids.length,
      decide (g.tokens.ids[j] ∈ lookahead) = decide (g.tokens.ids[j] ∈ lookahead')) :
  lookahead = lookahead'
  := by
  have hids : ∀ n ∈ g.tokens.ids, n ∈ lookahead ↔ n ∈ lookahead' := by
    intro n hn
    obtain ⟨j, hj, rfl⟩ := List.mem_iff_getElem.mp hn
    apply decide_eq_decide.mp (he ⟨j, hj⟩)
  apply IndexSet.ext_mem
  intro n
  constructor
  · intro hn
    apply (hids n (h n hn)).mp hn
  · intro hn
    apply (hids n (h' n hn)).mpr hn

/-- Proper item sets with the same profile are the same. -/
theorem eq_of_profile_eq {s s' : ItemSet} (h : s.Proper g) (h' : s'.Proper g)
    (hp : profile g s = profile g s') :
  s = s'
  := by
  have hcore : ∀ {s : ItemSet} {d lookahead}, s.Proper g → s.lookahead? d = some lookahead →
      d ∈ dottedRules g := by
    intro s d lookahead h hl
    apply mem_dottedRules.mpr
    use h.rule_mem_of_lookahead? hl, h.dot_le_of_lookahead? hl
  have hprofile : ∀ d ∈ dottedRules g,
      (s.lookahead? d).map (fun lookahead (j : Fin g.tokens.ids.length) =>
        decide (g.tokens.ids[j] ∈ lookahead)) =
      (s'.lookahead? d).map fun lookahead j => decide (g.tokens.ids[j] ∈ lookahead) := by
    intro d hd
    obtain ⟨i, hi, rfl⟩ := List.mem_iff_getElem.mp hd
    apply congrFun hp ⟨i, hi⟩
  apply h.ext h'
  intro d
  cases hl : s.lookahead? d with
  | none =>
    cases hl' : s'.lookahead? d with
    | none => rfl
    | some lookahead' =>
      have heq := hprofile d (hcore h' hl')
      rw [hl, hl'] at heq
      cases heq
  | some lookahead =>
    have heq := hprofile d (hcore h hl)
    rw [hl, Option.map_some, eq_comm, Option.map_eq_some_iff] at heq
    obtain ⟨lookahead', hl', heq⟩ := heq
    rw [hl']
    congr 1
    apply eq_of_mem_ids
    · intro n hn
      apply h.among.mem_ids_of_lookahead? hl hn
    · intro n hn
      apply h'.among.mem_ids_of_lookahead? hl' hn
    · intro j
      apply (congrFun heq j).symm

/-- There are as many profiles as the bound says. -/
theorem card_profile (g : Grammar) :
  Fintype.card (Fin (dottedRules g).length → Option (Fin g.tokens.ids.length → Bool)) = itemSetBound g
  := by
  simp [itemSetBound, SymbolTable.size, SymbolTable.ids]

/-- There are no more proper item sets than the bound says. -/
theorem length_le_itemSetBound (hnodup : kernels.Nodup) (h : ∀ s ∈ kernels, s.Proper g) :
  kernels.length ≤ itemSetBound g
  := by
  have hnodup' : (kernels.map (profile g)).Nodup := by
    apply List.Nodup.map_on _ hnodup
    intro s hs s' hs' hp
    apply eq_of_profile_eq (h s hs) (h s' hs') hp
  have hle := hnodup'.length_le_card
  rwa [List.length_map, card_profile] at hle

/-- There are finitely many proper item sets, and no more than the bound says. -/
theorem finite_and_ncard_le_itemSetBound (g : Grammar) :
  {s : ItemSet | s.Proper g}.Finite ∧ {s : ItemSet | s.Proper g}.ncard ≤ itemSetBound g
  := by
  have hinj : Set.InjOn (profile g) {s | s.Proper g} := by
    intro s hs s' hs'
    apply eq_of_profile_eq hs hs'
  constructor
  · apply Set.Finite.of_finite_image (Set.toFinite _) hinj
  · rw [← hinj.ncard_image, ← card_profile, ← Nat.card_eq_fintype_card]
    apply Set.ncard_le_card

end count

/-! ### The construction -/

section construction

variable {g : AugmentedGrammar} {s : ItemSet} {kernels kernels' : List ItemSet}

/-- What stands at a place of a list stands there when the list grows. -/
theorem getElem?_of_grown {α : Type} {xs ys : List α} (h : xs <+: ys) {i : Nat} {x : α}
    (hx : xs[i]? = some x) :
  ys[i]? = some x
  := by
  obtain ⟨zs, rfl⟩ := h
  rw [List.getElem?_append_left (List.getElem?_eq_some_iff.mp hx).1, hx]

/-- The state is the closure of the kernel, and its transitions lead to the kernels of its item set
advanced. -/
structure IsStateOf (g : AugmentedGrammar) (kernels : List ItemSet) (kernel : ItemSet)
    (state : State) : Prop where
  items_eq : state.items = kernel.closure g.grammar g.grammar.analyze
  map_symbol : state.transitions.map (·.symbol) =
    state.items.nextSymbols.filter fun x => x ≠ .token g.eof
  target : ∀ t ∈ state.transitions, kernels[t.target]? = some (state.items.advance t.symbol)
  accepts_iff : state.accepts = true ↔ .token g.eof ∈ state.items.nextSymbols

/-- A state of a kernel is still that when further kernels are found. -/
theorem IsStateOf.mono {kernel : ItemSet} {state : State} (h : IsStateOf g kernels kernel state)
    (hk : kernels <+: kernels') :
  IsStateOf g kernels' kernel state
  := by
  use h.items_eq, h.map_symbol
  · intro t ht
    apply getElem?_of_grown hk (h.target t ht)
  · apply h.accepts_iff

/-- The kernel has its number in the list, to which it is added if it is new. -/
theorem number_spec {id : StateId} (hnodup : kernels.Nodup)
    (h : number kernels s = (id, kernels')) :
  kernels <+: kernels' ∧ kernels'.Nodup ∧ kernels'[id]? = some s ∧
    ∀ kernel ∈ kernels', kernel ∈ kernels ∨ kernel = s
  := by
  rw [number] at h
  split at h
  · next hs =>
    cases h
    use List.prefix_rfl, hnodup, List.getElem?_idxOf hs
    intro kernel
    apply Or.inl
  · next hs =>
    cases h
    use List.prefix_append _ _
    constructor
    · apply hnodup.append (List.nodup_singleton s)
      simpa using hs
    · simp

/-- The transitions lead to the kernels of the advanced item sets, which are added if they are
new. -/
theorem connect_spec {symbols : List Symbol} {transitions : List Transition}
    (hnodup : kernels.Nodup) (h : connect s symbols kernels = (transitions, kernels')) :
  kernels <+: kernels' ∧ kernels'.Nodup ∧ transitions.map (·.symbol) = symbols ∧
    (∀ t ∈ transitions, kernels'[t.target]? = some (s.advance t.symbol)) ∧
    ∀ kernel ∈ kernels', kernel ∈ kernels ∨ ∃ x ∈ symbols, kernel = s.advance x
  := by
  induction symbols generalizing kernels transitions with
  | nil =>
    cases h
    use List.prefix_rfl, hnodup, rfl
    simp
  | cons x symbols ih =>
    cases hnumber : number kernels (s.advance x) with
    | mk id kernels₁ =>
      cases hconnect : connect s symbols kernels₁ with
      | mk rest kernels₂ =>
        rw [connect, hnumber] at h
        simp only [hconnect] at h
        cases h
        obtain ⟨hgrown₁, hnodup₁, hid, hnew₁⟩ := number_spec hnodup hnumber
        obtain ⟨hgrown₂, hnodup₂, hsymbols, htarget, hnew₂⟩ := ih hnodup₁ hconnect
        use hgrown₁.trans hgrown₂, hnodup₂
        constructor
        · rw [List.map_cons, hsymbols]
        · constructor
          · intro t ht
            rcases List.mem_cons.mp ht with rfl | ht
            · apply getElem?_of_grown hgrown₂ hid
            · apply htarget t ht
          · intro kernel hk
            rcases hnew₂ kernel hk with hk | ⟨y, hy, rfl⟩
            · apply (hnew₁ kernel hk).imp_right
              rintro rfl
              use x, List.mem_cons_self
            · right
              use y, List.mem_cons_of_mem _ hy

/-- The construction has found kernels that are all different, and it has made states of the first
of them.  Transitions from earlier states lead to all kernels but the first. -/
structure Building.Sound (g : AugmentedGrammar) (b : Building) : Prop where
  head : b.kernels[0]? = some (initialKernel g)
  nodup : b.kernels.Nodup
  proper : ∀ kernel ∈ b.kernels, kernel.Proper g.grammar
  length_le : b.states.length ≤ b.kernels.length
  states : ∀ (id : StateId) (state : State), b.states[id]? = some state →
    ∃ kernel, b.kernels[id]? = some kernel ∧ IsStateOf g b.kernels kernel state
  reached : ∀ id < b.kernels.length, id ≠ 0 → ∃ origin state, origin < id ∧
    b.states[origin]? = some state ∧ ∃ t ∈ state.transitions, t.target = id

variable {b b' : Building}

/-- The kernel of the state in which a parser begins is proper. -/
theorem proper_initialKernel (hg : g.WellFormed) :
  (initialKernel g).Proper g.grammar
  := by
  have heof : g.eof ∈ g.grammar.tokens.ids := Grammar.contains_iff.mp hg.contains_eof
  constructor
  · simpa [initialKernel, DottedRule.initial] using hg.startRule_mem
  · simp [initialKernel, DottedRule.initial]
  · simpa [initialKernel] using heof
  · apply List.pairwise_singleton

/-- In the beginning there is one kernel and no state. -/
theorem Building.sound_initial (hg : g.WellFormed) :
  Building.Sound g ⟨[initialKernel g], []⟩
  := by
  constructor
  · rfl
  · apply List.nodup_singleton
  · intro kernel hk
    rw [List.mem_singleton.mp hk]
    apply proper_initialKernel hg
  · apply Nat.zero_le
  · intro id state hs
    cases hs
  · intro id hid hne
    apply absurd (Nat.lt_one_iff.mp hid) hne

/-- What a step does: it makes a state of the first kernel that has none, and it finds no other
kernels than those that the transitions of that state lead to. -/
theorem Building.Sound.exists_of_buildStep (h : b.Sound g)
    (hstep : buildStep g g.grammar.analyze b = some b') :
  ∃ kernel state, b.kernels[b.states.length]? = some kernel ∧ b'.states = b.states ++ [state] ∧
    IsStateOf g b'.kernels kernel state ∧ b.kernels <+: b'.kernels ∧ b'.kernels.Nodup ∧
    ∀ k ∈ b'.kernels, k ∈ b.kernels ∨ ∃ t ∈ state.transitions, k = state.items.advance t.symbol
  := by
  obtain ⟨kernel, hkernel, rfl⟩ := Option.map_eq_some_iff.mp hstep
  generalize hitems : kernel.closure g.grammar g.grammar.analyze = items
  cases hconnect : connect items
      (items.nextSymbols.filter fun x => x ≠ Symbol.token g.eof) b.kernels with
  | mk transitions kernels =>
    obtain ⟨hgrown, hnodup, hsymbols, htarget, hnew⟩ := connect_spec h.nodup hconnect
    simp only [hconnect]
    use kernel, ⟨items, transitions, items.nextSymbols.contains (.token g.eof)⟩, hkernel, rfl
    refine ⟨⟨hitems.symm, hsymbols, htarget, List.contains_iff_mem⟩, hgrown, hnodup, ?_⟩
    intro k hk
    apply (hnew k hk).imp_right
    rintro ⟨x, hx, rfl⟩
    rw [← hsymbols] at hx
    obtain ⟨t, ht, rfl⟩ := List.mem_map.mp hx
    use t, ht

/-- There is no further step when there is a state for each kernel. -/
theorem stuck_buildStep_iff {a : Analysis} :
  Stuck (buildStep g a) b ↔ b.kernels.length ≤ b.states.length
  := by
  rw [Stuck, buildStep, Option.map_eq_none_iff, List.getElem?_eq_none_iff]

/-- A step keeps what is known of the construction. -/
theorem Building.Sound.step (hg : g.WellFormed) (h : b.Sound g)
    (hstep : buildStep g g.grammar.analyze b = some b') :
  b'.Sound g ∧ b'.states.length = b.states.length + 1
  := by
  obtain ⟨kernel, state, hkernel, hstates, hstate, hgrown, hnodup, hnew⟩ :=
    h.exists_of_buildStep hstep
  have hlength : b'.states.length = b.states.length + 1 := by
    rw [hstates, List.length_append, List.length_singleton]
  have hkernel' := getElem?_of_grown hgrown hkernel
  have hproper := h.proper kernel (List.mem_of_getElem? hkernel)
  use ⟨getElem?_of_grown hgrown h.head, hnodup, ?_, ?_, ?_, ?_⟩, hlength
  · intro k hk
    rcases hnew k hk with hk | ⟨t, -, rfl⟩
    · apply h.proper k hk
    · rw [hstate.items_eq]
      apply (hproper.closure hg.grammar (Analysis.agrees_analyze hg.grammar).1).advance
  · rw [hlength]
    apply (List.getElem?_eq_some_iff.mp hkernel').1
  · intro id state' hs
    rw [hstates, List.getElem?_append] at hs
    split at hs
    · obtain ⟨k, hk, hstate'⟩ := h.states id state' hs
      use k, getElem?_of_grown hgrown hk
      apply hstate'.mono hgrown
    · next hlt =>
      rw [List.getElem?_singleton] at hs
      split at hs
      · next hid =>
        cases hs
        obtain rfl := Nat.le_antisymm (Nat.sub_eq_zero_iff_le.mp hid) (Nat.le_of_not_lt hlt)
        use kernel, hkernel'
      · cases hs
  · intro id hid hne
    rcases Nat.lt_or_ge id b.kernels.length with hlt | hge
    · obtain ⟨origin, state', horigin, hs, ht⟩ := h.reached id hlt hne
      use origin, state', horigin
      rw [hstates]
      use getElem?_of_grown (List.prefix_append _ _) hs
    · -- A kernel that is new is one that a transition of the new state leads to.
      have hk := List.getElem?_eq_getElem hid
      rcases hnew b'.kernels[id] (List.getElem_mem hid) with hold | ⟨t, ht, heq⟩
      · obtain ⟨j, hj⟩ := List.mem_iff_getElem?.mp hold
        have hj' := (List.getElem?_eq_some_iff.mp hj).1
        have heq := (List.getElem?_inj hid hnodup).mp (hk.trans (getElem?_of_grown hgrown hj).symm)
        omega
      · use b.states.length, state
        use Nat.lt_of_lt_of_le (List.getElem?_eq_some_iff.mp hkernel).1 hge
        rw [hstates, List.getElem?_concat_length]
        use rfl, t, ht
        have hk' := hk.trans (congrArg some heq)
        apply ((List.getElem?_inj hid hnodup).mp (hk'.trans (hstate.target t ht).symm)).symm

/-- The construction is sound, and it ends because there is no further step. -/
theorem Building.sound_and_stuck (hg : g.WellFormed) :
  Building.Sound g
      (exhaust (buildStep g g.grammar.analyze) (itemSetBound g.grammar) ⟨[initialKernel g], []⟩) ∧
    Stuck (buildStep g g.grammar.analyze)
      (exhaust (buildStep g g.grammar.analyze) (itemSetBound g.grammar) ⟨[initialKernel g], []⟩)
  := by
  have hkeep : ∀ b b', Building.Sound g b → buildStep g g.grammar.analyze b = some b' →
      Building.Sound g b' := by
    intro b b' hb hstep
    apply (hb.step hg hstep).1
  have hfall : ∀ b b', Building.Sound g b → buildStep g g.grammar.analyze b = some b' →
      itemSetBound g.grammar - b'.states.length < itemSetBound g.grammar - b.states.length := by
    intro b b' hb hstep
    obtain ⟨hb', hlength⟩ := hb.step hg hstep
    have hbound := length_le_itemSetBound hb'.nodup hb'.proper
    have hle := hb'.length_le
    omega
  have hinitial := Building.sound_initial hg
  constructor
  · apply exhaust_induction hkeep (itemSetBound g.grammar) hinitial
  · apply stuck_exhaust_of_keep hkeep _ hfall hinitial (Nat.sub_le _ _)

/-- The construction ends when each kernel has become a state. -/
theorem exists_kernels (hg : g.WellFormed) :
  ∃ kernels, Building.Sound g ⟨kernels, (build g).states⟩ ∧ kernels.length = (build g).states.length
  := by
  obtain ⟨hend, hstuck⟩ := Building.sound_and_stuck hg
  use (exhaust (buildStep g g.grammar.analyze) (itemSetBound g.grammar)
    ⟨[initialKernel g], []⟩).kernels, hend
  apply Nat.le_antisymm (stuck_buildStep_iff.mp hstuck) hend.length_le

end construction

/-! ### The states -/

section states

variable {g : AugmentedGrammar} {state : State} {t : Transition} {x : Symbol}

/-- The facts about the terms that the construction uses are about the grammar. -/
theorem known_analyze (hg : g.WellFormed) :
  Analysis.Known g.grammar g.grammar.analyze
  := (Analysis.agrees_analyze hg.grammar).1

/-- Each state is that of a proper kernel. -/
theorem exists_kernel (hg : g.WellFormed) (hs : state ∈ (build g).states) :
  ∃ kernels kernel, kernel.Proper g.grammar ∧ IsStateOf g kernels kernel state
  := by
  obtain ⟨kernels, hsound, -⟩ := exists_kernels hg
  obtain ⟨id, hid⟩ := List.mem_iff_getElem?.mp hs
  obtain ⟨kernel, hkernel, hstate⟩ := hsound.states id state hid
  use kernels, kernel, hsound.proper kernel (List.mem_of_getElem? hkernel)

/-- The item sets of the states are proper. -/
theorem proper_items (hg : g.WellFormed) (hs : state ∈ (build g).states) :
  state.items.Proper g.grammar
  := by
  obtain ⟨kernels, kernel, hproper, hstate⟩ := exists_kernel hg hs
  rw [hstate.items_eq]
  apply hproper.closure hg.grammar (known_analyze hg)

/-- The item sets of the states are closed. -/
theorem closed_items (hg : g.WellFormed) (hs : state ∈ (build g).states) :
  state.items.Closed g.grammar g.grammar.analyze
  := by
  obtain ⟨kernels, kernel, hproper, hstate⟩ := exists_kernel hg hs
  rw [hstate.items_eq]
  apply closed_closure hg.grammar (known_analyze hg) hproper

/-- A state accepts exactly if the end of the input may come. -/
theorem accepts_iff (hg : g.WellFormed) (hs : state ∈ (build g).states) :
  state.accepts = true ↔ .token g.eof ∈ state.items.nextSymbols
  := by
  obtain ⟨kernels, kernel, -, hstate⟩ := exists_kernel hg hs
  apply hstate.accepts_iff

/-- There is a transition on every symbol behind a dot but the end of the input, and on no
other. -/
theorem exists_transition_iff (hg : g.WellFormed) (hs : state ∈ (build g).states) :
  (∃ target, ⟨x, target⟩ ∈ state.transitions) ↔
    x ∈ state.items.nextSymbols ∧ x ≠ .token g.eof
  := by
  obtain ⟨kernels, kernel, -, hstate⟩ := exists_kernel hg hs
  have hsymbols := congrArg (x ∈ ·) hstate.map_symbol
  simp only [List.mem_map, List.mem_filter, decide_eq_true_eq, eq_iff_iff] at hsymbols
  rw [← hsymbols]
  constructor
  · rintro ⟨target, ht⟩
    use ⟨x, target⟩
  · rintro ⟨⟨_, target⟩, ht, rfl⟩
    use target

/-- The first state is the closure of the start rule. -/
theorem exists_first (hg : g.WellFormed) :
  ∃ first, (build g).states[0]? = some first ∧
    first.items = (initialKernel g).closure g.grammar g.grammar.analyze
  := by
  obtain ⟨kernels, hsound, hlength⟩ := exists_kernels hg
  obtain ⟨hlt, -⟩ := List.getElem?_eq_some_iff.mp hsound.head
  use (build g).states[0], List.getElem?_eq_getElem (hlength ▸ hlt)
  obtain ⟨kernel, hkernel, hstate⟩ := hsound.states 0 _ (List.getElem?_eq_getElem (hlength ▸ hlt))
  rw [hstate.items_eq]
  congr 1
  apply Option.some.inj (hkernel.symm.trans hsound.head)

/-- A transition leads to the closure of the item set advanced. -/
theorem exists_target (hg : g.WellFormed) (hs : state ∈ (build g).states)
    (ht : t ∈ state.transitions) :
  ∃ next, (build g).states[t.target]? = some next ∧
    next.items = (state.items.advance t.symbol).closure g.grammar g.grammar.analyze
  := by
  obtain ⟨kernels, hsound, hlength⟩ := exists_kernels hg
  obtain ⟨id, hid⟩ := List.mem_iff_getElem?.mp hs
  obtain ⟨_, -, hstate⟩ := hsound.states id state hid
  have htarget := hstate.target t ht
  obtain ⟨hlt, -⟩ := List.getElem?_eq_some_iff.mp htarget
  have hnext := List.getElem?_eq_getElem (hlength ▸ hlt : t.target < (build g).states.length)
  obtain ⟨kernel, hkernel, hstate'⟩ := hsound.states t.target _ hnext
  use (build g).states[t.target], hnext
  rw [hstate'.items_eq]
  congr 1
  apply Option.some.inj (hkernel.symm.trans htarget)

theorem mem_nextSymbols {s : ItemSet} :
  x ∈ s.nextSymbols ↔ ∃ d ∈ s.cores, d.next? = some x
  := by
  rw [nextSymbols, List.mem_eraseDups, List.mem_filterMap]

/-- The end of the input may come exactly if the start rule has been read up to it. -/
theorem accepts_iff_mem_cores (hg : g.WellFormed) (hs : state ∈ (build g).states) :
  state.accepts = true ↔ ⟨g.startRule, 1⟩ ∈ state.items.cores
  := by
  obtain ⟨start, hitems⟩ := hg.items_startRule
  have hbasic : g.startRule.basicItems = [.term start, .token g.eof] := by
    rw [Rule.basicItems, hitems]
    rfl
  rw [accepts_iff hg hs, mem_nextSymbols]
  constructor
  · rintro ⟨⟨r, dot⟩, hd, hnext⟩
    obtain ⟨lookahead, hl⟩ := mem_cores_iff.mp hd
    have hr := (proper_items hg hs).rule_mem_of_lookahead? hl
    have hmem := DottedRule.mem_items_of_mem_rest (List.mem_of_head? hnext)
    obtain rfl : r = g.startRule := by
      by_contra hne
      apply hg.eof_not_mem r hr hne hmem
    rw [DottedRule.next?, DottedRule.rest, hbasic, List.head?_drop] at hnext
    obtain - | - | dot := dot
    · cases hnext
    · apply hd
    · cases hnext
  · intro hd
    use ⟨g.startRule, 1⟩, hd
    rw [DottedRule.next?, DottedRule.rest, hbasic]
    rfl

/-- In the closure of the kernel to begin with the dots are in front. -/
theorem dot_eq_zero_of_mem_closure_initialKernel (hg : g.WellFormed) (d : DottedRule)
    (hd : d ∈ ((initialKernel g).closure g.grammar g.grammar.analyze).cores) :
  d.dot = 0
  := by
  rcases mem_cores_closure hg.grammar (known_analyze hg) (proper_initialKernel hg) hd with hd | hd
  · rw [ItemSet.cores, initialKernel, List.map_singleton, List.mem_singleton] at hd
    rw [hd]
    rfl
  · apply hd

/-- In the cores of the first state the dots are in front. -/
theorem dot_eq_zero_of_first (hg : g.WellFormed) {first : State}
    (hf : (build g).states[0]? = some first) {d : DottedRule} (hd : d ∈ first.items.cores) :
  d.dot = 0
  := by
  obtain ⟨first', hf', hitems⟩ := exists_first hg
  obtain rfl := Option.some.inj (hf.symm.trans hf')
  apply dot_eq_zero_of_mem_closure_initialKernel hg d (hitems ▸ hd)

/-- If the dot is not in front in a core of the state that a transition leads to, then it has been
moved over the symbol of the transition. -/
theorem exists_core_of_target (hg : g.WellFormed) (hs : state ∈ (build g).states)
    (ht : t ∈ state.transitions) {next : State} (hnext : (build g).states[t.target]? = some next)
    {d : DottedRule} (hd : d ∈ next.items.cores) (hdot : d.dot ≠ 0) :
  ∃ e ∈ state.items.cores, e.next? = some t.symbol ∧ d = e.advance
  := by
  obtain ⟨next', hnext', hitems⟩ := exists_target hg hs ht
  obtain rfl := Option.some.inj (hnext.symm.trans hnext')
  have hproper := proper_items hg hs
  rw [hitems] at hd
  rcases mem_cores_closure hg.grammar (known_analyze hg) hproper.advance hd with hd | hd
  · obtain ⟨lookahead, hl⟩ := mem_cores_iff.mp hd
    obtain ⟨e, hx, rfl, he⟩ := hproper.lookahead?_advance_eq_some_iff.mp hl
    use e, mem_cores_iff.mpr ⟨lookahead, he⟩
  · apply absurd hd hdot

end states

end CanonicalLR.Automaton
