import CanonicalLR.Automaton.Interning
import CanonicalLR.Proofs.Automaton.Collection

/-!
# The end of the construction

The construction that tells states apart by their closed item sets goes in step with the one that tells
them apart by their kernels (`InStep.step`), because kernels with the same closure are the same.

So no item set becomes a state twice.  All item sets that are met are proper, and there are finitely many
of these, so there is a time when no state is pending any more, and then the states are those of the
automaton (`finite_and_exists_pending_eq_nil`).
-/

namespace CanonicalLR.Automaton

open ItemSet

/-- The item set `s` is met on the way to the construction `i`: in a state, or on the way from a kernel to
its closure. -/
def Interning.Meets (g : AugmentedGrammar) (i : Interning) (s : ItemSet) : Prop :=
  (∃ state ∈ i.states, s = state.items) ∨
    ∃ kernel n, (kernel = initialKernel g ∨ ∃ state ∈ i.states, ∃ x, kernel = state.items.advance x) ∧
      s = (exhaust (closureStep g.grammar g.grammar.analyze) n ⟨kernel, .ofList kernel.cores⟩).items

/-! ### In step with the kernels -/

/-- In a list without the other preimages of `f a`, the place of `a` is that of its image. -/
theorem idxOf_map_eq {α β : Type} [DecidableEq α] [DecidableEq β] {f : α → β} {a : α} {as : List α}
    (h : ∀ b ∈ as, f b = f a → b = a) :
  (as.map f).idxOf (f a) = as.idxOf a
  := by
  induction as with
  | nil => rfl
  | cons b as ih =>
    have heq : f b = f a ↔ b = a := ⟨h b List.mem_cons_self, congrArg f⟩
    rw [List.map_cons, List.idxOf_cons, List.idxOf_cons,
      ih fun c hc => h c (List.mem_cons_of_mem b hc)]
    simp only [beq_eq_decide, heq]

variable {g : AugmentedGrammar} {m : Nat} {id : StateId} {kernels kernels' : List ItemSet}
  {kernel s : ItemSet} {b : Building} {i : Interning}

/-- The item sets of the states are the closures of the kernels, and the states from number `m` on are
pending. -/
structure Tracks (g : AugmentedGrammar) (m : Nat) (kernels : List ItemSet) (i : Interning) : Prop where
  isKernel : ∀ kernel ∈ kernels, IsKernel g kernel
  items : i.states.map (·.items) = kernels.map fun kernel => kernel.closure g.grammar g.grammar.analyze
  pending : i.pending = (List.range kernels.length).drop m
  le : m ≤ kernels.length

theorem Tracks.length_states (h : Tracks g m kernels i) :
  i.states.length = kernels.length
  := by
  simpa using congrArg List.length h.items

/-- The closure of a kernel has the number of the kernel. -/
theorem Tracks.intern (hg : g.WellFormed) (h : Tracks g m kernels i) (hk : IsKernel g kernel)
    (hnumber : number kernels kernel = (id, kernels')) :
  ∃ i', i.intern (kernel.closure g.grammar g.grammar.analyze) = (id, i') ∧
    Tracks g m kernels' i' ∧ i.states <+: i'.states
  := by
  have hinj : ∀ k ∈ kernels, k.closure g.grammar g.grammar.analyze =
      kernel.closure g.grammar g.grammar.analyze → k = kernel := by
    intro k hmem
    apply (h.isKernel k hmem).eq_of_closure_eq hg hk
  have hknown : kernel.closure g.grammar g.grammar.analyze ∈ i.states.map (·.items) ↔
      kernel ∈ kernels := by
    rw [h.items, List.mem_map]
    constructor
    · rintro ⟨k, hmem, heq⟩
      rw [← hinj k hmem heq]
      apply hmem
    · intro hmem
      use kernel
  rw [number] at hnumber
  rw [Interning.intern]
  split at hnumber
  · next hmem =>
    cases hnumber
    rw [if_pos (hknown.mpr hmem), h.items, idxOf_map_eq hinj]
    exact ⟨i, rfl, h, List.prefix_rfl⟩
  · next hmem =>
    cases hnumber
    rw [if_neg (mt hknown.mp hmem), h.length_states]
    refine ⟨_, rfl, ⟨?_, ?_, ?_, ?_⟩, List.prefix_append _ _⟩
    · intro k hk'
      rcases List.mem_append.mp hk' with hk' | hk'
      · apply h.isKernel k hk'
      · rw [List.mem_singleton.mp hk']
        apply hk
    · simp only [List.map_append, List.map_cons, List.map_nil, h.items]
    · rw [h.pending, List.length_append, List.length_singleton, List.range_succ,
        List.drop_append_of_le_length]
      rw [List.length_range]
      apply h.le
    · rw [List.length_append]
      apply Nat.le_add_right_of_le h.le

/-- The transitions lead to the closures of the kernels that they would lead to. -/
theorem Tracks.connect (hg : g.WellFormed) {symbols : List Symbol} {transitions : List Transition}
    (h : Tracks g m kernels i) (hs : ∀ x ∈ symbols, IsKernel g (s.advance x))
    (hconnect : connect s symbols kernels = (transitions, kernels')) :
  ∃ i', i.connect g.grammar g.grammar.analyze s symbols = (transitions, i') ∧
    Tracks g m kernels' i' ∧ i.states <+: i'.states
  := by
  induction symbols generalizing kernels transitions i with
  | nil =>
    cases hconnect
    exact ⟨i, rfl, h, List.prefix_rfl⟩
  | cons x symbols ih =>
    cases hnumber : number kernels (s.advance x) with
    | mk target kernels₁ =>
      cases hrest : Automaton.connect s symbols kernels₁ with
      | mk rest kernels₂ =>
        rw [Automaton.connect, hnumber] at hconnect
        simp only [hrest] at hconnect
        cases hconnect
        obtain ⟨i₁, hi₁, htracks₁, hgrown₁⟩ := h.intern hg (hs x List.mem_cons_self) hnumber
        obtain ⟨i₂, hi₂, htracks₂, hgrown₂⟩ :=
          ih htracks₁ (fun y hy => hs y (List.mem_cons_of_mem x hy)) hrest
        refine ⟨i₂, ?_, htracks₂, hgrown₁.trans hgrown₂⟩
        rw [Interning.connect, hi₁]
        simp only [hi₂]

/-- To find the transitions of a state does not change its item set. -/
theorem Tracks.set (h : Tracks g m kernels i) {state : State} (hs : i.states[id]? = some state)
    (transitions : List Transition) (accepts : Bool) :
  Tracks g m kernels ⟨i.states.set id ⟨state.items, transitions, accepts⟩, i.pending⟩
  := by
  refine ⟨h.isKernel, ?_, h.pending, h.le⟩
  rw [← h.items, List.map_set]
  obtain ⟨hlt, rfl⟩ := List.getElem?_eq_some_iff.mp hs
  have hlt' : id < (i.states.map (·.items)).length := by simpa using hlt
  have hitems : i.states[id].items = (i.states.map (·.items))[id] := (List.getElem_map _).symm
  rw [hitems, List.set_getElem_self]

/-- The construction with closed item sets is where that with kernels is: it has the states that the other
has made, and for every kernel that is left a pending one. -/
structure InStep (g : AugmentedGrammar) (b : Building) (i : Interning) : Prop where
  sound : b.Sound g
  tracks : Tracks g b.states.length b.kernels i
  states : b.states <+: i.states

/-- In the beginning there is the kernel to begin with, and its closure. -/
theorem inStep_initial (hg : g.WellFormed) :
  InStep g ⟨[initialKernel g], []⟩ (Interning.initial g g.grammar.analyze)
  := by
  use Building.sound_initial hg
  · have hnone : Tracks g 0 [] ⟨[], []⟩ := by
      constructor <;> simp
    obtain ⟨i, hi, htracks, -⟩ := hnone.intern hg (isKernel_initialKernel hg) rfl
    rw [Interning.initial, hi]
    apply htracks
  · apply List.nil_prefix

theorem InStep.proper_items (hg : g.WellFormed) (h : InStep g b i) {state : State}
    (hs : state ∈ i.states) :
  state.items.Proper g.grammar
  := by
  have hmem := List.mem_map_of_mem (f := (·.items)) hs
  rw [h.tracks.items] at hmem
  obtain ⟨kernel, hk, hitems⟩ := List.mem_map.mp hmem
  rw [← hitems]
  apply (h.sound.proper kernel hk).closure hg.grammar (known_analyze hg)

/-- When there is a state for each kernel, no state is pending, and both constructions have the same
states. -/
theorem InStep.pending_eq_nil (h : InStep g b i) (hle : b.kernels.length ≤ b.states.length) :
  i.pending = [] ∧ i.states = b.states
  := by
  constructor
  · rw [h.tracks.pending, List.drop_eq_nil_iff, List.length_range]
    apply hle
  · apply (h.states.eq_of_length_le _).symm
    rw [h.tracks.length_states]
    apply hle

/-- A list begins with another one, and with one more value, when that is set behind the other one. -/
theorem concat_prefix_set {α : Type} {xs ys : List α} (h : xs <+: ys) (hlt : xs.length < ys.length)
    (y : α) :
  xs ++ [y] <+: ys.set xs.length y
  := by
  obtain ⟨rest, rfl⟩ := h
  cases rest with
  | nil => simp at hlt
  | cons z rest =>
    rw [List.set_append_right _ _ (Nat.le_refl _), Nat.sub_self, List.set_cons_zero]
    use rest
    simp

/-- The oldest pending state has the closure of the first kernel that is left. -/
theorem InStep.exists_state (h : InStep g b i) (hlt : b.states.length < b.kernels.length) :
  ∃ state, i.states[b.states.length]? = some state ∧
    state.items = b.kernels[b.states.length].closure g.grammar g.grammar.analyze ∧
    i.pending = b.states.length :: (List.range b.kernels.length).drop (b.states.length + 1)
  := by
  have hitems : (i.states[b.states.length]?).map (·.items) =
      some (b.kernels[b.states.length].closure g.grammar g.grammar.analyze) := by
    rw [← List.getElem?_map, h.tracks.items, List.getElem?_map, List.getElem?_eq_getElem hlt,
      Option.map_some]
  obtain ⟨state, hstate, hitems⟩ := Option.map_eq_some_iff.mp hitems
  use state, hstate, hitems
  rw [h.tracks.pending, List.drop_eq_getElem_cons (by simpa using hlt), List.getElem_range]

/-- While a kernel is left, both constructions find the transitions of its closure. -/
theorem InStep.exists_next (hg : g.WellFormed) (h : InStep g b i)
    (hlt : b.states.length < b.kernels.length) :
  ∃ b' i', buildStep g g.grammar.analyze b = some b' ∧ i.step g g.grammar.analyze = some i' ∧
    InStep g b' i'
  := by
  obtain ⟨state, hstate, hitems, hpending⟩ := h.exists_state hlt
  have hproper := h.proper_items hg (List.mem_of_getElem? hstate)
  have htracks : Tracks g (b.states.length + 1) b.kernels
      ⟨i.states, (List.range b.kernels.length).drop (b.states.length + 1)⟩ :=
    ⟨h.tracks.isKernel, h.tracks.items, rfl, hlt⟩
  cases hconnect : connect state.items
      (state.items.nextSymbols.filter fun x => x ≠ Symbol.token g.eof) b.kernels with
  | mk transitions kernels =>
    obtain ⟨i', hi', htracks', hgrown⟩ := htracks.connect hg
      (fun x hx => isKernel_advance hproper.advance (List.mem_of_mem_filter hx)) hconnect
    have hbuild : buildStep g g.grammar.analyze b = some ⟨kernels, b.states ++
        [⟨state.items, transitions, state.items.nextSymbols.contains (.token g.eof)⟩]⟩ := by
      rw [buildStep, List.getElem?_eq_getElem hlt, Option.map_some]
      simp only [← hitems, hconnect]
    have hstep : i.step g g.grammar.analyze = some ⟨i'.states.set b.states.length
        ⟨state.items, transitions, state.items.nextSymbols.contains (.token g.eof)⟩,
        i'.pending⟩ := by
      rw [Interning.step, hpending]
      simp only [Interning.extract, hstate, hi']
    have hstate' := getElem?_of_grown hgrown hstate
    refine ⟨_, _, hbuild, hstep, (h.sound.step hg hbuild).1, ?_, ?_⟩
    · rw [List.length_append, List.length_singleton]
      apply htracks'.set hstate'
    · apply concat_prefix_set (h.states.trans hgrown) (List.getElem?_eq_some_iff.mp hstate').1

/-- Both constructions go one step further, or none of them. -/
theorem InStep.step (hg : g.WellFormed) (h : InStep g b i) :
  buildStep g g.grammar.analyze b = none ∧ i.step g g.grammar.analyze = none ∨
    ∃ b' i', buildStep g g.grammar.analyze b = some b' ∧ i.step g g.grammar.analyze = some i' ∧
      InStep g b' i'
  := by
  rcases Nat.lt_or_ge b.states.length b.kernels.length with hlt | hle
  · right
    apply h.exists_next hg hlt
  · left
    use stuck_buildStep_iff.mpr hle
    rw [Interning.step, (h.pending_eq_nil hle).1]

/-- The constructions stay in step. -/
theorem inStep_after (hg : g.WellFormed) (n : Nat) :
  InStep g (exhaust (buildStep g g.grammar.analyze) n ⟨[initialKernel g], []⟩) (Interning.after g n)
  := (rel_exhaust_bound (fun _ _ h => h.step hg) n (inStep_initial hg)).1

/-! ### The end of the construction -/

/-- No item set is that of two states. -/
theorem InStep.nodup_items (hg : g.WellFormed) (h : InStep g b i) :
  (i.states.map (·.items)).Nodup
  := by
  rw [h.tracks.items]
  apply List.Nodup.map_on _ h.sound.nodup
  intro kernel hk kernel' hk' heq
  apply (h.tracks.isKernel kernel hk).eq_of_closure_eq hg (h.tracks.isKernel kernel' hk') heq

/-- All item sets that are met are proper. -/
theorem InStep.proper_of_meets (hg : g.WellFormed) (h : InStep g b i) (hs : i.Meets g s) :
  s.Proper g.grammar
  := by
  rcases hs with ⟨state, hstate, rfl⟩ | ⟨kernel, n, hkernel, rfl⟩
  · apply h.proper_items hg hstate
  · have hproper : kernel.Proper g.grammar := by
      rcases hkernel with rfl | ⟨state, hstate, x, rfl⟩
      · apply proper_initialKernel hg
      · apply (h.proper_items hg hstate).advance
    apply (Closing.reached_exhaust n).proper hg.grammar (known_analyze hg) hproper

/-- Let the grammar be augmented.  There are finitely many proper item sets, and no more than the bound
says.  After as many steps at most no state is pending, and there are the states of the automaton.  At any
time no item set is that of two states, and all item sets that have been met are proper: no dot is behind
the end of its rule, and the lookaheads are sets of tokens of the grammar. -/
theorem finite_and_exists_pending_eq_nil {h : Grammar} (hh : h.Built) (ha : h.augment = .ok g) :
  {s : ItemSet | s.Proper g.grammar}.Finite ∧
    {s : ItemSet | s.Proper g.grammar}.ncard ≤ itemSetBound g.grammar ∧
    (∃ n ≤ itemSetBound g.grammar, (Interning.after g n).pending = [] ∧
      (Interning.after g n).states = (build g).states) ∧
    ∀ n, ((Interning.after g n).states.map (·.items)).Nodup ∧
      (Interning.after g n).states.length ≤ itemSetBound g.grammar ∧
      ∀ s, (Interning.after g n).Meets g s → s.Proper g.grammar
  := by
  have hg : g.WellFormed := (hh.wellFormed.augment ha).1
  obtain ⟨hfinite, hcard⟩ := finite_and_ncard_le_itemSetBound g.grammar
  use hfinite, hcard
  constructor
  · use itemSetBound g.grammar, Nat.le_refl _
    apply (inStep_after hg _).pending_eq_nil
    apply stuck_buildStep_iff.mp (Building.sound_and_stuck hg).2
  · intro n
    have hstep := inStep_after hg n
    use hstep.nodup_items hg
    constructor
    · rw [hstep.tracks.length_states]
      apply length_le_itemSetBound hstep.sound.nodup hstep.sound.proper
    · intro s
      apply hstep.proper_of_meets hg

/-- A grammar of assignments, in which a place may be used as a value. -/
def assignments : Grammar :=
  ((Grammar.ofProductions "S" [⟨"S", [⟨.term, "P"⟩, ⟨.token, "="⟩, ⟨.term, "V"⟩]⟩,
    ⟨"S", [⟨.term, "V"⟩]⟩, ⟨"P", [⟨.token, "*"⟩, ⟨.term, "V"⟩]⟩, ⟨"P", [⟨.token, "x"⟩]⟩,
    ⟨"V", [⟨.term, "P"⟩]⟩]).toOption).getD .empty

/-- For the assignments all states are found, and each item set is that of one state only. -/
theorem exists_pending_eq_nil_assignments :
  ∃ a, assignments.augment = .ok a ∧
    (∃ n ≤ itemSetBound a.grammar, (Interning.after a n).pending = [] ∧
      (Interning.after a n).states = (build a).states) ∧
    ∀ n, ((Interning.after a n).states.map (·.items)).Nodup
  := by
  have hsome : assignments.augment.toOption.isSome = true := by decide +kernel
  obtain ⟨a, ha⟩ := Option.isSome_iff_exists.mp hsome
  have ha := Grammar.eq_ok_of_toOption_eq_some ha
  obtain ⟨-, -, hend, hall⟩ := finite_and_exists_pending_eq_nil Grammar.built_getD_ofProductions ha
  use a, ha, hend
  intro n
  apply (hall n).1

end CanonicalLR.Automaton
