import Mathlib.Data.List.Chain
import CanonicalLR.Proofs.Analysis.LeftRecursion

/-!
# The cycles that are found are shortest

The terms that wait in a breadth-first search are in the order of their distances from the term that
is searched for, and these differ by one at most; so what is not farther away than the oldest waiting
term was met (`Shortest.mem_met`), the way to a term that is met for the first time is a shortest one,
and so is the cycle that is found (`shortestCycle_cycleThrough`).
-/

namespace CanonicalLR.Analysis

variable {a : Analysis} {target t u c : TermId} {back back' : List TermId}
  {search next : CycleSearch}

/-! ### Ways -/

/-- From the term `target` the other term is reached by way of the terms `back`, the last one in
front. -/
inductive Way (a : Analysis) (target : TermId) : TermId → List TermId → Prop where
  | start : Way a target target []
  | step {t c : TermId} {back : List TermId} :
      Way a target t back → a.Child t c → Way a target c (t :: back)

/-- A way, read from its beginning, is a chain of children. -/
theorem Way.isChain (h : Way a target t back) (hc : a.Child t c) :
  ((t :: back).reverse ++ [c]).IsChain a.Child
  := by
  induction h generalizing c with
  | start => simpa using hc
  | @step t c' back _ hchild ih =>
    rw [List.reverse_cons, List.isChain_append]
    use ih hchild, List.isChain_singleton c
    simpa using hc

/-- A way is continued by a chain of children. -/
theorem Way.exists_of_isChain (h : Way a target t back) {terms : List TermId}
    (hchain : (t :: (terms ++ [c])).IsChain a.Child) :
  ∃ u back', Way a target u back' ∧ a.Child u c ∧ back'.length = back.length + terms.length
  := by
  induction terms generalizing t back with
  | nil => exact ⟨t, back, h, List.isChain_pair.mp hchain, rfl⟩
  | cons u terms ih =>
    obtain ⟨hchild, hchain⟩ := List.isChain_cons_cons.mp hchain
    obtain ⟨v, back', hway, hclose, hlength⟩ := ih (h.step hchild) hchain
    use v, back', hway, hclose
    rw [hlength, List.length_cons, List.length_cons]
    omega

/-! ### Shortest ways -/

/-- The cycle goes through different terms only, and no way back to the term `target` is shorter. -/
def ShortestCycle (a : Analysis) (target : TermId) (cycle : List TermId) : Prop :=
  ∃ t back, cycle = (t :: back).reverse ∧ Way a target t back ∧ (t :: back).Nodup ∧
    a.Child t target ∧ ∀ u back', Way a target u back' → a.Child u target → back.length ≤ back'.length

/-- The ways that are kept are shortest ways through different terms, in the order of their lengths,
which differ by one at most; and a cycle that was found is shortest. -/
structure CycleSearch.Shortest (a : Analysis) (target : TermId) (search : CycleSearch) : Prop where
  way : ∀ t back, (t, back) ∈ search.paths → Way a target t back
  nodup : ∀ t back, (t, back) ∈ search.paths → (t :: back).Nodup ∧ (t :: back) ⊆ search.met
  shortest : ∀ t back, (t, back) ∈ search.paths →
    ∀ back', Way a target t back' → back.length ≤ back'.length
  ordered : search.paths.Pairwise fun p q => p.2.length ≤ q.2.length
  close : ∀ p ∈ search.paths, ∀ q ∈ search.paths, q.2.length ≤ p.2.length + 1
  cycle : ∀ cycle ∈ search.cycle, ShortestCycle a target cycle

namespace CycleSearch.Shortest

variable {paths : List (TermId × List TermId)}

/-- The oldest way is a shortest one among those that are kept. -/
theorem length_le (h : search.Shortest a target) (hpaths : search.paths = (t, back) :: paths) :
  ∀ u back', (u, back') ∈ search.paths → back.length ≤ back'.length
  := by
  intro u back' hmem
  have hordered := h.ordered
  rw [hpaths, List.pairwise_cons] at hordered
  rw [hpaths, List.mem_cons] at hmem
  rcases hmem with heq | hmem
  · rw [(Prod.mk.inj heq).2]
  · apply hordered.1 _ hmem

/-- What is nearer than the end of the oldest way was met and looked at. -/
theorem looked_at (hsound : search.Sound a target) (h : search.Shortest a target)
    (hpaths : search.paths = (t, back) :: paths) (hmet : u ∈ search.met)
    (hway : Way a target u back') (hlt : back'.length < back.length) (hc : a.Child u c) :
  c ∈ search.met ∧ c ≠ target
  := by
  apply (hsound.looked_at u hmet).resolve_left _ c hc
  rintro ⟨back₀, hback₀⟩
  have hle := h.length_le hpaths u back₀ hback₀
  have hle' := h.shortest u back₀ hback₀ back' hway
  omega

/-- What is not farther away than the end of the oldest way was met. -/
theorem mem_met (hsound : search.Sound a target) (h : search.Shortest a target)
    (hpaths : search.paths = (t, back) :: paths) (hway : Way a target u back')
    (hle : back'.length ≤ back.length) :
  u ∈ search.met
  := by
  induction hway with
  | start => apply hsound.target_met
  | step hway hchild ih =>
    rw [List.length_cons] at hle
    apply (h.looked_at hsound hpaths (ih (Nat.le_of_succ_le hle)) hway hle hchild).1

/-- If the oldest way can be closed, then it becomes a shortest cycle. -/
theorem shortestCycle (hsound : search.Sound a target) (h : search.Shortest a target)
    (hpaths : search.paths = (t, back) :: paths) (hclose : a.Child t target) :
  ShortestCycle a target (t :: back).reverse
  := by
  have hfirst : (t, back) ∈ search.paths := by
    rw [hpaths]
    apply List.mem_cons_self
  refine ⟨t, back, rfl, h.way t back hfirst, (h.nodup t back hfirst).1, hclose, ?_⟩
  intro u back' hway hu
  by_contra hlt
  rw [Nat.not_le] at hlt
  have hmet := h.mem_met hsound hpaths hway (Nat.le_of_lt hlt)
  apply (h.looked_at hsound hpaths hmet hway hlt hu).2 rfl

/-- The ways are still shortest ones, and in order, when the oldest one goes on to what was not met. -/
theorem extend (hsound : search.Sound a target) (h : search.Shortest a target)
    (hpaths : search.paths = (t, back) :: paths) :
  Shortest a target ⟨search.met ++ (a.extensions search.met t back).map (·.1),
    paths ++ a.extensions search.met t back, none⟩
  := by
  have hfirst : (t, back) ∈ search.paths := by
    rw [hpaths]
    apply List.mem_cons_self
  have hold (p : TermId × List TermId) (hp : p ∈ paths) : p ∈ search.paths := by
    rw [hpaths]
    apply List.mem_cons_of_mem _ hp
  have hordered := h.ordered
  rw [hpaths, List.pairwise_cons] at hordered
  have hlength (p : TermId × List TermId) (hp : p ∈ paths ++ a.extensions search.met t back) :
      back.length ≤ p.2.length ∧ p.2.length ≤ back.length + 1 := by
    obtain ⟨c, back'⟩ := p
    rcases List.mem_append.mp hp with hp | hp
    · exact ⟨hordered.1 _ hp, h.close _ hfirst _ (hold _ hp)⟩
    · obtain ⟨-, rfl⟩ := mem_extensions.mp hp
      simp
  constructor
  · intro c back' hp
    rcases List.mem_append.mp hp with hp | hp
    · apply h.way c back' (hold _ hp)
    · obtain ⟨⟨hc, -⟩, rfl⟩ := mem_extensions.mp hp
      exact (h.way t back hfirst).step hc
  · intro c back' hp
    rcases List.mem_append.mp hp with hp | hp
    · obtain ⟨hnodup, hsub⟩ := h.nodup c back' (hold _ hp)
      use hnodup, List.subset_append_of_subset_left _ hsub
    · obtain ⟨⟨-, hnew⟩, rfl⟩ := mem_extensions.mp hp
      obtain ⟨hnodup, hsub⟩ := h.nodup t back hfirst
      use List.nodup_cons.mpr ⟨fun hc => hnew (hsub hc), hnodup⟩
      apply List.cons_subset.mpr ⟨_, List.subset_append_of_subset_left _ hsub⟩
      apply List.mem_append_right
      apply List.mem_map_of_mem (f := Prod.fst) hp
  · intro c back' hp back₁ hway
    rcases List.mem_append.mp hp with hp | hp
    · apply h.shortest c back' (hold _ hp) back₁ hway
    · -- What is as near as the oldest waiting term was met, and this one was not.
      obtain ⟨⟨-, hnew⟩, rfl⟩ := mem_extensions.mp hp
      rw [List.length_cons, Nat.succ_le_iff]
      by_contra hlt
      apply hnew (h.mem_met hsound hpaths hway (Nat.not_lt.mp hlt))
  · apply List.pairwise_append.mpr
    use hordered.2
    constructor
    · apply List.pairwise_of_forall_mem_list
      rintro ⟨c, back'⟩ hp ⟨d, back₁⟩ hq
      obtain ⟨-, rfl⟩ := mem_extensions.mp hp
      obtain ⟨-, rfl⟩ := mem_extensions.mp hq
      apply Nat.le_refl
    · rintro p hp ⟨c, back'⟩ hq
      obtain ⟨-, rfl⟩ := mem_extensions.mp hq
      apply (hlength p (List.mem_append_left _ hp)).2
  · intro p hp q hq
    have hp := hlength p hp
    have hq := hlength q hq
    omega
  · rintro _ ⟨⟩

theorem step (hsound : search.Sound a target) (h : search.Shortest a target)
    (hstep : a.cycleStep target search = some next) :
  next.Shortest a target
  := by
  obtain ⟨-, t, back, paths, hpaths, ⟨hclose, rfl⟩ | ⟨-, rfl⟩⟩ := exists_of_cycleStep_eq_some hstep
  · use h.way, h.nodup, h.shortest, h.ordered, h.close
    rintro _ ⟨⟩
    apply h.shortestCycle hsound hpaths hclose
  · apply h.extend hsound hpaths

theorem initial :
  Shortest a target ⟨[target], [(target, [])], none⟩
  := by
  constructor
  · simp only [List.mem_singleton, Prod.mk.injEq]
    rintro _ _ ⟨rfl, rfl⟩
    exact .start
  all_goals simp

end CycleSearch.Shortest

/-- If a term is reached from itself by going from child to child, then a shortest cycle through it is
found. -/
theorem shortestCycle_cycleThrough (ha : a.Closed) (h : Relation.TransGen a.Child target target) :
  ShortestCycle a target (a.cycleThrough target)
  := by
  obtain ⟨last, -, hclose⟩ := Relation.TransGen.tail'_iff.mp h
  let motive (s : CycleSearch) : Prop := s.Sound a target ∧ s.Shortest a target
  have hkeep : ∀ s next : CycleSearch, motive s → a.cycleStep target s = some next → motive next :=
    fun _ _ hs hstep => ⟨hs.1.step ha hstep, hs.2.step hs.1 hstep⟩
  have hshortest : (a.searchCycle target).Shortest a target :=
    (exhaust_induction hkeep (a.facts.size + 1)
      ⟨.initial (ha.child_lt _ _ hclose), .initial⟩).2
  apply hshortest.cycle _ (cycle_searchCycle ha h)

end CanonicalLR.Analysis
