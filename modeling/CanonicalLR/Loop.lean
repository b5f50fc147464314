/-!
# Exhaustive iteration

The state `exhaust step bound s` reached from `s` by applying the partial function `step` until it
has no answer, but at most `bound` times.  What a step keeps holds of the state reached
(`exhaust_induction`), and if a measure falls with every step, then the state reached is one at
which there is no further step, for every bound above the measure of `s` (`stuck_exhaust`); it is
enough that the measure falls while something holds that the steps keep (`stuck_exhaust_of_keep`).
Two iterations that go in step, and that both end, reach states that are related (`rel_exhaust`);
with the same bound they end together (`rel_exhaust_bound`).

Every search of this library is such an iteration over a finite space, with a bound computed from
the space.
-/

namespace CanonicalLR

universe u

/-- The states at which `step` has no answer. -/
def Stuck {σ : Type u} (step : σ → Option σ) (s : σ) : Prop :=
  step s = none

/-- The state reached from `s` by the answers of `step`, followed until there is none or until
`bound` of them have been followed. -/
def exhaust {σ : Type u} (step : σ → Option σ) : Nat → σ → σ
  | 0, s => s
  | bound + 1, s =>
    match step s with
    | none => s
    | some t => exhaust step bound t

/-- What holds of a state and is kept by every step holds of the state reached from it. -/
theorem exhaust_induction {σ : Type u} {step : σ → Option σ} {motive : σ → Prop}
    (keep : ∀ s t, motive s → step s = some t → motive t) (bound : Nat) {s : σ}
    (hs : motive s) :
  motive (exhaust step bound s)
  := by
  induction bound generalizing s with
  | zero => apply hs
  | succ bound ih =>
    rw [exhaust]
    split
    · apply hs
    · next t ht => apply ih (keep s t hs ht)

/-- If a measure falls with every step from a state with a property that the steps keep, then the
state reached from such a state is stuck, for every bound that the measure does not exceed. -/
theorem stuck_exhaust_of_keep {σ : Type u} {step : σ → Option σ} {motive : σ → Prop}
    (keep : ∀ s t, motive s → step s = some t → motive t) (measure : σ → Nat)
    (fall : ∀ s t, motive s → step s = some t → measure t < measure s) {bound : Nat} {s : σ}
    (hs : motive s) (hbound : measure s ≤ bound) :
  Stuck step (exhaust step bound s)
  := by
  induction bound generalizing s with
  | zero =>
    cases h : step s with
    | none => apply h
    | some t =>
      have := fall s t hs h
      omega
  | succ bound ih =>
    rw [exhaust]
    split
    · next h => apply h
    · next t ht =>
      apply ih (keep s t hs ht)
      have := fall s t hs ht
      omega

/-- If a measure falls with every step, then the state reached is stuck, for every bound above the
measure of the first state. -/
theorem stuck_exhaust {σ : Type u} {step : σ → Option σ} (measure : σ → Nat)
    (fall : ∀ s t, step s = some t → measure t < measure s) {bound : Nat} {s : σ}
    (hs : measure s < bound) :
  Stuck step (exhaust step bound s)
  := by
  apply stuck_exhaust_of_keep (motive := fun _ => True) _ measure _ trivial (Nat.le_of_lt hs)
  · intros
    trivial
  · intro s t _ ht
    apply fall s t ht

/-- A state at which there is no step is the one that is reached from it. -/
theorem exhaust_of_stuck {σ : Type u} {step : σ → Option σ} {s : σ} (h : Stuck step s) (bound : Nat) :
  exhaust step bound s = s
  := by
  cases bound with
  | zero => rfl
  | succ bound => rw [exhaust, h]

/-- If two iterations go in step and keep a relation, then the states that are reached are related, as
long as there are no further steps. -/
theorem rel_exhaust {σ τ : Type u} {R : σ → τ → Prop} {step : σ → Option σ} {step' : τ → Option τ}
    (keep : ∀ s t, R s t → step s = none ∧ step' t = none ∨
      ∃ s' t', step s = some s' ∧ step' t = some t' ∧ R s' t')
    {bound bound' : Nat} {s : σ} {t : τ} (hst : R s t) (hs : Stuck step (exhaust step bound s))
    (ht : Stuck step' (exhaust step' bound' t)) :
  R (exhaust step bound s) (exhaust step' bound' t)
  := by
  induction bound generalizing bound' s t with
  | zero =>
    rcases keep s t hst with ⟨hs', ht'⟩ | ⟨s', t', hs', -, -⟩
    · rw [exhaust_of_stuck hs', exhaust_of_stuck ht']
      apply hst
    · rw [Stuck, exhaust, hs'] at hs
      cases hs
  | succ bound ih =>
    rcases keep s t hst with ⟨hs', ht'⟩ | ⟨s', t', hs', ht', hst'⟩
    · rw [exhaust_of_stuck hs', exhaust_of_stuck ht']
      apply hst
    · cases bound' with
      | zero =>
        rw [Stuck, exhaust, ht'] at ht
        cases ht
      | succ bound' =>
        rw [exhaust, hs'] at hs ⊢
        rw [exhaust, ht'] at ht ⊢
        apply ih hst' hs ht

/-- If two iterations go in step and keep a relation, then the states that are reached with the same
bound are related, and there is a further step from both of them or from none. -/
theorem rel_exhaust_bound {σ τ : Type u} {R : σ → τ → Prop} {step : σ → Option σ}
    {step' : τ → Option τ}
    (keep : ∀ s t, R s t → step s = none ∧ step' t = none ∨
      ∃ s' t', step s = some s' ∧ step' t = some t' ∧ R s' t')
    (bound : Nat) {s : σ} {t : τ} (hst : R s t) :
  R (exhaust step bound s) (exhaust step' bound t) ∧
    (Stuck step (exhaust step bound s) ↔ Stuck step' (exhaust step' bound t))
  := by
  induction bound generalizing s t with
  | zero =>
    refine ⟨hst, ?_⟩
    rcases keep s t hst with ⟨hs, ht⟩ | ⟨s', t', hs, ht, -⟩ <;> simp [Stuck, exhaust, hs, ht]
  | succ bound ih =>
    rcases keep s t hst with ⟨hs, ht⟩ | ⟨s', t', hs, ht, hst'⟩
    · rw [exhaust_of_stuck hs, exhaust_of_stuck ht]
      refine ⟨hst, ?_⟩
      simp [Stuck, hs, ht]
    · simp only [exhaust, hs, ht]
      apply ih hst'

end CanonicalLR
