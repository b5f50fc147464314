import CanonicalLR.Proofs.Table.Reductions

/-!
# Replays are exact

The replay of a transition reports that reductions never end exactly if they do not
(`replay_isSome_iff`).  One direction is known from the bound on their number.  For the other one,
reductions that come to the same stack twice go on for ever, and so do those by which the stack grows
higher than there are states.

In that case a run is divided at the states of its last stack (`exists_reductions_between`): since one
of them was entered, it has not been taken away, so what was done on top of it depends on it alone.
Some state is there twice, and from the lower one the reductions lead to a stack with the same state on
top, again and again.
-/

namespace CanonicalLR.ParseTable

variable {t : ParseTable} {n : TokenId} {s origin target : StateId}
  {stack stack' front back base : List StateId} {j k : Nat}

/-! ### Runs that repeat -/

/-- If there are ever longer runs among the shorter ones, then there are runs of any length. -/
theorem reductions_isSome_of_unbounded (h : ∀ k, ∃ j, k ≤ j ∧ (t.reductions n j stack).isSome)
    (k : Nat) :
  (t.reductions n k stack).isSome
  := by
  obtain ⟨j, hj, hrun⟩ := h k
  apply Option.isSome_iff_exists.mpr (exists_reductions_of_le hj hrun)

/-- Reductions go on for ever after some of them if they do so at all. -/
theorem reductions_isSome_of_run (hrun : t.reductions n j stack = some stack')
    (h : ∀ k, (t.reductions n k stack').isSome) (k : Nat) :
  (t.reductions n k stack).isSome
  := by
  apply reductions_isSome_of_unbounded
  intro k
  use j + k, Nat.le_add_left k j
  rw [reductions_add, hrun]
  apply h k

/-- Reductions that lead from a state to a stack with that state on top go on for ever. -/
theorem reductions_isSome_of_return (hj : 0 < j) (h : t.reductions n j [s] = some (s :: back))
    (k : Nat) :
  (t.reductions n k [s]).isSome
  := by
  have hmany : ∀ k, ∃ back', t.reductions n (j * k) [s] = some (s :: back') := by
    intro k
    induction k with
    | zero =>
      use []
      rfl
    | succ k ih =>
      obtain ⟨back', hback'⟩ := ih
      have hnext : t.reductions n j ([s] ++ back') = some ((s :: back) ++ back') :=
        reductions_append h
      use back ++ back'
      rw [Nat.mul_succ, reductions_add, hback']
      apply hnext
  apply reductions_isSome_of_unbounded
  intro k
  use j * k, Nat.le_mul_of_pos_left k hj
  obtain ⟨back', hback'⟩ := hmany k
  apply Option.isSome_of_eq_some hback'

/-- Reductions that come to the same stack twice go on for ever. -/
theorem reductions_isSome_of_repeat (hjk : j < k) (hj : t.reductions n j stack = some stack')
    (hk : t.reductions n k stack = some stack') (i : Nat) :
  (t.reductions n i stack).isSome
  := by
  obtain ⟨c, rfl⟩ := Nat.exists_eq_add_of_lt hjk
  rw [Nat.add_assoc, reductions_add, hj, Option.bind_some] at hk
  have hmany : ∀ i, t.reductions n ((c + 1) * i) stack' = some stack' := by
    intro i
    induction i with
    | zero => rfl
    | succ i ih => rw [Nat.mul_succ, reductions_add, ih, Option.bind_some, hk]
  apply reductions_isSome_of_run hj
  apply reductions_isSome_of_unbounded
  intro i
  use (c + 1) * i, Nat.le_mul_of_pos_left i (Nat.succ_pos c)
  rw [hmany i]
  rfl

/-! ### Runs that grow -/

/-- The last reduction of a run. -/
theorem reductions_succ :
  t.reductions n (k + 1) stack = (t.reductions n k stack).bind (t.reduceStates n)
  := by
  rw [reductions_add]
  congr 1
  funext stack
  rw [reductions]
  cases t.reduceStates n stack <;> rfl

/-- What is left on the stack by a reduction was there before. -/
theorem exists_of_reduceStates (h : t.reduceStates n stack = some (s :: back)) :
  ∃ taken, stack = taken ++ back
  := by
  obtain ⟨top, r, exposed, below, target, -, -, hdrop, -, heq⟩ := reduceStates_eq_some_iff.mp h
  cases heq
  use stack.take r.arity
  rw [← hdrop, List.take_append_drop]

/-- What is below a state that is left on the stack does not matter to a reduction. -/
theorem reduceStates_of_append
    (h : t.reduceStates n (stack ++ s :: back) = some (target :: (front ++ s :: back))) :
  t.reduceStates n (stack ++ [s]) = some (target :: (front ++ [s]))
  := by
  obtain ⟨top, r, exposed, below, target, htop, hr, hdrop, hgoto, heq⟩ := reduceStates_eq_some_iff.mp h
  obtain ⟨rfl, hbelow⟩ := List.cons.inj heq
  have hle : r.arity ≤ stack.length := by
    have hlength := congrArg List.length (hdrop.trans hbelow.symm)
    simp only [List.length_drop, List.length_append, List.length_cons] at hlength
    omega
  rw [← hbelow, List.drop_append_of_le_length hle] at hdrop
  have hfront := List.append_cancel_right hdrop
  have hexposed : ∃ rest, front ++ [s] = exposed :: rest := by
    cases front with
    | nil => use [], by rw [(List.cons.inj hbelow).1, List.nil_append]
    | cons y front => use front ++ [s], by rw [(List.cons.inj hbelow).1, List.cons_append]
  obtain ⟨rest, hrest⟩ := hexposed
  apply reduceStates_eq_some_iff.mpr
  use top, r, exposed, rest, target
  rw [List.drop_append_of_le_length hle, hfront, hrest]
  refine ⟨?_, hr, rfl, hgoto, rfl⟩
  rw [← htop]
  cases stack <;> rfl

/-- What was done since a state of the last stack was entered depends on that state alone. -/
theorem exists_reductions_between (h : t.reductions n k (s :: base) = some (front ++ target :: back))
    (hbase : base.length ≤ back.length) :
  ∃ j, t.reductions n j (s :: base) = some (target :: back) ∧
    ∃ i, t.reductions n i [target] = some (front ++ [target])
  := by
  induction k generalizing front with
  | zero =>
    have heq := Option.some.inj h
    obtain rfl : front = [] := by
      have hlength := congrArg List.length heq
      simp only [List.length_append, List.length_cons] at hlength
      rw [← List.length_eq_zero_iff]
      omega
    use 0, h, 0
    rfl
  | succ k ih =>
    have hrun := h
    rw [reductions_succ] at h
    obtain ⟨next, hnext, hstep⟩ := Option.bind_eq_some_iff.mp h
    cases front with
    | nil =>
      use k + 1, hrun, 0
      rfl
    | cons top front =>
      rw [List.cons_append] at hstep
      obtain ⟨taken, rfl⟩ := exists_of_reduceStates hstep
      rw [← List.append_assoc] at hnext hstep
      obtain ⟨j, hj, i, hi⟩ := ih hnext
      use j, hj, i + 1
      rw [reductions_succ, hi]
      apply reduceStates_of_append hstep

/-- On a stack that is higher than there are states, some state is twice. -/
theorem exists_repeated {above : List StateId} {size : Nat} (hsize : size < above.length)
    (habove : ∀ id ∈ above, id < size) :
  ∃ id front mid back, above = front ++ id :: (mid ++ id :: back)
  := by
  have hdup : ¬ above.Nodup := by
    intro hnodup
    have hsub : above ⊆ List.range size := by
      intro id hid
      apply List.mem_range.mpr (habove id hid)
    have hle := (List.subperm_of_subset hnodup hsub).length_le
    rw [List.length_range] at hle
    apply Nat.not_le.mpr hsize hle
  obtain ⟨id, hid⟩ := List.exists_duplicate_iff_not_nodup.mpr hdup
  obtain ⟨xs, ys, rfl, hxs, hys⟩ := List.cons_sublist_iff.mp (List.duplicate_iff_sublist.mp hid)
  obtain ⟨front, mid, rfl⟩ := List.append_of_mem hxs
  obtain ⟨mid', back, rfl⟩ := List.append_of_mem (List.singleton_sublist.mp hys)
  use id, front, mid ++ mid', back
  simp

/-- Reductions by which the stack grows higher than there are states go on for ever. -/
theorem reductions_isSome_of_high (ht : t.TargetsBounded) (htarget : target < t.rows.size)
    (hrun : t.reductions n k [target, origin] = some stack) (hhigh : t.rows.size + 2 < stack.length)
    (i : Nat) :
  (t.reductions n i [target, origin]).isSome
  := by
  have hstart : t.Above origin [target, origin] := by
    use [target], rfl
    simpa using htarget
  obtain ⟨above, rfl, habove⟩ := hstart.reductions ht hrun
  rw [List.length_append, List.length_singleton] at hhigh
  obtain ⟨id, front, mid, back, rfl⟩ := exists_repeated (Nat.lt_of_succ_lt (Nat.succ_lt_succ_iff.mp hhigh))
    habove
  have hsplit : (front ++ id :: (mid ++ id :: back)) ++ [origin] =
      (front ++ id :: mid) ++ id :: (back ++ [origin]) := by simp
  rw [hsplit] at hrun
  obtain ⟨j, hj, c, hc⟩ := exists_reductions_between hrun (by simp)
  rw [List.append_assoc, List.cons_append] at hc
  -- From the lower one of the two states, the same state is entered again.
  obtain ⟨c', hc', -⟩ := exists_reductions_between hc (Nat.zero_le _)
  have hpos : 0 < c' := by
    apply Nat.pos_of_ne_zero
    rintro rfl
    have hnil := (List.cons.inj (Option.some.inj hc')).2
    simp at hnil
  apply reductions_isSome_of_run hj
  intro i
  obtain ⟨stack, hstack⟩ := Option.isSome_iff_exists.mp (reductions_isSome_of_return hpos hc' i)
  have happend : t.reductions n i ([id] ++ (back ++ [origin])) = some (stack ++ (back ++ [origin])) :=
    reductions_append hstack
  apply Option.isSome_of_eq_some happend

/-! ### Replays -/

/-- What a replay reports: a stack that was met before, or one that is too high. -/
theorem exists_of_replay {bound : Nat} {earlier met : List (List StateId)}
    (h : t.replay n bound earlier stack = some met) :
  ∃ k stack', t.reductions n k stack = some stack' ∧
    (stack' ∈ earlier ∨ t.rows.size + 2 < stack'.length ∨
      ∃ j < k, t.reductions n j stack = some stack')
  := by
  induction bound generalizing earlier stack with
  | zero => cases h
  | succ bound ih =>
    rw [replay] at h
    split at h
    · next hreport =>
      rw [Bool.or_eq_true, decide_eq_true_eq, decide_eq_true_eq] at hreport
      use 0, stack, rfl
      apply hreport.imp_right
      apply Or.inl
    · obtain ⟨next, hnext, hrest⟩ := Option.bind_eq_some_iff.mp h
      obtain ⟨k, stack', hrun, hcases⟩ := ih hrest
      use k + 1, stack'
      rw [reductions, hnext]
      use hrun
      rcases hcases with hmem | hhigh | ⟨j, hj, hrepeat⟩
      · rcases List.mem_cons.mp hmem with rfl | hmem
        · right
          right
          use 0, Nat.succ_pos k
          rfl
        · left
          apply hmem
      · right
        left
        apply hhigh
      · right
        right
        use j + 1, Nat.succ_lt_succ hj
        rw [reductions, hnext]
        apply hrepeat

/-- The replay of a transition reports that reductions never end exactly if there are reductions
without end. -/
theorem replay_isSome_iff (ht : t.TargetsBounded) (htarget : target < t.rows.size) :
  (t.replay n t.replayBound [] [target, origin]).isSome ↔
    ∀ k, (t.reductions n k [target, origin]).isSome
  := by
  constructor
  · intro h
    obtain ⟨met, hmet⟩ := Option.isSome_iff_exists.mp h
    obtain ⟨k, stack, hrun, hmem | hhigh | ⟨j, hj, hrepeat⟩⟩ := exists_of_replay hmet
    · cases hmem
    · apply reductions_isSome_of_high ht htarget hrun hhigh
    · apply reductions_isSome_of_repeat hj hrepeat hrun
  · intro h
    rw [Option.isSome_iff_ne_none]
    intro hnone
    have hsome := h ((t.rows.size + 1) ^ (t.rows.size + 1))
    rw [reductions_eq_none_of_replay ht htarget hnone] at hsome
    cases hsome

end CanonicalLR.ParseTable
