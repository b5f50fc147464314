import Mathlib.Data.Fintype.BigOperators
import Mathlib.Data.Fintype.Option
import Mathlib.Data.Fintype.Pigeonhole
import CanonicalLR.Proofs.Automaton.States
import CanonicalLR.Proofs.Table.Cells

/-!
# Reductions come to an end

While a token is not read, a parser reduces, and the stack of states changes as `reduceStates` says;
`reductions` is the stack after a number of such changes.  If the table has no transition after which
reductions never end, then every stack comes to a point where there is no further one, after at most
`height * (states + 1) ^ (states + 1)` of them (`length_le_of_reductions`).

What is on top of some state of the stack does not matter to the reductions below, and what is below
does not matter to those above it (`reduceStates_append`).  So a run of reductions is divided at the
states where the stack is lower than ever before.  Between two of them the stack grows from a
transition, and there the replay of that transition tells that it never has the same form twice and
does not grow higher than there are states (`reductions_eq_none_of_transition`).
-/

namespace CanonicalLR.ParseTable

/-- An action of the table stands in the row of its state. -/
theorem exists_row_of_action? {t : ParseTable} {id : StateId} {x : Symbol} {action : Action}
    (h : t.action? id x = some action) :
  ∃ row, t.rows.toList[id]? = some row ∧ (x, action) ∈ row
  := by
  rw [action?, ParseTable.row] at h
  cases hrow : t.rows[id]? with
  | none =>
    rw [hrow] at h
    cases h
  | some row =>
    rw [hrow] at h
    use row
    rw [Array.getElem?_toList]
    use hrow
    obtain ⟨before, after, heq, -⟩ := List.lookup_eq_some_iff.mp h
    rw [Option.getD_some] at heq
    rw [heq]
    apply List.mem_append_right _ List.mem_cons_self

variable {t : ParseTable} {n : TokenId} {origin target : StateId}
  {stack stack' above above' below : List StateId} {j k : Nat}

/-! ### Runs of reductions -/

/-- The stack of states after as many reductions on the token `n` as the number says, none if there
are not as many. -/
def reductions (t : ParseTable) (n : TokenId) : Nat → List StateId → Option (List StateId)
  | 0, stack => some stack
  | k + 1, stack => (t.reduceStates n stack).bind (t.reductions n k)

theorem reductions_add :
  t.reductions n (j + k) stack = (t.reductions n j stack).bind (t.reductions n k)
  := by
  induction j generalizing stack with
  | zero => rw [Nat.zero_add, reductions, Option.bind_some]
  | succ j ih =>
    rw [Nat.succ_add, reductions, reductions, Option.bind_assoc]
    congr 1
    funext stack
    apply ih

/-- Of a long run there is every shorter one. -/
theorem exists_reductions_of_le (hjk : j ≤ k) (h : (t.reductions n k stack).isSome) :
  ∃ stack', t.reductions n j stack = some stack'
  := by
  obtain ⟨k, rfl⟩ := Nat.exists_eq_add_of_le hjk
  rw [reductions_add] at h
  apply Option.isSome_iff_exists.mp (Option.isSome_of_isSome_bind h)

/-! ### What a reduction changes -/

/-- A reduction takes states from the stack and enters a state from the one that is exposed. -/
theorem reduceStates_eq_some_iff :
  t.reduceStates n stack = some stack' ↔
    ∃ top r exposed below target, stack.head? = some top ∧
      t.action? top (.token n) = some (.reduce r) ∧ stack.drop r.arity = exposed :: below ∧
      t.action? exposed (.term r.owner) = some (.goto target) ∧
      stack' = target :: exposed :: below
  := by
  constructor
  · intro h
    rw [reduceStates.eq_def] at h
    split at h
    · cases h
    · next top rest =>
      split at h
      · next r hr =>
        split at h
        · cases h
        · next exposed below hdrop =>
          split at h
          · next target hgoto =>
            cases h
            use top, r, exposed, below, target, rfl, hr, hdrop, hgoto
          · cases h
      · cases h
  · rintro ⟨top, r, exposed, below, target, htop, hr, hdrop, hgoto, rfl⟩
    obtain ⟨rest, rfl⟩ := List.head?_eq_some_iff.mp htop
    simp only [reduceStates, hr, hdrop, hgoto]

/-- What is below does not matter to a reduction that is possible without it. -/
theorem reduceStates_append (h : t.reduceStates n above = some above') :
  t.reduceStates n (above ++ below) = some (above' ++ below)
  := by
  obtain ⟨top, r, exposed, rest, target, htop, hr, hdrop, hgoto, rfl⟩ :=
    reduceStates_eq_some_iff.mp h
  apply reduceStates_eq_some_iff.mpr
  use top, r, exposed, rest ++ below, target
  have hlt : r.arity < above.length := by
    rw [← Nat.not_le, ← List.drop_eq_nil_iff, hdrop]
    apply List.cons_ne_nil
  rw [List.head?_append, htop, List.drop_append_of_le_length (Nat.le_of_lt hlt), hdrop]
  use rfl, hr, rfl, hgoto
  rfl

/-- A reduction that is not possible without what is below, takes all that is above it. -/
theorem exists_of_reduceStates_append (habove : t.reduceStates n above = none)
    (h : t.reduceStates n (above ++ below) = some stack') :
  ∃ taken exposed rest target, below = taken ++ exposed :: rest ∧
    (∃ term, t.action? exposed (.term term) = some (.goto target)) ∧
    stack' = target :: exposed :: rest
  := by
  obtain ⟨top, r, exposed, rest, target, htop, hr, hdrop, hgoto, rfl⟩ :=
    reduceStates_eq_some_iff.mp h
  have hle : above.length ≤ r.arity := by
    by_contra hlt
    rw [Nat.not_le] at hlt
    rw [List.drop_append_of_le_length (Nat.le_of_lt hlt)] at hdrop
    have hcase := List.drop_eq_getElem_cons hlt
    rw [hcase, List.cons_append] at hdrop
    obtain ⟨rfl, -⟩ := List.cons.inj hdrop
    have htop' : above.head? = some top := by
      rwa [List.head?_append_of_ne_nil _ (List.ne_nil_of_length_pos (Nat.zero_lt_of_lt hlt))] at htop
    have hsome := reduceStates_eq_some_iff.mpr
      ⟨top, r, _, _, target, htop', hr, hcase, hgoto, rfl⟩
    rw [habove] at hsome
    cases hsome
  rw [List.drop_append, List.drop_eq_nil_iff.mpr hle, List.nil_append] at hdrop
  use below.take (r.arity - above.length), exposed, rest, target
  rw [← hdrop, List.take_append_drop]
  use rfl
  use ⟨r.owner, hgoto⟩

theorem reductions_append (h : t.reductions n k above = some above') :
  t.reductions n k (above ++ below) = some (above' ++ below)
  := by
  induction k generalizing above with
  | zero =>
    cases h
    rfl
  | succ k ih =>
    obtain ⟨next, hnext, hrest⟩ := Option.bind_eq_some_iff.mp h
    rw [reductions, reduceStates_append hnext, Option.bind_some]
    apply ih hrest

/-! ### Reductions after a transition -/

/-- The stack is that after a transition from `origin`, with only states of the table on top of
it. -/
def Above (t : ParseTable) (origin : StateId) (stack : List StateId) : Prop :=
  ∃ above, stack = above ++ [origin] ∧ ∀ id ∈ above, id < t.rows.size

/-- The transitions of the table lead to states of the table. -/
def TargetsBounded (t : ParseTable) : Prop :=
  ∀ id x target, t.action? id x = some (.goto target) → target < t.rows.size

/-- The transitions of a table of the canonical automaton lead to its states. -/
theorem IsFilledOf.targetsBounded {g : AugmentedGrammar} {policy : Policy} (hg : g.WellFormed)
    (h : IsFilledOf g (Automaton.build g) policy t) :
  t.TargetsBounded
  := by
  intro id x target ha
  obtain ⟨state, hs, hcell⟩ := h.mem_candidates_of_action? ha
  rcases hcell with hcell | herror
  · obtain ⟨next, hnext, -⟩ := Automaton.exists_target hg (List.mem_of_getElem? hs)
      (State.goto_mem_candidates.mp hcell).1
    rw [h.size_eq]
    apply (List.getElem?_eq_some_iff.mp hnext).1
  · cases herror

/-- Reductions do not take away the state that a transition started from. -/
theorem Above.reduceStates (ht : t.TargetsBounded) (h : t.Above origin stack)
    (hstack : t.reduceStates n stack = some stack') :
  t.Above origin stack'
  := by
  obtain ⟨above, rfl, hbound⟩ := h
  obtain ⟨top, r, exposed, rest, target, -, -, hdrop, hgoto, rfl⟩ :=
    reduceStates_eq_some_iff.mp hstack
  have hle : r.arity ≤ above.length := by
    rw [← Nat.lt_succ_iff, ← Nat.not_le]
    intro hle
    rw [List.drop_eq_nil_iff.mpr (by simpa using hle)] at hdrop
    cases hdrop
  rw [List.drop_append_of_le_length hle] at hdrop
  use target :: above.drop r.arity
  use by rw [List.cons_append, hdrop]
  intro id hid
  rcases List.mem_cons.mp hid with rfl | hid
  · apply ht exposed _ id hgoto
  · apply hbound id (List.mem_of_mem_drop hid)

theorem Above.reductions (ht : t.TargetsBounded) (h : t.Above origin stack)
    (hstack : t.reductions n k stack = some stack') :
  t.Above origin stack'
  := by
  induction k generalizing stack with
  | zero =>
    cases hstack
    apply h
  | succ k ih =>
    obtain ⟨next, hnext, hrest⟩ := Option.bind_eq_some_iff.mp hstack
    apply ih (h.reduceStates ht hnext) hrest

/-- If a replay comes to an end, then its stacks are all different, and not higher than there are
states. -/
theorem reductions_of_replay {bound : Nat} {earlier : List (List StateId)}
    (h : t.replay n bound earlier stack = none) (hk : k < bound)
    (hstack : t.reductions n k stack = some stack') :
  stack' ∉ earlier ∧ stack'.length ≤ t.rows.size + 2 ∧
    ∀ j < k, t.reductions n j stack ≠ some stack'
  := by
  induction k generalizing bound earlier stack with
  | zero =>
    obtain ⟨bound, rfl⟩ := Nat.exists_eq_succ_of_ne_zero (Nat.ne_of_gt hk)
    cases hstack
    rw [replay] at h
    split at h
    · cases h
    · next hnew =>
      rw [Bool.or_eq_true, decide_eq_true_eq, decide_eq_true_eq, not_or, Nat.not_lt] at hnew
      use hnew.1, hnew.2
      intro j hj
      cases hj
  | succ k ih =>
    obtain ⟨bound, rfl⟩ := Nat.exists_eq_succ_of_ne_zero (Nat.ne_of_gt (Nat.zero_lt_of_lt hk))
    obtain ⟨next, hnext, hrest⟩ := Option.bind_eq_some_iff.mp hstack
    rw [replay] at h
    split at h
    · cases h
    · rw [hnext, Option.bind_some] at h
      obtain ⟨hnew, hle, hdistinct⟩ := ih h (Nat.lt_of_succ_lt_succ hk) hrest
      rw [List.mem_cons, not_or] at hnew
      use hnew.2, hle
      intro j hj
      cases j with
      | zero =>
        intro heq
        cases heq
        apply hnew.1 rfl
      | succ j =>
        rw [reductions, hnext, Option.bind_some]
        apply hdistinct j (Nat.lt_of_succ_lt_succ hj)

/-- The form of a stack: which states are on top of its last one. -/
def form (t : ParseTable) (stack : List StateId) (i : Fin (t.rows.size + 1)) :
    Option (Fin t.rows.size) :=
  stack.dropLast[i.val]?.bind fun id => if h : id < t.rows.size then some ⟨id, h⟩ else none

/-- The form tells the states on top. -/
theorem map_form (habove : ∀ id ∈ above, id < t.rows.size) (i : Fin (t.rows.size + 1)) :
  (t.form (above ++ [origin]) i).map Fin.val = above[i.val]?
  := by
  rw [form, List.dropLast_concat]
  cases hi : above[i.val]? with
  | none => rfl
  | some id =>
    rw [Option.bind_some, dif_pos (habove id (List.mem_of_getElem? hi))]
    rfl

/-- Stacks after a transition from the same state are the same if they have the same form and are
not too high. -/
theorem eq_of_form_eq (h : t.Above origin stack) (h' : t.Above origin stack')
    (hle : stack.length ≤ t.rows.size + 2) (hle' : stack'.length ≤ t.rows.size + 2)
    (hform : t.form stack = t.form stack') :
  stack = stack'
  := by
  obtain ⟨above, rfl, hbound⟩ := h
  obtain ⟨above', rfl, hbound'⟩ := h'
  rw [List.length_append, List.length_singleton] at hle hle'
  congr 1
  apply List.ext_getElem?
  intro i
  by_cases hi : i < t.rows.size + 1
  · rw [← map_form hbound ⟨i, hi⟩, ← map_form hbound' ⟨i, hi⟩, hform]
  · rw [List.getElem?_eq_none (by omega), List.getElem?_eq_none (by omega)]

/-- A replay may be longer than there are forms. -/
theorem pow_lt_replayBound (t : ParseTable) :
  (t.rows.size + 1) ^ (t.rows.size + 1) < t.replayBound
  := by
  have hle : (t.rows.size + 1) ^ (t.rows.size + 1) ≤ (t.rows.size + 1) ^ (t.rows.size + 2) :=
    Nat.pow_le_pow_right (Nat.succ_pos _) (Nat.le_succ _)
  rw [replayBound, Nat.pow_eq]
  omega

/-- If a replay comes to an end, then there are no more reductions than stacks of different
forms. -/
theorem reductions_eq_none_of_replay (ht : t.TargetsBounded) (htarget : target < t.rows.size)
    (h : t.replay n t.replayBound [] [target, origin] = none) :
  t.reductions n ((t.rows.size + 1) ^ (t.rows.size + 1)) [target, origin] = none
  := by
  by_contra hne
  have hsome := Option.isSome_iff_ne_none.mpr hne
  have hstacks : ∀ j : Fin ((t.rows.size + 1) ^ (t.rows.size + 1) + 1),
      ∃ stack, t.reductions n j.val [target, origin] = some stack := by
    intro j
    apply exists_reductions_of_le (Nat.le_of_lt_succ j.isLt) hsome
  choose met hmet using hstacks
  obtain ⟨i, j, hij, hform⟩ := Fintype.exists_ne_map_eq_of_card_lt (fun j => t.form (met j)) (by simp)
  have hspec := fun j => reductions_of_replay h
    (Nat.lt_of_le_of_lt (Nat.le_of_lt_succ j.isLt) t.pow_lt_replayBound) (hmet j)
  have habove : t.Above origin [target, origin] := by
    use [target], rfl
    simpa using htarget
  have heq := eq_of_form_eq (habove.reductions ht (hmet i)) (habove.reductions ht (hmet j))
    (hspec i).2.1 (hspec j).2.1 hform
  rcases Nat.lt_or_gt_of_ne (Fin.val_ne_of_ne hij) with hlt | hlt
  · apply (hspec j).2.2 i.val hlt
    rw [hmet i, heq]
  · apply (hspec i).2.2 j.val hlt
    rw [hmet j, heq]

/-- A token for which some state has an action is a token of the table. -/
theorem mem_tokens_of_action? {id : StateId} {action : Action}
    (h : t.action? id (.token n) = some action) :
  n ∈ t.tokens
  := by
  obtain ⟨row, hrow, hcell⟩ := exists_row_of_action? h
  rw [tokens, List.mem_eraseDups, List.mem_flatMap]
  use row, List.mem_of_getElem? hrow
  rw [List.mem_filterMap]
  use (.token n, action), hcell

/-- The replays of all transitions come to an end if there is none after which reductions never
end. -/
theorem replay_eq_none (h : t.gotoLoop? = none) {term : TermId}
    (hgoto : t.action? origin (.term term) = some (.goto target)) (hn : n ∈ t.tokens) :
  t.replay n t.replayBound [] [target, origin] = none
  := by
  obtain ⟨row, hrow, hcell⟩ := exists_row_of_action? hgoto
  rw [gotoLoop?, List.findSome?_eq_none_iff] at h
  have hcells := h (row, origin) (List.mem_zipIdx_iff_getElem?.mpr hrow)
  rw [List.findSome?_eq_none_iff] at hcells
  have htokens := hcells _ hcell
  rw [Option.map_eq_none_iff, List.findSome?_eq_none_iff] at htokens
  apply Option.map_eq_none_iff.mp (htokens n hn)

/-- If there is no transition after which reductions never end, then there are not many after any
transition. -/
theorem reductions_eq_none_of_transition (ht : t.TargetsBounded) (h : t.gotoLoop? = none)
    {term : TermId} (hgoto : t.action? origin (.term term) = some (.goto target)) :
  t.reductions n ((t.rows.size + 1) ^ (t.rows.size + 1)) [target, origin] = none
  := by
  by_cases hn : n ∈ t.tokens
  · apply reductions_eq_none_of_replay ht (ht origin _ target hgoto)
    apply replay_eq_none h hgoto hn
  · obtain ⟨k, hk⟩ := Nat.exists_eq_succ_of_ne_zero
      (Nat.ne_of_gt (Nat.pow_pos (Nat.succ_pos t.rows.size) : 0 < _ ^ (t.rows.size + 1)))
    have hnone : t.reduceStates n [target, origin] = none := by
      rw [Option.eq_none_iff_forall_ne_some]
      intro stack hstack
      obtain ⟨top, r, -, -, -, -, hr, -⟩ := reduceStates_eq_some_iff.mp hstack
      apply hn (mem_tokens_of_action? hr)
    rw [hk, reductions, hnone, Option.bind_none]

/-! ### Runs on any stack -/

/-- A run that is not possible to a certain length stops before. -/
theorem exists_stuck_of_reductions_eq_none (h : t.reductions n k stack = none) :
  ∃ j stack', j < k ∧ t.reductions n j stack = some stack' ∧ t.reduceStates n stack' = none
  := by
  induction k generalizing stack with
  | zero => cases h
  | succ k ih =>
    cases hnext : t.reduceStates n stack with
    | none => use 0, stack, Nat.succ_pos k, rfl
    | some next =>
      rw [reductions, hnext, Option.bind_some] at h
      obtain ⟨j, stack', hj, hrun, hstuck⟩ := ih h
      use j + 1, stack', Nat.succ_lt_succ hj
      rw [reductions, hnext]
      use hrun

/-- From a stack on which no reduction is possible without what is below, there are not many
reductions. -/
theorem length_le_of_reductions_append (ht : t.TargetsBounded) (h : t.gotoLoop? = none)
    (habove : t.reduceStates n above = none)
    (hstack : t.reductions n k (above ++ below) = some stack') :
  k ≤ below.length * (t.rows.size + 1) ^ (t.rows.size + 1)
  := by
  induction hlength : below.length using Nat.strongRecOn generalizing k above below with
  | ind length ih =>
    cases k with
    | zero => apply Nat.zero_le
    | succ k =>
      obtain ⟨next, hnext, hrest⟩ := Option.bind_eq_some_iff.mp hstack
      obtain ⟨taken, exposed, rest, target, rfl, ⟨term, hgoto⟩, rfl⟩ :=
        exists_of_reduceStates_append habove hnext
      -- The run goes on as it would after the transition alone, until that is stuck.
      obtain ⟨j, above', hj, hlocal, hstuck⟩ := exists_stuck_of_reductions_eq_none
        (reductions_eq_none_of_transition (n := n) ht h hgoto)
      have hrun : t.reductions n j (target :: exposed :: rest) = some (above' ++ rest) :=
        reductions_append hlocal
      have hlt : rest.length < length := by
        rw [← hlength, List.length_append, List.length_cons]
        omega
      have hle := Nat.mul_le_mul_right ((t.rows.size + 1) ^ (t.rows.size + 1)) hlt
      rw [Nat.succ_mul] at hle
      rcases Nat.le_total k j with hkj | hjk
      · omega
      · obtain ⟨k, rfl⟩ := Nat.exists_eq_add_of_le hjk
        rw [reductions_add, hrun, Option.bind_some] at hrest
        have hrest := ih rest.length hlt hstuck hrest rfl
        omega

/-- There are not many reductions from any stack. -/
theorem length_le_of_reductions (ht : t.TargetsBounded) (h : t.gotoLoop? = none)
    (hstack : t.reductions n k stack = some stack') :
  k ≤ stack.length * (t.rows.size + 1) ^ (t.rows.size + 1)
  := by
  have habove : t.reduceStates n [] = none := rfl
  apply length_le_of_reductions_append ht h habove hstack

end CanonicalLR.ParseTable
