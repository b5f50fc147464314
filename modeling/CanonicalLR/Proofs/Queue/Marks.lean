import CanonicalLR.Queue.Marked
import CanonicalLR.Proofs.Queue.Records

/-!
# The marks of a queue

The marked values of a `MarkedQueue` are those that are waiting, whatever it is asked for.  So it does the
same as a queue in which the waiting values are searched (`MarkedQueue.Mirrors`), and it is as faithful: it
neither loses a value nor repeats one, and the values leave it in the order in which they came
(`MarkedQueue.faithful_run`).
-/

namespace CanonicalLR.MarkedQueue

open Queue

universe u v

variable {α : Type u} {σ : Type v} {o : SetOperations α σ} {q : MarkedQueue α σ} {p : Queue α}

/-- The operations on queues with marks. -/
def operations (o : SetOperations α σ) : QueueOperations α (MarkedQueue α σ) where
  push := push o
  pop? := pop? o

/-- The queue agrees with the record of what happened to it. -/
structure Faithful (o : SetOperations α σ) (record : List (Event α)) (q : MarkedQueue α σ) : Prop where
  /-- No value waits twice. -/
  nodup : q.waiting.Nodup
  /-- The values that are marked are those that are waiting. -/
  contains_iff : ∀ a, o.contains q.marks a = true ↔ a ∈ q.waiting
  /-- The values with waiting pushes are waiting, in the order of their oldest waiting pushes. -/
  lists : Lists record q.waiting
  /-- The values were popped in that order. -/
  fair : Fair record
  /-- A value that was popped, and was not pushed since, is put behind the waiting values when it is
  pushed. -/
  requeues : ∀ a before after, record = before ++ .popped (some a) :: after → .pushed a ∉ after →
    (q.push o a).waiting = q.waiting ++ [a]

/-- The same values are waiting in the two queues, and they are the values that are marked. -/
structure Mirrors (o : SetOperations α σ) (q : MarkedQueue α σ) (p : Queue α) : Prop where
  waiting_eq : q.waiting = p.toList
  contains_iff : ∀ a, o.contains q.marks a = true ↔ a ∈ q.waiting

section lawful

variable [DecidableEq α] (ho : o.Lawful)

include ho

/-! ### Marks and waiting values -/

theorem waiting_push (h : ∀ a, o.contains q.marks a = true ↔ a ∈ q.waiting) (a : α) :
  (q.push o a).waiting = if a ∈ q.waiting then q.waiting else q.waiting ++ [a]
  := by
  simp only [push, ho.fst_insert, Bool.not_eq_true', ← Bool.not_eq_true, h, ite_not]

omit [DecidableEq α] in
theorem mirrors_empty :
  Mirrors o (empty o) Queue.empty
  := by
  constructor
  · rfl
  · intro a
    simp [empty, ho.contains_empty]

namespace Mirrors

/-- A value becomes marked and waiting, or it was both of them before. -/
theorem push (h : Mirrors o q p) (a : α) :
  Mirrors o (q.push o a) (p.push a)
  := by
  have hwaiting := waiting_push ho h.contains_iff a
  constructor
  · rw [hwaiting, toList_push, h.waiting_eq]
  · intro b
    have hmarks : (q.push o a).marks = (o.insert q.marks a).2 := rfl
    rw [hmarks, ho.contains_insert, h.contains_iff, h.waiting_eq, hwaiting, h.waiting_eq, ← toList_push,
      mem_push]

/-- The same value is popped, and it is neither marked nor waiting any more. -/
theorem answer_pop (h : Mirrors o q p) :
  ((operations o).answer q .pop).1 = (Queue.operations.answer p .pop).1 ∧
    Mirrors o ((operations o).answer q .pop).2 (Queue.operations.answer p .pop).2
  := by
  obtain ⟨waiting, marks⟩ := q
  obtain ⟨toList, hnodup⟩ := p
  obtain rfl : waiting = toList := h.waiting_eq
  cases waiting with
  | nil => exact ⟨rfl, h⟩
  | cons a rest =>
    have ha : a ∉ rest := (List.nodup_cons.mp hnodup).1
    refine ⟨rfl, rfl, ?_⟩
    intro b
    have hb : o.contains marks b = true ↔ b ∈ a :: rest := h.contains_iff b
    change o.contains (o.remove marks a) b = true ↔ b ∈ rest
    rw [ho.contains_remove, hb, List.mem_cons]
    constructor
    · rintro ⟨rfl | hrest, hne⟩
      · apply absurd rfl hne
      · apply hrest
    · intro hrest
      use .inr hrest
      rintro rfl
      apply ha hrest

/-- Whatever the two queues are asked for, the same happens, and they go on having the same values. -/
theorem run (h : Mirrors o q p) (requests : List (Request α)) :
  ((operations o).run q requests).1 = (Queue.operations.run p requests).1 ∧
    Mirrors o ((operations o).run q requests).2 (Queue.operations.run p requests).2
  := by
  apply QueueOperations.rel_run _ h
  intro q p h r
  cases r with
  | push a => exact ⟨rfl, h.push ho a⟩
  | pop => apply h.answer_pop ho

theorem faithful {record : List (Event α)} (h : Mirrors o q p) (hp : Accounts record p) :
  Faithful o record q
  := by
  have hlists : Lists record q.waiting := by
    rw [h.waiting_eq]
    apply hp.lists
  refine ⟨hlists.nodup, h.contains_iff, hlists, hp.fair, ?_⟩
  rintro a before after rfl hafter
  rw [waiting_push ho h.contains_iff, if_neg]
  intro ha
  obtain ⟨i, hi⟩ := (hlists.mem_iff a).mp ha
  apply not_waitingPush_of_popped hafter hi

end Mirrors

theorem mirrors_ofList (as : List α) :
  Mirrors o (ofList o as) (Queue.ofList as)
  := by
  have h := ((mirrors_empty ho).run ho (as.map .push)).2
  rw [QueueOperations.run_push, QueueOperations.run_push] at h
  apply h

/-! ### What happens to a queue -/

/-- A queue that begins with the values of a list, none or any others, is faithful whatever it is asked for
then, and the same happens to it as to a queue without marks. -/
theorem faithful_run (as : List α) (requests : List (Request α)) :
  let events := ((operations o).run (ofList o as) requests).1
  let q := ((operations o).run (ofList o as) requests).2
  let record := as.map Event.pushed ++ events
  record.map Event.request = as.map Request.push ++ requests ∧ Faithful o record q ∧
    (Queue.operations.run (Queue.ofList as) requests).1 = events ∧
    (Queue.operations.run (Queue.ofList as) requests).2.toList = q.waiting
  := by
  intro events q record
  obtain ⟨hevents, hmirrors⟩ := (mirrors_ofList ho as).run ho requests
  have haccounts := (accounts_ofList as).run requests
  rw [← hevents] at haccounts
  refine ⟨?_, hmirrors.faithful ho haccounts, hevents.symm, hmirrors.waiting_eq.symm⟩
  rw [List.map_append, QueueOperations.map_request_run, List.map_map]
  rfl

end lawful

/-- A value that is pushed while it waits keeps its place.  The value 1 waits again when it is pushed after
it was popped, and then it is behind 2 and 3. -/
theorem faithful_run_returning :
  let o := ListedSet.operations (α := Nat)
  let run := (operations o).run (ofList o [1, 2, 3, 1])
    [.pop, .push 3, .push 1, .push 2, .pop, .pop, .pop, .pop]
  o.Lawful ∧
    run.1 = [.popped (some 1), .pushed 3, .pushed 1, .pushed 2, .popped (some 2), .popped (some 3),
      .popped (some 1), .popped none] ∧
    Faithful o ([.pushed 1, .pushed 2, .pushed 3, .pushed 1] ++ run.1) run.2
  := by
  intro o run
  have hfaithful := (faithful_run (ListedSet.lawful_operations (α := Nat)) [1, 2, 3, 1]
    [.pop, .push 3, .push 1, .push 2, .pop, .pop, .pop, .pop]).2.1
  exact ⟨ListedSet.lawful_operations, by decide, hfaithful⟩

end CanonicalLR.MarkedQueue
