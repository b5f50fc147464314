import Mathlib.Data.Nat.Find
import Mathlib.Tactic.Use
import CanonicalLR.Queue

/-!
# Records of queues

A record notes what happens to a queue: the values that are pushed, and the answers when one is popped.
A push is a *waiting push* for as long as its value is not popped (`Queue.WaitingPush`).  So the record
tells which values have to wait, and in what order: those with waiting pushes, in the order of the oldest
waiting push of each (`Queue.Lists`).  It also tells whether each answer was right, which it was if that
value had the oldest of all waiting pushes (`Queue.Fair`).

Whatever a queue is asked for, just these values wait in it, in this order, and all its answers are right
(`Queue.Accounts.run`).
-/

namespace CanonicalLR

universe u v w

namespace Queue

variable {α : Type u}

/-! ### What is waiting -/

section waiting

variable [DecidableEq α] {q : Queue α} {a x : α} {as : List α}

theorem mem_push :
  x ∈ (q.push a).toList ↔ x ∈ q.toList ∨ x = a
  := by
  rw [toList_push]
  split
  · next ha =>
    constructor
    · apply Or.inl
    · rintro (hx | rfl)
      · apply hx
      · apply ha
  · simp

theorem mem_pushAll :
  x ∈ (q.pushAll as).toList ↔ x ∈ q.toList ∨ x ∈ as
  := by
  induction as generalizing q with
  | nil => simp [pushAll]
  | cons a as ih =>
    change x ∈ ((q.push a).pushAll as).toList ↔ _
    rw [ih, mem_push, List.mem_cons, or_assoc]

theorem mem_ofList :
  x ∈ (ofList as).toList ↔ x ∈ as
  := by
  rw [ofList, mem_pushAll]
  simp [empty]

end waiting

/-- A value is popped if it is in front. -/
theorem toList_of_pop? {q rest : Queue α} {a : α} (h : q.pop? = some (a, rest)) :
  q.toList = a :: rest.toList
  := by
  obtain ⟨_ | ⟨b, bs⟩, hnodup⟩ := q
  · cases h
  · cases h
    rfl

/-! ### Records -/

/-- What a queue can be asked for. -/
inductive Request (α : Type u) where
  | push (a : α)
  | pop

/-- What happens when a queue is asked for something: a value is pushed, or one is popped, if any waits. -/
inductive Event (α : Type u) where
  | pushed (a : α)
  | popped (answer : Option α)
deriving DecidableEq

/-- What was asked for when something happened. -/
def Event.request : Event α → Request α
  | pushed a => .push a
  | popped _ => .pop

/-- At the time `i` the value `a` was pushed, and it was not popped since. -/
def WaitingPush (record : List (Event α)) (a : α) (i : Nat) : Prop :=
  record[i]? = some (.pushed a) ∧ .popped (some a) ∉ record.drop (i + 1)

/-- The oldest waiting push of `a` is older than all waiting pushes of `b`. -/
def Ahead (record : List (Event α)) (a b : α) : Prop :=
  ∃ i, WaitingPush record a i ∧ ∀ j, WaitingPush record b j → i < j

/-- The answer is the value with the oldest of all waiting pushes, or no value if no push is waiting. -/
def Oldest (record : List (Event α)) : Option α → Prop
  | none => ∀ b j, ¬ WaitingPush record b j
  | some a => ∃ i, WaitingPush record a i ∧ ∀ b j, WaitingPush record b j → i ≤ j

/-- Each answer was the value with the oldest of all pushes that were waiting at that time. -/
def Fair (record : List (Event α)) : Prop :=
  ∀ before answer after, record = before ++ .popped answer :: after → Oldest before answer

/-- The list consists of the values with waiting pushes, in the order of their oldest waiting pushes. -/
structure Lists (record : List (Event α)) (waiting : List α) : Prop where
  mem_iff : ∀ a, a ∈ waiting ↔ ∃ i, WaitingPush record a i
  ahead : waiting.Pairwise (Ahead record)

variable {record before after : List (Event α)} {e : Event α} {a b : α} {i : Nat} {waiting : List α}

theorem WaitingPush.lt_length (h : WaitingPush record a i) :
  i < record.length
  := (List.getElem?_eq_some_iff.mp h.1).1

theorem not_waitingPush_nil :
  ¬ WaitingPush ([] : List (Event α)) a i
  := by
  rintro ⟨⟨⟩, -⟩

/-- A waiting push goes on waiting unless its value is popped, and a push that is made is waiting. -/
theorem waitingPush_concat :
  WaitingPush (record ++ [e]) a i ↔
    WaitingPush record a i ∧ e ≠ .popped (some a) ∨ i = record.length ∧ e = .pushed a
  := by
  rcases Nat.lt_trichotomy i record.length with hi | rfl | hi
  · simp [WaitingPush, List.getElem?_append_left hi, List.drop_append_of_le_length hi, Nat.ne_of_lt hi,
      and_assoc, eq_comm]
  · simp [WaitingPush]
  · have hnone : (record ++ [e])[i]? = none := by
      rw [List.getElem?_eq_none_iff, List.length_append]
      apply hi
    simp [WaitingPush, hnone, List.getElem?_eq_none (Nat.le_of_lt hi), Nat.ne_of_gt hi]

theorem WaitingPush.exists_least (h : WaitingPush record a i) :
  ∃ i, WaitingPush record a i ∧ ∀ j, WaitingPush record a j → i ≤ j
  := by
  classical
  have hexists : ∃ i, WaitingPush record a i := ⟨i, h⟩
  use Nat.find hexists, Nat.find_spec hexists
  intro j hj
  apply Nat.find_min' hexists hj

/-- A value that was popped and was not pushed since has no waiting push. -/
theorem not_waitingPush_of_popped (h : .pushed a ∉ after) :
  ¬ WaitingPush (before ++ .popped (some a) :: after) a i
  := by
  rintro ⟨hpushed, hpopped⟩
  rcases Nat.lt_or_ge i before.length with hi | hi
  · apply hpopped
    rw [List.drop_append_of_le_length hi]
    simp
  · rw [List.getElem?_append_right hi] at hpushed
    rcases List.mem_cons.mp (List.mem_of_getElem? hpushed) with hfirst | hafter
    · cases hfirst
    · apply h hafter

theorem Ahead.concat (h : Ahead record a b) (he : e ≠ .popped (some a)) :
  Ahead (record ++ [e]) a b
  := by
  obtain ⟨i, hi, hfirst⟩ := h
  use i, waitingPush_concat.mpr (.inl ⟨hi, he⟩)
  intro j hj
  rcases waitingPush_concat.mp hj with ⟨hj, -⟩ | ⟨rfl, -⟩
  · apply hfirst j hj
  · apply hi.lt_length

theorem Fair.concat (h : Fair record) (he : ∀ answer, e = .popped answer → Oldest record answer) :
  Fair (record ++ [e])
  := by
  intro before answer after hrecord
  rcases List.eq_nil_or_concat after with rfl | ⟨front, last, rfl⟩
  · obtain ⟨rfl, rfl⟩ := List.append_singleton_inj.mp hrecord
    apply he answer rfl
  · rw [List.concat_eq_append, ← List.cons_append, ← List.append_assoc, List.append_singleton_inj] at hrecord
    apply h before answer front hrecord.1

/-! ### Lists that agree with a record -/

namespace Lists

theorem nodup (h : Lists record waiting) :
  waiting.Nodup
  := by
  apply h.ahead.imp
  rintro a _ ⟨i, hi, hfirst⟩ rfl
  apply Nat.lt_irrefl i (hfirst i hi)

/-- In front is the value with the oldest of all waiting pushes. -/
theorem oldest (h : Lists record waiting) :
  Oldest record waiting.head?
  := by
  cases waiting with
  | nil =>
    intro b j hj
    apply List.not_mem_nil ((h.mem_iff b).mpr ⟨j, hj⟩)
  | cons a rest =>
    obtain ⟨i, hi⟩ := (h.mem_iff a).mp List.mem_cons_self
    obtain ⟨first, hfirst, hleast⟩ := hi.exists_least
    use first, hfirst
    intro b j hj
    rcases List.mem_cons.mp ((h.mem_iff b).mpr ⟨j, hj⟩) with rfl | hb
    · apply hleast j hj
    · obtain ⟨k, hk, hbefore⟩ := (List.pairwise_cons.mp h.ahead).1 b hb
      exact Nat.le_trans (hleast k hk) (Nat.le_of_lt (hbefore j hj))

/-- A value that is pushed waits behind the others, unless it is waiting already. -/
theorem push [DecidableEq α] {q : Queue α} (h : Lists record q.toList) (a : α) :
  Lists (record ++ [.pushed a]) (q.push a).toList
  := by
  constructor
  · intro b
    rw [mem_push, h.mem_iff]
    constructor
    · rintro (⟨i, hi⟩ | rfl)
      · exact ⟨i, waitingPush_concat.mpr (.inl ⟨hi, nofun⟩)⟩
      · exact ⟨record.length, waitingPush_concat.mpr (.inr ⟨rfl, rfl⟩)⟩
    · rintro ⟨i, hi⟩
      rcases waitingPush_concat.mp hi with ⟨hi, -⟩ | ⟨-, ⟨⟩⟩
      · left
        use i
      · right
        rfl
  · have hahead : q.toList.Pairwise (Ahead (record ++ [.pushed a])) :=
      h.ahead.imp fun hbc => hbc.concat nofun
    rw [toList_push]
    split
    · apply hahead
    · next ha =>
      refine List.pairwise_append.mpr ⟨hahead, List.pairwise_singleton _ a, ?_⟩
      intro b hb c hc
      obtain rfl := List.mem_singleton.mp hc
      obtain ⟨i, hi⟩ := (h.mem_iff b).mp hb
      use i, waitingPush_concat.mpr (.inl ⟨hi, nofun⟩)
      intro j hj
      rcases waitingPush_concat.mp hj with ⟨hj, -⟩ | ⟨rfl, -⟩
      · apply absurd ((h.mem_iff c).mpr ⟨j, hj⟩) ha
      · apply hi.lt_length

/-- The value in front is popped, if there is one, and the others go on waiting. -/
theorem pop (h : Lists record waiting) :
  Lists (record ++ [.popped waiting.head?]) waiting.tail
  := by
  have htail (b : α) : b ∈ waiting.tail ↔ b ∈ waiting ∧ waiting.head? ≠ some b := by
    have hnodup := h.nodup
    cases waiting with
    | nil => simp
    | cons a rest =>
      have ha := (List.nodup_cons.mp hnodup).1
      simp only [List.tail_cons, List.mem_cons, List.head?_cons, ne_eq, Option.some.injEq]
      grind
  constructor
  · intro b
    rw [htail, h.mem_iff]
    constructor
    · rintro ⟨⟨i, hi⟩, hb⟩
      exact ⟨i, waitingPush_concat.mpr (.inl ⟨hi, by simpa using hb⟩)⟩
    · rintro ⟨i, hi⟩
      rcases waitingPush_concat.mp hi with ⟨hi, hb⟩ | ⟨-, ⟨⟩⟩
      use ⟨i, hi⟩
      simpa using hb
  · apply h.ahead.tail.imp_of_mem
    intro b c hb _ hbc
    apply hbc.concat
    simpa using ((htail b).mp hb).2

end Lists

end Queue

/-! ### Asking a queue -/

/-- The operations on the queues of a type `κ`, with values in `α`. -/
structure QueueOperations (α : Type u) (κ : Type v) where
  push : κ → α → κ
  /-- The value in front and the queue without it, if a value is waiting. -/
  pop? : κ → Option (α × κ)

namespace QueueOperations

open Queue

variable {α : Type u} {κ : Type v} {κ' : Type w} (k : QueueOperations α κ) {k' : QueueOperations α κ'}

/-- What happens when the queue is asked, and the queue after that. -/
def answer (q : κ) : Request α → Event α × κ
  | .push a => (.pushed a, k.push q a)
  | .pop =>
    match k.pop? q with
    | none => (.popped none, q)
    | some (a, rest) => (.popped (some a), rest)

/-- What happens when the queue is asked for one thing after the other, and the queue after that. -/
def run (q : κ) : List (Request α) → List (Event α) × κ
  | [] => ([], q)
  | r :: requests =>
    let (event, next) := k.answer q r
    let (events, last) := run next requests
    (event :: events, last)

theorem run_cons (q : κ) (r : Request α) (requests : List (Request α)) :
  k.run q (r :: requests) =
    ((k.answer q r).1 :: (k.run (k.answer q r).2 requests).1, (k.run (k.answer q r).2 requests).2)
  := rfl

/-- What happens is what was asked for. -/
theorem map_request_run (q : κ) (requests : List (Request α)) :
  (k.run q requests).1.map Event.request = requests
  := by
  have hanswer (q : κ) (r : Request α) : (k.answer q r).1.request = r := by
    cases r with
    | push a => rfl
    | pop =>
      rw [answer]
      split <;> rfl
  induction requests generalizing q with
  | nil => rfl
  | cons r requests ih => rw [run_cons, List.map_cons, hanswer, ih]

/-- When values are pushed, nothing else happens. -/
theorem run_push (q : κ) (as : List α) :
  k.run q (as.map .push) = (as.map .pushed, as.foldl k.push q)
  := by
  induction as generalizing q with
  | nil => rfl
  | cons a as ih => rw [List.map_cons, run_cons, answer, ih, List.map_cons, List.foldl_cons]

variable {k}

/-- If every request keeps two queues related, and the same happens to both of them, then so it is when
they are asked for one thing after the other. -/
theorem rel_run {R : κ → κ' → Prop}
    (keep : ∀ q q', R q q' → ∀ r, (k.answer q r).1 = (k'.answer q' r).1 ∧
      R (k.answer q r).2 (k'.answer q' r).2) {q : κ} {q' : κ'} (h : R q q')
    (requests : List (Request α)) :
  (k.run q requests).1 = (k'.run q' requests).1 ∧ R (k.run q requests).2 (k'.run q' requests).2
  := by
  induction requests generalizing q q' with
  | nil => exact ⟨rfl, h⟩
  | cons r requests ih =>
    obtain ⟨hevent, hnext⟩ := keep q q' h r
    obtain ⟨hevents, hlast⟩ := ih hnext
    rw [run_cons, run_cons]
    use congrArg₂ List.cons hevent hevents, hlast

end QueueOperations

/-! ### Queues agree with their records -/

namespace Queue

variable {α : Type u} {record : List (Event α)} {q : Queue α}

/-- The operations on queues without repetition. -/
def operations [DecidableEq α] : QueueOperations α (Queue α) where
  push := push
  pop? := pop?

/-- The queue agrees with the record, and so did all answers that were given. -/
structure Accounts (record : List (Event α)) (q : Queue α) : Prop where
  lists : Lists record q.toList
  fair : Fair record

theorem accounts_empty :
  Accounts [] (empty : Queue α)
  := by
  constructor
  · constructor
    · intro a
      simp [empty, not_waitingPush_nil]
    · exact .nil
  · intro before answer after h
    simp at h

section operations

variable [DecidableEq α]

/-- The value in front is the answer, and the others go on waiting. -/
theorem answer_pop (q : Queue α) :
  (operations.answer q .pop).1 = .popped q.toList.head? ∧
    (operations.answer q .pop).2.toList = q.toList.tail
  := by
  obtain ⟨_ | ⟨a, rest⟩, hnodup⟩ := q <;> exact ⟨rfl, rfl⟩

/-- Whatever a queue is asked for, it agrees with its record. -/
theorem Accounts.answer (h : Accounts record q) (r : Request α) :
  Accounts (record ++ [(operations.answer q r).1]) (operations.answer q r).2
  := by
  cases r with
  | push a =>
    constructor
    · apply h.lists.push
    · apply h.fair.concat
      rintro answer ⟨⟩
  | pop =>
    obtain ⟨hevent, hrest⟩ := answer_pop q
    constructor
    · rw [hevent, hrest]
      apply h.lists.pop
    · apply h.fair.concat
      rintro answer hanswer
      obtain rfl : q.toList.head? = answer := by simpa [hevent] using hanswer
      apply h.lists.oldest

/-- A queue agrees with its record all the time. -/
theorem Accounts.run (h : Accounts record q) (requests : List (Request α)) :
  Accounts (record ++ (operations.run q requests).1) (operations.run q requests).2
  := by
  induction requests generalizing record q with
  | nil =>
    rw [QueueOperations.run, List.append_nil]
    apply h
  | cons r requests ih =>
    rw [QueueOperations.run_cons, ← List.singleton_append, ← List.append_assoc]
    apply ih (h.answer r)

/-- The queue of the values of a list agrees with a record in which they are pushed. -/
theorem accounts_ofList (as : List α) :
  Accounts (as.map .pushed) (ofList as)
  := by
  have h := accounts_empty.run (as.map .push)
  rw [QueueOperations.run_push, List.nil_append] at h
  apply h

end operations

end Queue

end CanonicalLR
