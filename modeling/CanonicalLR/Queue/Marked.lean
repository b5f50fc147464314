import CanonicalLR.Queue

/-!
# Queues with marks

To find out whether a value is waiting in a queue, the waiting values need not be searched.  A
`MarkedQueue` has a set of values beside the list of those that are waiting: a value is *marked*, which
means put into this set, when it is pushed, and its mark is removed when it is popped.

It does not matter how the sets are represented.  The queue knows nothing but their operations
(`SetOperations`), which are `Lawful` if they do with the elements what is expected of them.  So are those
of a `ListedSet`, a list in which the last element is moved to the place of one that is removed.
-/

namespace CanonicalLR

universe u v

/-! ### Sets of values -/

/-- The operations on the sets of a type `σ`, the elements of which are in `α`. -/
structure SetOperations (α : Type u) (σ : Type v) where
  empty : σ
  /-- Whether a value is an element. -/
  contains : σ → α → Bool
  /-- Whether a value is not an element yet, and the set with it. -/
  insert : σ → α → Bool × σ
  /-- The set without a value. -/
  remove : σ → α → σ

/-- What is expected of the operations. -/
structure SetOperations.Lawful {α : Type u} {σ : Type v} (o : SetOperations α σ) : Prop where
  contains_empty : ∀ a, o.contains o.empty a = false
  fst_insert : ∀ s a, (o.insert s a).1 = !o.contains s a
  contains_insert : ∀ s a b, o.contains (o.insert s a).2 b = true ↔ o.contains s b = true ∨ b = a
  contains_remove : ∀ s a b, o.contains (o.remove s a) b = true ↔ o.contains s b = true ∧ b ≠ a

/-! ### Sets in lists -/

/-- The list in which the last element is moved to the first place of `a`, which is removed. -/
def swapRemove {α : Type u} [DecidableEq α] (a : α) : List α → List α
  | [] => []
  | b :: rest =>
    if b = a then
      match rest.getLast? with
      | none => []
      | some last => last :: rest.dropLast
    else b :: swapRemove a rest

theorem swapRemove_perm {α : Type u} [DecidableEq α] (a : α) (as : List α) :
  (swapRemove a as).Perm (as.erase a)
  := by
  induction as with
  | nil => exact .refl []
  | cons b rest ih =>
    rw [swapRemove, List.erase_cons]
    by_cases hb : b = a
    · rw [if_pos hb, if_pos (beq_iff_eq.mpr hb)]
      split
      · next hnone => rw [List.getLast?_eq_none_iff.mp hnone]
      · next last hlast =>
        obtain ⟨front, rfl⟩ := List.getLast?_eq_some_iff.mp hlast
        rw [List.dropLast_concat]
        exact (List.perm_append_singleton last front).symm
    · rw [if_neg hb, if_neg (by simpa using hb)]
      exact ih.cons b

/-- A set with its elements in a list. -/
structure ListedSet (α : Type u) where
  elements : List α
  nodup : elements.Nodup

/-- The operations on sets in lists: a new element is the last one, and the last element is moved to the
place of one that is removed. -/
def ListedSet.operations {α : Type u} [DecidableEq α] : SetOperations α (ListedSet α) where
  empty := ⟨[], List.nodup_nil⟩
  contains s a := decide (a ∈ s.elements)
  insert s a :=
    if h : a ∈ s.elements then (false, s)
    else (true, ⟨s.elements ++ [a],
      (List.perm_append_singleton a s.elements).nodup_iff.mpr (List.nodup_cons.mpr ⟨h, s.nodup⟩)⟩)
  remove s a := ⟨swapRemove a s.elements, (swapRemove_perm a s.elements).nodup_iff.mpr (s.nodup.erase a)⟩

theorem ListedSet.lawful_operations {α : Type u} [DecidableEq α] :
  (operations (α := α)).Lawful
  := by
  constructor
  · intro a
    simp [operations]
  · intro s a
    simp only [operations]
    split <;> simp_all
  · intro s a b
    simp only [operations]
    split <;> simp_all
  · intro s a b
    simp only [operations, decide_eq_true_eq]
    rw [(swapRemove_perm a s.elements).mem_iff, s.nodup.mem_erase_iff, and_comm]

/-! ### The queue -/

/-- A queue with the set of the waiting values. -/
structure MarkedQueue (α : Type u) (σ : Type v) where
  /-- The waiting values, the oldest first. -/
  waiting : List α
  /-- The set of the values that are marked. -/
  marks : σ

namespace MarkedQueue

variable {α : Type u} {σ : Type v} (o : SetOperations α σ)

/-- The queue in which nothing waits. -/
def empty : MarkedQueue α σ :=
  ⟨[], o.empty⟩

/-- The queue with `a` marked, and behind the waiting values if it was not marked before. -/
def push (q : MarkedQueue α σ) (a : α) : MarkedQueue α σ :=
  let (fresh, marks) := o.insert q.marks a
  ⟨if fresh then q.waiting ++ [a] else q.waiting, marks⟩

/-- The oldest waiting value and the queue without it and its mark. -/
def pop? (q : MarkedQueue α σ) : Option (α × MarkedQueue α σ) :=
  match q.waiting with
  | [] => none
  | a :: waiting => some (a, ⟨waiting, o.remove q.marks a⟩)

/-- The queue of the values of a list, pushed from left to right. -/
def ofList (as : List α) : MarkedQueue α σ :=
  as.foldl (push o) (empty o)

end MarkedQueue

end CanonicalLR
