/-!
# Queues without repetition

The type `Queue α` of first-in first-out queues in which no value waits twice: a value that is
already waiting is not taken again.  The queues of this library hold work that may be asked for
many times while it waits to be done.
-/

namespace CanonicalLR

universe u

/-- A first-in first-out queue in which no value waits twice. -/
structure Queue (α : Type u) where
  /-- The waiting values, the oldest first. -/
  toList : List α
  nodup : toList.Nodup

namespace Queue

variable {α : Type u}

/-- The queue in which nothing waits. -/
def empty : Queue α :=
  ⟨[], List.nodup_nil⟩

instance : Inhabited (Queue α) :=
  ⟨empty⟩

/-- The queue with `a` behind the waiting values, unless it is one of them. -/
def push [DecidableEq α] (q : Queue α) (a : α) : Queue α :=
  if h : a ∈ q.toList then q
  else ⟨q.toList ++ [a], List.nodup_append.mpr
    ⟨q.nodup, List.pairwise_singleton _ a, fun b hb c hc he => by
      rw [List.mem_singleton] at hc
      subst hc he
      exact h hb⟩⟩

/-- The oldest waiting value and the queue without it. -/
def pop? (q : Queue α) : Option (α × Queue α) :=
  match q with
  | ⟨[], _⟩ => none
  | ⟨a :: rest, nodup⟩ => some (a, ⟨rest, (List.nodup_cons.mp nodup).2⟩)

/-- The queue with the values of a list pushed from left to right. -/
def pushAll [DecidableEq α] (q : Queue α) (as : List α) : Queue α :=
  as.foldl push q

/-- The queue of the values of a list, each at its first occurrence. -/
def ofList [DecidableEq α] (as : List α) : Queue α :=
  empty.pushAll as

theorem toList_push [DecidableEq α] (q : Queue α) (a : α) :
  (q.push a).toList = if a ∈ q.toList then q.toList else q.toList ++ [a]
  := by
  unfold push
  split <;> simp_all

end Queue

end CanonicalLR
