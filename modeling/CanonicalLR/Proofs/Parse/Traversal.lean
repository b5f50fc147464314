import CanonicalLR.Parse.Traversal
import CanonicalLR.Proofs.Language.Tree

/-!
# The tokens of a tree

The tokens of a tree are its leaves from left to right, whether they are collected with a stack that has
its top in front (`Node.tokens_eq_leaves`) or in a loop, with a stack that has its top at the end
(`Node.traversal_exact`).

In each turn of the loop one node is taken from the trees on the stack (`Traversal.sizeOfAll_step`), so
it comes to an end after as many turns as the tree has nodes.  What was collected so far and the leaves
of the trees on the stack, from the top down, are together always the same tokens
(`Traversal.result_step`).
-/

namespace CanonicalLR

namespace Node

/-! ### Leaves and sizes of lists of trees -/

theorem leavesOf_eq_flatMap (xs : List Node) :
  leavesOf xs = xs.flatMap leaves
  := by
  induction xs with
  | nil => rfl
  | cons x xs ih => rw [leavesOf, List.flatMap_cons, ih]

theorem size_pos (x : Node) :
  0 < x.size
  := by
  cases x <;> simp [size]

theorem sizeOfAll_eq_zero_iff {xs : List Node} :
  sizeOfAll xs = 0 ↔ xs = []
  := by
  cases xs with
  | nil => simp [sizeOfAll]
  | cons x xs =>
    have := x.size_pos
    simp only [sizeOfAll, reduceCtorEq, iff_false]
    omega

theorem sizeOfAll_reverse (xs : List Node) :
  sizeOfAll xs.reverse = sizeOfAll xs
  := by
  induction xs with
  | nil => rfl
  | cons x xs ih =>
    simp only [List.reverse_cons, sizeOfAll_append, ih, sizeOfAll]
    omega

/-! ### Collecting with the top in front -/

/-- What is collected from a stack of trees are their leaves. -/
theorem collect_eq (collected : List Token) (stack : List Node) :
  collect collected stack = collected ++ leavesOf stack
  := by
  induction collected, stack using collect.induct with
  | case1 collected => simp [collect, leavesOf]
  | case2 collected term children stack ih =>
    rw [collect, ih, leavesOf_append, leavesOf, leaves]
  | case3 collected t stack ih =>
    rw [collect, ih, leavesOf, leaves, List.append_assoc]
  | case4 collected name stack ih =>
    rw [collect, ih, leavesOf, leaves, List.nil_append]

/-- The tokens of a tree, collected with a stack, are its leaves. -/
theorem tokens_eq_leaves (x : Node) :
  x.tokens = x.leaves
  := by
  rw [tokens, collect_eq, leavesOf, leavesOf, List.nil_append, List.append_nil]

/-- The tokens of a reduction are those of the nodes below it, one after the other. -/
theorem tokens_eq (x : Node) :
  x.tokens = match x with
    | reduction _ children => children.flatMap tokens
    | token t => [t]
    | prompt _ => []
  := by
  rw [tokens_eq_leaves]
  cases x with
  | reduction term children =>
    simp only [leaves, leavesOf_eq_flatMap]
    congr 1
    funext child
    rw [tokens_eq_leaves]
  | token t => rfl
  | prompt name => rfl

end Node

/-! ### Collecting in a loop -/

namespace Traversal

open Node

variable {s s' : Traversal}

/-- The tokens that were collected, and behind them the leaves of the trees on the stack, from the top
down. -/
def result (s : Traversal) : List Token :=
  s.collected ++ leavesOf s.stack.reverse

/-- What a turn does: it visits the tree at the end of the stack. -/
theorem exists_of_step_eq_some (h : s.step = some s') :
  ∃ stack x, s.stack = stack ++ [x] ∧ s' = visit ⟨stack, s.collected⟩ x
  := by
  obtain ⟨x, hx, rfl⟩ := Option.map_eq_some_iff.mp h
  obtain ⟨stack, hstack⟩ := List.getLast?_eq_some_iff.mp hx
  use stack, x, hstack
  rw [hstack, List.dropLast_concat]

theorem stuck_step_iff :
  Stuck step s ↔ s.stack = []
  := by
  rw [Stuck, step, Option.map_eq_none_iff, List.getLast?_eq_none_iff]

/-- A turn takes one node away from the trees on the stack. -/
theorem sizeOfAll_step (h : s.step = some s') :
  sizeOfAll s.stack = sizeOfAll s'.stack + 1
  := by
  obtain ⟨stack, x, hstack, rfl⟩ := exists_of_step_eq_some h
  rw [hstack, sizeOfAll_append]
  cases x with
  | reduction term children =>
    simp only [visit, sizeOfAll_append, sizeOfAll_reverse, sizeOfAll, size]
    omega
  | token t => rfl
  | prompt name => rfl

/-- A turn does not change what is collected in the end. -/
theorem result_step (h : s.step = some s') :
  s'.result = s.result
  := by
  obtain ⟨stack, x, hstack, rfl⟩ := exists_of_step_eq_some h
  rw [result, result, hstack, List.reverse_concat, leavesOf]
  cases x with
  | reduction term children =>
    simp only [visit, List.reverse_append, List.reverse_reverse, leavesOf_append, leaves]
  | token t => simp only [visit, leaves, List.append_assoc]
  | prompt name => rfl

/-- After `n` turns the trees on the stack have `n` nodes less, as long as there are any. -/
theorem sizeOfAll_exhaust (s : Traversal) (n : Nat) :
  sizeOfAll (exhaust step n s).stack = sizeOfAll s.stack - n
  := by
  induction n generalizing s with
  | zero => rfl
  | succ n ih =>
    rw [exhaust]
    split
    · next hstuck =>
      rw [stuck_step_iff.mp hstuck]
      simp [sizeOfAll]
    · next s' hs =>
      rw [ih, sizeOfAll_step hs]
      omega

/-- The loop comes to its end after as many turns as the trees on the stack have nodes. -/
theorem stuck_exhaust_step_iff (s : Traversal) (n : Nat) :
  Stuck step (exhaust step n s) ↔ sizeOfAll s.stack ≤ n
  := by
  rw [stuck_step_iff, ← sizeOfAll_eq_zero_iff, sizeOfAll_exhaust, Nat.sub_eq_zero_iff_le]

/-- What is collected in the end are the leaves of the trees on the stack, from the top down, behind
what was collected before. -/
theorem exhaust_step_eq (s : Traversal) {n : Nat} (hn : sizeOfAll s.stack ≤ n) :
  exhaust step n s = ⟨[], s.result⟩
  := by
  have hstack := stuck_step_iff.mp ((stuck_exhaust_step_iff s n).mpr hn)
  have hresult : (exhaust step n s).result = s.result := by
    apply exhaust_induction (motive := fun s' : Traversal => s'.result = s.result) _ n rfl
    intro s₁ s₂ hs₁ hs₂
    rw [result_step hs₂, hs₁]
  rw [← hresult, result, hstack, List.reverse_nil, leavesOf, List.append_nil, ← hstack]

end Traversal

/-- The traversal of a tree comes to its end after as many turns as the tree has nodes, and not before.
Then its tokens are collected, which are the leaves from left to right: those of a reduction are those
of the nodes below it, one after the other, and there are none in a prompt. -/
theorem Node.traversal_exact (x : Node) :
  (∀ n, Stuck Traversal.step (x.traversal n) ↔ x.size ≤ n) ∧
    (∀ n, x.traversal (x.size + n) = ⟨[], x.tokens⟩) ∧
    x.tokens = x.leaves ∧
    x.tokens = match x with
      | reduction _ children => children.flatMap tokens
      | token t => [t]
      | prompt _ => []
  := by
  have hsize : sizeOfAll [x] = x.size := by
    rw [sizeOfAll, sizeOfAll, Nat.add_zero]
  have hresult : (Traversal.mk [x] []).result = x.tokens := by
    simp only [Traversal.result, List.reverse_singleton, List.nil_append, leavesOf, List.append_nil,
      tokens_eq_leaves]
  refine ⟨?_, ?_, x.tokens_eq_leaves, x.tokens_eq⟩
  · intro n
    rw [traversal, Traversal.stuck_exhaust_step_iff, hsize]
  · intro n
    rw [traversal, Traversal.exhaust_step_eq, hresult]
    simp only [hsize]
    omega

/-- The nodes of a sum, a prompt and an empty reduction among them, are visited in seven turns. -/
example :
    ((Node.reduction "E" [.token ⟨"n", "1", .unknown⟩, .prompt "add",
      .reduction "T" [.token ⟨"+", "", .unknown⟩, .token ⟨"n", "2", .unknown⟩],
      .reduction "T" []]).traversal 7).collected.map Token.name = ["n", "+", "n"] := by
  decide

end CanonicalLR
