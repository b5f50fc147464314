import CanonicalLR.Symbol
import CanonicalLR.Parse.Token

/-!
# Parse trees

A `Node` of a parse tree is a reduction with the nodes of the right side of its rule, a token, or
a prompt.  `Node.leaves` are the tokens of a tree from left to right, by recursion on the tree;
`Node.tokens` collects them with a stack of subtrees that are still to be visited.
-/

namespace CanonicalLR

/-- A node of a parse tree. -/
inductive Node where
  /-- A reduction to the term with the given name. -/
  | reduction (term : String) (children : List Node)
  /-- A token of the input. -/
  | token (token : Token)
  /-- The prompt with the given name. -/
  | prompt (name : String)

namespace Node

/-- The kind and the name of a node. -/
def label : Node → Label
  | reduction term _ => ⟨.term, term⟩
  | token t => ⟨.token, t.name⟩
  | prompt name => ⟨.prompt, name⟩

/-- The nodes below a reduction. -/
def children : Node → List Node
  | reduction _ children => children
  | _ => []

/-! ### Equality -/

mutual

/-- Whether two trees are equal. -/
def same : Node → Node → Bool
  | reduction s xs, reduction t ys => s == t && sameAll xs ys
  | token s, token t => decide (s = t)
  | prompt s, prompt t => s == t
  | _, _ => false

/-- Whether two lists of trees are equal. -/
def sameAll : List Node → List Node → Bool
  | [], [] => true
  | x :: xs, y :: ys => same x y && sameAll xs ys
  | _, _ => false

end

mutual

theorem eq_of_same : ∀ {x y : Node}, same x y = true → x = y
  | reduction _ xs, reduction _ ys, h => by
    simp only [same, Bool.and_eq_true, beq_iff_eq] at h
    rw [h.1, eq_of_sameAll h.2]
  | token _, token _, h => by
    simp only [same, decide_eq_true_eq] at h
    rw [h]
  | prompt _, prompt _, h => by
    simp only [same, beq_iff_eq] at h
    rw [h]
  | reduction .., token _, h | reduction .., prompt _, h | token _, reduction .., h
  | token _, prompt _, h | prompt _, reduction .., h | prompt _, token _, h => by
    simp [same] at h

theorem eq_of_sameAll : ∀ {xs ys : List Node}, sameAll xs ys = true → xs = ys
  | [], [], _ => rfl
  | _ :: _, _ :: _, h => by
    simp only [sameAll, Bool.and_eq_true] at h
    rw [eq_of_same h.1, eq_of_sameAll h.2]
  | [], _ :: _, h | _ :: _, [], h => by
    simp [sameAll] at h

end

mutual

theorem same_refl : ∀ x : Node, same x x = true
  | reduction _ xs => by simp [same, sameAll_refl xs]
  | token _ => by simp [same]
  | prompt _ => by simp [same]

theorem sameAll_refl : ∀ xs : List Node, sameAll xs xs = true
  | [] => by simp [sameAll]
  | x :: xs => by simp [sameAll, same_refl x, sameAll_refl xs]

end

instance : DecidableEq Node := fun x y =>
  if h : same x y = true then isTrue (eq_of_same h)
  else isFalse fun he => h (he ▸ same_refl x)

/-! ### Display -/

mutual

/-- The tree as it is shown: a reduction with its nodes in brackets, a token by its text between
quotes or by its name if the text is empty, a prompt behind an at sign. -/
def display : Node → String
  | reduction term children => term ++ "[" ++ " ".intercalate (displayAll children) ++ "]"
  | token t => "'" ++ (if t.text.isEmpty then t.name else t.text) ++ "'"
  | prompt name => "@" ++ name

/-- The trees of a list as they are shown. -/
def displayAll : List Node → List String
  | [] => []
  | x :: xs => x.display :: displayAll xs

end

/-! ### Tokens -/

mutual

/-- The tokens of a tree from left to right. -/
def leaves : Node → List Token
  | reduction _ children => leavesOf children
  | token t => [t]
  | prompt _ => []

/-- The tokens of the trees of a list from left to right. -/
def leavesOf : List Node → List Token
  | [] => []
  | x :: xs => x.leaves ++ leavesOf xs

end

mutual

/-- The number of nodes of a tree. -/
def size : Node → Nat
  | reduction _ children => sizeOfAll children + 1
  | token _ => 1
  | prompt _ => 1

/-- The number of nodes of the trees of a list. -/
def sizeOfAll : List Node → Nat
  | [] => 0
  | x :: xs => x.size + sizeOfAll xs

end

theorem sizeOfAll_append (xs ys : List Node) :
  sizeOfAll (xs ++ ys) = sizeOfAll xs + sizeOfAll ys
  := by
  induction xs with
  | nil => simp [sizeOfAll]
  | cons x xs ih =>
    simp only [List.cons_append, sizeOfAll, ih]
    omega

/-- The tokens of the trees on a stack, the top in front, behind those that were collected
before. -/
def collect (collected : List Token) : List Node → List Token
  | [] => collected
  | reduction _ children :: stack => collect collected (children ++ stack)
  | token t :: stack => collect (collected ++ [t]) stack
  | prompt _ :: stack => collect collected stack
termination_by stack => sizeOfAll stack
decreasing_by
  all_goals
    simp only [sizeOfAll, sizeOfAll_append, size]
    omega

/-- The tokens of a tree, collected with a stack of subtrees that are still to be visited. -/
def tokens (x : Node) : List Token :=
  collect [] [x]

end Node

end CanonicalLR
