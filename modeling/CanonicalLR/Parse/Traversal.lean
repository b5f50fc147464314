import CanonicalLR.Loop
import CanonicalLR.Parse.Node

/-!
# Traversals of parse trees

The tokens of a tree can be collected in a loop, without recursion on the tree.  The trees that are
still to be visited are on a stack with its top at the end, and each turn visits the top one.  The
nodes below a reduction are pushed in reverse, so that the leftmost of them is visited next.
-/

namespace CanonicalLR

/-- The state of a loop that collects tokens. -/
structure Traversal where
  /-- The trees that are still to be visited, the next one last. -/
  stack : List Node
  collected : List Token

namespace Traversal

/-- The traversal after a visit to the tree `x`, which was taken from the stack. -/
def visit (s : Traversal) : Node → Traversal
  | .reduction _ children => { s with stack := s.stack ++ children.reverse }
  | .token t => { s with collected := s.collected ++ [t] }
  | .prompt _ => s

/-- The traversal after a visit to the tree on top of the stack. -/
def step (s : Traversal) : Option Traversal :=
  s.stack.getLast?.map fun x => visit { s with stack := s.stack.dropLast } x

end Traversal

/-- The traversal of a tree after `n` turns, or when it has come to its end. -/
def Node.traversal (x : Node) (n : Nat) : Traversal :=
  exhaust Traversal.step n ⟨[x], []⟩

end CanonicalLR
