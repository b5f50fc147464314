import CanonicalLR.Loop
import CanonicalLR.Analysis.Facts

/-!
# Left recursion

A term is left recursive if it can derive a sequence that begins with itself, that is, if it
depends on itself.  The list `a.leftRecursion` is a shortest cycle of children through the first
left recursive term, found by a breadth-first search.
-/

namespace CanonicalLR.Analysis

/-- Whether the term can derive a sequence that begins with itself. -/
def isLeftRecursive (a : Analysis) (t : TermId) : Bool :=
  a.dependsOn t t

/-- The first left recursive term. -/
def firstLeftRecursive? (a : Analysis) : Option TermId :=
  (List.range a.facts.size).find? a.isLeftRecursive

/-- The state of the search for a cycle through a term. -/
structure CycleSearch where
  /-- The terms that were met. -/
  met : List TermId
  /-- The paths to the terms whose children are still to be looked at, the oldest first.  A path
  is a term with the way back from it. -/
  paths : List (TermId × List TermId)
  /-- The cycle that was found. -/
  cycle : Option (List TermId)

/-- The paths that go on from a path to the children of its term that were not met before. -/
def extensions (a : Analysis) (met : List TermId) (t : TermId) (back : List TermId) :
    List (TermId × List TermId) :=
  ((a.of t).children.toList.filter fun c => !met.contains c).map fun c => (c, t :: back)

/-- The state in which the oldest path is followed by one more term, or closed to a cycle through
`target`. -/
def cycleStep (a : Analysis) (target : TermId) (search : CycleSearch) : Option CycleSearch :=
  match search.cycle, search.paths with
  | none, (t, back) :: paths =>
    if target ∈ (a.of t).children then
      some { search with cycle := some (t :: back).reverse }
    else
      let found := a.extensions search.met t back
      some { search with met := search.met ++ found.map (·.1), paths := paths ++ found }
  | _, _ => none

/-- A shortest cycle of children through the term `target`, beginning with it. -/
def cycleThrough (a : Analysis) (target : TermId) : List TermId :=
  (exhaust (a.cycleStep target) (a.facts.size + 1) ⟨[target], [(target, [])], none⟩).cycle.getD []

/-- A shortest cycle through the first left recursive term: in a list `[t₀, t₁, …, tₖ]` each term
has the next one as a child, and the last one has `t₀`.  The list is empty if no term is left
recursive. -/
def leftRecursion (a : Analysis) : List TermId :=
  match a.firstLeftRecursive? with
  | none => []
  | some target => a.cycleThrough target

end CanonicalLR.Analysis
