import CanonicalLR.Analysis.LeftRecursion

/-!
# Parents

A breadth-first search need not keep the whole way to each term that waits.  It is enough to record,
when a term is met for the first time, from which term that was, its *parent* (`ParentSearch`).  Once
the term that is searched for is a child of the term that is looked at, the way back to it goes from
parent to parent (`wayBack`); it is lost if the parent of a term on the way was not recorded.

The list `a.tracedLeftRecursion` is the cycle that is found in this way.  It is `a.leftRecursion`.
-/

namespace CanonicalLR.Analysis

/-- The state of a search for a cycle, with the parents of the terms that were met. -/
structure ParentSearch where
  /-- The terms that were met, but for the one that is searched for, each with its parent. -/
  parents : List (TermId × TermId)
  /-- The terms whose children are still to be looked at, the oldest first. -/
  waiting : List TermId
  /-- The last term of the cycle that was found. -/
  last : Option TermId

namespace ParentSearch

/-- The state in which the child `c` of the term `t` was met. -/
def meet (target t : TermId) (search : ParentSearch) (c : TermId) : ParentSearch :=
  if c ≠ target ∧ (search.parents.lookup c).isNone then
    { search with parents := search.parents ++ [(c, t)], waiting := search.waiting ++ [c] }
  else search

/-- The state in which the children of the oldest waiting term were looked at. -/
def step (a : Analysis) (target : TermId) (search : ParentSearch) : Option ParentSearch :=
  match search.last, search.waiting with
  | none, t :: waiting =>
    if target ∈ (a.of t).children then some { search with last := some t }
    else some ((a.of t).children.toList.foldl (meet target t) { search with waiting })
  | _, _ => none

/-- The state in which nothing was met but the term that is searched for. -/
def initial (target : TermId) : ParentSearch :=
  ⟨[], [target], none⟩

end ParentSearch

/-- The terms from `t` back to `target`, each with its parent behind it; none if there is a term
without parent, or if there are more terms than `bound`. -/
def wayBack (parents : List (TermId × TermId)) (target : TermId) : Nat → TermId → Option (List TermId)
  | 0, _ => none
  | bound + 1, t =>
    if t = target then some [t]
    else (parents.lookup t).bind fun parent => (wayBack parents target bound parent).map (t :: ·)

/-- The state in which the search for a cycle through the term `target` ends. -/
def searchParents (a : Analysis) (target : TermId) : ParentSearch :=
  exhaust (ParentSearch.step a target) (a.facts.size + 1) (.initial target)

/-- A shortest cycle of children through the term `target`, beginning with it; none if the way back
from its last term is lost. -/
def tracedCycle (a : Analysis) (target : TermId) : Option (List TermId) :=
  let search := a.searchParents target
  match search.last with
  | none => some []
  | some t => (wayBack search.parents target (search.parents.length + 1) t).map List.reverse

/-- A shortest cycle through the first left recursive term, the empty list if there is no such term;
none if the way back along the cycle is lost. -/
def tracedLeftRecursion (a : Analysis) : Option (List TermId) :=
  match a.firstLeftRecursive? with
  | none => some []
  | some target => a.tracedCycle target

end CanonicalLR.Analysis
