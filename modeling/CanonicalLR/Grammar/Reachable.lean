import CanonicalLR.Loop
import CanonicalLR.Grammar.Basic

/-!
# Reachable symbols

A symbol is reachable from a term if it is the term itself or occurs in a rule of a reachable term
(`Reaches`).  The list `g.reachable start` of these symbols is found by a search that keeps a
stack of the terms whose rules it has not looked at yet.
-/

namespace CanonicalLR

/-- The symbols that are reachable from the term `start`. -/
inductive Reaches (g : Grammar) (start : TermId) : Symbol → Prop where
  | start : Reaches g start (.term start)
  | step {t : TermId} {r : Rule} {s : Symbol} :
      Reaches g start (.term t) → r ∈ g.rulesOf t → s ∈ r.items → Reaches g start s

namespace Reachable

/-- The state of the search. -/
structure Search where
  /-- The symbols found so far. -/
  touched : List Symbol
  /-- The terms among them whose rules are still to be looked at. -/
  pending : List TermId

/-- The state after a symbol was met in a rule. -/
def Search.touch (search : Search) (s : Symbol) : Search :=
  if s ∈ search.touched then search
  else ⟨s :: search.touched,
    match s with
    | .term t => t :: search.pending
    | _ => search.pending⟩

/-- The state after the rules of the latest pending term were looked at. -/
def step (g : Grammar) (search : Search) : Option Search :=
  match search.pending with
  | [] => none
  | t :: pending =>
    some (((g.rulesOf t).flatMap Rule.items).foldl Search.touch { search with pending })

/-- The number of symbols in the right sides of all rules.  Every term but the first becomes
pending when one of them is looked at for the first time. -/
def occurrences (g : Grammar) : Nat :=
  (g.rules.flatMap Rule.items).length

end Reachable

/-- The symbols that are reachable from the term `start`. -/
def Grammar.reachable (g : Grammar) (start : TermId) : List Symbol :=
  (exhaust (Reachable.step g) (Reachable.occurrences g + 2) ⟨[.term start], [start]⟩).touched

end CanonicalLR
