import CanonicalLR.Table.Basic

/-!
# Endless reductions

`ParseTable.build` writes the rows of an automaton and then makes sure that a parser that works by
the table will not reduce for ever.

A table in which conflicts were resolved may let a parser reduce for ever without reading a token.
For each transition on a term, and each token, `gotoLoop?` replays the reductions that the token
brings about right after the transition.  They never end if the same stack of states comes twice,
or if the stack grows higher than there are states.

A replay knows the two states of the transition only.  Reductions that take more than that from
the stack depend on what is below; they are met again when the transitions from there are
replayed.
-/

namespace CanonicalLR.ParseTable

/-- The tokens that some state has an action for, in the order of their first occurrences. -/
def tokens (t : ParseTable) : List TokenId :=
  (t.rows.toList.flatMap fun row => row.filterMap fun (s, _) =>
    match s with
    | .token n => some n
    | _ => none).eraseDups

/-- The stack of states after the reduction that the token `n` brings about, the top in front;
none if there is no reduction, or if it needs more states than the stack has. -/
def reduceStates (t : ParseTable) (n : TokenId) (stack : List StateId) : Option (List StateId) :=
  match stack with
  | [] => none
  | top :: _ =>
    match t.action? top (.token n) with
    | some (.reduce r) =>
      match stack.drop r.arity with
      | [] => none
      | exposed :: below =>
        match t.action? exposed (.term r.owner) with
        | some (.goto target) => some (target :: exposed :: below)
        | _ => none
    | _ => none

/-- The replay of the reductions on the token `n`: the stacks that were met until it became clear
that they never end, the latest first, and none if they end. -/
def replay (t : ParseTable) (n : TokenId) :
    Nat → List (List StateId) → List StateId → Option (List (List StateId))
  | 0, _, _ => none
  | bound + 1, earlier, stack =>
    if stack ∈ earlier || stack.length > t.rows.size + 2 then some (stack :: earlier)
    else (t.reduceStates n stack).bind (replay t n bound (stack :: earlier))

/-- An upper bound for the length of a replay: the number of stacks that are not too high. -/
def replayBound (t : ParseTable) : Nat :=
  Nat.pow (t.rows.size + 1) (t.rows.size + 2) + 2

/-- The states entered by the reductions on the token `n` after a transition from `origin` to
`target`, if these never end. -/
def endless? (t : ParseTable) (bound : Nat) (origin target : StateId) (n : TokenId) :
    Option (List StateId) :=
  (t.replay n bound [] [target, origin]).map fun met => met.reverse.filterMap List.head?

/-- The first transition on a term after which reductions never end: the term, and the states that
they enter. -/
def gotoLoop? (t : ParseTable) : Option (TermId × List StateId) :=
  let bound := t.replayBound
  let tokens := t.tokens
  t.rows.toList.zipIdx.findSome? fun (row, origin) =>
    row.findSome? fun cell =>
      match cell with
      | (.term term, .goto target) =>
        (tokens.findSome? (t.endless? bound origin target)).map fun states => (term, states)
      | _ => none

/-- The table of an automaton, unless a conflict is not resolved or reductions may never end. -/
def build (g : AugmentedGrammar) (m : Automaton) (policy : Policy) :
    Except TableError ParseTable := do
  let rows ← fillRows g policy 0 m.states
  let t : ParseTable := ⟨rows.toArray, g.eof⟩
  match t.gotoLoop? with
  | none => return t
  | some (term, states) => throw (.gotoLoop (g.grammar.termName term) states)

end CanonicalLR.ParseTable
