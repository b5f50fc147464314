import CanonicalLR.Table.Action

/-!
# Parse tables

A `ParseTable` has a row for each state of the automaton, and a row has an action for some
symbols, in the order in which they were written.  The actions that a state asks for are its
*candidates*: to accept, to reduce by a complete rule on any token of its lookahead, and to follow
a transition.  They are written in this order, and where two meet, the policy decides.
-/

namespace CanonicalLR

/-- The actions of a state, in the order in which their symbols were written first. -/
abbrev Row := List (Symbol × Action)

namespace Row

/-- The row with another action for a symbol that it has an action for. -/
def replace (row : Row) (s : Symbol) (action : Action) : Row :=
  row.map fun cell => if cell.1 = s then (s, action) else cell

/-- The row of a state once an action for a symbol has been written into it. -/
def write (g : Grammar) (policy : Policy) (state : StateId) (row : Row) (cell : Symbol × Action) :
    Except TableError Row :=
  match row.lookup cell.1 with
  | none => .ok (row ++ [cell])
  | some prior =>
    if prior = cell.2 then .ok row
    else (policy.resolve g ⟨state, cell.1, prior, cell.2⟩).map (row.replace cell.1)

/-- The tokens that the row has an action for, errors not counted. -/
def expectedTokens (row : Row) : List TokenId :=
  row.filterMap fun (s, action) =>
    match s with
    | .token t => if action.isError then none else some t
    | _ => none

end Row

/-- The actions of all states, whose rows are numbered like the states. -/
structure ParseTable where
  rows : Array Row
  /-- The token for the end of the input. -/
  eof : TokenId
deriving DecidableEq

namespace State

/-- The reductions that an entry of a state asks for. -/
def reductions (e : ItemSet.Entry) : List (Symbol × Action) :=
  if e.core.isComplete then e.lookahead.toList.map fun t => (.token t, .reduce e.core.rule) else []

/-- The action that a transition asks for. -/
def follow (t : Transition) : Symbol × Action :=
  (t.symbol, if t.symbol.kind = .token then .shift t.target else .goto t.target)

/-- The actions that a state asks for, in the order in which they are written. -/
def candidates (eof : TokenId) (s : State) : List (Symbol × Action) :=
  (if s.accepts then [(.token eof, .accept)] else []) ++
    s.items.entries.flatMap reductions ++ s.transitions.map follow

end State

namespace ParseTable

/-- The row of a state. -/
def fillRow (g : AugmentedGrammar) (policy : Policy) (id : StateId) (s : State) :
    Except TableError Row :=
  (s.candidates g.eof).foldlM (Row.write g.grammar policy id) []

/-- The rows of states that are numbered from `id` on. -/
def fillRows (g : AugmentedGrammar) (policy : Policy) (id : StateId) :
    List State → Except TableError (List Row)
  | [] => .ok []
  | s :: states => do
    let row ← fillRow g policy id s
    let rows ← fillRows g policy (id + 1) states
    return row :: rows

/-- The actions of a state, none if there is no such state. -/
def row (t : ParseTable) (state : StateId) : Row :=
  t.rows[state]?.getD []

/-- The action of a state for a symbol. -/
def action? (t : ParseTable) (state : StateId) (s : Symbol) : Option Action :=
  (t.row state).lookup s

/-- The number of the actions of all states. -/
def size (t : ParseTable) : Nat :=
  t.rows.toList.flatten.length

/-- The table as it is shown. -/
def display (g : Grammar) (t : ParseTable) : String :=
  "\n".intercalate (t.rows.toList.mapIdx fun id row =>
    Text.unlines (("#### State " ++ displayState id) ::
      row.map fun (s, action) => "- " ++ g.displaySymbol s ++ " => " ++ action.display g))

end ParseTable

end CanonicalLR
