import CanonicalLR.Automaton.Display

/-!
# Actions and conflicts

An `Action` is what a parser does in a state when a certain symbol comes.  Two actions for the
same state and symbol are a `Conflict`; a `Policy` says what becomes of it.
-/

namespace CanonicalLR

/-- What a parser does in a state when a symbol comes. -/
inductive Action where
  /-- Read the token and enter a state. -/
  | shift (target : StateId)
  /-- Reduce by a rule. -/
  | reduce (rule : Rule)
  /-- Enter a state after a reduction. -/
  | goto (target : StateId)
  /-- Accept the input. -/
  | accept
  /-- Refuse the token, with a message. -/
  | error (message : String)
deriving DecidableEq

namespace Action

/-- Whether the action reads a token. -/
def isShift : Action → Bool
  | shift _ => true
  | _ => false

/-- Whether the action is a reduction. -/
def isReduce : Action → Bool
  | reduce _ => true
  | _ => false

/-- Whether the action refuses the token. -/
def isError : Action → Bool
  | error _ => true
  | _ => false

/-- The action as it is shown. -/
def display (g : Grammar) : Action → String
  | shift target => "shift(" ++ displayState target ++ ")"
  | reduce rule => "reduce(" ++ g.displayRule rule ++ ")"
  | goto target => "goto(" ++ displayState target ++ ")"
  | accept => "accept"
  | error message => "error(" ++ Text.quote message ++ ")"

end Action

/-- Two actions that compete for a symbol in a state. -/
structure Conflict where
  state : StateId
  symbol : Symbol
  /-- The action that came first. -/
  prior : Action
  /-- The action that came later. -/
  new : Action
deriving DecidableEq

namespace Conflict

/-- The conflict as it is shown. -/
def display (g : Grammar) (c : Conflict) : String :=
  "conflict in state " ++ displayState c.state ++ " on " ++ g.displaySymbol c.symbol ++ ": " ++
    c.prior.display g ++ " vs " ++ c.new.display g

end Conflict

/-- What becomes of a conflict. -/
inductive Policy where
  /-- No table is built. -/
  | fail
  /-- The action that came first stays. -/
  | useFirst
  /-- The action that came last stays. -/
  | useLast
  /-- A shift takes the place of an action that is none. -/
  | preferShift
  /-- A reduction takes the place of an action that is none. -/
  | preferReduce
  /-- The token is refused. -/
  | reject
deriving DecidableEq

/-- What can go wrong when a table is built. -/
inductive TableError where
  /-- Two actions compete for a symbol; the symbol and the actions are given as they are shown. -/
  | conflict (state : StateId) (symbol prior new : String)
  /-- The reductions after a transition on `term` enter the states `states` and never end. -/
  | gotoLoop (term : String) (states : List StateId)
deriving DecidableEq

namespace TableError

/-- The wording of an error. -/
def message : TableError → String
  | conflict state symbol prior new =>
    "conflicting actions in state " ++ displayState state ++ " on " ++ symbol ++ ": " ++ prior ++
      " vs " ++ new
  | gotoLoop term states =>
    "infinite goto loop on `" ++ term ++ "' through states " ++
      ", ".intercalate (states.map displayState)

end TableError

namespace Policy

/-- The action that a conflict comes to. -/
def resolve (p : Policy) (g : Grammar) (c : Conflict) : Except TableError Action :=
  match p with
  | fail =>
    .error (.conflict c.state (g.displaySymbol c.symbol) (c.prior.display g) (c.new.display g))
  | useFirst => .ok c.prior
  | useLast => .ok c.new
  | preferShift => .ok (if c.new.isShift && !c.prior.isShift then c.new else c.prior)
  | preferReduce => .ok (if c.new.isReduce && !c.prior.isReduce then c.new else c.prior)
  | reject => .ok (.error (c.display g))

end Policy

end CanonicalLR
