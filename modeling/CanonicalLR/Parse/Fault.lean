import CanonicalLR.Text.Quoted
import CanonicalLR.Parse.Node

/-!
# Complaints and faults

A `Complaint` is what the engine has to say about bad input; it goes on after it.  A `Fault` is a
defect of the parser definition that came to light.
-/

namespace CanonicalLR

/-- What the engine has to say about bad input. -/
inductive Complaint where
  /-- The token has no action; `expected` are the names of those that have one. -/
  | unexpectedToken (token : Token) (expected : List String)
  | unexpectedEnd (expected : List String)
  /-- The action for the token refuses it, with a message. -/
  | refusedToken (token : Token) (message : String)
  | refusedEnd (message : String)
  /-- The token came after the input was accepted. -/
  | afterAcceptance (token : Token)
deriving DecidableEq

namespace Complaint

/-- A token as it is shown in a complaint. -/
def describe (t : Token) : String :=
  "token " ++ Text.quote t.text ++ " (" ++ t.name ++ ") at " ++ t.position.display

/-- The names of expected tokens as they are shown. -/
def listExpected (expected : List String) : String :=
  let names := ", ".intercalate expected
  ", expected one of: " ++ if names.isEmpty then "(nothing)" else names

/-- The wording of a complaint. -/
def message : Complaint → String
  | unexpectedToken t expected => "unexpected " ++ describe t ++ listExpected expected
  | unexpectedEnd expected => "unexpected end of input" ++ listExpected expected
  | refusedToken t message => message ++ " (at " ++ describe t ++ ")"
  | refusedEnd message => message ++ " (at end of input)"
  | afterAcceptance t => "unexpected " ++ describe t ++ " after the input was accepted"

end Complaint

/-- A defect of a parser definition with the states `σ`. -/
inductive Fault (σ : Type) where
  | emptyStateStack
  /-- The definition wants the end of the input to be read. -/
  | shiftAtEnd (state : σ)
  /-- The rule is longer than the stack is high. -/
  | stackUnderflow (rule : Production)
  /-- A node on the stack is not what the rule has at its place. -/
  | inconsistent (rule : Production) (expected found : Label)
  | missingGoto (state : σ) (term : String)
  /-- The definition accepts, but there is not just one tree. -/
  | unbalancedAccept (count : Nat)
  /-- Reductions never end. -/
  | endlessReductions
deriving DecidableEq

namespace Fault

/-- The wording of a fault. -/
def message {σ : Type} [ToString σ] : Fault σ → String
  | emptyStateStack => "empty state stack"
  | shiftAtEnd state => "shift action at the end of input in state " ++ toString state
  | stackUnderflow rule => "stack underflow while reducing `" ++ rule.display ++ "'"
  | inconsistent rule expected found =>
    "inconsistent reduction of `" ++ rule.display ++ "': expected " ++ expected.display ++
      ", found " ++ found.kind.word ++ " `" ++ found.name ++ "'"
  | missingGoto state term => "no goto on `" ++ term ++ "' from state " ++ toString state
  | unbalancedAccept count => "accepted with " ++ toString count ++ " nodes on the stack"
  | endlessReductions => "reductions never end"

end Fault

end CanonicalLR
