import CanonicalLR.Parse.Definition
import CanonicalLR.Parse.Fault

/-!
# The engine

An `Engine` reads tokens by a parser definition and builds a tree.  It holds a stack of states and
a stack of nodes.  When a token is offered (`offer`), the definition is consulted about the top
state and the token: to shift puts the token on the stack, to reduce takes the nodes of a rule
from the stack and puts their reduction there, and a token without an action is dropped with a
complaint.  Reductions leave the token to be offered again, so they are repeated until something
else happens to it (`drive`).

After the last token the end of the input is offered in the same way (`finish`), and if the
definition accepts, and nothing was complained about, the tree on the stack is the result.

The operations also tell which answers of the definition they made use of.
-/

namespace CanonicalLR

/-- Whether an engine still reads tokens. -/
inductive Status where
  | running
  | accepted
  /-- Nothing more is read, as there are as many complaints as are wanted, or as the end of the
  input was not expected. -/
  | stopped
deriving DecidableEq

/-- An engine for a parser with the states `σ`. -/
structure Engine (σ : Type) where
  /-- The stack of states, the top in front. -/
  states : List σ
  /-- The stack of nodes, the top in front. -/
  nodes : List Node
  /-- The complaints made so far, the oldest first. -/
  complaints : List Complaint
  status : Status
  /-- How many complaints are wanted, where zero stands for any number. -/
  cap : Nat
deriving DecidableEq

/-- An answer of a parser definition that an engine made use of. -/
inductive Consultation (σ ρ : Type) where
  | action (state : σ) (answer : Option (Decision σ ρ))
  | goto (state : σ) (answer : Option σ)
deriving DecidableEq

/-- What an operation leaves behind: the engine, the outcome, and the answers made use of. -/
structure Reply (σ ρ α : Type) where
  engine : Engine σ
  outcome : α
  consulted : List (Consultation σ ρ)

/-- What became of the lookahead when the definition was consulted about it. -/
inductive Turn (σ : Type) where
  /-- There was a reduction; the lookahead is still to be dealt with. -/
  | reduced
  /-- The lookahead was dealt with. -/
  | settled
  | failed (fault : Fault σ)
deriving DecidableEq

/-- The result of reading an input. -/
structure ParseResult where
  /-- The tree, if the input was accepted without complaint. -/
  tree : Option Node
  complaints : List Complaint
deriving DecidableEq

namespace ParseResult

/-- Whether the input was accepted without complaint. -/
def isOk (r : ParseResult) : Bool :=
  r.tree.isSome && r.complaints.isEmpty

end ParseResult

namespace Engine

variable {σ ρ : Type}

/-- The engine that has read nothing yet. -/
def new (d : Definition σ ρ) (cap : Nat) : Engine σ :=
  ⟨[d.initial], [], [], .running, cap⟩

/-- Whether the input was accepted. -/
def isAccepted (e : Engine σ) : Bool :=
  e.status = .accepted

/-- Whether nothing more is read. -/
def isStopped (e : Engine σ) : Bool :=
  e.status = .stopped

/-! ### Complaints -/

/-- The engine after a complaint, stopped if there are as many as wanted. -/
def complain (e : Engine σ) (c : Complaint) : Engine σ :=
  let complaints := e.complaints ++ [c]
  { e with
    complaints
    status := if 0 < e.cap ∧ e.cap ≤ complaints.length then .stopped else e.status }

/-- The engine after a complaint about the end of the input, after which nothing is read. -/
def complainAtEnd (e : Engine σ) (c : Complaint) : Engine σ :=
  let e := e.complain c
  { e with status := if e.status = .running then .stopped else e.status }

/-- The engine once it has refused the lookahead for want of an action. -/
def refuseUnexpected (e : Engine σ) (expected : List String) : Option Token → Engine σ
  | some t => e.complain (.unexpectedToken t expected)
  | none => e.complainAtEnd (.unexpectedEnd expected)

/-- The engine once it has refused the lookahead with the message of an action. -/
def refuse (e : Engine σ) (message : String) : Option Token → Engine σ
  | some t => e.complain (.refusedToken t message)
  | none => e.complainAtEnd (.refusedEnd message)

/-! ### Reductions -/

/-- The nodes of a reduction: those from the stack, leftmost first, with the prompts of the right
side between them.  Each must have the label that the right side has at its place. -/
def arrange (p : Production) : List Label → List Node → Except (Fault σ) (List Node)
  | [], _ => .ok []
  | l :: right, nodes =>
    if l.kind = .prompt then (arrange p right nodes).map fun children => .prompt l.name :: children
    else
      match nodes with
      | [] => .error (.stackUnderflow p)
      | x :: nodes =>
        if x.label = l then (arrange p right nodes).map fun children => x :: children
        else .error (.inconsistent p l x.label)

/-- A reduction by a rule. -/
def reduce (d : Definition σ ρ) (e : Engine σ) (rule : ρ) : Reply σ ρ (Turn σ) :=
  let p := d.production rule
  if e.nodes.length < p.arity ∨ e.states.length ≤ p.arity then
    ⟨e, .failed (.stackUnderflow p), []⟩
  else
    let taken := (e.nodes.take p.arity).reverse
    let e := { e with nodes := e.nodes.drop p.arity, states := e.states.drop p.arity }
    match arrange p p.right taken with
    | .error fault => ⟨e, .failed fault, []⟩
    | .ok children =>
      match e.states with
      | [] => ⟨e, .failed .emptyStateStack, []⟩
      | exposed :: _ =>
        match d.goto exposed rule with
        | none => ⟨e, .failed (.missingGoto exposed p.left), [.goto exposed none]⟩
        | some target =>
          ⟨{ e with nodes := .reduction p.left children :: e.nodes, states := target :: e.states },
            .reduced, [.goto exposed (some target)]⟩

/-! ### Reading -/

/-- One turn: the definition is consulted about a lookahead, which is a token or the end of the
input, and the engine does as it says. -/
def advance (d : Definition σ ρ) (e : Engine σ) (lookahead : Option Token) : Reply σ ρ (Turn σ) :=
  match e.states with
  | [] => ⟨e, .failed .emptyStateStack, []⟩
  | current :: _ =>
    let answer := d.action current (lookahead.map (·.name))
    let consulted := [.action current answer]
    match answer with
    | some (.shift target) =>
      match lookahead with
      | none => ⟨e, .failed (.shiftAtEnd current), consulted⟩
      | some t =>
        ⟨{ e with nodes := .token t :: e.nodes, states := target :: e.states }, .settled, consulted⟩
    | some (.reduce rule) =>
      let reply := e.reduce d rule
      { reply with consulted := consulted ++ reply.consulted }
    | some .accept =>
      if e.nodes.length ≠ 1 then ⟨e, .failed (.unbalancedAccept e.nodes.length), consulted⟩
      else
        let e := { e with status := .accepted }
        match lookahead with
        | none => ⟨e, .settled, consulted⟩
        | some t => ⟨e.complain (.afterAcceptance t), .settled, consulted⟩
    | some (.error message) => ⟨e.refuse message lookahead, .settled, consulted⟩
    | none => ⟨e.refuseUnexpected (d.expected current) lookahead, .settled, consulted⟩

/-- Turns until the lookahead has been dealt with, but at most `bound` of them. -/
def driveFor (d : Definition σ ρ) (lookahead : Option Token) :
    Nat → Engine σ → Reply σ ρ (Except (Fault σ) Unit)
  | 0, e => ⟨e, .error .endlessReductions, []⟩
  | bound + 1, e =>
    match e.advance d lookahead with
    | ⟨e, .settled, consulted⟩ => ⟨e, .ok (), consulted⟩
    | ⟨e, .failed fault, consulted⟩ => ⟨e, .error fault, consulted⟩
    | ⟨e, .reduced, consulted⟩ =>
      let reply := driveFor d lookahead bound e
      { reply with consulted := consulted ++ reply.consulted }

/-- Turns until the lookahead has been dealt with. -/
def drive (d : Definition σ ρ) (e : Engine σ) (lookahead : Option Token) :
    Reply σ ρ (Except (Fault σ) Unit) :=
  driveFor d lookahead (d.reductionBound e.states.length + 1) e

/-- The offer of a token. -/
def offer (d : Definition σ ρ) (e : Engine σ) (t : Token) : Reply σ ρ (Except (Fault σ) Unit) :=
  match e.status with
  | .running => e.drive d (some t)
  | .accepted => ⟨e.complain (.afterAcceptance t), .ok (), []⟩
  | .stopped => ⟨e, .ok (), []⟩

/-- The result of an engine that has read the end of the input. -/
def result (e : Engine σ) : ParseResult :=
  ⟨if e.isAccepted && e.complaints.isEmpty then e.nodes.head? else none, e.complaints⟩

/-- The offer of the end of the input, unless the engine does not run any more. -/
def offerEnd (d : Definition σ ρ) (e : Engine σ) : Reply σ ρ (Except (Fault σ) Unit) :=
  match e.status with
  | .running => e.drive d none
  | _ => ⟨e, .ok (), []⟩

/-- The offer of the end of the input, and the result. -/
def finish (d : Definition σ ρ) (e : Engine σ) : Reply σ ρ (Except (Fault σ) ParseResult) :=
  let reply := e.offerEnd d
  { reply with outcome := reply.outcome.map fun _ => reply.engine.result }

/-- The offers of the tokens of a list, up to the first fault or until the engine stops. -/
def offerAll (d : Definition σ ρ) (e : Engine σ) :
    List Token → Reply σ ρ (Except (Fault σ) Unit)
  | [] => ⟨e, .ok (), []⟩
  | t :: tokens =>
    if e.isStopped then ⟨e, .ok (), []⟩
    else
      match e.offer d t with
      | ⟨e, .error fault, consulted⟩ => ⟨e, .error fault, consulted⟩
      | ⟨e, .ok (), consulted⟩ =>
        let reply := e.offerAll d tokens
        { reply with consulted := consulted ++ reply.consulted }

end Engine

/-- The outcome of reading a whole input, with at most as many complaints as `cap` says. -/
def Definition.parse {σ ρ : Type} (d : Definition σ ρ) (tokens : List Token) (cap : Nat) :
    Reply σ ρ (Except (Fault σ) ParseResult) :=
  match (Engine.new d cap).offerAll d tokens with
  | ⟨e, .error fault, consulted⟩ => ⟨e, .error fault, consulted⟩
  | ⟨e, .ok (), consulted⟩ =>
    let reply := e.finish d
    { reply with consulted := consulted ++ reply.consulted }

end CanonicalLR
