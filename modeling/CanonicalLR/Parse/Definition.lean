import CanonicalLR.Symbol

/-!
# Parser definitions

A `Definition` is all that the engine needs to know of a parser: an action for each state and
lookahead, a state to enter after each reduction, and the productions of the rules.  It need not
come from a grammar: the engine works by any definition, also by one that is wrong.

`Definition.ofTables` is the definition that is written down in lists.
-/

namespace CanonicalLR

/-- What the engine is to do with the lookahead. -/
inductive Decision (σ ρ : Type) where
  /-- Read the token and enter a state. -/
  | shift (target : σ)
  /-- Reduce by a rule. -/
  | reduce (rule : ρ)
  /-- Accept the input. -/
  | accept
  /-- Refuse the token, with a message. -/
  | error (message : String)
deriving DecidableEq

/-- A parser as the engine sees it.  A lookahead is the name of a token, or `none` for the end of
the input. -/
structure Definition (σ ρ : Type) where
  initial : σ
  /-- What is to be done in a state with a lookahead, if anything. -/
  action : σ → Option String → Option (Decision σ ρ)
  /-- The state to enter after a reduction, from the state that it exposes. -/
  goto : σ → ρ → Option σ
  production : ρ → Production
  /-- The names of the tokens that a state has an action for. -/
  expected : σ → List String
  /-- An upper bound for the number of different pairs of a state entered by `goto` and the name
  of the term that was reduced to. -/
  gotoTargets : Nat

namespace Definition

/-- An upper bound for the number of reductions in a row, from a stack of the given height, that
come to an end.  While a stack is not lowered below some height, it grows by no more than there
are goto targets before it repeats itself, so it goes through fewer than `(n + 1) ^ (n + 1)`
forms; and it can be lowered as often as it is high. -/
def reductionBound {σ ρ : Type} (d : Definition σ ρ) (height : Nat) : Nat :=
  (height + 1) * Nat.pow (d.gotoTargets + 1) (d.gotoTargets + 1)

end Definition

/-- A parser definition written down in lists, with numbers for states and rules. -/
structure DefinitionTables where
  initial : Nat
  actions : List ((Nat × Option String) × Decision Nat Nat)
  gotos : List ((Nat × Nat) × Nat)
  /-- The production of each rule, in the order of the rules. -/
  productions : List Production
  expected : List (Nat × List String)

/-- The definition that is written down in lists, of which the first entry that matches counts. -/
def Definition.ofTables (t : DefinitionTables) : Definition Nat Nat where
  initial := t.initial
  action state lookahead := t.actions.lookup (state, lookahead)
  goto state rule := t.gotos.lookup (state, rule)
  production rule := t.productions[rule]?.getD ⟨"", []⟩
  expected state := (t.expected.lookup state).getD []
  gotoTargets := t.gotos.length

end CanonicalLR
