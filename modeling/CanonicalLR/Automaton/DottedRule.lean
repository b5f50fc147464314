import CanonicalLR.Grammar.Basic

/-!
# Dotted rules

A `DottedRule` is a rule with a position in its right side: the symbols before the dot have been
read, and those after it are still to come.  As prompts take no place on the stack, the dot counts
the other symbols only.
-/

namespace CanonicalLR

/-- A rule with a position in its right side. -/
structure DottedRule where
  rule : Rule
  /-- How many symbols are before the dot, prompts not counted. -/
  dot : Nat
deriving DecidableEq

namespace DottedRule

/-- The rule with the dot in front. -/
def initial (r : Rule) : DottedRule :=
  ⟨r, 0⟩

/-- The rule with the dot at each of its positions, from the first to the last. -/
def positions (r : Rule) : List DottedRule :=
  (List.range (r.arity + 1)).map fun dot => ⟨r, dot⟩

/-- The symbols after the dot. -/
def rest (d : DottedRule) : List Symbol :=
  d.rule.basicItems.drop d.dot

/-- The symbol right after the dot. -/
def next? (d : DottedRule) : Option Symbol :=
  d.rest.head?

/-- Whether nothing is after the dot. -/
def isComplete (d : DottedRule) : Bool :=
  d.rest.isEmpty

/-- The dotted rule with the dot behind one more symbol. -/
def advance (d : DottedRule) : DottedRule :=
  ⟨d.rule, d.dot + 1⟩

/-- The order of dotted rules: by rule, then by position. -/
def order (d e : DottedRule) : Ordering :=
  (compare d.rule.id e.rule.id).then (compare d.dot e.dot)

end DottedRule

end CanonicalLR
