/-!
# Tokens of the input

A `Token` is a piece of the input as a tokenizer hands it over.  A parser knows tokens by their
names; their texts and positions are only carried along.
-/

namespace CanonicalLR

/-- A place in the input. -/
structure Position where
  offset : Nat
  line : Nat
  column : Nat
deriving DecidableEq

namespace Position

/-- The place where nothing is known of the input. -/
def unknown : Position :=
  ⟨0, 0, 0⟩

/-- The place as it is shown. -/
def display (p : Position) : String :=
  toString p.line ++ ":" ++ toString p.column

end Position

/-- A token of the input. -/
structure Token where
  name : String
  text : String
  position : Position
deriving DecidableEq

end CanonicalLR
