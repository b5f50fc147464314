import CanonicalLR.Store.Edit

/-!
# Operations

An `Operation` is what a user can ask of a grammar.  An operation that fails leaves the grammar as it
is, but for the rule that could not be completed; so there is a grammar, and a store, after every
sequence of operations (`run`).

A rule is begun by one operation, and its right side is written by others, for which an `Editor`
remembers the rule.
-/

namespace CanonicalLR

/-- What can be asked of a grammar. -/
inductive Operation where
  /-- A symbol is declared. -/
  | declare (l : Label)
  | setStart (name : String)
  | setError (name : String)
  /-- A rule is begun. -/
  | newRule (left : String)
  /-- A symbol is added at the end of the rule that was begun by the last operation that did not add a
  symbol. -/
  | append (l : Label)
  /-- The grammar is replaced by the augmented one. -/
  | augment
  /-- The grammar is replaced by its normal form, in which duplicate terms are merged if `merge` is
  set. -/
  | normalize (merge : Bool)
deriving DecidableEq

/-- What is edited, and the rule to which symbols can be added, also if it was removed meanwhile. -/
structure Editor (γ : Type) where
  content : γ
  rule : Option RuleId
deriving DecidableEq

namespace Editor

variable {γ : Type}

/-- The editor once something took the place of what was edited, unless that failed. -/
def replace {ε : Type} (e : Editor γ) (outcome : Except ε γ) : Editor γ :=
  ⟨outcome.toOption.getD e.content, none⟩

/-- The editor once a rule was begun, unless that failed. -/
def begin {ε : Type} (e : Editor γ) (outcome : Except ε (RuleId × γ)) : Editor γ :=
  match outcome with
  | .ok (id, content) => ⟨content, some id⟩
  | .error _ => { e with rule := none }

/-- The editor once a symbol was added to the rule, if there is one. -/
def extend (e : Editor γ) (add : RuleId → γ) : Editor γ :=
  match e.rule with
  | some id => ⟨add id, some id⟩
  | none => e

end Editor

/-- A grammar after an operation. -/
def Grammar.perform (e : Editor Grammar) : Operation → Editor Grammar
  | .declare l => e.replace ((e.content.declare l).map (·.2))
  | .setStart name => e.replace ((e.content.setStart name).map (·.2))
  | .setError name => e.replace ((e.content.setError name).map (·.2))
  | .newRule left => e.begin (e.content.newRule left)
  | .append l => e.extend fun id => (e.content.append id l).2
  | .augment => e.replace (e.content.augment.map (·.grammar))
  | .normalize merge => e.replace (e.content.normalize merge)

/-- A store after an operation. -/
def Store.perform (e : Editor Store) : Operation → Editor Store
  | .declare l => e.replace ((e.content.declare l).map (·.2))
  | .setStart name => e.replace ((e.content.setStart name).map (·.2))
  | .setError name => e.replace ((e.content.setError name).map (·.2))
  | .newRule left => e.begin (e.content.newRule left)
  | .append l => e.extend fun id => (e.content.append id l).2
  | .augment => e.replace e.content.augment
  | .normalize merge => e.replace (e.content.normalize merge)

/-- The grammar that operations lead to, one after the other, from the empty one. -/
def Grammar.run (operations : List Operation) : Grammar :=
  (operations.foldl perform ⟨empty, none⟩).content

/-- The store that operations lead to, one after the other, from the empty one. -/
def Store.run (operations : List Operation) : Store :=
  (operations.foldl perform ⟨empty, none⟩).content

end CanonicalLR
