import CanonicalLR.Text.Blank
import CanonicalLR.Text.Quoted
import CanonicalLR.Grammar.Basic

/-!
# Building grammars

The operations by which a grammar grows: `declare` for symbols, `newRule` for a rule without
symbols on its right side, and `append` for one more symbol there.  A name is trimmed when a
symbol is declared and when it is looked up, so blanks around it mean nothing.  A name of blanks
only is refused, and so is one with a dollar sign in front, which is kept for the symbols that
augmenting adds.

A rule whose right side cannot be completed is removed again; the symbols that were declared on
the way remain.
-/

namespace CanonicalLR

/-- What can go wrong when a grammar is built. -/
inductive GrammarError where
  | invalidName (name : String)
  | missingStart
  | alreadyAugmented
deriving DecidableEq

namespace GrammarError

/-- The wording of an error. -/
def message : GrammarError → String
  | invalidName name => "invalid symbol name: " ++ Text.quote name
  | missingStart => "the start term is not specified"
  | alreadyAugmented => "the grammar has already been augmented"

end GrammarError

namespace Grammar

/-- The trimmed form of a name, if it may name a symbol. -/
def checkName (name : String) : Except GrammarError String :=
  match Text.trimChars name.toList with
  | [] => .error (.invalidName name)
  | '$' :: _ => .error (.invalidName name)
  | cs => .ok (String.ofList cs)

/-- The symbol with a label, and the grammar with it, to which it is added if it is new.  The name
is taken as it is. -/
def intern (g : Grammar) (l : Label) : Symbol × Grammar :=
  let (id, t) := (g.table l.kind).intern l.name
  (⟨l.kind, id⟩, g.withTable l.kind t)

/-- The symbol with a label, if it is a member. -/
def find? (g : Grammar) (l : Label) : Option Symbol :=
  ((g.table l.kind).find? (Text.trim l.name)).map fun id => ⟨l.kind, id⟩

/-- The symbol with a label, and the grammar with it, to which it is added if it is new. -/
def declare (g : Grammar) (l : Label) : Except GrammarError (Symbol × Grammar) :=
  (checkName l.name).map fun name => g.intern ⟨l.kind, name⟩

/-- The term with a name, and the grammar with it as its start term. -/
def setStart (g : Grammar) (name : String) : Except GrammarError (Symbol × Grammar) :=
  (g.declare ⟨.term, name⟩).map fun (s, g) => (s, { g with start := some s.id })

/-- The token with a name, and the grammar with it as its error token. -/
def setError (g : Grammar) (name : String) : Except GrammarError (Symbol × Grammar) :=
  (g.declare ⟨.token, name⟩).map fun (s, g) => (s, { g with error := some s.id })

/-! ### Rules -/

/-- The number of a new rule with an empty right side, and the grammar with it.  Its owner is
declared. -/
def newRule (g : Grammar) (left : String) : Except GrammarError (RuleId × Grammar) :=
  (g.declare ⟨.term, left⟩).map fun (s, g) =>
    let (rule, g) := g.pushRule s.id []
    (rule.id, g)

/-- The grammar with one more symbol at the end of the rule with the number `id`, if there is
one. -/
def extendRule (g : Grammar) (id : RuleId) (s : Symbol) : Grammar :=
  { g with
    rules := g.rules.map fun r => if r.id = id then { r with items := r.items ++ [s] } else r }

/-- The grammar with one more symbol, which is declared, at the end of the rule with the number
`id`.  If the label is refused, it is the grammar without the rule. -/
def append (g : Grammar) (id : RuleId) (l : Label) : Except GrammarError Unit × Grammar :=
  match g.declare l with
  | .ok (s, g) => (.ok (), g.extendRule id s)
  | .error e => (.error e, g.removeRule id)

/-- The outcomes of appending the labels of a list one after the other, also after a failure. -/
def appendEach (g : Grammar) (id : RuleId) :
    List Label → List (Except GrammarError Unit) × Grammar
  | [] => ([], g)
  | l :: labels =>
    let (outcome, g) := g.append id l
    let (outcomes, g) := g.appendEach id labels
    (outcome :: outcomes, g)

/-- The outcome of appending the labels of a list up to the first that is refused. -/
def appendAll (g : Grammar) (id : RuleId) : List Label → Except GrammarError Unit × Grammar
  | [] => (.ok (), g)
  | l :: labels =>
    match g.append id l with
    | (.ok (), g) => g.appendAll id labels
    | (.error e, g) => (.error e, g)

/-- The number of a new rule with the given labels, and the grammar with it. -/
def addRule (g : Grammar) (left : String) (right : List Label) :
    Except GrammarError RuleId × Grammar :=
  match g.newRule left with
  | .error e => (.error e, g)
  | .ok (id, g) =>
    let (outcome, g) := g.appendAll id right
    (outcome.map fun _ => id, g)

/-- The rule with the number `id`. -/
def rule? (g : Grammar) (id : RuleId) : Option Rule :=
  g.rules.find? fun r => r.id == id

end Grammar

end CanonicalLR
