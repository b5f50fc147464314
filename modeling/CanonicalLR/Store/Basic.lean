import CanonicalLR.Grammar.Augmented
import CanonicalLR.Store.Arena

/-!
# Stores

A `Store` is a grammar as it is kept in memory.  It says some things twice, so that they need not be
searched for: each kind of symbols has an index of its names, and each term has a list of the numbers
of its rules, beside the map of all rules.  Every operation has to bring these up to date.

The operations are those on grammars, and they refuse what those refuse.  The grammar that is kept in
a store is `s.grammar`.
-/

namespace CanonicalLR

/-- A grammar with an index of the names of its symbols and with lists of the rules of its terms. -/
structure Store where
  /-- The terms, each with the numbers of its rules, the oldest first. -/
  terms : Arena (List RuleId)
  tokens : Arena Unit
  prompts : Arena Unit
  rules : OrderedMap RuleId Rule
  /-- The number for the next new rule. -/
  nextRule : RuleId
  start : Option TermId
  error : Option TokenId
deriving DecidableEq

/-- The table of the symbols in an arena. -/
def Arena.table {α : Type} (a : Arena α) : SymbolTable :=
  ⟨a.symbols.entries.map fun entry => (entry.1, entry.2.name), a.next⟩

namespace Store

/-- The store without symbols and rules. -/
def empty : Store :=
  ⟨.empty, .empty, .empty, .empty, 0, none, none⟩

/-- The grammar that is kept in the store. -/
def grammar (s : Store) : Grammar :=
  ⟨s.terms.table, s.tokens.table, s.prompts.table, s.rules.values, s.nextRule, s.start, s.error⟩

/-- The index of the names of a kind. -/
def index (s : Store) : Kind → OrderedMap String Nat
  | .term => s.terms.index
  | .token => s.tokens.index
  | .prompt => s.prompts.index

/-- Whether the symbol is a member. -/
def contains (s : Store) (x : Symbol) : Bool :=
  match x.kind with
  | .term => s.terms.symbols.contains x.id
  | .token => s.tokens.symbols.contains x.id
  | .prompt => s.prompts.symbols.contains x.id

/-- The rules of a term, the oldest first: those on its list. -/
def rulesOf (s : Store) (t : TermId) : List Rule :=
  match s.terms.symbols.get? t with
  | none => []
  | some entry => entry.content.filterMap s.rules.get?

/-- The symbol with a label, if the index has its name. -/
def find? (s : Store) (l : Label) : Option Symbol :=
  ((s.index l.kind).get? (Text.trim l.name)).map fun id => ⟨l.kind, id⟩

/-! ### Symbols -/

/-- The symbol with a label, and the store with it, to which it is added if it is new; a new term has
no rules. -/
def intern (s : Store) : Label → Symbol × Store
  | ⟨.term, name⟩ =>
    let (id, terms) := s.terms.intern name []
    (.term id, { s with terms })
  | ⟨.token, name⟩ =>
    let (id, tokens) := s.tokens.intern name ()
    (.token id, { s with tokens })
  | ⟨.prompt, name⟩ =>
    let (id, prompts) := s.prompts.intern name ()
    (.prompt id, { s with prompts })

/-- The symbol with a label, and the store with it, to which it is added if it is new. -/
def declare (s : Store) (l : Label) : Except GrammarError (Symbol × Store) :=
  (Grammar.checkName l.name).map fun name => s.intern ⟨l.kind, name⟩

/-- The term with a name, and the store with it as its start term. -/
def setStart (s : Store) (name : String) : Except GrammarError (Symbol × Store) :=
  (s.declare ⟨.term, name⟩).map fun (x, s) => (x, { s with start := some x.id })

/-- The token with a name, and the store with it as its error token. -/
def setError (s : Store) (name : String) : Except GrammarError (Symbol × Store) :=
  (s.declare ⟨.token, name⟩).map fun (x, s) => (x, { s with error := some x.id })

/-! ### Rules -/

/-- A new rule, and the store with it, in which it is the last on the list of its owner. -/
def pushRule (s : Store) (owner : TermId) (items : List Symbol) : Rule × Store :=
  let rule : Rule := ⟨s.nextRule, owner, items⟩
  (rule, { s with
    rules := s.rules.insert rule.id rule
    terms := s.terms.modify owner fun ids => ids ++ [rule.id]
    nextRule := s.nextRule + 1 })

/-- The store without the rule with the number `id`, which is taken from the list of its owner too. -/
def removeRule (s : Store) (id : RuleId) : Store :=
  match s.rules.get? id with
  | none => s
  | some r => { s with
      rules := s.rules.erase id
      terms := s.terms.modify r.owner fun ids => ids.filter fun i => i ≠ id }

/-- The number of a new rule with an empty right side, and the store with it.  Its owner is
declared. -/
def newRule (s : Store) (left : String) : Except GrammarError (RuleId × Store) :=
  (s.declare ⟨.term, left⟩).map fun (x, s) =>
    let (rule, s) := s.pushRule x.id []
    (rule.id, s)

/-- The store with one more symbol at the end of the rule with the number `id`, if there is one. -/
def extendRule (s : Store) (id : RuleId) (x : Symbol) : Store :=
  { s with rules := s.rules.modify id fun r => { r with items := r.items ++ [x] } }

/-- The store with one more symbol, which is declared, at the end of the rule with the number `id`.  If
the label is refused, it is the store without the rule. -/
def append (s : Store) (id : RuleId) (l : Label) : Except GrammarError Unit × Store :=
  match s.declare l with
  | .ok (x, s) => (.ok (), s.extendRule id x)
  | .error e => (.error e, s.removeRule id)

/-- The outcomes of appending the labels of a list one after the other, also after a failure. -/
def appendEach (s : Store) (id : RuleId) : List Label → List (Except GrammarError Unit) × Store
  | [] => ([], s)
  | l :: labels =>
    let (outcome, s) := s.append id l
    let (outcomes, s) := s.appendEach id labels
    (outcome :: outcomes, s)

/-! ### Augmenting -/

/-- The store of the augmented grammar, if there is a start term and the grammar was not augmented
before. -/
def augment (s : Store) : Except GrammarError Store :=
  match s.start with
  | none => .error .missingStart
  | some start =>
    if ¬ s.contains (.term start) then .error .missingStart
    else if (s.find? ⟨.term, startTermName⟩).isSome || (s.find? ⟨.token, eofTokenName⟩).isSome then
      .error .alreadyAugmented
    else
      let (startTerm, s) := s.intern ⟨.term, startTermName⟩
      let (eof, s) := s.intern ⟨.token, eofTokenName⟩
      let (_, s) := s.pushRule startTerm.id [.term start, eof]
      .ok { s with start := some startTerm.id }

end Store

end CanonicalLR
