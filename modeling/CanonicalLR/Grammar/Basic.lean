import CanonicalLR.Symbol
import CanonicalLR.Grammar.SymbolTable

/-!
# Grammars

The type `Grammar`: the tables of the terms, tokens and prompts of a grammar, the list of its
rules, and possibly a start term and an error token.  By a `Rule`, a sequence of symbols may stand
for a term, the owner of the rule.

Rules are numbered in the order in which they are added, and the list of rules is in that order;
the rules of a term are those of the list that it owns (`rulesOf`).
-/

namespace CanonicalLR

/-- The number of a rule of a grammar. -/
abbrev RuleId := Nat

/-- A rule of a grammar. -/
structure Rule where
  id : RuleId
  /-- The left side: the term that the right side may stand for. -/
  owner : TermId
  /-- The right side, prompts included. -/
  items : List Symbol
deriving DecidableEq

namespace Rule

/-- The right side without its prompts. -/
def basicItems (r : Rule) : List Symbol :=
  r.items.filter Symbol.isBasic

/-- The number of symbols that a reduction by the rule takes from the stack. -/
def arity (r : Rule) : Nat :=
  r.basicItems.length

/-- Whether the right side derives nothing but the empty sequence: it holds no term and no token. -/
def isLambda (r : Rule) : Bool :=
  r.basicItems.isEmpty

/-- Whether the owner occurs in the right side. -/
def isDirectlyRecursive (r : Rule) : Bool :=
  r.items.contains (.term r.owner)

/-- Whether the owner stands for itself alone by the rule. -/
def isNonproductive (r : Rule) : Bool :=
  r.basicItems = [.term r.owner]

/-- Whether two rules have the same owner and the same right side. -/
def same (r s : Rule) : Bool :=
  r.owner = s.owner ∧ r.items = s.items

end Rule

/-- A grammar. -/
structure Grammar where
  terms : SymbolTable
  tokens : SymbolTable
  prompts : SymbolTable
  /-- The rules, the oldest first. -/
  rules : List Rule
  /-- The number for the next new rule. -/
  nextRule : RuleId
  start : Option TermId
  /-- The token that stands for an error in the input; it need not occur in a rule. -/
  error : Option TokenId
deriving DecidableEq

namespace Grammar

/-- The grammar without symbols and rules. -/
def empty : Grammar :=
  ⟨.empty, .empty, .empty, [], 0, none, none⟩

instance : Inhabited Grammar :=
  ⟨empty⟩

/-- Whether the grammar has no term. -/
def isEmpty (g : Grammar) : Bool :=
  g.terms.entries.isEmpty

/-- The table of the symbols of a kind. -/
def table (g : Grammar) : Kind → SymbolTable
  | .term => g.terms
  | .token => g.tokens
  | .prompt => g.prompts

/-- The grammar with another table for the symbols of a kind. -/
def withTable (g : Grammar) (k : Kind) (t : SymbolTable) : Grammar :=
  match k with
  | .term => { g with terms := t }
  | .token => { g with tokens := t }
  | .prompt => { g with prompts := t }

/-- Whether the symbol is a member of the grammar. -/
def contains (g : Grammar) (s : Symbol) : Bool :=
  (g.table s.kind).contains s.id

/-- The symbols of a kind, the oldest first. -/
def symbols (g : Grammar) (k : Kind) : List Symbol :=
  (g.table k).ids.map fun id => ⟨k, id⟩

/-- The name of a symbol, empty for one that is not a member. -/
def nameOf (g : Grammar) (s : Symbol) : String :=
  ((g.table s.kind).name? s.id).getD ""

/-- The label of a symbol. -/
def label (g : Grammar) (s : Symbol) : Label :=
  ⟨s.kind, g.nameOf s⟩

/-- The name of the term with the number `t`. -/
def termName (g : Grammar) (t : TermId) : String :=
  g.nameOf (.term t)

/-- The name of the token with the number `t`. -/
def tokenName (g : Grammar) (t : TokenId) : String :=
  g.nameOf (.token t)

/-- A rule written with the names of its symbols. -/
def production (g : Grammar) (r : Rule) : Production :=
  ⟨g.termName r.owner, r.items.map g.label⟩

/-- The rules of a term, the oldest first. -/
def rulesOf (g : Grammar) (t : TermId) : List Rule :=
  g.rules.filter fun r => r.owner == t

/-! ### Adding and removing rules -/

/-- A new rule, and the grammar with it. -/
def pushRule (g : Grammar) (owner : TermId) (items : List Symbol) : Rule × Grammar :=
  let rule : Rule := ⟨g.nextRule, owner, items⟩
  (rule, { g with rules := g.rules ++ [rule], nextRule := g.nextRule + 1 })

/-- The grammar without the rule with the number `id`. -/
def removeRule (g : Grammar) (id : RuleId) : Grammar :=
  { g with rules := g.rules.filter fun r => r.id ≠ id }

/-- The grammar without the rules that have a property. -/
def removeRules (g : Grammar) (p : Rule → Bool) : Grammar :=
  { g with rules := g.rules.filter fun r => !p r }

end Grammar

end CanonicalLR
