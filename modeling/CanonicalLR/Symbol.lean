/-!
# Symbols and their labels

The right side of a rule is a sequence of symbols of three kinds: *terms*, which have rules of
their own, *tokens*, which are read from the input, and *prompts*, which stand for nothing in the
input and are only carried into the parse tree.

A `Symbol` is a kind and a number; it belongs to a grammar, which knows its name.  A `Label` is a
kind and a name; it is what is left of a symbol outside its grammar.  A `Production` is a rule
written with labels.
-/

namespace CanonicalLR

/-- The kinds of symbols. -/
inductive Kind where
  | term
  | token
  | prompt
deriving DecidableEq

namespace Kind

/-- The word for a kind. -/
def word : Kind → String
  | term => "term"
  | token => "token"
  | prompt => "prompt"

/-- The place of a kind in the order of kinds: terms, tokens, prompts. -/
def rank : Kind → Nat
  | term => 0
  | token => 1
  | prompt => 2

end Kind

/-- The number of a term among the terms of a grammar. -/
abbrev TermId := Nat

/-- The number of a token among the tokens of a grammar. -/
abbrev TokenId := Nat

/-- The number of a prompt among the prompts of a grammar. -/
abbrev PromptId := Nat

/-- A symbol of a grammar: the one with a certain number among those of its kind. -/
structure Symbol where
  kind : Kind
  id : Nat
deriving DecidableEq

namespace Symbol

/-- The term with the number `t`. -/
@[match_pattern]
abbrev term (t : TermId) : Symbol := ⟨.term, t⟩

/-- The token with the number `t`. -/
@[match_pattern]
abbrev token (t : TokenId) : Symbol := ⟨.token, t⟩

/-- The prompt with the number `p`. -/
@[match_pattern]
abbrev prompt (p : PromptId) : Symbol := ⟨.prompt, p⟩

/-- Whether the symbol takes a place on the stack of a parser, that is, whether it is no prompt. -/
def isBasic (s : Symbol) : Bool :=
  s.kind ≠ .prompt

/-- Whether the symbol is a prompt. -/
def isPrompt (s : Symbol) : Bool :=
  s.kind = .prompt

end Symbol

/-- The kind and the name of a symbol. -/
structure Label where
  kind : Kind
  name : String
deriving DecidableEq

namespace Label

/-- A term is shown by its name, a token between quotes, a prompt behind an at sign. -/
def display (l : Label) : String :=
  match l.kind with
  | .term => l.name
  | .token => "'" ++ l.name ++ "'"
  | .prompt => "@" ++ l.name

/-- The order of labels: by kind, then by name. -/
def order (a b : Label) : Ordering :=
  (compare a.kind.rank b.kind.rank).then (compare a.name b.name)

/-- The labels of a list in increasing order. -/
def sort (labels : List Label) : List Label :=
  labels.mergeSort fun a b => (a.order b).isLE

/-- Whether the label is of a symbol that takes a place on the stack of a parser. -/
def isBasic (l : Label) : Bool :=
  l.kind ≠ .prompt

end Label

/-- A rule written with labels. -/
structure Production where
  /-- The name of the term that the rule belongs to. -/
  left : String
  right : List Label
deriving DecidableEq

namespace Production

/-- The number of symbols that a reduction by the rule takes from the stack. -/
def arity (p : Production) : Nat :=
  p.right.countP Label.isBasic

/-- The rule as it is shown, with `ε` for a right side without any symbol. -/
def display (p : Production) : String :=
  p.left ++ " :=" ++
    if p.right.isEmpty then " ε"
    else String.join (p.right.map fun l => " " ++ l.display)

end Production

end CanonicalLR
