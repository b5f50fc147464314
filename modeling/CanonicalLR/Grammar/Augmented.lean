import CanonicalLR.Grammar.Build

/-!
# Augmented grammars

The augmented grammar of a grammar has a new start term, whose only rule is the old start term
followed by a token for the end of the input.  The names of the two new symbols begin with a
dollar sign, so no declared symbol has them.
-/

namespace CanonicalLR

/-- The name of the start term of an augmented grammar. -/
def startTermName : String := "$StartTerm"

/-- The name of the token for the end of the input. -/
def eofTokenName : String := "$EOFToken"

/-- A grammar with the rule that derives a whole input, its end included. -/
structure AugmentedGrammar where
  grammar : Grammar
  startTerm : TermId
  /-- The only rule of the start term. -/
  startRule : Rule
  /-- The token for the end of the input. -/
  eof : TokenId
deriving DecidableEq

/-- The augmented grammar of a grammar that has a start term and was not augmented before. -/
def Grammar.augment (g : Grammar) : Except GrammarError AugmentedGrammar :=
  match g.start with
  | none => .error .missingStart
  | some start =>
    if ¬ g.contains (.term start) then .error .missingStart
    else if (g.find? ⟨.term, startTermName⟩).isSome || (g.find? ⟨.token, eofTokenName⟩).isSome then
      .error .alreadyAugmented
    else
      let (startTerm, g) := g.intern ⟨.term, startTermName⟩
      let (eof, g) := g.intern ⟨.token, eofTokenName⟩
      let (startRule, g) := g.pushRule startTerm.id [.term start, eof]
      .ok ⟨{ g with start := some startTerm.id }, startTerm.id, startRule, eof.id⟩

end CanonicalLR
