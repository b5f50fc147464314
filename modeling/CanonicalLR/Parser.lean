import CanonicalLR.NormalForm.Normalize
import CanonicalLR.Table.GotoLoop
import CanonicalLR.Parse.Engine

/-!
# Parsers of grammars

A `Parser` is made of a grammar in a few steps (`Parser.build`): the grammar must be free of
findings, it is brought into normal form and augmented, its canonical automaton is built, and the
table of the automaton.  `Parser.definition` is the parser as the engine sees it.
-/

namespace CanonicalLR

/-- How a parser is made of a grammar. -/
structure Settings where
  /-- What becomes of conflicts in the table. -/
  policy : Policy
  /-- Whether the grammar is brought into normal form. -/
  normalize : Bool
  /-- Whether duplicate terms are merged in the normal form. -/
  merge : Bool
deriving DecidableEq

/-- What can go wrong when a parser is made. -/
inductive BuildError where
  | invalid (findings : List Diagnostic)
  | grammar (error : GrammarError)
  | normalize (error : NormalizeError)
  | table (error : TableError)
deriving DecidableEq

namespace BuildError

/-- The wording of an error. -/
def message : BuildError → String
  | invalid findings => "invalid grammar:\n" ++ "\n".intercalate (findings.map Diagnostic.message)
  | grammar e => e.message
  | normalize e => e.message
  | table e => e.message

end BuildError

namespace Settings

/-- The augmented grammar that a parser is made of. -/
def prepare (settings : Settings) (g : Grammar) : Except BuildError AugmentedGrammar := do
  let g ← if settings.normalize then (g.normalize settings.merge).mapError .normalize else .ok g
  g.augment.mapError .grammar

end Settings

/-- A parser of a grammar. -/
structure Parser where
  /-- The grammar that the automaton was built from. -/
  grammar : AugmentedGrammar
  automaton : Automaton
  table : ParseTable
deriving DecidableEq

namespace Parser

/-- The parser of a grammar. -/
def build (settings : Settings) (g : Grammar) : Except BuildError Parser := do
  if g.diagnose ≠ [] then throw (.invalid g.diagnose)
  let grammar ← settings.prepare g
  let automaton := Automaton.build grammar
  let table ← (ParseTable.build grammar automaton settings.policy).mapError .table
  return ⟨grammar, automaton, table⟩

/-- The column of the table for a lookahead: that of the token with the given name, once it is
trimmed, or that of the end of the input.  The very name of the token for the end of the input has
none. -/
def column? (p : Parser) : Option String → Option TokenId
  | none => some p.grammar.eof
  | some name =>
    if name = eofTokenName then none
    else (p.grammar.grammar.find? ⟨.token, name⟩).map (·.id)

/-- What the engine is to do by an action of the table. -/
def decision? : Action → Option (Decision StateId Rule)
  | .shift target => some (.shift target)
  | .reduce rule => some (.reduce rule)
  | .accept => some .accept
  | .error message => some (.error message)
  | .goto _ => none

/-- The state that is entered from `state` after a reduction by a rule. -/
def goto? (p : Parser) (state : StateId) (r : Rule) : Option StateId :=
  match p.table.action? state (.term r.owner) with
  | some (.goto target) => some target
  | _ => none

/-- The parser as the engine sees it. -/
def definition (p : Parser) : Definition StateId Rule where
  initial := 0
  action state lookahead :=
    (p.column? lookahead).bind fun t => (p.table.action? state (.token t)).bind decision?
  goto := p.goto?
  production := p.grammar.grammar.production
  expected state := (p.table.row state).expectedTokens.map p.grammar.grammar.tokenName
  gotoTargets := p.automaton.states.length

/-- The outcome of reading a whole input, with at most as many complaints as `cap` says. -/
def parse (p : Parser) (tokens : List Token) (cap : Nat) :
    Except (Fault StateId) ParseResult :=
  (p.definition.parse tokens cap).outcome

end Parser

end CanonicalLR
