import CanonicalLR.Grammar.Basic

/-!
# Grammars as text

The text `g.display` of a grammar: its terms, tokens, prompts and rules, a line each, with the
rules listed term by term.
-/

namespace CanonicalLR

/-- The text that consists of the given lines, each of them with a line break at its end. -/
def Text.unlines (lines : List String) : String :=
  String.join (lines.map fun line => line ++ "\n")

namespace Grammar

/-- A symbol as it is shown. -/
def displaySymbol (g : Grammar) (s : Symbol) : String :=
  (g.label s).display

/-- A rule as it is shown. -/
def displayRule (g : Grammar) (r : Rule) : String :=
  (g.production r).display

/-- The grammar as it is shown. -/
def display (g : Grammar) : String :=
  let mark (marked : Bool) (word : String) := if marked then " (" ++ word ++ ")" else ""
  Text.unlines
    (["## terms:"] ++
      g.terms.ids.map (fun t => g.displaySymbol (.term t) ++ mark (g.start = some t) "start") ++
      ["", "## tokens:"] ++
      g.tokens.ids.map (fun t => g.displaySymbol (.token t) ++ mark (g.error = some t) "error") ++
      ["", "## prompts:"] ++
      g.prompts.ids.map (fun p => g.displaySymbol (.prompt p)) ++
      ["", "## rules:"] ++
      g.terms.ids.flatMap fun t => (g.rulesOf t).map g.displayRule)

end Grammar

end CanonicalLR
