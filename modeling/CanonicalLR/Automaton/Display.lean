import CanonicalLR.Grammar.Display
import CanonicalLR.Automaton.Basic

/-!
# Automata as text

`Automaton.display` lists the states of an automaton: for each the dotted rules with their
lookaheads, and the transitions.
-/

namespace CanonicalLR

/-- The number of a state as it is shown, with two digits at least. -/
def displayState (n : StateId) : String :=
  if n < 10 then "0" ++ toString n else toString n

namespace DottedRule

/-- The symbols of a right side with the dot, `none`, behind `dot` symbols other than prompts, and
as far behind as it can be. -/
def withDot : Nat → List Symbol → List (Option Symbol)
  | _, [] => [none]
  | dot, s :: items =>
    if s.isBasic then
      match dot with
      | 0 => none :: some s :: items.map some
      | dot + 1 => some s :: withDot dot items
    else some s :: withDot dot items

/-- The dotted rule as it is shown. -/
def display (g : Grammar) (d : DottedRule) : String :=
  let part : Option Symbol → String
    | none => " ."
    | some s => " " ++ g.displaySymbol s
  "(" ++ g.termName d.rule.owner ++ " :=" ++
    String.join ((withDot d.dot d.rule.items).map part) ++ ")"

end DottedRule

namespace Automaton

/-- What is done on a transition, as it is shown. -/
def displayMove (t : Transition) : String :=
  (if t.symbol.kind = .token then "shift" else "goto") ++ "(" ++ displayState t.target ++ ")"

/-- The lines that show a state. -/
def displayLines (g : Grammar) (id : StateId) (s : State) : List String :=
  ["#### State " ++ displayState id, "## fragments"] ++
    s.items.entries.map (fun e =>
      "- " ++ e.core.display g ++ "  [" ++
        " ".intercalate (e.lookahead.toList.map g.tokenName) ++ "]") ++
    ["## transitions"] ++
    s.transitions.map (fun t => "- " ++ g.displaySymbol t.symbol ++ " => " ++ displayMove t) ++
    if s.accepts then ["## accept"] else []

/-- The automaton as it is shown. -/
def display (g : Grammar) (m : Automaton) : String :=
  "\n".intercalate (m.states.mapIdx fun id s => Text.unlines (displayLines g id s))

end Automaton

end CanonicalLR
