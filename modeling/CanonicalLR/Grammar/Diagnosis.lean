import CanonicalLR.Grammar.Display
import CanonicalLR.Grammar.Reachable

/-!
# Diagnosis

The list `g.diagnose` of what is wrong or superfluous in a grammar: a missing start term, rules
that say the same, rules that say nothing, symbols that no derivation from the start term can
meet.  A grammar is fit for the construction of a parser if nothing is found.
-/

namespace CanonicalLR

/-- A finding about a grammar. -/
inductive Diagnostic where
  | emptyGrammar
  | missingStart
  | foreignStart
  | foreignError
  | repeatedTerm (name : String) (times : Nat)
  | duplicateRule (rule : Production)
  | nonproductiveRule (rule : Production)
  | unreachable (label : Label)
deriving DecidableEq

namespace Diagnostic

/-- The wording of a finding. -/
def message : Diagnostic → String
  | emptyGrammar => "The grammar is empty"
  | missingStart => "The start term is not specified"
  | foreignStart => "The start term is not a member of the grammar"
  | foreignError => "The error token is not a member of the grammar"
  | repeatedTerm name times => "The term `" ++ name ++ "' is defined " ++ toString times ++ " times"
  | duplicateRule rule => "Duplicate rule detected: `" ++ rule.display ++ "'"
  | nonproductiveRule rule => "Nonproductive rule detected: `" ++ rule.display ++ "'"
  | unreachable label =>
    "The " ++ label.kind.word ++ " `" ++ label.name ++ "' is unreachable"

end Diagnostic

namespace Grammar

/-- The start term, if there is one and it is a member. -/
def memberStart? (g : Grammar) : Option TermId :=
  g.start.filter fun t => g.contains (.term t)

/-- The findings about the start term. -/
def diagnoseStart (g : Grammar) : List Diagnostic :=
  match g.start with
  | none => [.missingStart]
  | some t => if g.contains (.term t) then [] else [.foreignStart]

/-- The findings about the error token. -/
def diagnoseError (g : Grammar) : List Diagnostic :=
  match g.error with
  | none => []
  | some t => if g.contains (.token t) then [] else [.foreignError]

/-- The names of terms that occur more than once, in the order of their first occurrences. -/
def diagnoseNames (g : Grammar) : List Diagnostic :=
  g.terms.names.eraseDups.filterMap fun name =>
    let times := g.terms.names.count name
    if times > 1 then some (.repeatedTerm name times) else none

/-- The findings about the rules `rules` of one term, of which `earlier` come before. -/
def diagnoseRules (g : Grammar) (earlier : List Rule) : List Rule → List Diagnostic
  | [] => []
  | r :: rules =>
    (if earlier.any fun prior => prior.same r then [.duplicateRule (g.production r)] else []) ++
      (if r.isNonproductive then [.nonproductiveRule (g.production r)] else []) ++
      g.diagnoseRules (earlier ++ [r]) rules

/-- Whether the symbol is the error token. -/
def isErrorToken (g : Grammar) (s : Symbol) : Bool :=
  match s with
  | .token t => g.error = some t
  | _ => false

/-- The members that are not reachable from the term `start`: first terms, then tokens, then
prompts.  The error token does not count. -/
def unreachable (g : Grammar) (start : TermId) : List Symbol :=
  let touched := g.reachable start
  (g.symbols .term ++ g.symbols .token ++ g.symbols .prompt).filter fun s =>
    !g.isErrorToken s && !touched.contains s

/-- The findings about a grammar. -/
def diagnose (g : Grammar) : List Diagnostic :=
  if g.isEmpty then [.emptyGrammar]
  else
    g.diagnoseStart ++ g.diagnoseError ++ g.diagnoseNames ++
      (g.terms.ids.flatMap fun t => g.diagnoseRules [] (g.rulesOf t)) ++
      (match g.memberStart? with
        | none => []
        | some start => (g.unreachable start).map fun s => .unreachable (g.label s))

end Grammar

end CanonicalLR
