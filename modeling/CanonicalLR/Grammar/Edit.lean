import CanonicalLR.Grammar.Build

/-!
# Editing grammars

The operations by which a grammar is brought into another form: the rules of a term are replaced,
a term is replaced by another one, symbols are removed, and a term with a name of its own is
added.
-/

namespace CanonicalLR.Grammar

/-- The grammar with new rules of a term, one for each right side. -/
def pushRules (g : Grammar) (owner : TermId) (rights : List (List Symbol)) : Grammar :=
  rights.foldl (fun g right => (g.pushRule owner right).2) g

/-- The grammar in which the rules of a term are replaced by new ones, one for each right side. -/
def replaceRules (g : Grammar) (owner : TermId) (rights : List (List Symbol)) : Grammar :=
  (g.removeRules fun r => r.owner = owner).pushRules owner rights

/-- The grammar without a symbol, and without its rules if it is a term. -/
def removeSymbol (g : Grammar) (s : Symbol) : Grammar :=
  let g := g.withTable s.kind ((g.table s.kind).erase s.id)
  match s with
  | .term t =>
    { g.removeRules fun r => r.owner = t with start := g.start.filter fun start => start ≠ t }
  | .token t => { g with error := g.error.filter fun error => error ≠ t }
  | .prompt _ => g

/-- The right side `items` with the term `target` in the place of the term `source`. -/
def renameItems (source target : TermId) (items : List Symbol) : List Symbol :=
  items.map fun s => if s = .term source then .term target else s

/-- The grammar without the term `source`, in which the term `target` takes its place in all rules
and as the start term. -/
def substituteTerm (g : Grammar) (source target : TermId) : Grammar :=
  let renamed : Grammar := { g with
    rules := g.rules.map fun r => { r with items := renameItems source target r.items }
    start := g.start.map fun start => if start = source then target else start }
  renamed.removeSymbol (.term source)

/-- The names for a term that continues the term with the name `base`, in the order in which they
are tried. -/
def tailName (base : String) : Nat → String
  | 0 => base ++ "_tail"
  | n + 1 => base ++ "_tail" ++ toString (n + 2)

/-- The first of the names for a continuation of `base` that no term has. -/
def freshName (g : Grammar) (base : String) : String :=
  (((List.range (g.terms.size + 1)).map (tailName base)).find? fun name =>
    (g.terms.find? name).isNone).getD (tailName base 0)

/-- A new term that continues the term `t`, and the grammar with it. -/
def freshTail (g : Grammar) (t : TermId) : TermId × Grammar :=
  let (s, g) := g.intern ⟨.term, g.freshName (g.termName t)⟩
  (s.id, g)

end CanonicalLR.Grammar
