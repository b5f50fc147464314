import CanonicalLR.IndexSet
import CanonicalLR.Grammar.Basic

/-!
# Facts about terms

The facts known about the terms of a grammar while it is analysed: whether a term is nullable,
which tokens a derivation of it can begin with, and which terms.  The terms that a rule of `p`
begins with, possibly after nullable terms, are the *children* of `p`; its *dependents* are what
is reached by going from child to child, and its *ancestors* are the terms that it is a dependent
of.

A child is recorded together with all that follows from it for dependents and ancestors (`link`),
so at any time the dependents are the transitive closure of the children, and the ancestors its
inverse.
-/

namespace CanonicalLR

/-- The facts known about one term. -/
structure TermFacts where
  nullable : Bool
  /-- The tokens that a derivation of the term can begin with. -/
  firsts : IndexSet
  /-- The terms that a rule of the term begins with, possibly after nullable terms. -/
  children : IndexSet
  /-- The transitive closure of the children. -/
  dependents : IndexSet
  /-- The terms that have this one among their dependents. -/
  ancestors : IndexSet
deriving DecidableEq

namespace TermFacts

/-- What is known of a term before any rule was looked at. -/
def unknown : TermFacts :=
  ⟨false, ∅, ∅, ∅, ∅⟩

end TermFacts

/-- The facts known about the terms of a grammar, each at the place that its term has as number. -/
structure Analysis where
  facts : Array TermFacts
deriving DecidableEq

namespace Analysis

/-- The facts about the term `t`. -/
def of (a : Analysis) (t : TermId) : TermFacts :=
  a.facts[t]?.getD .unknown

/-- Whether the term can derive the empty sequence. -/
def nullable (a : Analysis) (t : TermId) : Bool :=
  (a.of t).nullable

/-- The tokens that a derivation of the term can begin with. -/
def firstSet (a : Analysis) (t : TermId) : IndexSet :=
  (a.of t).firsts

/-- Whether the term can derive a sequence that begins with the term `other`. -/
def dependsOn (a : Analysis) (t other : TermId) : Bool :=
  decide (other ∈ (a.of t).dependents)

/-- The facts with a change in what is known about the term `t`. -/
def modify (a : Analysis) (t : TermId) (change : TermFacts → TermFacts) : Analysis :=
  ⟨a.facts.modify t change⟩

/-- The facts with `t` nullable. -/
def setNullable (a : Analysis) (t : TermId) : Analysis :=
  a.modify t fun f => { f with nullable := true }

/-- The facts with `tokens` among those that a derivation of `t` can begin with. -/
def addFirsts (a : Analysis) (t : TermId) (tokens : IndexSet) : Analysis :=
  if (a.of t).firsts.includes tokens then a
  else a.modify t fun f => { f with firsts := f.firsts ∪ tokens }

/-- The facts with the term `c` as a child of the term `p`. -/
def link (a : Analysis) (p c : TermId) : Analysis :=
  if c ∈ (a.of p).children then a
  else
    let sources := (a.of p).ancestors.insert p
    let targets := (a.of c).dependents.insert c
    ⟨a.facts.mapIdx fun t f => { f with
      children := if t = p then f.children.insert c else f.children
      dependents := if t ∈ sources then f.dependents ∪ targets else f.dependents
      ancestors := if t ∈ targets then f.ancestors ∪ sources else f.ancestors }⟩

/-! ### Firsts of symbols and of sequences -/

/-- The tokens that a derivation of a symbol can begin with.  A prompt begins with nothing. -/
def firstsOfSymbol (a : Analysis) (s : Symbol) : IndexSet :=
  match s with
  | .token t => .singleton t
  | .term t => a.firstSet t
  | .prompt _ => ∅

/-- Whether a symbol can derive the empty sequence; a prompt is not said to. -/
def nullableSymbol (a : Analysis) (s : Symbol) : Bool :=
  match s with
  | .term t => a.nullable t
  | _ => false

/-- The tokens that a derivation of a sequence can begin with, together with those of `fallback`
if the whole sequence is nullable.  Prompts are passed over. -/
def firstsOf (a : Analysis) (fallback : IndexSet) : List Symbol → IndexSet
  | [] => fallback
  | .prompt _ :: items => a.firstsOf fallback items
  | s :: items =>
    a.firstsOfSymbol s ∪ if a.nullableSymbol s then a.firstsOf fallback items else ∅

end Analysis

end CanonicalLR
