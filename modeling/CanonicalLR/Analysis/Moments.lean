import CanonicalLR.Analysis.Sweep

/-!
# Sweeps symbol by symbol

While the rules of a term are walked over, the facts grow with the symbols that are read.  A `Moment`
is a place between two symbols in the course of the sweeps.  In one step a symbol is read, or the end
of a rule is reached, or a sweep or a visit to a term begins or ends.  There is no step when no term is
dirty at the end of a sweep.

To visit a term at once (`Flagged.visit`) comes to the same as to visit it symbol by symbol.
-/

namespace CanonicalLR.Analysis

/-- The facts after one symbol more was read in a rule of the term `t`, with what is left to be read of
the rule; nothing is left after a symbol that is not nullable as far as known.  If there is no symbol
more, then the term is found to be nullable. -/
def read (a : Analysis) (t : TermId) : List Symbol → Analysis × Option (List Symbol)
  | [] => (a.setNullable t, none)
  | .prompt _ :: items => (a, some items)
  | .token n :: _ => (a.addFirsts t (.singleton n), none)
  | .term c :: items =>
    let a := (a.link t c).addFirsts t (a.firstSet c)
    (a, if a.nullable c then some items else none)

/-- A moment in the course of the sweeps. -/
inductive Moment where
  /-- No rule is walked over.  In this sweep the terms `terms` are still to be visited. -/
  | between (s : Flagged) (terms : List TermId)
  /-- The rules of the term `t` are walked over, and in this sweep the terms `terms` are to be visited
  after it.  It is remembered whether the facts have changed in this visit; what is still to be read
  are the right sides `rules`, where the first one may be the rest of a right side. -/
  | visiting (s : Flagged) (terms : List TermId) (t : TermId) (changed : Bool)
      (rules : List (List Symbol))

namespace Moment

/-- The facts and the flags at a moment. -/
def state : Moment → Flagged
  | between s _ => s
  | visiting s _ _ _ _ => s

/-- The next moment.  The flag of a term is cleared when the visit to it begins.  When it ends, the
flags of the ancestors are set if the facts have changed. -/
def step (g : Grammar) : Moment → Option Moment
  | between s [] =>
    match s.pending g with
    | [] => none
    | terms => some (between s terms)
  | between s (t :: terms) =>
    some (visiting ⟨s.analysis, fun u => u != t && s.dirty u⟩ terms t false
      ((g.rulesOf t).map (·.items)))
  | visiting s terms t changed [] =>
    some (between ⟨s.analysis, fun u =>
      (changed && decide (u ∈ (s.analysis.of t).ancestors)) || s.dirty u⟩ terms)
  | visiting s terms t changed (items :: rules) =>
    let told := s.analysis.read t items
    some (visiting ⟨told.1, s.dirty⟩ terms t (changed || decide (told.1 ≠ s.analysis))
      (told.2.toList ++ rules))

/-- The moment before the first sweep. -/
def first (g : Grammar) : Moment :=
  between (.initial g) []

end Moment

end CanonicalLR.Analysis
