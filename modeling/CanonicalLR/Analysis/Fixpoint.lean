import CanonicalLR.Loop
import CanonicalLR.Queue
import CanonicalLR.Analysis.Facts

/-!
# The analysis of a grammar

The facts `g.analyze` about all terms of a grammar are found by walking over the rules of a term
and recording what follows from the facts known so far.  If this tells something new about the
term, the rules of all its ancestors have to be walked over again.  Facts are only ever added, so
this comes to an end, at the least facts that the rules agree with.
-/

namespace CanonicalLR

namespace Analysis

/-- The facts after a walk over the rest of a rule of the term `t`, up to the first symbol that is
not nullable as far as known, and whether the end was reached. -/
def walk (t : TermId) : List Symbol → Analysis → Analysis × Bool
  | [], a => (a, true)
  | .prompt _ :: items, a => walk t items a
  | .token n :: _, a => (a.addFirsts t (.singleton n), false)
  | .term c :: items, a =>
    let a := (a.link t c).addFirsts t (a.firstSet c)
    if a.nullable c then walk t items a else (a, false)

/-- The facts with what a rule tells about its owner. -/
def learn (a : Analysis) (r : Rule) : Analysis :=
  match walk r.owner r.items a with
  | (a, true) => a.setNullable r.owner
  | (a, false) => a

/-- The state of the search: the facts, and the terms whose rules have to be walked over. -/
structure Search where
  analysis : Analysis
  pending : Queue TermId

/-- The state after a walk over the rules of the oldest pending term. -/
def step (g : Grammar) (search : Search) : Option Search :=
  search.pending.pop?.map fun (t, pending) =>
    let before := search.analysis.of t
    let analysis := (g.rulesOf t).foldl learn search.analysis
    ⟨analysis,
      if analysis.of t = before then pending
      else pending.pushAll (analysis.of t).ancestors.toList⟩

/-- The state before any rule was looked at. -/
def initial (g : Grammar) : Search :=
  ⟨⟨.replicate g.terms.next .unknown⟩, .ofList g.terms.ids⟩

/-- An upper bound for the number of walks: each term is walked over once, and once more for every
fact about another term that is found, of which there are at most one for the empty sequence, one
for each token and one for each term. -/
def walks (g : Grammar) : Nat :=
  let n := g.terms.size
  n + n * (n * (1 + g.tokens.size + n)) + 1

end Analysis

/-- The facts about all terms of a grammar. -/
def Grammar.analyze (g : Grammar) : Analysis :=
  (exhaust (Analysis.step g) (Analysis.walks g) (Analysis.initial g)).analysis

end CanonicalLR
