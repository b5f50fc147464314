import CanonicalLR.Analysis.Fixpoint

/-!
# Sweeps

The facts about the terms of a grammar are found in sweeps as well.  Each term has a flag, which is
set while its rules have to be walked over: the term is *dirty*.  A sweep goes through the terms that
are dirty when it begins, in the order of their numbers.  The flag of a term is cleared before its
rules are walked over, and if this tells something new about the term, then the flags of its ancestors
are set, as far as they are known by then.  There are sweeps until no term is dirty.

The facts that are found are those of `Grammar.analyze`, which keeps the dirty terms in a queue.
-/

namespace CanonicalLR

namespace Analysis

/-- The facts, with the flags of the terms. -/
structure Flagged where
  analysis : Analysis
  /-- Whether the rules of a term have to be walked over. -/
  dirty : TermId → Bool

/-- The state after the rules of the term `t` were walked over. -/
def Flagged.visit (g : Grammar) (s : Flagged) (t : TermId) : Flagged :=
  let analysis := (g.rulesOf t).foldl learn s.analysis
  let changed := decide (analysis.of t ≠ s.analysis.of t)
  ⟨analysis, fun u => (changed && decide (u ∈ (analysis.of t).ancestors)) || (u != t && s.dirty u)⟩

/-- The terms that are dirty, in the order of their numbers. -/
def Flagged.pending (g : Grammar) (s : Flagged) : List TermId :=
  g.terms.ids.filter s.dirty

/-- The state after a sweep, if there is a dirty term. -/
def sweep (g : Grammar) (s : Flagged) : Option Flagged :=
  match s.pending g with
  | [] => none
  | terms => some (terms.foldl (Flagged.visit g) s)

/-- The state before any rule was looked at: all terms are dirty. -/
def Flagged.initial (g : Grammar) : Flagged :=
  ⟨(Analysis.initial g).analysis, fun _ => true⟩

/-- An upper bound for the number of sweeps: each but the last one finds a fact about a term, and
there are at most one for the empty sequence, one for each token and one for each term. -/
def sweeps (g : Grammar) : Nat :=
  g.terms.size * (1 + g.tokens.size + g.terms.size) + 1

end Analysis

/-- The state in which there is no dirty term any more. -/
def Grammar.swept (g : Grammar) : Analysis.Flagged :=
  exhaust (Analysis.sweep g) (Analysis.sweeps g) (.initial g)

end CanonicalLR
