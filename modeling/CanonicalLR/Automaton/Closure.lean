import CanonicalLR.Loop
import CanonicalLR.Queue
import CanonicalLR.Analysis.Facts
import CanonicalLR.Automaton.ItemSet

/-!
# Closed item sets

When a term `y` is right after the dot of a core, any rule of `y` may begin there.  So the rules
of `y`, with the dot in front, are cores as well, and their lookaheads include every token that
what follows `y` can begin with, and the lookahead of the core itself if all that follows is
nullable.  An item set of which this is true is *closed*; `closure` adds what is missing.
-/

namespace CanonicalLR.ItemSet

/-- The state of the search: the item set, and the cores of which the predictions may be missing. -/
structure Closing where
  items : ItemSet
  pending : Queue DottedRule

/-- The state with the rule `r` added, with the dot in front and with the lookahead `tokens`. -/
def Closing.predict (tokens : IndexSet) (c : Closing) (r : Rule) : Closing :=
  let d := DottedRule.initial r
  if c.items.covers d tokens then c
  else ⟨c.items.add d tokens, c.pending.push d⟩

/-- The state with the predictions of the oldest pending core added. -/
def closureStep (g : Grammar) (a : Analysis) (c : Closing) : Option Closing :=
  c.pending.pop?.map fun (d, pending) =>
    let c := { c with pending }
    match d.rest with
    | .term y :: after =>
      let tokens := a.firstsOf ((c.items.lookahead? d).getD ∅) after
      (g.rulesOf y).foldl (Closing.predict tokens) c
    | _ => c

/-- An upper bound for the number of cores that are pending one after the other: those of the item
set and, for each rule, one when it is added and one for each token that its lookahead grows by. -/
def closureBound (g : Grammar) (s : ItemSet) : Nat :=
  s.entries.length + g.rules.length * (g.tokens.size + 1) + 1

/-- The least closed item set that extends `s`, where `a` are the facts about the terms of `g`. -/
def closure (g : Grammar) (a : Analysis) (s : ItemSet) : ItemSet :=
  (exhaust (closureStep g a) (closureBound g s) ⟨s, .ofList s.cores⟩).items

end CanonicalLR.ItemSet
