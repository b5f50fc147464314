import CanonicalLR.Loop
import CanonicalLR.NormalForm.Elimination

/-!
# Normal forms

`normalize` tidies the rules of a grammar, eliminates left recursion and removes what cannot be
reached; if that is asked for, it also merges terms that pass for duplicates of each other.

A term is a *duplicate* of another one if both have equally many rules, at least one, and each rule
of the first is a rule of the second, once the second is read as the first.  The second may have
rules besides, if rules of the first come to be the same by this reading.  Of the two, one is
replaced everywhere by the other, which may make further terms duplicates; `mergeDuplicates` goes on
until there are none.

Without merging, a normal form has no left recursive term (`leftRecursion_normalize`), and its terms
derive what they derived before (`generates_normalize`).  With merging, neither holds of every
grammar.  The rules that only the replaced term has are lost, and less may be derived without them
(`mergeDuplicates_shrinks`).  And as terms are merged once more after the elimination, the start term
may become left recursive again (`leftRecursive_normalize_lopsided`).
-/

namespace CanonicalLR

/-! ### Merging duplicate terms -/

/-- The first pair of a list in a relation, the earlier value first. -/
def firstPair? {α : Type} (related : α → α → Bool) : List α → Option (α × α)
  | [] => none
  | a :: as =>
    match as.find? (related a) with
    | some b => some (a, b)
    | none => firstPair? related as

namespace Grammar

/-- Whether `a` has rules, as many as `b`, and each of them is a rule of `b` once `b` is read as `a`.
It is not asked whether each rule of `b` is a rule of `a`. -/
def isDuplicateTerm (g : Grammar) (a b : TermId) : Bool :=
  let left := (g.rulesOf a).map fun r => renameItems b a r.items
  let right := (g.rulesOf b).map fun r => renameItems b a r.items
  !left.isEmpty && left.length == right.length && left.all right.contains

/-- The grammar with one duplicate term replaced.  Of the two the earlier stays, unless the later
is the start term. -/
def mergeStep (g : Grammar) : Option Grammar :=
  (firstPair? g.isDuplicateTerm g.terms.ids).map fun (a, b) =>
    let merged := if g.start = some b then g.substituteTerm a b else g.substituteTerm b a
    merged.tidyRules

/-- The grammar with duplicate terms replaced until there are none. -/
def mergeDuplicates (g : Grammar) : Grammar :=
  exhaust mergeStep g.terms.size g

/-- The grammar with duplicate terms merged if `merge` is set. -/
def mergeIf (merge : Bool) (g : Grammar) : Grammar :=
  if merge then g.mergeDuplicates else g

/-! ### The normal form -/

/-- The grammar in normal form.  Terms are merged before and after the elimination of left
recursion, as the tails that it adds may be duplicates of each other. -/
def normalize (merge : Bool) (g : Grammar) : Except NormalizeError Grammar :=
  (g.tidyRules.mergeIf merge).eliminateLeftRecursion.map fun g =>
    (g.mergeIf merge).removeUnreachable

end Grammar

end CanonicalLR
