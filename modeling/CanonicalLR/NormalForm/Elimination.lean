import CanonicalLR.Analysis.Fixpoint
import CanonicalLR.Analysis.LeftRecursion
import CanonicalLR.NormalForm.Tidy

/-!
# Elimination of left recursion

Left recursion is removed step by step.  Each step gives new rules to the first term of a cycle,
the *head*, from which the same sequences can be derived.

* If a rule of the head begins with the head itself, the head is *split*: its other rules are
  followed by a new term, the tail, which derives what followed the head in the recursive rules,
  any number of times.
* Otherwise the term that a left recursive rule of the head begins with is *expanded*: it is
  replaced by each of its right sides, so the rule begins with a term further along the cycle.

The steps do not always come to an end, so the elimination is given up after a number of them that
depends on the size of the grammar; and a head of which all rules begin with the head cannot be
split.
-/

namespace CanonicalLR

/-- What can go wrong when a grammar is normalized. -/
inductive NormalizeError where
  /-- Left recursion through the terms of `path` could not be eliminated. -/
  | leftRecursion (path : List String)
deriving DecidableEq

namespace NormalizeError

/-- The wording of an error. -/
def message : NormalizeError → String
  | leftRecursion path => "left recursion could not be eliminated: " ++ " -> ".intercalate path

end NormalizeError

namespace Grammar

/-! ### Splitting -/

/-- What follows the head in a right side that begins with it, prompts before the head included. -/
def afterHead? (head : TermId) (items : List Symbol) : Option (List Symbol) :=
  match items.dropWhile Symbol.isPrompt with
  | [] => none
  | s :: rest =>
    if s = .term head then some (items.takeWhile Symbol.isPrompt ++ rest) else none

/-- The grammar with the recursive rules of the head split off into a tail, unless there are no
other rules. -/
def splitHead (g : Grammar) (head : TermId) : Option Grammar :=
  let rights := (g.rulesOf head).map (·.items)
  let others := rights.filter fun items => (afterHead? head items).isNone
  let tails := rights.filterMap (afterHead? head)
  if others.isEmpty then none
  else
    let (tail, g) := g.freshTail head
    let g := g.replaceRules tail (tails.map (fun items => items ++ [.term tail]) ++ [[]])
    some (g.replaceRules head (others.map fun items => items ++ [.term tail]))

/-! ### Expanding -/

/-- Whether a derivation of the right side `items` can begin with the head. -/
def canBeginWith (a : Analysis) (head : TermId) : List Symbol → Bool
  | [] => false
  | .prompt _ :: items => canBeginWith a head items
  | .token _ :: _ => false
  | .term t :: items =>
    t = head || a.dependsOn t head || (a.nullable t && canBeginWith a head items)

/-- The right sides that come from `items` when its leading term is replaced by each of its own
right sides. -/
def expandLeading (g : Grammar) (items : List Symbol) : List (List Symbol) :=
  match items.dropWhile Symbol.isPrompt with
  | .term leading :: rest =>
    (g.rulesOf leading).map fun r => items.takeWhile Symbol.isPrompt ++ r.items ++ rest
  | _ => [items]

/-- The grammar with the leading terms of the left recursive rules of the head expanded. -/
def expandHead (g : Grammar) (a : Analysis) (head : TermId) : Grammar :=
  g.replaceRules head ((g.rulesOf head).flatMap fun r =>
    if canBeginWith a head r.items then g.expandLeading r.items else [r.items])

/-! ### Elimination -/

/-- The grammar with new rules of the head: it is split if one of its rules begins with it, and
its leading terms are expanded otherwise. -/
def eliminationStep (g : Grammar) (a : Analysis) (head : TermId) : Option Grammar :=
  if (g.rulesOf head).any fun r => (afterHead? head r.items).isSome then g.splitHead head
  else some (g.expandHead a head)

/-- The grammar after steps until no term is left recursive, of which there may be `steps` at
most. -/
def eliminate : Nat → Grammar → Except NormalizeError Grammar
  | steps, g =>
    let a := g.analyze
    match a.leftRecursion with
    | [] => .ok g
    | head :: path =>
      let failure := .error (.leftRecursion ((head :: path).map g.termName))
      match steps with
      | 0 => failure
      | steps + 1 =>
        match g.eliminationStep a head with
        | none => failure
        | some g => eliminate steps g.tidyRules

/-- The number of steps after which the elimination is given up. -/
def stepLimit (g : Grammar) : Nat :=
  8 * max (g.terms.size + g.rules.length) 16

/-- The grammar without left recursion, if a limited number of steps leads to it. -/
def eliminateLeftRecursion (g : Grammar) : Except NormalizeError Grammar :=
  g.eliminate g.stepLimit

end Grammar

end CanonicalLR
