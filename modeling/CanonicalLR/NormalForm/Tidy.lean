import CanonicalLR.Grammar.Edit
import CanonicalLR.Grammar.Diagnosis

/-!
# Tidy grammars

A grammar is tidied by the removal of what says nothing: rules by which a term stands for itself,
rules that repeat an earlier one, and symbols that cannot be reached from the start term.
-/

namespace CanonicalLR.Grammar

/-- The grammar without the rules by which a term stands for itself alone. -/
def removeNonproductiveRules (g : Grammar) : Grammar :=
  g.removeRules Rule.isNonproductive

/-- A number that depends on the owner and the right side of a rule only, and is rarely the same
for two that differ.  It spares the comparison of long right sides that begin in the same way. -/
def fingerprint (r : Rule) : Nat :=
  r.items.foldl (fun n s => (n * 8191 + s.id * 4 + s.kind.rank) % 2147483647) r.owner

/-- The rules of a list that repeat no earlier one. -/
def distinctRules (rules : List Rule) : List Rule :=
  let marked := rules.map fun r => (fingerprint r, r)
  (marked.eraseDupsBy fun a b => a.1 == b.1 && a.2.same b.2).map (·.2)

/-- The grammar without the rules that repeat an earlier rule of the same term. -/
def removeDuplicateRules (g : Grammar) : Grammar :=
  { g with rules := distinctRules g.rules }

/-- The grammar without the rules that say nothing. -/
def tidyRules (g : Grammar) : Grammar :=
  g.removeNonproductiveRules.removeDuplicateRules

/-- The grammar without the symbols that are not reachable from the start term; the error token is
kept. -/
def removeUnreachable (g : Grammar) : Grammar :=
  match g.start with
  | none => g
  | some start => (g.unreachable start).foldl removeSymbol g

end CanonicalLR.Grammar
