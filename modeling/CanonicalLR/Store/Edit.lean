import CanonicalLR.NormalForm.Normalize
import CanonicalLR.Store.Basic

/-!
# Bringing stores into normal form

The operations by which the grammar in a store is brought into normal form, one for each of those on
grammars.  What is asked about the grammar as a whole, that is, what its terms derive and which of its
symbols are reachable, is asked of the grammar that is kept in the store.
-/

namespace CanonicalLR.Store

/-! ### Editing -/

/-- The store in which the rules of a term are replaced by new ones, one for each right side. -/
def replaceRules (s : Store) (owner : TermId) (rights : List (List Symbol)) : Store :=
  let old := ((s.terms.symbols.get? owner).map (·.content)).getD []
  rights.foldl (fun s right => (s.pushRule owner right).2) (old.foldl removeRule s)

/-- The store without a term, its rules and its name; it is not the start term any more. -/
def removeTerm (s : Store) (t : TermId) : Store :=
  match s.terms.symbols.get? t with
  | none => s
  | some entry => { s with
      terms := s.terms.erase t
      rules := entry.content.foldl OrderedMap.erase s.rules
      start := s.start.filter fun start => start ≠ t }

/-- The store without a symbol. -/
def removeSymbol (s : Store) : Symbol → Store
  | .term t => s.removeTerm t
  | .token t => { s with
      tokens := s.tokens.erase t
      error := s.error.filter fun error => error ≠ t }
  | .prompt p => { s with prompts := s.prompts.erase p }

/-- The store without the term `source`, in which the term `target` takes its place in all rules and
as the start term. -/
def substituteTerm (s : Store) (source target : TermId) : Store :=
  let renamed : Store := { s with
    rules := ⟨s.rules.entries.map fun entry =>
      (entry.1, { entry.2 with items := Grammar.renameItems source target entry.2.items })⟩
    start := s.start.map fun start => if start = source then target else start }
  renamed.removeTerm source

/-- The first of the names for a continuation of `base` that the index of the terms does not have. -/
def freshName (s : Store) (base : String) : String :=
  (((List.range (s.terms.symbols.entries.length + 1)).map (Grammar.tailName base)).find? fun name =>
    (s.terms.index.get? name).isNone).getD (Grammar.tailName base 0)

/-- A new term that continues the term `t`, and the store with it. -/
def freshTail (s : Store) (t : TermId) : TermId × Store :=
  let (x, s) := s.intern ⟨.term, s.freshName (s.terms.nameOf t)⟩
  (x.id, s)

/-! ### Tidying -/

/-- Whether the rules with two numbers have the same owner and the same right side. -/
def sameRule (s : Store) (id id' : RuleId) : Bool :=
  match s.rules.get? id, s.rules.get? id' with
  | some r, some r' => r.same r'
  | _, _ => false

/-- The numbers on a list of rules that repeat an earlier one, where `earlier` are the numbers
before. -/
def repeated (s : Store) (earlier : List RuleId) : List RuleId → List RuleId
  | [] => []
  | id :: ids =>
    (if earlier.any fun prior => s.sameRule prior id then [id] else []) ++
      s.repeated (earlier ++ [id]) ids

/-- The store without the rules that say nothing: those by which a term stands for itself alone, and
those that repeat an earlier rule of the same term. -/
def tidyRules (s : Store) : Store :=
  let s := ((s.rules.values.filter Rule.isNonproductive).map (·.id)).foldl removeRule s
  (s.terms.symbols.values.flatMap fun entry => s.repeated [] entry.content).foldl removeRule s

/-- The store without the symbols that are not reachable from the start term; the error token is
kept. -/
def removeUnreachable (s : Store) : Store :=
  match s.start with
  | none => s
  | some start => (s.grammar.unreachable start).foldl removeSymbol s

/-! ### Merging -/

/-- Whether `a` has rules, as many as `b`, and each of them is a rule of `b` once `b` is read as `a`. -/
def isDuplicateTerm (s : Store) (a b : TermId) : Bool :=
  let left := (s.rulesOf a).map fun r => Grammar.renameItems b a r.items
  let right := (s.rulesOf b).map fun r => Grammar.renameItems b a r.items
  !left.isEmpty && left.length == right.length && left.all right.contains

/-- The store with one duplicate term replaced. -/
def mergeStep (s : Store) : Option Store :=
  (firstPair? s.isDuplicateTerm s.terms.symbols.keys).map fun (a, b) =>
    let merged := if s.start = some b then s.substituteTerm a b else s.substituteTerm b a
    merged.tidyRules

/-- The store with duplicate terms replaced until there are none, if `merge` is set. -/
def mergeIf (merge : Bool) (s : Store) : Store :=
  if merge then exhaust mergeStep s.terms.symbols.entries.length s else s

/-! ### Elimination of left recursion -/

/-- The store with the recursive rules of the head split off into a tail, unless there are no other
rules. -/
def splitHead (s : Store) (head : TermId) : Option Store :=
  let rights := (s.rulesOf head).map (·.items)
  let others := rights.filter fun items => (Grammar.afterHead? head items).isNone
  let tails := rights.filterMap (Grammar.afterHead? head)
  if others.isEmpty then none
  else
    let (tail, s) := s.freshTail head
    let s := s.replaceRules tail (tails.map (fun items => items ++ [.term tail]) ++ [[]])
    some (s.replaceRules head (others.map fun items => items ++ [.term tail]))

/-- The right sides that come from `items` when its leading term is replaced by each of its own right
sides. -/
def expandLeading (s : Store) (items : List Symbol) : List (List Symbol) :=
  match items.dropWhile Symbol.isPrompt with
  | .term leading :: rest =>
    (s.rulesOf leading).map fun r => items.takeWhile Symbol.isPrompt ++ r.items ++ rest
  | _ => [items]

/-- The store with the leading terms of the left recursive rules of the head expanded. -/
def expandHead (s : Store) (a : Analysis) (head : TermId) : Store :=
  s.replaceRules head ((s.rulesOf head).flatMap fun r =>
    if Grammar.canBeginWith a head r.items then s.expandLeading r.items else [r.items])

/-- The store with new rules of the head. -/
def eliminationStep (s : Store) (a : Analysis) (head : TermId) : Option Store :=
  if (s.rulesOf head).any fun r => (Grammar.afterHead? head r.items).isSome then s.splitHead head
  else some (s.expandHead a head)

/-- The store after steps until no term is left recursive, of which there may be `steps` at most. -/
def eliminate : Nat → Store → Except NormalizeError Store
  | steps, s =>
    let a := s.grammar.analyze
    match a.leftRecursion with
    | [] => .ok s
    | head :: path =>
      let failure := .error (.leftRecursion ((head :: path).map s.terms.nameOf))
      match steps with
      | 0 => failure
      | steps + 1 =>
        match s.eliminationStep a head with
        | none => failure
        | some s => eliminate steps s.tidyRules

/-- The number of steps after which the elimination is given up. -/
def stepLimit (s : Store) : Nat :=
  8 * max (s.terms.symbols.entries.length + s.rules.entries.length) 16

/-- The store of the grammar in normal form. -/
def normalize (merge : Bool) (s : Store) : Except NormalizeError Store :=
  let s := s.tidyRules.mergeIf merge
  (s.eliminate s.stepLimit).map fun s => (s.mergeIf merge).removeUnreachable

end CanonicalLR.Store
