import CanonicalLR.IndexSet
import CanonicalLR.Automaton.DottedRule

/-!
# Item sets

An `ItemSet` assigns a set of tokens, the *lookahead*, to each of finitely many dotted rules, its
*cores*: the tokens that may come when the rule has been read to its end.  The entries are in the
order of their cores, so an item set is determined by its cores and their lookaheads.
-/

namespace CanonicalLR

/-- A dotted rule with its lookahead. -/
structure ItemSet.Entry where
  core : DottedRule
  lookahead : IndexSet
deriving DecidableEq

/-- A set of dotted rules with their lookaheads. -/
structure ItemSet where
  entries : List ItemSet.Entry
deriving DecidableEq

namespace ItemSet

/-- The cores, in their order. -/
def cores (s : ItemSet) : List DottedRule :=
  s.entries.map (·.core)

/-- The lookahead of a core. -/
def lookahead? (s : ItemSet) (d : DottedRule) : Option IndexSet :=
  (s.entries.find? fun e => e.core = d).map (·.lookahead)

/-- Whether `d` is a core and its lookahead includes `tokens`. -/
def covers (s : ItemSet) (d : DottedRule) (tokens : IndexSet) : Bool :=
  match s.lookahead? d with
  | none => false
  | some lookahead => lookahead.includes tokens

/-- The entries `entries` with a further core, or with a larger lookahead of it. -/
def addEntry (d : DottedRule) (tokens : IndexSet) : List Entry → List Entry
  | [] => [⟨d, tokens⟩]
  | e :: entries =>
    match d.order e.core with
    | .lt => ⟨d, tokens⟩ :: e :: entries
    | .eq => ⟨e.core, e.lookahead ∪ tokens⟩ :: entries
    | .gt => e :: addEntry d tokens entries

/-- The item set in which the tokens `tokens` are added to the lookahead of `d`, which becomes a
core if it is none. -/
def add (s : ItemSet) (d : DottedRule) (tokens : IndexSet) : ItemSet :=
  ⟨addEntry d tokens s.entries⟩

/-- The symbols right after the dots, in the order of their first occurrences. -/
def nextSymbols (s : ItemSet) : List Symbol :=
  (s.cores.filterMap DottedRule.next?).eraseDups

/-- The entries with the symbol `x` right after the dot, with the dot moved behind it. -/
def advance (s : ItemSet) (x : Symbol) : ItemSet :=
  ⟨(s.entries.filter fun e => e.core.next? = some x).map fun e => ⟨e.core.advance, e.lookahead⟩⟩

end ItemSet

end CanonicalLR
