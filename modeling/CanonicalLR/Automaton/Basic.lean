import CanonicalLR.Analysis.Fixpoint
import CanonicalLR.Grammar.Augmented
import CanonicalLR.Automaton.Closure

/-!
# The canonical automaton

The states of the canonical automaton of an augmented grammar are closed item sets.  State `0` is
the closure of the start rule; from a state there is a transition on each symbol that is right
after a dot, to the closure of its entries advanced over that symbol.  Instead of a transition on
the token for the end of the input, a state *accepts*.

States are numbered in the order in which they are found, and their transitions are found in the
order of their numbers, so the numbering depends on the grammar alone.  A state is recognised by
its *kernel*, the item set before it is closed: in a kernel the dots are not in front, but in all
that closing adds they are, so states with different kernels are different.
-/

namespace CanonicalLR

/-- The number of a state. -/
abbrev StateId := Nat

/-- An edge of the automaton, which leads from its state to `target`. -/
structure Transition where
  symbol : Symbol
  target : StateId
deriving DecidableEq

/-- A state of the automaton. -/
structure State where
  items : ItemSet
  transitions : List Transition
  /-- Whether the end of the input may come. -/
  accepts : Bool
deriving DecidableEq

/-- The automaton, whose states are numbered by their places in the list. -/
structure Automaton where
  states : List State
deriving DecidableEq

namespace Automaton

/-- The state of the construction. -/
structure Building where
  /-- The kernels of the states found so far: what is left of their item sets without that which
  is added by closing them. -/
  kernels : List ItemSet
  /-- The first of the states, with their transitions. -/
  states : List State

/-- The number of a kernel among those found, to which it is added if it is new. -/
def number (kernels : List ItemSet) (s : ItemSet) : StateId × List ItemSet :=
  if s ∈ kernels then (kernels.idxOf s, kernels) else (kernels.length, kernels ++ [s])

/-- The transitions of the item set `s` on the symbols `symbols`. -/
def connect (s : ItemSet) : List Symbol → List ItemSet → List Transition × List ItemSet
  | [], kernels => ([], kernels)
  | x :: symbols, kernels =>
    let (target, kernels) := number kernels (s.advance x)
    let (transitions, kernels) := connect s symbols kernels
    (⟨x, target⟩ :: transitions, kernels)

/-- The construction with one more state, that of the first kernel that has none yet. -/
def buildStep (g : AugmentedGrammar) (a : Analysis) (b : Building) : Option Building :=
  b.kernels[b.states.length]?.map fun kernel =>
    let eof := Symbol.token g.eof
    let items := kernel.closure g.grammar a
    let symbols := items.nextSymbols
    let (transitions, kernels) := connect items (symbols.filter fun x => x ≠ eof) b.kernels
    ⟨kernels, b.states ++ [⟨items, transitions, symbols.contains eof⟩]⟩

/-- The rules of the grammar with the dot at each of their positions. -/
def dottedRules (g : Grammar) : List DottedRule :=
  g.rules.flatMap DottedRule.positions

/-- An upper bound for the number of item sets: each dotted rule is either no core, or one with
some set of tokens as its lookahead. -/
def itemSetBound (g : Grammar) : Nat :=
  Nat.pow (Nat.pow 2 g.tokens.size + 1) (dottedRules g).length

/-- The kernel of the state in which a parser begins. -/
def initialKernel (g : AugmentedGrammar) : ItemSet :=
  ⟨[⟨.initial g.startRule, .singleton g.eof⟩]⟩

/-- The canonical automaton of an augmented grammar. -/
def build (g : AugmentedGrammar) : Automaton :=
  let a := g.grammar.analyze
  ⟨(exhaust (buildStep g a) (itemSetBound g.grammar) ⟨[initialKernel g], []⟩).states⟩

end Automaton

end CanonicalLR
