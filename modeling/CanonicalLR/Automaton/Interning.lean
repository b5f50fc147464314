import CanonicalLR.Automaton.Basic

/-!
# Interning closed item sets

The states may also be told apart by their closed item sets, so that no kernels have to be kept.  The
closure of an advanced item set is looked up among the item sets of all states found so far, and it becomes
a new state if it is not there.  The states of which the transitions are still missing are pending, and
each step finds the transitions of the oldest one.
-/

namespace CanonicalLR.Automaton

/-- The state of the construction in which item sets are told apart once they are closed. -/
structure Interning where
  states : List State
  /-- The numbers of the states of which the transitions are missing, the oldest first. -/
  pending : List StateId

namespace Interning

/-- The number of the state with the item set `items`.  If there is none, it is added, and pending. -/
def intern (i : Interning) (items : ItemSet) : StateId × Interning :=
  let known := i.states.map (·.items)
  if items ∈ known then (known.idxOf items, i)
  else (i.states.length, ⟨i.states ++ [⟨items, [], false⟩], i.pending ++ [i.states.length]⟩)

/-- The transitions of the item set `s` on the symbols `symbols`. -/
def connect (g : Grammar) (a : Analysis) (s : ItemSet) :
    List Symbol → Interning → List Transition × Interning
  | [], i => ([], i)
  | x :: symbols, i =>
    let (target, i) := i.intern ((s.advance x).closure g a)
    let (transitions, i) := connect g a s symbols i
    (⟨x, target⟩ :: transitions, i)

/-- The construction with the transitions of the state `id`. -/
def extract (g : AugmentedGrammar) (a : Analysis) (id : StateId) (i : Interning) : Interning :=
  match i.states[id]? with
  | none => i
  | some state =>
    let eof := Symbol.token g.eof
    let symbols := state.items.nextSymbols
    let (transitions, i) := connect g.grammar a state.items (symbols.filter fun x => x ≠ eof) i
    ⟨i.states.set id ⟨state.items, transitions, symbols.contains eof⟩, i.pending⟩

/-- The construction with the transitions of the oldest pending state. -/
def step (g : AugmentedGrammar) (a : Analysis) (i : Interning) : Option Interning :=
  match i.pending with
  | [] => none
  | id :: pending => some (extract g a id ⟨i.states, pending⟩)

/-- The construction with the state in which a parser begins. -/
def initial (g : AugmentedGrammar) (a : Analysis) : Interning :=
  (intern ⟨[], []⟩ ((initialKernel g).closure g.grammar a)).2

/-- The construction after `n` steps, or when there are no more steps. -/
def after (g : AugmentedGrammar) (n : Nat) : Interning :=
  exhaust (step g g.grammar.analyze) n (initial g g.grammar.analyze)

end Interning

end CanonicalLR.Automaton
