import Mathlib.Data.Set.Basic
import CanonicalLR.Proofs.Table.Counterparts

/-!
# Descriptions without numbers

An automaton and a parse table can be *described* without the numbers of symbols and rules: a symbol is
given by its label, a rule by its position among the rules of its grammar, a lookahead by the names of
its tokens.  States keep their numbers.

Grammars with the same rules in the same order, if they are written with names, have automata with the
same description; for each policy both have a table, with the same description, or neither has one
(`describe_build_eq`).
-/

namespace CanonicalLR

/-- A core with its lookahead, described without numbers. -/
structure ItemSet.Entry.Description where
  /-- The position of the rule among the rules of the grammar. -/
  position : Nat
  dot : Nat
  /-- The names of the tokens of the lookahead. -/
  lookahead : Set String

/-- The description of a core with its lookahead. -/
def ItemSet.Entry.describe (g : Grammar) (e : ItemSet.Entry) : Description where
  position := g.rules.idxOf e.core.rule
  dot := e.core.dot
  lookahead := { name | ∃ n, n ∈ e.lookahead ∧ g.tokenName n = name }

/-- A state of an automaton, described without numbers of symbols and rules. -/
structure State.Description where
  entries : List ItemSet.Entry.Description
  /-- The labels that there are transitions on, with the states that these lead to. -/
  transitions : List (Label × StateId)
  accepts : Bool

/-- The description of a state. -/
def State.describe (g : Grammar) (s : State) : Description where
  entries := s.items.entries.map (ItemSet.Entry.describe g)
  transitions := s.transitions.map fun t => (g.label t.symbol, t.target)
  accepts := s.accepts

/-- The descriptions of the states, in their order. -/
def Automaton.describe (g : Grammar) (m : Automaton) : List State.Description :=
  m.states.map (State.describe g)

/-- An action, described without the numbers of rules and without its message. -/
inductive Action.Description where
  | shift (target : StateId)
  | reduce (position : Nat)
  | goto (target : StateId)
  | accept
  | error
deriving DecidableEq

/-- The description of an action. -/
def Action.describe (g : Grammar) : Action → Description
  | shift target => .shift target
  | reduce r => .reduce (g.rules.idxOf r)
  | goto target => .goto target
  | accept => .accept
  | error _ => .error

/-- A parse table, described without numbers of symbols and rules. -/
structure ParseTable.Description where
  /-- The number of states. -/
  size : Nat
  /-- The action of a state for the symbol with a label. -/
  action? : StateId → Label → Option Action.Description

/-- The description of a parse table. -/
def ParseTable.describe (g : Grammar) (t : ParseTable) : Description where
  size := t.rows.size
  action? id l := ((g.find? l).bind (t.action? id)).map (Action.describe g)

/-! ### Descriptions of counterparts -/

section counterparts

variable {g g' : Grammar}

theorem map_eq_of_rel {α β γ : Type} {R : α → β → Prop} {f : α → γ} {f' : β → γ} {as : List α}
    {bs : List β} (hf : ∀ a b, R a b → f a = f' b) (h : List.Forall₂ R as bs) :
  as.map f = bs.map f'
  := by
  induction h with
  | nil => rfl
  | cons hab _ ih => rw [List.map_cons, List.map_cons, hf _ _ hab, ih]

theorem RelOutcome.map_toOption_eq {ε α β γ : Type} {R : α → β → Prop} {f : α → γ} {f' : β → γ}
    {outcome : Except ε α} {outcome' : Except ε β} (hf : ∀ a b, R a b → f a = f' b)
    (h : RelOutcome R outcome outcome') :
  outcome.toOption.map f = outcome'.toOption.map f'
  := by
  cases h with
  | error e e' => rfl
  | ok hab => apply congrArg some (hf _ _ hab)

/-- Rules that are counterparts have the same position. -/
theorem Rule.Counterpart.idxOf_eq (h : g.Alike g') {r r' : Rule} (hr : Counterpart g g' r r') :
  g.rules.idxOf r = g'.rules.idxOf r'
  := by
  obtain ⟨i, hi, hi'⟩ := hr
  obtain ⟨hlt, rfl⟩ := List.getElem?_eq_some_iff.mp hi
  obtain ⟨hlt', rfl⟩ := List.getElem?_eq_some_iff.mp hi'
  rw [h.left.nodup_rules.idxOf_getElem, h.right.nodup_rules.idxOf_getElem]

namespace ItemSet.Entry.Counterpart

variable {e e' : ItemSet.Entry}

theorem names_subset (he : Counterpart g g' e e') :
  (e.describe g).lookahead ⊆ (e'.describe g').lookahead
  := by
  rintro name ⟨n, hn, rfl⟩
  obtain ⟨n', hn', hs⟩ := he.lookahead.1 n hn
  use n', hn'
  apply (congrArg Label.name hs.label_eq).symm

theorem describe_eq (h : g.Alike g') (he : Counterpart g g' e e') :
  e.describe g = e'.describe g'
  := by
  have hnames := Set.Subset.antisymm he.names_subset (he.symm.names_subset)
  rw [Entry.describe, Entry.describe, Description.mk.injEq]
  use he.core.rule.idxOf_eq h, he.core.dot_eq, hnames

end ItemSet.Entry.Counterpart

theorem State.Counterpart.describe_eq (h : g.Alike g') {s s' : State} (hs : Counterpart g g' s s') :
  s.describe g = s'.describe g'
  := by
  rw [describe, describe, Description.mk.injEq]
  constructor
  · apply map_eq_of_rel _ hs.items
    intro e e' he
    apply he.describe_eq h
  constructor
  · apply map_eq_of_rel _ hs.transitions
    intro t t' ht
    rw [ht.symbol.label_eq, ht.target_eq]
  · apply hs.accepts_eq

theorem Action.Counterpart.describe_eq (h : g.Alike g') {a a' : Action} (ha : Counterpart g g' a a') :
  a.describe g = a'.describe g'
  := by
  cases ha with
  | reduce hr => rw [describe, describe, hr.idxOf_eq h]
  | shift | goto | accept | error => rfl

/-- A cell of the one table is in the other one as well. -/
theorem ParseTable.Counterpart.action?_describe (h : g.Alike g') {t t' : ParseTable}
    (ht : Counterpart g g' t t') {id : StateId} {l : Label} {a : Action.Description}
    (hl : (t.describe g).action? id l = some a) :
  (t'.describe g').action? id l = some a
  := by
  obtain ⟨action, haction, rfl⟩ := Option.map_eq_some_iff.mp hl
  obtain ⟨x, hfind, haction⟩ := Option.bind_eq_some_iff.mp haction
  obtain ⟨hx, hlabel⟩ := h.left.find?_eq_some_iff.mp hfind
  obtain ⟨x', action', hs, haction', hcounterpart⟩ := ht.exists_action? haction
  have hfind' := h.right.find?_eq_some_iff.mpr ⟨hs.right, hs.label_eq.symm.trans hlabel⟩
  rw [describe]
  simp only [hfind', Option.bind_some, haction', Option.map_some]
  rw [hcounterpart.describe_eq h]

theorem ParseTable.Counterpart.describe_eq (h : g.Alike g') {t t' : ParseTable}
    (ht : Counterpart g g' t t') :
  t.describe g = t'.describe g'
  := by
  rw [describe, describe, Description.mk.injEq]
  use ht.size_eq
  funext id l
  apply Option.ext
  intro a
  constructor
  · apply ht.action?_describe h
  · apply ht.symm.action?_describe h.symm

end counterparts

/-! ### Renumbered grammars -/

namespace ParseTable

variable {g g' : AugmentedGrammar}

/-- The automaton and the table of an augmented grammar depend on its rules only, as they are written
with names and in their order.  Two grammars with the same rules may number their symbols and rules
differently; their automata and, for each policy, their tables have the same descriptions, and if there
is no table of the one grammar, then there is none of the other.  (The start terms of augmented grammars
always have the same name.) -/
theorem describe_build_eq {h h' : Grammar} (hh : h.Built) (ha : h.augment = .ok g) (hh' : h'.Built)
    (ha' : h'.augment = .ok g')
    (hrules : g.grammar.rules.map g.grammar.production = g'.grammar.rules.map g'.grammar.production) :
  (Automaton.build g).describe g.grammar = (Automaton.build g').describe g'.grammar ∧
    ∀ policy, (build g (Automaton.build g) policy).toOption.map (describe g.grammar) =
      (build g' (Automaton.build g') policy).toOption.map (describe g'.grammar)
  := by
  have hg : g.Alike g' :=
    ⟨(hh.wellFormed.augment ha).1, (hh'.wellFormed.augment ha').1, hrules⟩
  constructor
  · apply map_eq_of_rel _ (Automaton.counterpart_build hg)
    intro s s' hs
    apply hs.describe_eq hg.grammar
  · intro policy
    apply RelOutcome.map_toOption_eq _ (counterpart_build hg policy)
    intro t t' ht
    apply ht.describe_eq hg.grammar

/-- The grammar of nested brackets. -/
def nested : Grammar :=
  ((Grammar.ofProductions "S" [⟨"S", [⟨.token, "("⟩, ⟨.term, "S"⟩, ⟨.token, ")"⟩]⟩,
    ⟨"S", []⟩]).toOption).getD .empty

/-- The grammar of nested brackets with a term that cannot be reached. -/
def cluttered : Grammar :=
  ((Grammar.ofProductions "S" [⟨"T", [⟨.token, "x"⟩]⟩,
    ⟨"S", [⟨.token, "("⟩, ⟨.term, "S"⟩, ⟨.token, ")"⟩]⟩, ⟨"S", []⟩]).toOption).getD .empty

/-- The grammar of nested brackets with the numbers of the larger grammar that it was part of. -/
def uncluttered : Grammar :=
  ((cluttered.normalize false).toOption).getD .empty

theorem built_uncluttered :
  uncluttered.Built
  := by
  rw [uncluttered]
  cases h : cluttered.normalize false with
  | error e => exact .empty
  | ok g => exact .normalize Grammar.built_getD_ofProductions h

/-- The automata and the tables of nested brackets have the same descriptions, although the token
for the end of the input has another number. -/
theorem describe_build_eq_nested :
  ∃ a a', nested.augment = .ok a ∧ uncluttered.augment = .ok a' ∧ a.eof ≠ a'.eof ∧
    (Automaton.build a).describe a.grammar = (Automaton.build a').describe a'.grammar ∧
    ∀ policy, (build a (Automaton.build a) policy).toOption.map (describe a.grammar) =
      (build a' (Automaton.build a') policy).toOption.map (describe a'.grammar)
  := by
  have hsome : nested.augment.toOption.isSome = true := by decide +kernel
  have hsome' : uncluttered.augment.toOption.isSome = true := by decide +kernel
  obtain ⟨a, ha⟩ := Option.isSome_iff_exists.mp hsome
  obtain ⟨a', ha'⟩ := Option.isSome_iff_exists.mp hsome'
  have hrules : nested.augment.toOption.map (fun a => a.grammar.rules.map a.grammar.production) =
      uncluttered.augment.toOption.map (fun a => a.grammar.rules.map a.grammar.production) := by
    decide +kernel
  have heof : nested.augment.toOption.map (·.eof) ≠ uncluttered.augment.toOption.map (·.eof) := by
    decide +kernel
  rw [ha, ha', Option.map_some, Option.map_some] at hrules heof
  have hok := Grammar.eq_ok_of_toOption_eq_some ha
  have hok' := Grammar.eq_ok_of_toOption_eq_some ha'
  use a, a', hok, hok', fun h => heof (congrArg some h)
  apply describe_build_eq Grammar.built_getD_ofProductions hok built_uncluttered hok'
    (Option.some.inj hrules)

end ParseTable

end CanonicalLR
