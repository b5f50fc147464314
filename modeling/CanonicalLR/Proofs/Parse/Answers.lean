import CanonicalLR.Parser
import CanonicalLR.Proofs.Automaton.Predictions
import CanonicalLR.Proofs.Grammar.Built
import CanonicalLR.Proofs.Table.Cells

/-!
# The answers of a parser

A parser that could be built (`Parser.IsMade`) answers as its automaton says, whatever has become of
conflicts: it shifts along a transition (`IsMade.shift_spec`), it reduces by a complete core of the
state (`IsMade.reduce_spec`), it accepts where the end of the input may come (`IsMade.accept_spec`),
and after a reduction it follows a transition (`IsMade.goto_spec`), if there is one
(`IsMade.goto_eq_of_transition`).
-/

namespace CanonicalLR.Parser

variable {g : Grammar} {settings : Settings} {p : Parser} {policy : Policy} {s target : StateId}
  {state : State} {lookahead : Option String} {r : Rule} {n : TokenId} {y : TermId} {name : String}

/-- The parser consists of a grammar, its canonical automaton and a table of that automaton. -/
structure IsMade (policy : Policy) (p : Parser) : Prop where
  grammar : p.grammar.WellFormed
  automaton_eq : p.automaton = Automaton.build p.grammar
  table : ParseTable.IsTableOf p.grammar p.automaton policy p.table

/-! ### Columns -/

/-- A name has the column of the token that it spells, blanks at its ends apart; only the very name of
the token for the end of the input has none. -/
theorem column?_eq_some_iff (hg : p.grammar.WellFormed) :
  p.column? (some name) = some n ↔ name ≠ eofTokenName ∧
    p.grammar.grammar.contains (.token n) = true ∧
    p.grammar.grammar.tokenName n = Text.trim name
  := by
  have hlabel : p.grammar.grammar.label (.token n) = ⟨.token, Text.trim name⟩ ↔
      p.grammar.grammar.tokenName n = Text.trim name := by
    simp [Grammar.label, Grammar.tokenName]
  rw [← hlabel, ← hg.grammar.find?_eq_some_iff (l := ⟨.token, name⟩), column?]
  split
  · next heof => simp [heof]
  · next hne =>
    simp only [ne_eq, hne, not_false_eq_true, true_and]
    rw [Option.map_eq_some_iff]
    constructor
    · rintro ⟨⟨kind, id⟩, hfind, rfl⟩
      obtain rfl := (hg.grammar.mem_of_find? hfind).1
      apply hfind
    · intro hfind
      use .token n, hfind

/-! ### Making a parser -/

/-- The grammar that a parser is made of is well formed. -/
theorem wellFormed_prepare (hg : g.WellFormed) {a : AugmentedGrammar}
    (h : settings.prepare g = .ok a) :
  a.WellFormed
  := by
  rw [Settings.prepare] at h
  split at h
  · obtain ⟨g', hnormal, haugment⟩ := Grammar.exists_of_bind_eq_ok h
    have hg' := hg.normalize (Grammar.eq_ok_of_mapError_eq_ok hnormal)
    apply (hg'.augment (Grammar.eq_ok_of_mapError_eq_ok haugment)).1
  · obtain ⟨g', hsame, haugment⟩ := Grammar.exists_of_bind_eq_ok h
    cases hsame
    apply (hg.augment (Grammar.eq_ok_of_mapError_eq_ok haugment)).1

/-- A parser that could be built consists of what it should. -/
theorem isMade_build (hg : g.WellFormed) (h : build settings g = .ok p) :
  p.IsMade settings.policy
  := by
  rw [build] at h
  split at h
  · cases h
  · obtain ⟨grammar, hprepare, h⟩ := Grammar.exists_of_bind_eq_ok h
    obtain ⟨table, htable, h⟩ := Grammar.exists_of_bind_eq_ok h
    cases h
    use wellFormed_prepare hg hprepare, rfl
    apply ParseTable.isTableOf_build (Grammar.eq_ok_of_mapError_eq_ok htable)

namespace IsMade

/-- The states of a parser are those of the canonical automaton. -/
theorem mem_states (hp : p.IsMade policy) (hs : p.automaton.states[s]? = some state) :
  state ∈ (Automaton.build p.grammar).states
  := by
  rw [← hp.automaton_eq]
  apply List.mem_of_getElem? hs

/-- The table of a parser is filled with what the states of the canonical automaton ask for. -/
theorem isFilledOf (hp : p.IsMade policy) :
  ParseTable.IsFilledOf p.grammar (Automaton.build p.grammar) policy p.table
  := by
  rw [← hp.automaton_eq]
  apply hp.table.toIsFilledOf

/-! ### Answers -/

/-- An answer of the parser is an action of its table. -/
theorem exists_action {decision : Decision StateId Rule}
    (h : p.definition.action s lookahead = some decision) :
  ∃ n action, p.column? lookahead = some n ∧ p.table.action? s (.token n) = some action ∧
    decision? action = some decision
  := by
  obtain ⟨n, hn, h⟩ := Option.bind_eq_some_iff.mp h
  obtain ⟨action, haction, h⟩ := Option.bind_eq_some_iff.mp h
  use n, action

/-- A token is shifted along a transition. -/
theorem shift_spec (hp : p.IsMade policy)
    (h : p.definition.action s lookahead = some (.shift target)) :
  ∃ n state, p.column? lookahead = some n ∧ p.automaton.states[s]? = some state ∧
    ⟨.token n, target⟩ ∈ state.transitions
  := by
  obtain ⟨n, action, hn, haction, hdecision⟩ := exists_action h
  obtain ⟨state, hs, hcell⟩ := hp.table.mem_candidates_of_action? haction
  use n, state, hn, hs
  cases action with
  | shift target' =>
    cases hdecision
    rcases hcell with hcell | herror
    · apply (State.shift_mem_candidates.mp hcell).1
    · cases herror
  | _ => cases hdecision

/-- The end of the input is not shifted. -/
theorem not_shift_of_end (hp : p.IsMade policy) :
  p.definition.action s none ≠ some (.shift target)
  := by
  intro h
  obtain ⟨n, state, hn, hs, ht⟩ := hp.shift_spec h
  cases hn
  apply Automaton.symbol_ne_eof hp.grammar (hp.mem_states hs) ht rfl

/-- A reduction is by a complete core, with the lookahead among the tokens that may come next. -/
theorem reduce_spec (hp : p.IsMade policy)
    (h : p.definition.action s lookahead = some (.reduce r)) :
  ∃ n state e, p.column? lookahead = some n ∧ p.automaton.states[s]? = some state ∧
    e ∈ state.items.entries ∧ e.core.isComplete ∧ e.core.rule = r ∧ n ∈ e.lookahead ∧
    p.table.action? s (.token n) = some (.reduce r)
  := by
  obtain ⟨n, action, hn, haction, hdecision⟩ := exists_action h
  obtain ⟨state, hs, hcell⟩ := hp.table.mem_candidates_of_action? haction
  cases action with
  | reduce r' =>
    cases hdecision
    rcases hcell with hcell | herror
    · obtain ⟨e, he, hcomplete, hrule, n', hn', heq⟩ := State.reduce_mem_candidates.mp hcell
      cases heq
      use n, state, e
    · cases herror
  | _ => cases hdecision

/-- The input is accepted where its end may come. -/
theorem accept_spec (hp : p.IsMade policy)
    (h : p.definition.action s lookahead = some .accept) :
  ∃ state, p.column? lookahead = some p.grammar.eof ∧ p.automaton.states[s]? = some state ∧
    state.accepts = true
  := by
  obtain ⟨n, action, hn, haction, hdecision⟩ := exists_action h
  obtain ⟨state, hs, hcell⟩ := hp.table.mem_candidates_of_action? haction
  use state
  cases action with
  | accept =>
    rcases hcell with hcell | herror
    · obtain ⟨haccepts, heq⟩ := State.accept_mem_candidates.mp hcell
      cases heq
      use hn, hs
    · cases herror
  | _ => cases hdecision

/-- A transition of the table is one of the automaton. -/
theorem transition_of_goto (hp : p.IsMade policy) {x : Symbol}
    (h : p.table.action? s x = some (.goto target)) :
  ∃ state, p.automaton.states[s]? = some state ∧ ⟨x, target⟩ ∈ state.transitions
  := by
  obtain ⟨state, hs, hcell⟩ := hp.table.mem_candidates_of_action? h
  use state, hs
  rcases hcell with hcell | herror
  · apply (State.goto_mem_candidates.mp hcell).1
  · cases herror

/-- The state after a reduction is entered as the table says. -/
theorem goto_eq_some_iff :
  p.definition.goto s r = some target ↔
    p.table.action? s (.term r.owner) = some (.goto target)
  := by
  change p.goto? s r = some target ↔ _
  rw [goto?]
  split
  · next target' h => simp [h]
  · next h =>
    constructor
    · intro heq
      cases heq
    · intro heq
      apply absurd heq (h target)

/-- After a reduction a transition on its term is followed. -/
theorem goto_spec (hp : p.IsMade policy) (h : p.definition.goto s r = some target) :
  ∃ state, p.automaton.states[s]? = some state ∧ ⟨.term r.owner, target⟩ ∈ state.transitions
  := hp.transition_of_goto (goto_eq_some_iff.mp h)

/-- After a reduction a transition on its term is followed if there is one, whatever the policy. -/
theorem goto_eq_of_transition (hp : p.IsMade policy) (hs : p.automaton.states[s]? = some state)
    (ht : ⟨.term r.owner, target⟩ ∈ state.transitions) :
  p.definition.goto s r = some target
  := by
  apply goto_eq_some_iff.mpr
  apply hp.table.action?_of_unique hs
  · apply State.goto_mem_candidates.mpr
    use ht
    rintro ⟨⟩
  · intro other hother
    obtain ⟨target', rfl, ht'⟩ := State.eq_goto_of_mem_candidates (by rintro ⟨⟩) hother
    rw [Automaton.target_unique hp.grammar (hp.mem_states hs) ht' ht]

/-! ### Productions -/

/-- A rule takes as many nodes from the stack as it has terms and tokens. -/
theorem arity_production (r : Rule) :
  (p.definition.production r).arity = r.arity
  := by
  change (r.items.map p.grammar.grammar.label).countP Label.isBasic = _
  rw [List.countP_map, Rule.arity, Rule.basicItems, ← List.countP_eq_length_filter]
  rfl

end IsMade

end CanonicalLR.Parser
