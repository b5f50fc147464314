import CanonicalLR.Proofs.Parse.Completeness
import CanonicalLR.Proofs.Parse.Spelling
import CanonicalLR.Proofs.Table.Conflicts

/-!
# A token that is refused leaves the parser where it was

A parser whose table was built without conflicts refuses a token in the first turn or not at all
(`IsMade.complained_of_drive`).  For if there is an answer for the token in the state on top, then it is
awaited (`Parser.Awaits`): on the stack that the engine has come to, reductions lead to a state that
reads the token.  The reductions of the engine are these, so that the token is still awaited after each
of them (`IsMade.awaits_of_reduces`).

The one exception is a token with a name that passes for the end of the input, as it is refused where
the end is accepted.
-/

namespace CanonicalLR.Parser

open Engine

variable {p : Parser} {policy : Policy} {e e' : Engine StateId} {lookahead : Option Token}
  {states : List StateId} {symbols : List Symbol} {nodes : List Node} {s : StateId}
  {decision : Decision StateId Rule} {cap : Nat}

/-- A path is a walk through the automaton. -/
theorem Path.walk (hp : p.IsMade policy) (h : p.Path states symbols nodes) :
  (Automaton.build p.grammar).Walk states symbols
  := by
  induction h with
  | start => exact .start
  | step _ hs ht _ ih =>
    rw [hp.automaton_eq] at hs
    exact .step ih hs ht

/-- There is a state on top of a path. -/
theorem Path.exists_head (h : p.Path states symbols nodes) :
  ∃ s, states.head? = some s
  := by
  cases h with
  | start => exact ⟨0, rfl⟩
  | step => exact ⟨_, rfl⟩

/-! ### Awaited tokens -/

/-- From the stack of the engine, reductions on the lookahead lead to a state that reads it. -/
def Awaits (p : Parser) (lookahead : Option Token) (e : Engine StateId) : Prop :=
  ∃ n, p.column? (lookahead.map (·.name)) = some n ∧
    Automaton.Serves p.grammar (Automaton.build p.grammar) n e.states

namespace IsMade

/-- A lookahead is awaited if there is an answer for it. -/
theorem awaits_of_action (hp : p.IsMade .fail) (h : p.Path e.states symbols e.nodes)
    (hs : e.states.head? = some s)
    (haction : p.definition.action s (lookahead.map (·.name)) = some decision) :
  p.Awaits lookahead e
  := by
  obtain ⟨n, action, hn, haction, -⟩ := exists_action haction
  obtain ⟨state, hstate, hcell⟩ := hp.isFilledOf.action?_eq_some_iff.mp haction
  have hwalk := h.walk hp
  obtain ⟨below, hbelow⟩ := List.head?_eq_some_iff.mp hs
  use n, hn
  rw [hbelow] at hwalk ⊢
  apply hwalk.serves hp.grammar hstate hcell

/-- An awaited lookahead is still awaited after a reduction. -/
theorem awaits_of_reduces (hp : p.IsMade .fail) (h : p.Awaits lookahead e)
    (hreduces : e.Reduces p.definition lookahead e') :
  p.Awaits lookahead e'
  := by
  obtain ⟨n, hn, hserves⟩ := h
  have hturned := turned_advance p.definition e lookahead
  rw [hreduces.1, hreduces.2] at hturned
  obtain ⟨n', hn', hreduce⟩ := hp.reduceStates_eq hturned
  obtain rfl := Option.some.inj (hn.symm.trans hn')
  use n, hn
  apply ParseTable.Serves.of_reduceStates hp.isFilledOf hserves hreduce

/-- An awaited lookahead is not refused, unless it only passes for the end of the input. -/
theorem not_refuses_of_awaits (hp : p.IsMade .fail) (h : p.Awaits lookahead e)
    (hend : ∀ t ∈ lookahead, ¬ PassesForEnd t.name) :
  ¬ e.Refuses p.definition lookahead
  := by
  rintro ⟨current, hcurrent, hrefuses⟩
  obtain ⟨n, hn, hserves⟩ := h
  have hanswer {state : State} {action : Action} {decision : Decision StateId Rule}
      (hs : (Automaton.build p.grammar).states[current]? = some state)
      (hcell : (.token n, action) ∈ state.candidates p.grammar.eof)
      (hdecision : decision? action = some decision) :
      p.definition.action current (lookahead.map (·.name)) = some decision :=
    hp.action_eq (hp.automaton_eq ▸ hs) hcell hn hdecision
  generalize e.states = stack at hcurrent hserves
  cases hserves with
  | @read _ _ state action hs hcell hread =>
    cases hcurrent
    rcases State.mem_candidates.mp hcell with ⟨-, heq⟩ | ⟨_, _, _, _, -, heq⟩ | ⟨t, -, heq⟩
    · obtain ⟨heof, rfl⟩ := Prod.mk.inj heq
      cases heof
      rcases hrefuses _ (hanswer hs hcell rfl) with ⟨_, herror⟩ | ⟨-, hne⟩
      · cases herror
      · -- What is accepted has the column of the end of the input.
        cases lookahead with
        | none => apply hne rfl
        | some t => apply hend t rfl ((column?_eq_eof_iff hp.grammar).mp hn)
    · cases heq
      cases hread
    · obtain ⟨hx, rfl⟩ := Prod.mk.inj heq
      rw [← hx, if_pos rfl] at hcell
      rcases hrefuses _ (hanswer hs hcell rfl) with ⟨_, herror⟩ | ⟨haccept, -⟩
      · cases herror
      · cases haccept
  | reduce hs hcell =>
    cases hcurrent
    rcases hrefuses _ (hanswer hs hcell rfl) with ⟨_, herror⟩ | ⟨haccept, -⟩
    · cases herror
    · cases haccept

/-- There is no complaint about a lookahead for which there is an answer. -/
theorem complaints_drive (hp : p.IsMade .fail) (h : p.Awaits lookahead e)
    (hend : ∀ t ∈ lookahead, ¬ PassesForEnd t.name) :
  (e.drive p.definition lookahead).engine.complaints = e.complaints
  := by
  apply Driven.complaints_eq (P := p.Awaits lookahead) _ _ h (hp.driven e lookahead)
  · intro e e₁ he hreduces
    apply hp.awaits_of_reduces he hreduces
  · intro e he
    apply hp.not_refuses_of_awaits he hend

/-- There is no complaint about the lookahead if there is an answer for it in the state on top, and only
then. -/
theorem complaints_drive_iff (hp : p.IsMade .fail) (h : p.Path e.states symbols e.nodes)
    (hs : e.states.head? = some s) (hend : ∀ t ∈ lookahead, ¬ PassesForEnd t.name) :
  (e.drive p.definition lookahead).engine.complaints = e.complaints ↔
    ∃ decision, p.definition.action s (lookahead.map (·.name)) = some decision
  := by
  constructor
  · intro heq
    rw [← Option.ne_none_iff_exists']
    intro hnone
    apply (drive_of_action_eq_none hs hnone).2.1 heq
  · rintro ⟨decision, haction⟩
    apply hp.complaints_drive (hp.awaits_of_action h hs haction) hend

/-- If there is a complaint about the lookahead, then that is all that happens. -/
theorem complained_of_drive (hp : p.IsMade .fail) (h : p.Path e.states symbols e.nodes)
    (hend : ∀ t ∈ lookahead, ¬ PassesForEnd t.name)
    (hne : (e.drive p.definition lookahead).engine.complaints ≠ e.complaints) :
  (e.advance p.definition lookahead).outcome = .settled ∧
    e.Complained (e.drive p.definition lookahead).engine
  := by
  obtain ⟨s, hs⟩ := h.exists_head
  cases haction : p.definition.action s (lookahead.map (·.name)) with
  | none =>
    obtain ⟨hsettled, -, hcomplained⟩ := drive_of_action_eq_none hs haction
    use hsettled
  | some decision =>
    apply absurd ((hp.complaints_drive_iff h hs hend).mpr ⟨decision, haction⟩) hne

end IsMade

/-- If a parser whose table was built without conflicts complains about a token, or about the end of the
input, then nothing has been reduced on it, and the stacks are what they were. -/
theorem unchanged_of_complaint {g : Grammar} {settings : Settings} (hg : g.Built)
    (hp : Parser.build settings g = .ok p) (hpolicy : settings.policy = .fail)
    (h : e.Reachable p.definition cap Set.univ) (he : e.status = .running) :
  (∀ t : Token, Text.trim t.name ≠ eofTokenName →
    (e.offer p.definition t).engine.complaints ≠ e.complaints →
      (e.offer p.definition t).engine.states = e.states ∧
      (e.offer p.definition t).engine.nodes = e.nodes ∧
      ¬ ∃ e', e.Reduces p.definition (some t) e') ∧
  ((e.finish p.definition).engine.complaints ≠ e.complaints →
    (e.finish p.definition).engine.states = e.states ∧
    (e.finish p.definition).engine.nodes = e.nodes ∧
    ¬ ∃ e', e.Reduces p.definition none e')
  := by
  have hp : p.IsMade .fail := hpolicy ▸ isMade_build hg.wellFormed hp
  obtain ⟨symbols, hpath⟩ := hp.exists_path h
  have hunchanged {lookahead : Option Token} (hend : ∀ t ∈ lookahead, ¬ PassesForEnd t.name)
      (hne : (e.drive p.definition lookahead).engine.complaints ≠ e.complaints) :
      (e.drive p.definition lookahead).engine.states = e.states ∧
        (e.drive p.definition lookahead).engine.nodes = e.nodes ∧
        ¬ ∃ e', e.Reduces p.definition lookahead e' := by
    obtain ⟨hsettled, hstates, hnodes, -⟩ := hp.complained_of_drive hpath hend hne
    use hstates, hnodes
    rintro ⟨e', hreduces, -⟩
    rw [hsettled] at hreduces
    cases hreduces
  constructor
  · intro t ht hne
    rw [offer, he] at hne ⊢
    apply hunchanged _ hne
    rintro _ ⟨⟩ hpasses
    apply ht hpasses.1
  · intro hne
    rw [finish, offerEnd, he] at hne ⊢
    apply hunchanged _ hne
    rintro _ ⟨⟩

/-- A second token after the only one of the sentence is refused, and the first is on the stack still,
although it could be reduced at the end of the input. -/
theorem unchanged_of_complaint_lone :
  ∃ p e, Parser.build ⟨.fail, false, false⟩ lone = .ok p ∧
    e = ((Engine.new p.definition 0).offerAll p.definition [named "x"]).engine ∧
    (e.offer p.definition (named "x")).engine.complaints ≠ e.complaints ∧
    (e.offer p.definition (named "x")).engine.nodes = e.nodes
  := by
  have hrun : ((Parser.build ⟨.fail, false, false⟩ lone).toOption.map fun p =>
      let e := ((Engine.new p.definition 0).offerAll p.definition [named "x"]).engine
      decide (e.status = .running ∧
        (e.offer p.definition (named "x")).engine.complaints ≠ e.complaints)) = some true := by
    decide +kernel
  obtain ⟨p, hp, hrun⟩ := Option.map_eq_some_iff.mp hrun
  have hp := Grammar.eq_ok_of_toOption_eq_some hp
  obtain ⟨he, hne⟩ := of_decide_eq_true hrun
  have hreachable : ((Engine.new p.definition 0).offerAll p.definition [named "x"]).engine.Reachable
      p.definition 0 Set.univ := by
    apply Reachable.new.offerAll
    intro t _
    apply Set.mem_univ
  use p, ((Engine.new p.definition 0).offerAll p.definition [named "x"]).engine, hp, rfl, hne
  apply ((unchanged_of_complaint built_lone hp rfl hreachable he).1 (named "x") _ hne).2.1
  decide +kernel

end CanonicalLR.Parser
