import CanonicalLR.Proofs.Parse.Soundness
import CanonicalLR.Proofs.Parse.Termination

/-!
# Faults of a parser

An engine that has a path on its stacks never comes to a fault, but for one: a reduction may find a
node with another label than its rule has at that place (`Path.failed`).  As every engine that offers
lead to has a path on its stacks, also after a fault (`IsMade.exists_path`), no offer and no end of
the input fails in another way (`Parser.path_of_reachable`).
-/

namespace CanonicalLR.Parser

open Engine

variable {p : Parser} {policy : Policy} {e e' : Engine StateId} {lookahead : Option Token}
  {symbols : List Symbol} {s : StateId} {r : Rule} {name : Option String} {fault : Fault StateId}
  {y : Symbol} {x : Node} {cap : Nat} {ts : Set Token}

/-! ### Faults of a turn -/

namespace Path

theorem supports (hp : p.IsMade policy) (h : p.Path e.states symbols e.nodes)
    (hs : e.states.head? = some s) (haction : p.definition.action s name = some (.reduce r)) :
  e.Supports p.definition r
  := by
  obtain ⟨-, hle, -⟩ := h.spells_rule hp hs haction
  rw [Supports, IsMade.arity_production, h.length_states, ← h.fits.length_eq]
  use hle, Nat.lt_succ_of_le hle

/-- The only fault of a turn is that a reduction finds another label than it should. -/
theorem failed (hp : p.IsMade policy) (h : p.Path e.states symbols e.nodes)
    (hturned : e.Turned p.definition lookahead e' (.failed fault)) :
  ∃ s r expected found, e.states.head? = some s ∧
    p.definition.action s (lookahead.map (·.name)) = some (.reduce r) ∧
    e.arrangement p.definition r = .error fault ∧
    fault = .inconsistent (p.definition.production r) expected found
  := by
  cases hturned with
  | emptyStates hempty =>
    have hlength := h.length_states
    rw [hempty] at hlength
    cases hlength
  | shiftAtEnd hcurrent _ haction => apply absurd haction hp.not_shift_of_end
  | underflow hcurrent haction hunder => apply absurd (h.supports hp hcurrent haction) hunder
  | @inconsistent current r fault hcurrent haction hsupports harrange =>
    obtain ⟨expected, found, hfault⟩ := hsupports.inconsistent harrange
    use current, r, expected, found
  | missingGoto hcurrent haction _ _ hexposed hnone =>
    obtain ⟨origin, target, horigin, hgoto⟩ := h.exists_goto_of_reduce hp hcurrent haction
    rw [Engine.unwind, IsMade.arity_production, horigin] at hexposed
    cases hexposed
    rw [hgoto] at hnone
    cases hnone
  | unbalanced hcurrent haction hcount =>
    obtain ⟨_, -, rfl⟩ := h.symbols_of_accept hp hcurrent haction
    apply absurd h.fits.length_eq.symm hcount

end Path

/-! ### Reachable engines -/

/-- Reductions leave a path on the stacks. -/
theorem Path.reductions (hp : p.IsMade policy) (h : p.Path e.states symbols e.nodes)
    (hreductions : Relation.ReflTransGen (Reduces p.definition lookahead) e e') :
  ∃ symbols', p.Path e'.states symbols' e'.nodes
  := by
  induction hreductions with
  | refl => use symbols
  | @tail e₁ e₂ _ hreduces ih =>
    obtain ⟨symbols', hpath⟩ := ih
    rw [← hreduces.2]
    apply hpath.turned hp (turned_advance p.definition e₁ lookahead)

/-- The stacks of a reachable engine are a path. -/
theorem IsMade.exists_path (hp : p.IsMade policy) (h : e.Reachable p.definition cap ts) :
  ∃ symbols, p.Path e.states symbols e.nodes
  := by
  apply h.keeps (P := fun e => ∃ symbols, p.Path e.states symbols e.nodes)
  · use [], .start
  · rintro e lookahead - - ⟨symbols, hpath⟩
    apply hpath.turned hp (turned_advance p.definition e lookahead)
  · rintro e t hpath
    apply hpath

/-- The fault of a turn of a reachable engine is that a reduction finds another label than it
should. -/
theorem IsMade.inconsistent_of_faultOfTurn (hp : p.IsMade policy)
    (h : FaultOfTurn p.definition cap ts fault) :
  ∃ rule expected found, fault = .inconsistent rule expected found
  := by
  obtain ⟨e, lookahead, hreachable, -, hfailed⟩ := h
  obtain ⟨symbols, hpath⟩ := hp.exists_path hreachable
  have hturned := turned_advance p.definition e lookahead
  rw [hfailed] at hturned
  obtain ⟨_, r, expected, found, -, -, -, hfault⟩ := hpath.failed hp hturned
  use p.definition.production r, expected, found

/-- What a node fits is the symbol that is found by its kind and its name. -/
theorem find?_label_of_fits (hg : p.grammar.WellFormed) (h : p.Fits y x) :
  p.grammar.grammar.find? x.label = some y
  := by
  obtain ⟨k, id⟩ := y
  cases k with
  | term =>
    cases h with
    | term hr _ _ => apply hg.grammar.find?_nameOf (hg.grammar.owner_mem _ hr)
  | token =>
    obtain ⟨t, rfl, hcolumn⟩ := h
    obtain ⟨-, hmem, hname⟩ := (column?_eq_some_iff hg).mp hcolumn
    apply hg.grammar.find?_eq_some_iff.mpr
    use hmem
    apply congrArg (Label.mk .token) hname
  | prompt => cases h

/-- Whatever becomes of conflicts, and whatever tokens are offered, also after complaints and faults,
the stacks of an engine are a path through the automaton, the symbols of which are found by the names
of the nodes.  So an offer and the end of the input have no other fault than that a reduction finds
another label than it should. -/
theorem path_of_reachable {g : Grammar} {settings : Settings} (hg : g.Built)
    (hp : Parser.build settings g = .ok p) (h : e.Reachable p.definition cap Set.univ) :
  (∃ symbols, p.Path e.states symbols e.nodes ∧
    List.Forall₂ (fun y x => p.grammar.grammar.find? x.label = some y) symbols e.nodes) ∧
  (∀ t fault, (e.offer p.definition t).outcome = .error fault →
    ∃ rule expected found, fault = .inconsistent rule expected found) ∧
  ∀ fault, (e.finish p.definition).outcome = .error fault →
    ∃ rule expected found, fault = .inconsistent rule expected found
  := by
  have hp := isMade_build hg.wellFormed hp
  constructor
  · obtain ⟨symbols, hpath⟩ := hp.exists_path h
    use symbols, hpath
    apply hpath.fits.imp
    rintro y x hfits
    apply find?_label_of_fits hp.grammar hfits
  · constructor
    · rintro t fault hfault
      apply hp.inconsistent_of_faultOfTurn
      apply h.faultOfTurn_offer hp.drive_ne_endless (Set.mem_univ t) hfault
    · rintro fault hfault
      apply hp.inconsistent_of_faultOfTurn
      apply h.faultOfTurn_finish hp.drive_ne_endless hfault

/-- The tokens of a sum, with a blank before the name of the second number. -/
def spacedSum : List Token :=
  [⟨"n", "1", .unknown⟩, ⟨"+", "+", .unknown⟩, ⟨" n", "2", .unknown⟩, ⟨"+", "+", .unknown⟩]

/-- The reduction to the second number fails, and then the stacks are a path still. -/
theorem path_of_reachable_sums :
  ∃ p e, Parser.build ⟨.preferShift, false, false⟩ sums = .ok p ∧
    e = ((Engine.new p.definition 0).offerAll p.definition spacedSum).engine ∧
    e.states = [3, 2, 0] ∧ ∃ symbols, p.Path e.states symbols e.nodes
  := by
  have hrun : ((Parser.build ⟨.preferShift, false, false⟩ sums).toOption.map fun p =>
      ((Engine.new p.definition 0).offerAll p.definition spacedSum).engine.states) =
        some [3, 2, 0] := by
    decide +kernel
  obtain ⟨p, hp, hstates⟩ := Option.map_eq_some_iff.mp hrun
  have hp := Grammar.eq_ok_of_toOption_eq_some hp
  have hreachable : ((Engine.new p.definition 0).offerAll p.definition spacedSum).engine.Reachable
      p.definition 0 Set.univ := by
    apply Reachable.new.offerAll
    intro t _
    apply Set.mem_univ
  obtain ⟨⟨symbols, hpath, -⟩, -⟩ := path_of_reachable built_sums hp hreachable
  use p, ((Engine.new p.definition 0).offerAll p.definition spacedSum).engine, hp, rfl, hstates,
    symbols

end CanonicalLR.Parser
