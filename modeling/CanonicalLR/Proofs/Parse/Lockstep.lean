import CanonicalLR.Proofs.Parse.Caps
import CanonicalLR.Proofs.Parse.Termination

/-!
# Stacks in lockstep

By any parser definition, also by one that is wrong, the two stacks of an engine move in lockstep: there
is always one state more than there are nodes (`Engine.Lockstep`).  Every turn keeps this, also if it
fails (`Lockstep.advance`), and so it holds of all engines that occur, before and after every offer and
between any two turns (`Engine.Occurs`).

So the stack of states is never empty.  That a stack is not high enough for a rule comes to light before
anything is taken from the stacks (`Engine.coupled_of_occurs`).
-/

namespace CanonicalLR.Engine

variable {σ ρ : Type} {d : Definition σ ρ} {e e' : Engine σ} {lookahead : Option Token}
  {turn : Turn σ} {fault : Fault σ} {rule : ρ} {tokens : List Token} {cap : Nat}

/-- There is one state more than there are nodes. -/
def Lockstep (e : Engine σ) : Prop :=
  e.states.length = e.nodes.length + 1

theorem lockstep_new (d : Definition σ ρ) (cap : Nat) :
  (Engine.new d cap).Lockstep
  := rfl

namespace Lockstep

/-- The stacks are high enough for a rule exactly if there are as many nodes as the rule takes. -/
theorem supports_iff (h : e.Lockstep) :
  e.Supports d rule ↔ (d.production rule).arity ≤ e.nodes.length
  := by
  rw [Supports, h, Nat.lt_succ_iff, and_self]

/-- As many states as nodes are taken for a rule. -/
theorem unwind (h : e.Lockstep) (hsupports : e.Supports d rule) :
  (e.unwind d rule).Lockstep
  := by
  have harity := hsupports.1
  rw [Lockstep] at h
  simp only [Lockstep, Engine.unwind, List.length_drop]
  omega

/-- There is a state on the stack. -/
theorem states_ne_nil (h : e.Lockstep) :
  e.states ≠ []
  := by
  intro hnil
  rw [Lockstep, hnil] at h
  cases h

/-- A turn keeps the stacks in lockstep, also if it fails. -/
theorem turned (h : e.Lockstep) (hturned : e.Turned d lookahead e' turn) :
  e'.Lockstep
  := by
  cases hturned with
  | shift => exact congrArg (· + 1) h
  | reduce _ _ hsupports => exact congrArg (· + 1) (h.unwind hsupports)
  | inconsistent _ _ hsupports | missingGoto _ _ hsupports => apply h.unwind hsupports
  | refuse hcomplained =>
    rw [Lockstep, hcomplained.1, hcomplained.2.1]
    apply h
  | accept | emptyStates | shiftAtEnd | underflow | unbalanced => apply h

theorem advance (h : e.Lockstep) (d : Definition σ ρ) (lookahead : Option Token) :
  (e.advance d lookahead).engine.Lockstep
  := h.turned (turned_advance d e lookahead)

/-- No turn finds the stack of states empty. -/
theorem advance_ne (h : e.Lockstep) (d : Definition σ ρ) (lookahead : Option Token) :
  (e.advance d lookahead).outcome ≠ .failed .emptyStateStack
  := by
  intro hfailed
  have hturned := turned_advance d e lookahead
  rw [hfailed] at hturned
  generalize (e.advance d lookahead).engine = e' at hturned
  cases hturned with
  | emptyStates hnil => apply h.states_ne_nil hnil
  | inconsistent _ _ hsupports harrange =>
    obtain ⟨_, _, hfault⟩ := hsupports.inconsistent harrange
    cases hfault

/-! ### Offers -/

theorem driveFor (h : e.Lockstep) (d : Definition σ ρ) (lookahead : Option Token) (bound : Nat) :
  (e.driveFor d lookahead bound).engine.Lockstep ∧
    (e.driveFor d lookahead bound).outcome ≠ .error .emptyStateStack
  := by
  induction bound generalizing e with
  | zero =>
    use h
    rintro ⟨⟩
  | succ bound ih =>
    have hnext := h.advance d lookahead
    cases hadvance : (e.advance d lookahead).outcome with
    | reduced =>
      rw [(driveFor_of_reduced hadvance).1, (driveFor_of_reduced hadvance).2]
      apply ih hnext
    | settled =>
      rw [(driveFor_of_settled hadvance).1, (driveFor_of_settled hadvance).2]
      use hnext
      rintro ⟨⟩
    | failed fault =>
      rw [(driveFor_of_failed hadvance).1, (driveFor_of_failed hadvance).2]
      use hnext
      rintro ⟨⟩
      apply h.advance_ne d lookahead hadvance

theorem offer (h : e.Lockstep) (d : Definition σ ρ) (t : Token) :
  (e.offer d t).engine.Lockstep ∧ (e.offer d t).outcome ≠ .error .emptyStateStack
  := by
  cases he : e.status with
  | running =>
    rw [Engine.offer, he]
    apply h.driveFor
  | accepted =>
    rw [offer_of_accepted he]
    use h
    rintro ⟨⟩
  | stopped =>
    rw [offer_of_stopped he]
    use h
    rintro ⟨⟩

theorem finish_ne (h : e.Lockstep) (d : Definition σ ρ) :
  (e.finish d).outcome ≠ .error .emptyStateStack
  := by
  intro hfault
  have hfault := Grammar.eq_error_of_map_eq_error hfault
  rw [offerEnd] at hfault
  split at hfault
  · apply (h.driveFor d none _).2 hfault
  · cases hfault

theorem offerAll (h : e.Lockstep) (d : Definition σ ρ) (tokens : List Token) :
  (e.offerAll d tokens).engine.Lockstep ∧ (e.offerAll d tokens).outcome ≠ .error .emptyStateStack
  := by
  induction tokens generalizing e with
  | nil =>
    use h
    rintro ⟨⟩
  | cons t tokens ih =>
    have hoffer := h.offer d t
    rw [Engine.offerAll]
    split
    · use h
      rintro ⟨⟩
    · cases hreply : e.offer d t with
      | mk e' outcome consulted =>
        rw [hreply] at hoffer
        cases outcome with
        | error fault => apply hoffer
        | ok answer => apply ih hoffer.1

end Lockstep

theorem parse_ne (d : Definition σ ρ) (tokens : List Token) (cap : Nat) :
  (d.parse tokens cap).outcome ≠ .error .emptyStateStack
  := by
  have hread := (lockstep_new d cap).offerAll d tokens
  rw [outcome_parse, readAll]
  cases hreply : (Engine.new d cap).offerAll d tokens with
  | mk e outcome consulted =>
    rw [hreply] at hread
    cases outcome with
    | error fault =>
      rintro ⟨⟩
      apply hread.2 rfl
    | ok answer => apply hread.1.finish_ne

/-! ### Reductions -/

/-- If the stacks are not high enough for a rule, then nothing is taken from them. -/
theorem reduce_of_not_supports (h : ¬ e.Supports d rule) :
  e.reduce d rule = ⟨e, .failed (.stackUnderflow (d.production rule)), []⟩
  := by
  rw [Supports, not_and_or, Nat.not_le, Nat.not_lt] at h
  rw [reduce, if_pos h]

/-- If the stacks are high enough for a rule, then they do not turn out to be too low for it. -/
theorem Supports.outcome_reduce_ne (h : e.Supports d rule) (production : Production) :
  (e.reduce d rule).outcome ≠ .failed (.stackUnderflow production)
  := by
  have hguard : ¬ (e.nodes.length < (d.production rule).arity ∨
      e.states.length ≤ (d.production rule).arity) := by
    rw [not_or, Nat.not_lt, Nat.not_le]
    apply h
  rw [reduce, if_neg hguard]
  simp only
  split
  · next fault harrange =>
    obtain ⟨_, _, rfl⟩ := h.inconsistent harrange
    rintro ⟨⟩
  · split
    · rintro ⟨⟩
    · split <;> rintro ⟨⟩

/-! ### Engines that occur -/

/-- The engine comes from the one that has read nothing yet by offers, whatever came of them, and by
turns with any lookahead, also if they fail. -/
inductive Occurs (d : Definition σ ρ) (cap : Nat) : Engine σ → Prop where
  | new : Occurs d cap (.new d cap)
  | offer {e : Engine σ} (t : Token) : Occurs d cap e → Occurs d cap (e.offer d t).engine
  | turn {e : Engine σ} (lookahead : Option Token) :
      Occurs d cap e → Occurs d cap (e.advance d lookahead).engine

theorem Occurs.lockstep (h : e.Occurs d cap) :
  e.Lockstep
  := by
  induction h with
  | new => apply lockstep_new
  | offer t _ ih => apply (ih.offer d t).1
  | turn lookahead _ ih => apply ih.advance

theorem occurs_offerEach (d : Definition σ ρ) (cap : Nat) (tokens : List Token) :
  ((Engine.new d cap).offerEach d tokens).Occurs d cap
  := by
  apply offerEach_keeps _ .new
  intro e t he
  apply he.offer t

/-- The laws for the two stacks of an engine. -/
structure Coupled (d : Definition σ ρ) (e : Engine σ) : Prop where
  length_states : e.states.length = e.nodes.length + 1
  /-- Neither a turn nor an offer finds the stack of states empty, and the end of the input does not
  either. -/
  advance_ne : ∀ lookahead, (e.advance d lookahead).outcome ≠ .failed .emptyStateStack
  offer_ne : ∀ t, (e.offer d t).outcome ≠ .error .emptyStateStack
  finish_ne : (e.finish d).outcome ≠ .error .emptyStateStack
  /-- Once the nodes of a rule have been taken from the stack, there are enough of them for it. -/
  arrangement_ne : ∀ rule production, e.Supports d rule →
    e.arrangement d rule ≠ .error (.stackUnderflow production)
  underflow_iff : ∀ rule, (∃ production,
      (e.reduce d rule).outcome = .failed (.stackUnderflow production)) ↔
    e.nodes.length < (d.production rule).arity
  /-- When the stacks are too low for a rule, they are left as they are. -/
  unchanged : ∀ rule production, (e.reduce d rule).outcome = .failed (.stackUnderflow production) →
    production = d.production rule ∧ (e.reduce d rule).engine = e

theorem Lockstep.coupled (h : e.Lockstep) (d : Definition σ ρ) :
  e.Coupled d
  := by
  have hunder {rule : ρ} {production : Production}
      (hunder : (e.reduce d rule).outcome = .failed (.stackUnderflow production)) :
      ¬ e.Supports d rule := fun hsupports => hsupports.outcome_reduce_ne production hunder
  constructor
  · apply h
  · apply h.advance_ne
  · exact fun t => (h.offer d t).2
  · apply h.finish_ne
  · intro rule production hsupports harrange
    obtain ⟨_, _, hfault⟩ := hsupports.inconsistent harrange
    cases hfault
  · intro rule
    rw [← Nat.not_le, ← h.supports_iff]
    constructor
    · rintro ⟨production, hproduction⟩
      apply hunder hproduction
    · intro hlow
      use d.production rule
      rw [reduce_of_not_supports hlow]
  · intro rule production hproduction
    have hlow := hunder hproduction
    rw [reduce_of_not_supports hlow] at hproduction ⊢
    cases hproduction
    use rfl

/-- By any parser definition, the two stacks of every engine that occurs keep to their laws: there is
one state more than there are nodes, so there always is a state, and the stacks are too low for a rule
exactly if there are fewer nodes than it takes, and then they stay as they are.  The engines after any
offers occur, also if there were complaints and faults, and so do those between the turns. -/
theorem coupled_of_occurs (d : Definition σ ρ) (cap : Nat) :
  (∀ e : Engine σ, e.Occurs d cap → e.Coupled d) ∧
    ∀ tokens, ((Engine.new d cap).offerEach d tokens).Occurs d cap ∧
      (d.parse tokens cap).outcome ≠ .error .emptyStateStack
  := by
  constructor
  · intro e he
    apply he.lockstep.coupled
  · intro tokens
    use occurs_offerEach d cap tokens
    apply parse_ne

/-- The definition of a parser whose rules are not what it has read, written down by hand. -/
def crooked : Definition Nat Nat :=
  .ofTables
    { initial := 0
      actions := [((0, some "a"), .shift 1), ((1, some "a"), .shift 1), ((1, some "b"), .reduce 0),
        ((1, some "c"), .reduce 1)]
      gotos := []
      productions := [⟨"S", [⟨.token, "a"⟩, ⟨.prompt, "p"⟩, ⟨.token, "b"⟩]⟩,
        ⟨"T", [⟨.token, "a"⟩, ⟨.token, "a"⟩]⟩]
      expected := [] }

/-- Two tokens, one by which they are reduced, and one more. -/
def crookedTokens : List Token :=
  [⟨"a", "1", .unknown⟩, ⟨"a", "2", .unknown⟩, ⟨"b", "3", .unknown⟩, ⟨"a", "4", .unknown⟩]

/-- The reduction to `S` fails at its second node, when both have been taken from the stacks; one node
is read after that, and a reduction to `T`, which takes two, leaves it where it is. -/
theorem coupled_of_occurs_crooked :
  let e := (Engine.new crooked 0).offerEach crooked crookedTokens
  ¬ (Engine.new crooked 0).Faultless crooked crookedTokens ∧ e.states = [1, 0] ∧ e.nodes.length = 1 ∧
    (∃ production, (e.reduce crooked 1).outcome = .failed (.stackUnderflow production)) ∧
    (e.reduce crooked 1).engine = e
  := by
  intro e
  obtain ⟨hcoupled, hoccurs⟩ := coupled_of_occurs crooked 0
  have he : e.Coupled crooked := hcoupled e (hoccurs crookedTokens).1
  have hstates : e.states = [1, 0] := by decide +kernel
  have hnodes : e.nodes.length = 1 := by
    have hlength := he.length_states
    rw [hstates] at hlength
    exact (Nat.succ_injective hlength).symm
  have harity : (crooked.production 1).arity = 2 := by decide
  have hunder := (he.underflow_iff 1).mpr (by rw [hnodes, harity]; decide)
  obtain ⟨production, hproduction⟩ := hunder
  refine ⟨?_, hstates, hnodes, ⟨production, hproduction⟩, (he.unchanged 1 production hproduction).2⟩
  rintro ⟨-, -, hthird, -⟩
  revert hthird
  decide +kernel

end CanonicalLR.Engine
