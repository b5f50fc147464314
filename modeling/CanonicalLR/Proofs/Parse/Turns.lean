import Mathlib.Tactic.Use
import CanonicalLR.Parse.Engine

/-!
# Turns of the engine

What the engine may do in one turn is listed in the relation `Engine.Turned`, for any parser
definition (`Engine.turned_advance`).  What is kept by reductions holds of the engine right before
the turn in which the lookahead is dealt with (`Engine.exists_of_driveFor`), and the limit for the
number of turns does not matter unless it is reached (`Engine.driveFor_eq_of_le`).

To read a whole input (`Engine.readAll`) is to drive the engine by its first token and then to read
the rest.
-/

namespace CanonicalLR.Engine

variable {σ ρ : Type} {d : Definition σ ρ} {e e' : Engine σ} {lookahead : Option Token}
  {turn : Turn σ} {t : Token} {tokens : List Token}

/-! ### Complaints -/

/-- The engine made a complaint, and its stacks did not change. -/
def Complained (e e' : Engine σ) : Prop :=
  e'.states = e.states ∧ e'.nodes = e.nodes ∧ e'.complaints ≠ []

theorem complained_complain (e : Engine σ) (c : Complaint) :
  e.Complained (e.complain c)
  := by
  use rfl, rfl
  simp [complain]

theorem complained_afterAcceptance (e : Engine σ) (c : Complaint) :
  e.Complained (complain { e with status := .accepted } c)
  := by
  use rfl, rfl
  simp [complain]

theorem complained_complainAtEnd (e : Engine σ) (c : Complaint) :
  e.Complained (e.complainAtEnd c)
  := by
  use rfl, rfl
  simp [complainAtEnd, complain]

theorem complained_refuse (e : Engine σ) (message : String) (lookahead : Option Token) :
  e.Complained (e.refuse message lookahead)
  := by
  cases lookahead with
  | none => apply complained_complainAtEnd
  | some t => apply complained_complain

theorem complained_refuseUnexpected (e : Engine σ) (expected : List String)
    (lookahead : Option Token) :
  e.Complained (e.refuseUnexpected expected lookahead)
  := by
  cases lookahead with
  | none => apply complained_complainAtEnd
  | some t => apply complained_complain

/-! ### Turns -/

/-- The engine once the nodes and the states of a rule have been taken from the stacks. -/
def unwind (d : Definition σ ρ) (e : Engine σ) (rule : ρ) : Engine σ :=
  { e with
    states := e.states.drop (d.production rule).arity
    nodes := e.nodes.drop (d.production rule).arity }

/-- The stacks are high enough for a reduction by the rule. -/
def Supports (d : Definition σ ρ) (e : Engine σ) (rule : ρ) : Prop :=
  (d.production rule).arity ≤ e.nodes.length ∧ (d.production rule).arity < e.states.length

/-- The nodes below a reduction by the rule. -/
def arrangement (d : Definition σ ρ) (e : Engine σ) (rule : ρ) : Except (Fault σ) (List Node) :=
  arrange (d.production rule) (d.production rule).right
    (e.nodes.take (d.production rule).arity).reverse

/-- What a turn changes, and what becomes of the lookahead. -/
inductive Turned (d : Definition σ ρ) (e : Engine σ) (lookahead : Option Token) :
    Engine σ → Turn σ → Prop where
  | shift {current target : σ} {t : Token} :
      e.states.head? = some current → lookahead = some t →
      d.action current (some t.name) = some (.shift target) →
      Turned d e lookahead
        { e with nodes := .token t :: e.nodes, states := target :: e.states } .settled
  | reduce {current exposed target : σ} {rule : ρ} {children : List Node} :
      e.states.head? = some current →
      d.action current (lookahead.map (·.name)) = some (.reduce rule) → e.Supports d rule →
      e.arrangement d rule = .ok children → (e.unwind d rule).states.head? = some exposed →
      d.goto exposed rule = some target →
      Turned d e lookahead
        { e with
          nodes := .reduction (d.production rule).left children :: (e.unwind d rule).nodes
          states := target :: (e.unwind d rule).states } .reduced
  | accept {current : σ} {x : Node} :
      e.states.head? = some current → lookahead = none →
      d.action current none = some .accept → e.nodes = [x] →
      Turned d e lookahead { e with status := .accepted } .settled
  | refuse {e' : Engine σ} : e.Complained e' → Turned d e lookahead e' .settled
  | emptyStates : e.states = [] → Turned d e lookahead e (.failed .emptyStateStack)
  | shiftAtEnd {current target : σ} :
      e.states.head? = some current → lookahead = none →
      d.action current none = some (.shift target) →
      Turned d e lookahead e (.failed (.shiftAtEnd current))
  | underflow {current : σ} {rule : ρ} :
      e.states.head? = some current →
      d.action current (lookahead.map (·.name)) = some (.reduce rule) → ¬ e.Supports d rule →
      Turned d e lookahead e (.failed (.stackUnderflow (d.production rule)))
  | inconsistent {current : σ} {rule : ρ} {fault : Fault σ} :
      e.states.head? = some current →
      d.action current (lookahead.map (·.name)) = some (.reduce rule) → e.Supports d rule →
      e.arrangement d rule = .error fault →
      Turned d e lookahead (e.unwind d rule) (.failed fault)
  | missingGoto {current exposed : σ} {rule : ρ} {children : List Node} :
      e.states.head? = some current →
      d.action current (lookahead.map (·.name)) = some (.reduce rule) → e.Supports d rule →
      e.arrangement d rule = .ok children → (e.unwind d rule).states.head? = some exposed →
      d.goto exposed rule = none →
      Turned d e lookahead (e.unwind d rule)
        (.failed (.missingGoto exposed (d.production rule).left))
  | unbalanced {current : σ} :
      e.states.head? = some current →
      d.action current (lookahead.map (·.name)) = some .accept → e.nodes.length ≠ 1 →
      Turned d e lookahead e (.failed (.unbalancedAccept e.nodes.length))

/-- A reduction is one of the turns. -/
theorem turned_reduce {current : σ} {rule : ρ} (hcurrent : e.states.head? = some current)
    (haction : d.action current (lookahead.map (·.name)) = some (.reduce rule)) :
  Turned d e lookahead (e.reduce d rule).engine (e.reduce d rule).outcome
  := by
  rw [Engine.reduce]
  split
  · next h =>
    apply Turned.underflow hcurrent haction
    intro hsupports
    rcases h with h | h
    · apply Nat.not_le.mpr h hsupports.1
    · apply Nat.not_lt.mpr h hsupports.2
  · next h =>
    rw [not_or, Nat.not_lt, Nat.not_le] at h
    have hexposed : (e.unwind d rule).states.head? = some e.states[(d.production rule).arity] := by
      rw [unwind, List.drop_eq_getElem_cons h.2]
      rfl
    cases harrange : e.arrangement d rule with
    | error fault =>
      have hturned := Turned.inconsistent hcurrent haction h harrange
      rw [arrangement] at harrange
      simp only [harrange]
      apply hturned
    | ok children =>
      cases hgoto : d.goto e.states[(d.production rule).arity] rule with
      | none =>
        have hturned := Turned.missingGoto hcurrent haction h harrange hexposed hgoto
        rw [arrangement] at harrange
        rw [unwind, List.drop_eq_getElem_cons h.2] at hturned
        simp only [harrange, List.drop_eq_getElem_cons h.2, hgoto]
        apply hturned
      | some target =>
        have hturned := Turned.reduce hcurrent haction h harrange hexposed hgoto
        rw [arrangement] at harrange
        rw [unwind, List.drop_eq_getElem_cons h.2] at hturned
        simp only [harrange, List.drop_eq_getElem_cons h.2, hgoto]
        apply hturned

/-- What the engine does in one turn. -/
theorem turned_advance (d : Definition σ ρ) (e : Engine σ) (lookahead : Option Token) :
  Turned d e lookahead (e.advance d lookahead).engine (e.advance d lookahead).outcome
  := by
  rw [advance]
  split
  · next hstates => apply Turned.emptyStates hstates
  · next current rest hstates =>
    have hcurrent : e.states.head? = some current := by
      rw [hstates]
      rfl
    cases haction : d.action current (lookahead.map (·.name)) with
    | none =>
      simp only
      apply Turned.refuse (complained_refuseUnexpected e _ lookahead)
    | some decision =>
      cases decision with
      | shift target =>
        simp only
        cases lookahead with
        | none => apply Turned.shiftAtEnd hcurrent rfl haction
        | some t => apply Turned.shift hcurrent rfl haction
      | reduce rule =>
        simp only
        apply turned_reduce hcurrent haction
      | accept =>
        simp only
        split
        · next hnodes => apply Turned.unbalanced hcurrent haction hnodes
        · next hnodes =>
          cases lookahead with
          | none =>
            obtain ⟨x, hx⟩ := List.length_eq_one_iff.mp (Decidable.not_not.mp hnodes)
            apply Turned.accept hcurrent rfl haction hx
          | some t => apply Turned.refuse (complained_afterAcceptance e _)
      | error message =>
        simp only
        apply Turned.refuse (complained_refuse e message lookahead)

/-- A token that a turn leaves on the stack was there before, or it is the lookahead. -/
theorem Turned.token_mem (h : e.Turned d lookahead e' turn) (ht : .token t ∈ e'.nodes) :
  .token t ∈ e.nodes ∨ lookahead = some t
  := by
  cases h with
  | shift _ hlookahead =>
    rcases List.mem_cons.mp ht with heq | ht
    · right
      cases heq
      apply hlookahead
    · left
      apply ht
  | reduce =>
    left
    rcases List.mem_cons.mp ht with heq | ht
    · cases heq
    · apply List.mem_of_mem_drop ht
  | inconsistent | missingGoto =>
    left
    apply List.mem_of_mem_drop ht
  | refuse hcomplained =>
    left
    rw [← hcomplained.2.1]
    apply ht
  | accept | emptyStates | shiftAtEnd | underflow | unbalanced =>
    left
    apply ht

/-- A reduction fails if the nodes of its rule cannot be arranged. -/
theorem failed_of_arrangement {current : σ} {rule : ρ} {fault : Fault σ}
    (hcurrent : e.states.head? = some current)
    (haction : d.action current (lookahead.map (·.name)) = some (.reduce rule))
    (hsupports : e.Supports d rule) (harrange : e.arrangement d rule = .error fault) :
  (e.advance d lookahead).outcome = .failed fault
  := by
  have hguard : ¬ (e.nodes.length < (d.production rule).arity ∨
      e.states.length ≤ (d.production rule).arity) := by
    rw [not_or, Nat.not_lt, Nat.not_le]
    apply hsupports
  have hreduce : (e.reduce d rule).outcome = .failed fault := by
    rw [arrangement] at harrange
    rw [Engine.reduce, if_neg hguard]
    simp only [harrange]
  obtain ⟨states, nodes, complaints, status, cap⟩ := e
  obtain ⟨rest, rfl⟩ := List.head?_eq_some_iff.mp hcurrent
  simp only [advance, haction]
  apply hreduce

/-- A reduction does not change whether an engine runs, also if it fails. -/
theorem status_reduce (d : Definition σ ρ) (e : Engine σ) (rule : ρ) :
  (e.reduce d rule).engine.status = e.status
  := by
  rw [Engine.reduce]
  split
  · rfl
  · simp only
    split
    · rfl
    · split
      · rfl
      · split <;> rfl

/-- No complaint makes an engine accept. -/
theorem status_of_complain {c : Complaint} (h : (e.complain c).status = .accepted) :
  e.status = .accepted
  := by
  rw [complain] at h
  simp only at h
  split at h
  · cases h
  · apply h

theorem status_of_complainAtEnd {c : Complaint} (h : (e.complainAtEnd c).status = .accepted) :
  e.status = .accepted
  := by
  rw [complainAtEnd] at h
  simp only at h
  split at h
  · cases h
  · apply status_of_complain h

/-- An engine only begins to accept where the definition says so. -/
theorem accept_of_status (h : (e.advance d lookahead).engine.status = .accepted) :
  e.status = .accepted ∨ ∃ current, e.states.head? = some current ∧
    d.action current (lookahead.map (·.name)) = some .accept
  := by
  rw [advance] at h
  split at h
  · left
    apply h
  · next current rest hstates =>
    cases haction : d.action current (lookahead.map (·.name)) with
    | none =>
      simp only [haction] at h
      left
      cases lookahead with
      | none => apply status_of_complainAtEnd h
      | some t => apply status_of_complain h
    | some decision =>
      simp only [haction] at h
      cases decision with
      | shift target =>
        left
        cases lookahead with
        | none => apply h
        | some t => apply h
      | reduce rule =>
        left
        rw [← status_reduce d e rule]
        apply h
      | accept =>
        right
        use current
        rw [hstates]
        use rfl
      | error message =>
        left
        cases lookahead with
        | none => apply status_of_complainAtEnd h
        | some t => apply status_of_complain h

/-- Reductions do not change whether an engine runs. -/
theorem status_of_reduced (h : (e.advance d lookahead).outcome = .reduced) :
  (e.advance d lookahead).engine.status = e.status
  := by
  have hturned := turned_advance d e lookahead
  rw [h] at hturned
  generalize (e.advance d lookahead).engine = e' at hturned
  cases hturned
  rfl

/-! ### Refusals -/

/-- The definition has no action for the lookahead, or one that refuses it, or it accepts before the end
of the input. -/
def Refuses (d : Definition σ ρ) (e : Engine σ) (lookahead : Option Token) : Prop :=
  ∃ current, e.states.head? = some current ∧
    ∀ decision, d.action current (lookahead.map (·.name)) = some decision →
      (∃ message, decision = .error message) ∨ decision = .accept ∧ lookahead ≠ none

/-- There is no complaint in a reduction, also if it fails. -/
theorem complaints_reduce (d : Definition σ ρ) (e : Engine σ) (rule : ρ) :
  (e.reduce d rule).engine.complaints = e.complaints
  := by
  rw [Engine.reduce]
  split
  · rfl
  · simp only
    split
    · rfl
    · split
      · rfl
      · split <;> rfl

/-- There is only a complaint in a turn that refuses the lookahead, and that is the last one. -/
theorem refuses_of_complaints_ne (h : (e.advance d lookahead).engine.complaints ≠ e.complaints) :
  e.Refuses d lookahead ∧ (e.advance d lookahead).outcome = .settled ∧
    e.Complained (e.advance d lookahead).engine
  := by
  rw [advance] at h ⊢
  split at h
  · apply absurd rfl h
  · next current rest hstates =>
    have hrefuses (hcases : ∀ decision, d.action current (lookahead.map (·.name)) = some decision →
        (∃ message, decision = .error message) ∨ decision = .accept ∧ lookahead ≠ none) :
        e.Refuses d lookahead := by
      use current
      rw [hstates]
      use rfl
    cases haction : d.action current (lookahead.map (·.name)) with
    | none =>
      rw [haction] at hrefuses
      refine ⟨hrefuses ?_, rfl, complained_refuseUnexpected e _ lookahead⟩
      rintro decision ⟨⟩
    | some decision =>
      rw [haction] at hrefuses
      simp only [haction] at h ⊢
      cases decision with
      | shift target => cases lookahead <;> apply absurd rfl h
      | reduce rule => apply absurd (complaints_reduce d e rule) h
      | accept =>
        cases lookahead with
        | none =>
          simp only at h
          split at h <;> apply absurd rfl h
        | some t =>
          simp only at h ⊢
          split at h
          · apply absurd rfl h
          · next hnodes =>
            rw [if_neg hnodes]
            refine ⟨hrefuses ?_, rfl, complained_afterAcceptance e _⟩
            rintro _ ⟨⟩
            right
            use rfl
            rintro ⟨⟩
      | error message =>
        refine ⟨hrefuses ?_, rfl, complained_refuse e message lookahead⟩
        rintro _ ⟨⟩
        left
        use message

/-- The lookahead is refused if there is no action for it. -/
theorem complaints_ne_of_action_eq_none {current : σ} (hcurrent : e.states.head? = some current)
    (haction : d.action current (lookahead.map (·.name)) = none) :
  (e.advance d lookahead).engine.complaints ≠ e.complaints
  := by
  obtain ⟨states, nodes, complaints, status, cap⟩ := e
  obtain ⟨rest, rfl⟩ := List.head?_eq_some_iff.mp hcurrent
  simp only [advance, haction]
  cases lookahead with
  | none => simp [refuseUnexpected, complainAtEnd, complain]
  | some t => simp [refuseUnexpected, complain]

/-- A complaint is not taken back. -/
theorem complaints_ne_nil_advance (h : e.complaints ≠ []) :
  (e.advance d lookahead).engine.complaints ≠ []
  := by
  by_cases heq : (e.advance d lookahead).engine.complaints = e.complaints
  · rw [heq]
    apply h
  · apply (refuses_of_complaints_ne heq).2.2.2.2

/-! ### Driving -/

/-- What reductions keep holds of the engine right before the turn in which the lookahead is dealt
with. -/
theorem exists_of_driveFor {P : Engine σ → Prop}
    (keep : ∀ e e', P e → Turned d e lookahead e' .reduced → P e') {bound : Nat} (he : P e)
    (h : (e.driveFor d lookahead bound).outcome = .ok ()) :
  ∃ e₁, P e₁ ∧ Turned d e₁ lookahead (e.driveFor d lookahead bound).engine .settled
  := by
  induction bound generalizing e with
  | zero => cases h
  | succ bound ih =>
    have hturned := turned_advance d e lookahead
    rw [driveFor] at h ⊢
    cases hadvance : e.advance d lookahead with
    | mk e' turn consulted =>
      rw [hadvance] at hturned h
      cases turn with
      | settled =>
        use e
      | failed fault => cases h
      | reduced =>
        obtain ⟨e₁, he₁, hsettled⟩ := ih (keep e e' he hturned) h
        use e₁

/-- The limit for the number of turns does not matter unless it is reached. -/
theorem driveFor_eq_of_le {bound bound' : Nat} (hle : bound ≤ bound')
    (h : (e.driveFor d lookahead bound).outcome ≠ .error .endlessReductions) :
  e.driveFor d lookahead bound' = e.driveFor d lookahead bound
  := by
  induction bound generalizing e bound' with
  | zero => apply absurd rfl h
  | succ bound ih =>
    obtain ⟨bound', rfl⟩ := Nat.exists_eq_succ_of_ne_zero (Nat.ne_of_gt (Nat.zero_lt_of_lt hle))
    rw [driveFor] at h
    rw [driveFor, driveFor]
    cases hadvance : e.advance d lookahead with
    | mk e' turn consulted =>
      rw [hadvance] at h
      cases turn with
      | settled => rfl
      | failed fault => rfl
      | reduced =>
        simp only
        rw [ih (Nat.le_of_succ_le_succ hle) h]

/-- Limits that are not reached lead to the same. -/
theorem driveFor_eq {bound bound' : Nat}
    (h : (e.driveFor d lookahead bound).outcome ≠ .error .endlessReductions)
    (h' : (e.driveFor d lookahead bound').outcome ≠ .error .endlessReductions) :
  e.driveFor d lookahead bound = e.driveFor d lookahead bound'
  := by
  rcases Nat.le_total bound bound' with hle | hle
  · rw [driveFor_eq_of_le hle h]
  · rw [driveFor_eq_of_le hle h']

/-- After a reduction the engine is driven on. -/
theorem driveFor_of_reduced {bound : Nat} (h : (e.advance d lookahead).outcome = .reduced) :
  (e.driveFor d lookahead (bound + 1)).outcome =
      ((e.advance d lookahead).engine.driveFor d lookahead bound).outcome ∧
    (e.driveFor d lookahead (bound + 1)).engine =
      ((e.advance d lookahead).engine.driveFor d lookahead bound).engine
  := by
  rw [driveFor]
  cases hadvance : e.advance d lookahead with
  | mk e' turn consulted =>
    rw [hadvance] at h
    cases h
    use rfl

/-- Once the lookahead has been dealt with, the engine is driven no further. -/
theorem driveFor_of_settled {bound : Nat} (h : (e.advance d lookahead).outcome = .settled) :
  (e.driveFor d lookahead (bound + 1)).outcome = .ok () ∧
    (e.driveFor d lookahead (bound + 1)).engine = (e.advance d lookahead).engine
  := by
  rw [driveFor]
  cases hadvance : e.advance d lookahead with
  | mk e' turn consulted =>
    rw [hadvance] at h
    cases h
    use rfl

/-- A lookahead for which there is no action is refused at once. -/
theorem drive_of_action_eq_none {current : σ} (hcurrent : e.states.head? = some current)
    (haction : d.action current (lookahead.map (·.name)) = none) :
  (e.advance d lookahead).outcome = .settled ∧
    (e.drive d lookahead).engine.complaints ≠ e.complaints ∧
    e.Complained (e.drive d lookahead).engine
  := by
  have hne := complaints_ne_of_action_eq_none hcurrent haction
  obtain ⟨-, hsettled, hcomplained⟩ := refuses_of_complaints_ne hne
  use hsettled
  rw [drive, (driveFor_of_settled hsettled).2]
  use hne

/-- After a fault the engine is driven no further. -/
theorem driveFor_of_failed {bound : Nat} {fault : Fault σ}
    (h : (e.advance d lookahead).outcome = .failed fault) :
  (e.driveFor d lookahead (bound + 1)).outcome = .error fault ∧
    (e.driveFor d lookahead (bound + 1)).engine = (e.advance d lookahead).engine
  := by
  rw [driveFor]
  cases hadvance : e.advance d lookahead with
  | mk e' turn consulted =>
    rw [hadvance] at h
    cases h
    use rfl

/-! ### Reading -/

/-- The outcome of reading the tokens and then the end of the input. -/
def readAll (d : Definition σ ρ) (e : Engine σ) (tokens : List Token) :
    Except (Fault σ) ParseResult :=
  match e.offerAll d tokens with
  | ⟨_, .error fault, _⟩ => .error fault
  | ⟨e, .ok (), _⟩ => (e.finish d).outcome

/-- To read the input is to read all tokens with the engine that has read nothing yet. -/
theorem outcome_parse (d : Definition σ ρ) (tokens : List Token) (cap : Nat) :
  (d.parse tokens cap).outcome = (Engine.new d cap).readAll d tokens
  := by
  rw [Definition.parse, readAll]
  cases hread : (Engine.new d cap).offerAll d tokens with
  | mk e outcome consulted =>
    cases outcome with
    | error fault => rfl
    | ok answer => rfl

theorem readAll_nil (d : Definition σ ρ) (e : Engine σ) :
  e.readAll d [] = (e.finish d).outcome
  := rfl

/-- A running engine is driven by the first token, and then it reads the rest. -/
theorem readAll_cons (he : e.status = .running) :
  e.readAll d (t :: tokens) =
    match (e.drive d (some t)).outcome with
    | .error fault => .error fault
    | .ok () => (e.drive d (some t)).engine.readAll d tokens
  := by
  have hstopped : e.isStopped = false := by
    simp [isStopped, he]
  rw [readAll, offerAll, hstopped, if_neg Bool.false_ne_true, offer, he]
  simp only
  cases hdrive : e.drive d (some t) with
  | mk e' outcome consulted =>
    cases outcome with
    | error fault => rfl
    | ok answer =>
      simp only [readAll]
      cases e'.offerAll d tokens with
      | mk e'' outcome consulted' => cases outcome <;> rfl

/-- An engine that has stopped reads nothing more. -/
theorem offerAll_of_isStopped (he : e.isStopped = true) :
  e.offerAll d tokens = ⟨e, .ok (), []⟩
  := by
  cases tokens with
  | nil => rfl
  | cons t tokens => rw [offerAll, if_pos he]

/-- To read tokens and then others is to read all of them. -/
theorem readAll_append {others : List Token} (h : (e.offerAll d tokens).outcome = .ok ()) :
  e.readAll d (tokens ++ others) = (e.offerAll d tokens).engine.readAll d others
  := by
  induction tokens generalizing e with
  | nil => rfl
  | cons t tokens ih =>
    by_cases hstopped : e.isStopped = true
    · rw [offerAll_of_isStopped hstopped, readAll, readAll, offerAll_of_isStopped hstopped,
        offerAll_of_isStopped hstopped]
    · rw [offerAll, if_neg hstopped] at h
      rw [List.cons_append, readAll, offerAll, offerAll, if_neg hstopped, if_neg hstopped]
      cases hoffer : e.offer d t with
      | mk e' outcome consulted =>
        rw [hoffer] at h
        cases outcome with
        | error fault => cases h
        | ok answer =>
          have hrest := ih h
          rw [readAll] at hrest
          simp only
          rw [← hrest]
          cases e'.offerAll d (tokens ++ others) with
          | mk e'' outcome consulted' => cases outcome <;> rfl

/-- A running engine is driven by the end of the input, and then there is a result. -/
theorem outcome_finish (he : e.status = .running) :
  (e.finish d).outcome = (e.drive d none).outcome.map fun _ => (e.drive d none).engine.result
  := by
  rw [finish, offerEnd, he]

end CanonicalLR.Engine
