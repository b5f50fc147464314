import CanonicalLR.Proofs.Parse.Offers

/-!
# As many complaints as are wanted

By any parser definition, and also after faults, an engine has stopped exactly if there are as many
complaints as are wanted (`Engine.Orderly`), until the end of the input is offered.  Once it has
stopped, offers change nothing, and an engine that has accepted never reads again
(`Engine.disciplined_offerEach`).
-/

namespace CanonicalLR.Engine

variable {σ ρ : Type} {d : Definition σ ρ} {e e' : Engine σ} {lookahead : Option Token} {t : Token}
  {cap : Nat}

/-! ### More complaints -/

/-- There is one more complaint, or none. -/
def Grows (before after : List Complaint) : Prop :=
  ∃ added, after = before ++ added ∧ added.length ≤ 1

theorem Grows.of_eq {before after : List Complaint} (h : after = before) :
  Grows before after
  := by
  use [], by simp [h]
  apply Nat.zero_le

theorem grows_concat (before : List Complaint) (c : Complaint) :
  Grows before (before ++ [c])
  := ⟨[c], rfl, Nat.le_refl 1⟩

/-- There is at most one complaint about a lookahead. -/
theorem Settles.grows (h : e.Settles lookahead e') :
  Grows e.complaints e'.complaints
  := by
  cases h with
  | shift | accept => exact .of_eq rfl
  | complain | complainAccepted | complainAtEnd => apply grows_concat

theorem grows_drive (d : Definition σ ρ) (e : Engine σ) (lookahead : Option Token) :
  Grows e.complaints (e.drive d lookahead).engine.complaints
  := by
  rw [drive]
  rcases driveFor_cases d e lookahead _ with ⟨e₁, -, h₁, hsettles, -⟩ | ⟨h₁, -⟩
  · rw [← h₁.complaints_eq]
    apply hsettles.grows
  · exact .of_eq h₁.complaints_eq

theorem grows_offer (d : Definition σ ρ) (e : Engine σ) (t : Token) :
  Grows e.complaints (e.offer d t).engine.complaints
  := by
  cases he : e.status with
  | running =>
    rw [offer, he]
    apply grows_drive
  | accepted =>
    rw [offer_of_accepted he]
    apply grows_concat
  | stopped =>
    rw [offer_of_stopped he]
    exact .of_eq rfl

theorem grows_offerEnd (d : Definition σ ρ) (e : Engine σ) :
  Grows e.complaints (e.offerEnd d).engine.complaints
  := by
  rw [offerEnd]
  split
  · apply grows_drive
  · exact .of_eq rfl

/-! ### The status and the number of complaints -/

/-- There are no more complaints than are wanted. -/
def Capped (e : Engine σ) : Prop :=
  0 < e.cap → e.complaints.length ≤ e.cap

/-- There are no more complaints than are wanted, and the engine has stopped exactly if there are as
many. -/
structure Orderly (e : Engine σ) : Prop where
  capped : e.Capped
  stopped_iff : e.status = .stopped ↔ 0 < e.cap ∧ e.cap ≤ e.complaints.length

theorem orderly_new (d : Definition σ ρ) (cap : Nat) :
  (Engine.new d cap).Orderly
  := by
  constructor
  · intro _
    apply Nat.zero_le
  · constructor
    · rintro ⟨⟩
    · rintro ⟨hpos, hle⟩
      apply absurd (Nat.lt_of_lt_of_le hpos hle) (Nat.lt_irrefl 0)

namespace Orderly

/-- The stacks do not matter. -/
theorem restacked (h : e.Orderly) (he : e.Restacked e') :
  e'.Orderly
  := by
  constructor
  · rw [Capped, he.complaints_eq, he.cap_eq]
    apply h.capped
  · rw [he.status_eq, he.complaints_eq, he.cap_eq]
    apply h.stopped_iff

/-- An engine that has not stopped may accept. -/
theorem accept (h : e.Orderly) (he : e.status ≠ .stopped) :
  { e with status := .accepted }.Orderly
  := by
  use h.capped
  use nofun
  intro hfull
  apply absurd (h.stopped_iff.mpr hfull) he

/-- As long as an engine has not stopped, one more complaint is wanted. -/
theorem capped_complain (h : e.Orderly) (he : e.status ≠ .stopped) (c : Complaint) :
  (e.complain c).Capped
  := by
  intro hpos
  have hroom : ¬ (0 < e.cap ∧ e.cap ≤ e.complaints.length) := fun hfull => he (h.stopped_iff.mpr hfull)
  change 0 < e.cap at hpos
  change (e.complaints ++ [c]).length ≤ e.cap
  rw [List.length_append, List.length_singleton]
  omega

theorem complain (h : e.Orderly) (he : e.status ≠ .stopped) (c : Complaint) :
  (e.complain c).Orderly
  := by
  use h.capped_complain he c
  simp only [Engine.complain]
  split
  · next hfull => simp only [hfull, and_self]
  · next hroom => simp only [he, hroom]

/-- When the lookahead is dealt with, there are no more complaints than are wanted. -/
theorem capped_of_settles (h : e.Orderly) (he : e.status ≠ .stopped) (hs : e.Settles lookahead e') :
  e'.Capped
  := by
  cases hs with
  | shift | accept => apply h.capped
  | complain | complainAtEnd => apply h.capped_complain he
  | complainAccepted => apply (h.accept he).capped_complain nofun

/-- After a token has been dealt with, the engine has stopped exactly if there are as many complaints
as are wanted. -/
theorem settles (h : e.Orderly) (he : e.status ≠ .stopped) (hs : e.Settles (some t) e') :
  e'.Orderly
  := by
  cases hs with
  | shift => exact ⟨h.capped, h.stopped_iff⟩
  | complain => apply h.complain he
  | complainAccepted => apply (h.accept he).complain nofun

theorem offer (h : e.Orderly) (d : Definition σ ρ) (t : Token) :
  (e.offer d t).engine.Orderly
  := by
  cases he : e.status with
  | running =>
    rw [Engine.offer, he, drive]
    rcases driveFor_cases d e (some t) _ with ⟨e₁, -, h₁, hsettles, -⟩ | ⟨h₁, -⟩
    · apply (h.restacked h₁).settles _ hsettles
      rw [h₁.status_eq, he]
      rintro ⟨⟩
    · apply h.restacked h₁
  | accepted =>
    rw [offer_of_accepted he]
    apply h.complain
    rw [he]
    rintro ⟨⟩
  | stopped =>
    rw [offer_of_stopped he]
    apply h

theorem capped_offerEnd (h : e.Orderly) (d : Definition σ ρ) :
  (e.offerEnd d).engine.Capped
  := by
  rw [offerEnd]
  split
  · next he =>
    rw [drive]
    rcases driveFor_cases d e none _ with ⟨e₁, -, h₁, hsettles, -⟩ | ⟨h₁, -⟩
    · apply (h.restacked h₁).capped_of_settles _ hsettles
      rw [h₁.status_eq, he]
      rintro ⟨⟩
    · apply (h.restacked h₁).capped
  · apply h.capped

end Orderly

/-- What every offer keeps is kept by all of them. -/
theorem offerEach_keeps {P : Engine σ → Prop} (keep : ∀ e t, P e → P (e.offer d t).engine) (he : P e)
    (tokens : List Token) :
  P (e.offerEach d tokens)
  := by
  induction tokens generalizing e with
  | nil => apply he
  | cons t tokens ih => apply ih (keep e t he)

theorem orderly_offerEach (d : Definition σ ρ) (cap : Nat) (tokens : List Token) :
  ((Engine.new d cap).offerEach d tokens).Orderly
  := by
  apply offerEach_keeps _ (orderly_new d cap)
  intro e t he
  apply he.offer d t

/-! ### The number of complaints that are wanted -/

theorem Settles.cap_eq (h : e.Settles lookahead e') :
  e'.cap = e.cap
  := by
  cases h <;> rfl

/-- The number of complaints that are wanted does not change. -/
theorem cap_drive (d : Definition σ ρ) (e : Engine σ) (lookahead : Option Token) :
  (e.drive d lookahead).engine.cap = e.cap
  := by
  rw [drive]
  rcases driveFor_cases d e lookahead _ with ⟨e₁, -, h₁, hsettles, -⟩ | ⟨h₁, -⟩
  · rw [hsettles.cap_eq, h₁.cap_eq]
  · apply h₁.cap_eq

theorem cap_offer (d : Definition σ ρ) (e : Engine σ) (t : Token) :
  (e.offer d t).engine.cap = e.cap
  := by
  rw [offer]
  split
  · apply cap_drive
  · rfl
  · rfl

theorem cap_offerEnd (d : Definition σ ρ) (e : Engine σ) :
  (e.offerEnd d).engine.cap = e.cap
  := by
  rw [offerEnd]
  split
  · apply cap_drive
  · rfl

theorem cap_offerEach (d : Definition σ ρ) (cap : Nat) (tokens : List Token) :
  ((Engine.new d cap).offerEach d tokens).cap = cap
  := by
  apply offerEach_keeps (P := fun e => e.cap = cap) _ rfl
  intro e t he
  rw [cap_offer, he]

/-! ### Engines that have accepted -/

/-- An engine that does not run any more leaves its stacks as they are. -/
theorem offerEach_of_not_running (he : e.status ≠ .running) (d : Definition σ ρ)
    (tokens : List Token) :
  (e.offerEach d tokens).status ≠ .running ∧ (e.offerEach d tokens).states = e.states ∧
    (e.offerEach d tokens).nodes = e.nodes
  := by
  apply offerEach_keeps
    (P := fun e' => e'.status ≠ .running ∧ e'.states = e.states ∧ e'.nodes = e.nodes) _ ⟨he, rfl, rfl⟩
  rintro e' t ⟨he', hstates, hnodes⟩
  cases hstatus : e'.status with
  | running => apply absurd hstatus he'
  | accepted =>
    rw [offer_of_accepted hstatus]
    refine ⟨?_, hstates, hnodes⟩
    rw [complain]
    simp only
    split
    · rintro ⟨⟩
    · apply he'
  | stopped =>
    rw [offer_of_stopped hstatus]
    use he'

/-- The end of the input is not offered to an engine that does not run any more. -/
theorem finish_of_not_running (he : e.status ≠ .running) (d : Definition σ ρ) :
  e.finish d = ⟨e, .ok e.result, []⟩
  := by
  have hend : e.offerEnd d = ⟨e, .ok (), []⟩ := by
    rw [offerEnd]
    split
    · next hrunning => apply absurd hrunning he
    · rfl
  rw [finish, hend]
  rfl

theorem result_of_stopped (he : e.status = .stopped) :
  e.result = ⟨none, e.complaints⟩
  := by
  simp [Engine.result, isAccepted, he]

/-- The result has the complaints of the engine, and a tree only if there are none and the engine has
accepted. -/
theorem of_outcome_finish {result : ParseResult} (h : (e.finish d).outcome = .ok result) :
  result.complaints = (e.offerEnd d).engine.complaints ∧
    ∀ x, result.tree = some x → (e.offerEnd d).engine.isAccepted = true ∧
      result.complaints = [] ∧ (e.offerEnd d).engine.nodes.head? = some x
  := by
  obtain ⟨_, -, rfl⟩ := Grammar.exists_of_map_eq_ok h
  use rfl
  intro x hx
  rw [Engine.result] at hx ⊢
  simp only at hx ⊢
  split at hx
  · next haccepted =>
    rw [Bool.and_eq_true, List.isEmpty_iff] at haccepted
    use haccepted.1, haccepted.2
  · cases hx

/-! ### The laws of an engine -/

/-- The laws for the complaints and the status of an engine to which the end of the input has not been
offered. -/
structure Disciplined (d : Definition σ ρ) (cap : Nat) (e : Engine σ) : Prop where
  /-- An offer leads to one complaint at most, and none is taken back. -/
  grows : ∀ t, Grows e.complaints (e.offer d t).engine.complaints
  length_le : 0 < cap → e.complaints.length ≤ cap
  isStopped_iff : e.isStopped = true ↔ 0 < cap ∧ cap ≤ e.complaints.length
  /-- Once the engine has stopped, nothing changes any more, and no definition is asked. -/
  stopped : e.isStopped = true → ∀ d' : Definition σ ρ,
    (∀ t, e.offer d' t = ⟨e, .ok (), []⟩) ∧ e.finish d' = ⟨e, .ok ⟨none, e.complaints⟩, []⟩
  /-- Once the engine has accepted, it only complains, and no definition is asked. -/
  accepted : e.isAccepted = true → ∀ d' : Definition σ ρ,
    (∀ t, e.offer d' t = ⟨e.complain (.afterAcceptance t), .ok (), []⟩) ∧
      e.finish d' = ⟨e, .ok e.result, []⟩ ∧
      ∀ later, (e.offerEach d' later).status ≠ .running ∧
        (e.offerEach d' later).states = e.states ∧ (e.offerEach d' later).nodes = e.nodes
  /-- A tree comes with no complaint, from an engine that has accepted. -/
  finish : ∀ result, (e.finish d).outcome = .ok result →
    Grows e.complaints result.complaints ∧ (0 < cap → result.complaints.length ≤ cap) ∧
      ∀ x, result.tree = some x → (e.finish d).engine.isAccepted = true ∧ result.complaints = []

theorem Orderly.disciplined (h : e.Orderly) (hcap : e.cap = cap) (d : Definition σ ρ) :
  e.Disciplined d cap
  := by
  subst hcap
  constructor
  · apply grows_offer
  · apply h.capped
  · rw [isStopped_iff]
    apply h.stopped_iff
  · intro hstopped d'
    rw [isStopped_iff] at hstopped
    use offer_of_stopped hstopped d'
    rw [finish_of_not_running (by rw [hstopped]; rintro ⟨⟩), result_of_stopped hstopped]
  · intro haccepted d'
    have haccepted : e.status = .accepted := of_decide_eq_true haccepted
    have hne : e.status ≠ .running := by
      rw [haccepted]
      rintro ⟨⟩
    use offer_of_accepted haccepted d', finish_of_not_running hne d', offerEach_of_not_running hne d'
  · intro result hresult
    obtain ⟨hcomplaints, htree⟩ := of_outcome_finish hresult
    rw [hcomplaints]
    use grows_offerEnd d e
    constructor
    · rw [← cap_offerEnd d e]
      apply h.capped_offerEnd d
    · intro x hx
      rw [← hcomplaints]
      obtain ⟨haccepted, hnone, -⟩ := htree x hx
      use haccepted

/-- By any parser definition, after any offers, also if there were faults, an engine keeps to the laws
for its complaints and its status.  Reading a whole input, which ends when the engine has stopped, has
the result that comes from offering all tokens and then the end of the input. -/
theorem disciplined_offerEach (d : Definition σ ρ) (cap : Nat) (tokens : List Token) :
  ((Engine.new d cap).offerEach d tokens).Disciplined d cap ∧
    ∀ result, (d.parse tokens cap).outcome = .ok result ↔
      (Engine.new d cap).Faultless d tokens ∧
        (((Engine.new d cap).offerEach d tokens).finish d).outcome = .ok result
  := by
  use (orderly_offerEach d cap tokens).disciplined (cap_offerEach d cap tokens) d
  intro result
  rw [outcome_parse, readAll_eq_ok_iff]

end CanonicalLR.Engine
