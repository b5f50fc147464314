import CanonicalLR.Proofs.Parse.Runs

/-!
# Offers one after the other

When tokens are offered one after the other (`Engine.offerEach`), an engine deals with each in a last
turn, after some reductions (`Engine.driveFor_cases`): it shifts the token, or it makes one complaint
about it (`Engine.Settles`).  All that reductions and faults change are the stacks
(`Engine.Restacked`).

To read a whole input is to offer all of its tokens, also those that come after the engine has stopped,
and then the end of the input, if there is no fault (`Engine.readAll_eq_ok_iff`).
-/

namespace CanonicalLR

/-- The token that a complaint is about. -/
def Complaint.token? : Complaint → Option Token
  | unexpectedToken t _ => some t
  | refusedToken t _ => some t
  | afterAcceptance t => some t
  | unexpectedEnd _ => none
  | refusedEnd _ => none

namespace Engine

variable {σ ρ : Type} {d : Definition σ ρ} {e e' e'' : Engine σ} {lookahead : Option Token}
  {t : Token} {tokens : List Token}

/-! ### What a turn changes beside the stacks -/

/-- The engine differs in its stacks only. -/
structure Restacked (e e' : Engine σ) : Prop where
  complaints_eq : e'.complaints = e.complaints
  status_eq : e'.status = e.status
  cap_eq : e'.cap = e.cap

theorem Restacked.refl (e : Engine σ) :
  e.Restacked e
  := ⟨rfl, rfl, rfl⟩

theorem Restacked.trans (h : e.Restacked e') (h' : e'.Restacked e'') :
  e.Restacked e''
  := ⟨h'.complaints_eq.trans h.complaints_eq, h'.status_eq.trans h.status_eq,
    h'.cap_eq.trans h.cap_eq⟩

/-- The engine deals with the lookahead: a token is shifted, or there is one complaint about it; the
end of the input is accepted, or there is a complaint about it. -/
inductive Settles (e : Engine σ) : Option Token → Engine σ → Prop where
  | shift {t : Token} {target : σ} :
      Settles e (some t) { e with nodes := .token t :: e.nodes, states := target :: e.states }
  | complain {t : Token} {c : Complaint} :
      c.token? = some t → Settles e (some t) (e.complain c)
  | complainAccepted {t : Token} :
      Settles e (some t) (complain { e with status := .accepted } (.afterAcceptance t))
  | accept {x : Node} :
      e.nodes = [x] → Settles e none { e with status := .accepted }
  | complainAtEnd {c : Complaint} :
      c.token? = none → Settles e none (e.complainAtEnd c)

theorem settles_refuse (e : Engine σ) (message : String) (lookahead : Option Token) :
  e.Settles lookahead (e.refuse message lookahead)
  := by
  cases lookahead with
  | none => exact .complainAtEnd rfl
  | some t => exact .complain rfl

theorem settles_refuseUnexpected (e : Engine σ) (expected : List String)
    (lookahead : Option Token) :
  e.Settles lookahead (e.refuseUnexpected expected lookahead)
  := by
  cases lookahead with
  | none => exact .complainAtEnd rfl
  | some t => exact .complain rfl

/-- A reduction leaves the lookahead to be dealt with. -/
theorem outcome_reduce_ne_settled (d : Definition σ ρ) (e : Engine σ) (rule : ρ) :
  (e.reduce d rule).outcome ≠ .settled
  := by
  rw [Engine.reduce]
  split
  · rintro ⟨⟩
  · simp only
    split
    · rintro ⟨⟩
    · split
      · rintro ⟨⟩
      · split <;> rintro ⟨⟩

/-- What the engine does in the last turn for a lookahead. -/
theorem settles_advance (h : (e.advance d lookahead).outcome = .settled) :
  e.Settles lookahead (e.advance d lookahead).engine
  := by
  rw [advance] at h ⊢
  split at h
  · cases h
  · next current rest hstates =>
    cases haction : d.action current (lookahead.map (·.name)) with
    | none => apply settles_refuseUnexpected
    | some decision =>
      simp only [haction] at h ⊢
      cases decision with
      | shift target =>
        cases lookahead with
        | none => cases h
        | some t =>
          exact .shift
      | reduce rule => apply absurd h (outcome_reduce_ne_settled d e rule)
      | accept =>
        simp only at h ⊢
        split at h
        · cases h
        · next hnodes =>
          rw [if_neg hnodes]
          cases lookahead with
          | none =>
            obtain ⟨x, hx⟩ := List.length_eq_one_iff.mp (Decidable.not_not.mp hnodes)
            exact .accept hx
          | some t => exact .complainAccepted
      | error message => apply settles_refuse

/-- Any other turn changes nothing but the stacks. -/
theorem restacked_advance (h : (e.advance d lookahead).outcome ≠ .settled) :
  e.Restacked (e.advance d lookahead).engine
  := by
  have hturned := turned_advance d e lookahead
  generalize (e.advance d lookahead).engine = e' at hturned ⊢
  generalize (e.advance d lookahead).outcome = turn at h hturned
  cases hturned with
  | shift | accept | refuse => apply absurd rfl h
  | reduce => exact ⟨rfl, rfl, rfl⟩
  | emptyStates | shiftAtEnd | underflow | unbalanced => apply Restacked.refl
  | inconsistent | missingGoto => exact ⟨rfl, rfl, rfl⟩

/-- The engine deals with the lookahead after some reductions, or there is a fault, and then nothing has
changed but the stacks. -/
theorem driveFor_cases (d : Definition σ ρ) (e : Engine σ) (lookahead : Option Token) (bound : Nat) :
  (∃ e₁, Relation.ReflTransGen (Reduces d lookahead) e e₁ ∧ e.Restacked e₁ ∧
      e₁.Settles lookahead (e.driveFor d lookahead bound).engine ∧
      (e.driveFor d lookahead bound).outcome = .ok ()) ∨
    e.Restacked (e.driveFor d lookahead bound).engine ∧
      ∃ fault, (e.driveFor d lookahead bound).outcome = .error fault
  := by
  induction bound generalizing e with
  | zero => exact .inr ⟨.refl e, _, rfl⟩
  | succ bound ih =>
    cases hadvance : (e.advance d lookahead).outcome with
    | settled =>
      left
      rw [(driveFor_of_settled hadvance).1, (driveFor_of_settled hadvance).2]
      use e, .refl, .refl e, settles_advance hadvance
    | failed fault =>
      right
      rw [(driveFor_of_failed hadvance).1, (driveFor_of_failed hadvance).2]
      use restacked_advance (by rw [hadvance]; nofun), fault
    | reduced =>
      rw [(driveFor_of_reduced hadvance).1, (driveFor_of_reduced hadvance).2]
      have hrestacked := restacked_advance (d := d) (by rw [hadvance]; nofun)
      rcases ih (e.advance d lookahead).engine with ⟨e₁, hreductions, h₁, hsettles⟩ | ⟨h₁, hfault⟩
      · left
        use e₁, .head ⟨hadvance, rfl⟩ hreductions, hrestacked.trans h₁
      · right
        use hrestacked.trans h₁

/-! ### Sequences of offers -/

/-- The engine after the tokens of a list have been offered, whatever came of the offers. -/
def offerEach (d : Definition σ ρ) (e : Engine σ) (tokens : List Token) : Engine σ :=
  tokens.foldl (fun e t => (e.offer d t).engine) e

/-- No offer of the tokens, one after the other, has a fault. -/
def Faultless (d : Definition σ ρ) : Engine σ → List Token → Prop
  | _, [] => True
  | e, t :: tokens => (e.offer d t).outcome = .ok () ∧ Faultless d (e.offer d t).engine tokens

/-- The tokens that are offered before the engine has stopped. -/
def heard (d : Definition σ ρ) : Engine σ → List Token → List Token
  | _, [] => []
  | e, t :: tokens => if e.isStopped then [] else t :: heard d (e.offer d t).engine tokens

@[simp]
theorem offerEach_nil (d : Definition σ ρ) (e : Engine σ) :
  e.offerEach d [] = e
  := rfl

@[simp]
theorem offerEach_cons (d : Definition σ ρ) (e : Engine σ) (t : Token) (tokens : List Token) :
  e.offerEach d (t :: tokens) = (e.offer d t).engine.offerEach d tokens
  := rfl

theorem isStopped_iff :
  e.isStopped = true ↔ e.status = .stopped
  := decide_eq_true_iff

/-- An engine that has stopped does nothing, and it does not ask what to do. -/
theorem offer_of_stopped (he : e.status = .stopped) (d : Definition σ ρ) (t : Token) :
  e.offer d t = ⟨e, .ok (), []⟩
  := by
  rw [offer, he]

/-- An engine that has accepted complains, and it does not ask what to do. -/
theorem offer_of_accepted (he : e.status = .accepted) (d : Definition σ ρ) (t : Token) :
  e.offer d t = ⟨e.complain (.afterAcceptance t), .ok (), []⟩
  := by
  rw [offer, he]

theorem offerEach_of_stopped (he : e.status = .stopped) (d : Definition σ ρ) (tokens : List Token) :
  e.offerEach d tokens = e
  := by
  induction tokens with
  | nil => rfl
  | cons t tokens ih => rw [offerEach_cons, offer_of_stopped he, ih]

theorem faultless_of_stopped (he : e.status = .stopped) (d : Definition σ ρ) (tokens : List Token) :
  e.Faultless d tokens
  := by
  induction tokens with
  | nil => trivial
  | cons t tokens ih =>
    rw [Faultless, offer_of_stopped he]
    use rfl

/-- To read a whole input is to offer all of its tokens and then its end, also if the engine has
stopped before. -/
theorem readAll_eq_ok_iff {result : ParseResult} :
  e.readAll d tokens = .ok result ↔
    e.Faultless d tokens ∧ ((e.offerEach d tokens).finish d).outcome = .ok result
  := by
  induction tokens generalizing e with
  | nil => simp [readAll_nil, Faultless]
  | cons t tokens ih =>
    by_cases hstopped : e.status = .stopped
    · rw [readAll, offerAll_of_isStopped (isStopped_iff.mpr hstopped), offerEach_of_stopped hstopped]
      simp only [faultless_of_stopped hstopped, true_and]
    · have hrunning : e.isStopped = false := by simp [isStopped, hstopped]
      rw [readAll, offerAll, hrunning, if_neg Bool.false_ne_true, Faultless, offerEach_cons]
      cases hoffer : e.offer d t with
      | mk e' outcome consulted =>
        cases outcome with
        | error fault => simp
        | ok answer =>
          simp only [true_and]
          rw [← ih, readAll]
          cases e'.offerAll d tokens with
          | mk e'' outcome consulted' => cases outcome <;> rfl

end Engine

end CanonicalLR
