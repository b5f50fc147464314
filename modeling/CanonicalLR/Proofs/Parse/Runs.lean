import Mathlib.Data.Set.Basic
import Mathlib.Logic.Relation
import CanonicalLR.Proofs.Grammar.WellFormed
import CanonicalLR.Proofs.Parse.Turns

/-!
# Runs of the engine

An engine takes turns until the lookahead is dealt with.  The relation `Engine.Driven` holds of an
engine, the engine that is left behind, and the outcome, if the turns come to an end, however many
there are.  They do so if the limit that an engine has for their number is not reached
(`Engine.driven_driveFor`), and it is reached if there are as many reductions in a row
(`Engine.endless_of_run`).

The engines that offers lead to are *reachable* (`Engine.Reachable`), also after a fault.  What every
turn keeps holds of all of them (`Reachable.keeps`).  A fault of an offer, of the end of the input, or
of reading a whole input is the fault of a turn of a reachable engine (`Engine.FaultOfTurn`).
-/

namespace CanonicalLR.Engine

variable {σ ρ : Type} {d : Definition σ ρ} {e e₁ e' : Engine σ} {lookahead : Option Token}
  {outcome : Except (Fault σ) Unit} {fault : Fault σ} {t : Token} {tokens : List Token}
  {ts : Set Token} {cap bound : Nat} {P : Engine σ → Prop}

/-! ### Driving without a limit -/

/-- The engine makes a reduction. -/
def Reduces (d : Definition σ ρ) (lookahead : Option Token) (e e' : Engine σ) : Prop :=
  (e.advance d lookahead).outcome = .reduced ∧ (e.advance d lookahead).engine = e'

/-- The engine takes turns, as long as they are reductions, and the last one leaves the second engine
and the outcome behind. -/
inductive Driven (d : Definition σ ρ) (lookahead : Option Token) :
    Engine σ → Engine σ → Except (Fault σ) Unit → Prop where
  | settled {e : Engine σ} :
      (e.advance d lookahead).outcome = .settled →
      Driven d lookahead e (e.advance d lookahead).engine (.ok ())
  | failed {e : Engine σ} {fault : Fault σ} :
      (e.advance d lookahead).outcome = .failed fault →
      Driven d lookahead e (e.advance d lookahead).engine (.error fault)
  | reduced {e e₁ e' : Engine σ} {outcome : Except (Fault σ) Unit} :
      e.Reduces d lookahead e₁ → Driven d lookahead e₁ e' outcome → Driven d lookahead e e' outcome

/-- If the limit for the number of turns is not reached, it does not matter. -/
theorem driven_driveFor
    (h : (e.driveFor d lookahead bound).outcome ≠ .error .endlessReductions) :
  e.Driven d lookahead (e.driveFor d lookahead bound).engine
    (e.driveFor d lookahead bound).outcome
  := by
  induction bound generalizing e with
  | zero => apply absurd rfl h
  | succ bound ih =>
    cases hadvance : (e.advance d lookahead).outcome with
    | reduced =>
      rw [(driveFor_of_reduced hadvance).1] at h
      rw [(driveFor_of_reduced hadvance).1, (driveFor_of_reduced hadvance).2]
      apply Driven.reduced ⟨hadvance, rfl⟩ (ih h)
    | settled =>
      rw [(driveFor_of_settled hadvance).1, (driveFor_of_settled hadvance).2]
      apply Driven.settled hadvance
    | failed fault =>
      rw [(driveFor_of_failed hadvance).1, (driveFor_of_failed hadvance).2]
      apply Driven.failed hadvance

/-- If there is a run of as many reductions as the limit says, then the limit is reached. -/
theorem endless_of_run (run : Nat → Engine σ)
    (hrun : ∀ n < bound, (run n).Reduces d lookahead (run (n + 1))) :
  ((run 0).driveFor d lookahead bound).outcome = .error .endlessReductions
  := by
  induction bound generalizing run with
  | zero => rfl
  | succ bound ih =>
    obtain ⟨hreduced, hnext⟩ := hrun 0 (Nat.zero_lt_succ bound)
    rw [(driveFor_of_reduced hreduced).1, hnext]
    apply ih (fun n => run (n + 1))
    intro n hn
    apply hrun (n + 1) (Nat.succ_lt_succ hn)

/-- The fault that ends the turns is the fault of a turn, after some reductions. -/
theorem Driven.exists_failed (h : e.Driven d lookahead e' (.error fault)) :
  ∃ e₁, Relation.ReflTransGen (Reduces d lookahead) e e₁ ∧
    (e₁.advance d lookahead).outcome = .failed fault
  := by
  generalize houtcome : Except.error fault = outcome at h
  induction h with
  | settled => cases houtcome
  | @failed e fault hfailed =>
    cases houtcome
    use e, .refl
  | reduced hreduces _ ih =>
    obtain ⟨e₁, hreductions, hfailed⟩ := ih houtcome
    use e₁, .head hreduces hreductions

/-- If there is a fault after some reductions, then the turns end with it. -/
theorem Driven.eq_error (h : e.Driven d lookahead e' outcome)
    (hreductions : Relation.ReflTransGen (Reduces d lookahead) e e₁)
    (hfailed : (e₁.advance d lookahead).outcome = .failed fault) :
  outcome = .error fault
  := by
  induction h with
  | settled hsettled =>
    rcases hreductions.cases_head with rfl | ⟨_, hreduces, -⟩
    · rw [hsettled] at hfailed
      cases hfailed
    · rw [hreduces.1] at hsettled
      cases hsettled
  | failed hfailed' =>
    rcases hreductions.cases_head with rfl | ⟨_, hreduces, -⟩
    · rw [hfailed'] at hfailed
      cases hfailed
      rfl
    · rw [hreduces.1] at hfailed'
      cases hfailed'
  | reduced hreduces _ ih =>
    rcases hreductions.cases_head with rfl | ⟨_, hreduces', hreductions⟩
    · rw [hreduces.1] at hfailed
      cases hfailed
    · rw [← hreduces'.2, hreduces.2] at hreductions
      apply ih hreductions

/-- There is no complaint if no engine that the reductions lead to refuses the lookahead. -/
theorem Driven.complaints_eq (keep : ∀ e e₁, P e → e.Reduces d lookahead e₁ → P e₁)
    (hrefuses : ∀ e, P e → ¬ e.Refuses d lookahead) (he : P e)
    (h : e.Driven d lookahead e' outcome) :
  e'.complaints = e.complaints
  := by
  have hturn {e : Engine σ} (he : P e) : (e.advance d lookahead).engine.complaints = e.complaints := by
    by_contra hne
    apply hrefuses e he (refuses_of_complaints_ne hne).1
  induction h with
  | settled => apply hturn he
  | failed => apply hturn he
  | reduced hreduces _ ih =>
    rw [ih (keep _ _ he hreduces), ← hreduces.2]
    apply hturn he

/-! ### Reachable engines -/

/-- The engine comes from the one that has read nothing yet by offers of members of `ts`, whatever
came of them; or it is met between two reductions, for each of which the lookahead is a member of `ts`
or the end of the input. -/
inductive Reachable (d : Definition σ ρ) (cap : Nat) (ts : Set Token) : Engine σ → Prop where
  | new : Reachable d cap ts (.new d cap)
  | offer {e : Engine σ} {t : Token} :
      Reachable d cap ts e → t ∈ ts → Reachable d cap ts (e.offer d t).engine
  | reduce {e e' : Engine σ} {lookahead : Option Token} :
      Reachable d cap ts e → e.status = .running → (∀ t ∈ lookahead, t ∈ ts) →
      e.Reduces d lookahead e' → Reachable d cap ts e'

/-- What every turn keeps is kept when the engine is driven. -/
theorem driveFor_keeps (keep : ∀ e, P e → P (e.advance d lookahead).engine) (he : P e) :
  P (e.driveFor d lookahead bound).engine
  := by
  induction bound generalizing e with
  | zero => apply he
  | succ bound ih =>
    cases hadvance : (e.advance d lookahead).outcome with
    | reduced =>
      rw [(driveFor_of_reduced hadvance).2]
      apply ih (keep e he)
    | settled =>
      rw [(driveFor_of_settled hadvance).2]
      apply keep e he
    | failed fault =>
      rw [(driveFor_of_failed hadvance).2]
      apply keep e he

/-- After a complaint nothing is read without one. -/
theorem complaints_ne_nil_drive (h : e.complaints ≠ []) :
  (e.drive d lookahead).engine.complaints ≠ []
  := by
  apply driveFor_keeps (P := fun e => e.complaints ≠ []) _ h
  intro e he
  apply complaints_ne_nil_advance he

theorem complaints_ne_nil_offer (h : e.complaints ≠ []) :
  (e.offer d t).engine.complaints ≠ []
  := by
  rw [Engine.offer]
  split
  · apply complaints_ne_nil_drive h
  · simp [complain]
  · apply h

theorem complaints_ne_nil_offerAll (h : e.complaints ≠ []) :
  (e.offerAll d tokens).engine.complaints ≠ []
  := by
  induction tokens generalizing e with
  | nil => apply h
  | cons t tokens ih =>
    have hoffer := complaints_ne_nil_offer (d := d) (t := t) h
    rw [Engine.offerAll]
    split
    · apply h
    · cases hreply : e.offer d t with
      | mk e' outcome consulted =>
        rw [hreply] at hoffer
        cases outcome with
        | error fault => apply hoffer
        | ok answer => apply ih hoffer

theorem complaints_ne_nil_of_readAll {result : ParseResult} (h : e.complaints ≠ [])
    (hread : e.readAll d tokens = .ok result) :
  result.complaints ≠ []
  := by
  have hall : (e.offerAll d tokens).engine.complaints ≠ [] := complaints_ne_nil_offerAll h
  rw [readAll] at hread
  cases hreply : e.offerAll d tokens with
  | mk e' outcome consulted =>
    rw [hreply] at hall hread
    cases outcome with
    | error fault => cases hread
    | ok answer =>
      obtain ⟨_, -, rfl⟩ := Grammar.exists_of_map_eq_ok hread
      rw [Engine.result, offerEnd]
      simp only
      split
      · apply complaints_ne_nil_drive hall
      · apply hall

namespace Reachable

/-- What every turn keeps, and every complaint about a token after the end, holds of all reachable
engines.  Of the turns at the end of the input, only reductions lead to reachable engines. -/
theorem keeps (hnew : P (.new d cap))
    (hadvance : ∀ e lookahead, (∀ t ∈ lookahead, t ∈ ts) →
      (lookahead = none → (e.advance d lookahead).outcome = .reduced) →
      P e → P (e.advance d lookahead).engine)
    (hcomplain : ∀ e t, P e → P (e.complain (.afterAcceptance t)))
    (h : e.Reachable d cap ts) :
  P e
  := by
  induction h with
  | new => apply hnew
  | @offer e t _ ht ih =>
    rw [Engine.offer]
    split
    · apply driveFor_keeps _ ih
      intro e he
      apply hadvance e _ _ _ he
      · rintro _ ⟨⟩
        apply ht
      · rintro ⟨⟩
    · apply hcomplain e t ih
    · apply ih
  | reduce _ _ hts hreduces ih =>
    rw [← hreduces.2]
    apply hadvance _ _ hts (fun _ => hreduces.1) ih

/-- The tokens on the stack of a reachable engine were offered. -/
theorem mem_of_token_mem (h : e.Reachable d cap ts) (ht : .token t ∈ e.nodes) :
  t ∈ ts
  := by
  have hall : ∀ t, .token t ∈ e.nodes → t ∈ ts := by
    apply h.keeps (P := fun e => ∀ t, .token t ∈ e.nodes → t ∈ ts)
    · rintro t ⟨⟩
    · rintro e lookahead hts - he t ht
      rcases (turned_advance d e lookahead).token_mem ht with ht | hlookahead
      · apply he t ht
      · apply hts t hlookahead
    · intro e t he
      apply he
  apply hall t ht

/-- Reductions lead from a reachable engine to reachable engines. -/
theorem reductions (h : e.Reachable d cap ts) (he : e.status = .running)
    (hts : ∀ t ∈ lookahead, t ∈ ts)
    (hreductions : Relation.ReflTransGen (Reduces d lookahead) e e₁) :
  e₁.Reachable d cap ts
  := by
  have hboth : e₁.Reachable d cap ts ∧ e₁.status = .running := by
    induction hreductions with
    | refl => use h
    | tail _ hreduces ih =>
      use ih.1.reduce ih.2 hts hreduces
      rw [← hreduces.2, status_of_reduced hreduces.1]
      apply ih.2
  apply hboth.1

theorem offerAll (h : e.Reachable d cap ts) (hts : ∀ t ∈ tokens, t ∈ ts) :
  (e.offerAll d tokens).engine.Reachable d cap ts
  := by
  induction tokens generalizing e with
  | nil => apply h
  | cons t tokens ih =>
    rw [List.forall_mem_cons] at hts
    have hoffer := h.offer hts.1
    rw [Engine.offerAll]
    split
    · apply h
    · cases hreply : e.offer d t with
      | mk e' outcome consulted =>
        rw [hreply] at hoffer
        cases outcome with
        | error fault => apply hoffer
        | ok answer => apply ih hoffer hts.2

end Reachable

/-! ### Faults -/

/-- A reachable engine fails with the fault in a turn, for a lookahead that is a member of `ts` or the
end of the input. -/
def FaultOfTurn (d : Definition σ ρ) (cap : Nat) (ts : Set Token) (fault : Fault σ) : Prop :=
  ∃ (e : Engine σ) (lookahead : Option Token), e.Reachable d cap ts ∧
    (∀ t ∈ lookahead, t ∈ ts) ∧ (e.advance d lookahead).outcome = .failed fault

section FaultOfTurn

variable (hends : ∀ (e : Engine σ) (lookahead : Option Token),
  (e.drive d lookahead).outcome ≠ .error .endlessReductions)

include hends

/-- A running engine that is driven fails in a turn, if reductions end. -/
theorem Reachable.faultOfTurn_drive (h : e.Reachable d cap ts) (he : e.status = .running)
    (hts : ∀ t ∈ lookahead, t ∈ ts) (hfault : (e.drive d lookahead).outcome = .error fault) :
  FaultOfTurn d cap ts fault
  := by
  have hdriven := driven_driveFor (hends e lookahead)
  change e.Driven d lookahead _ (e.drive d lookahead).outcome at hdriven
  rw [hfault] at hdriven
  obtain ⟨e₁, hreductions, hfailed⟩ := hdriven.exists_failed
  use e₁, lookahead, h.reductions he hts hreductions, hts

theorem Reachable.faultOfTurn_offer (h : e.Reachable d cap ts) (ht : t ∈ ts)
    (hfault : (e.offer d t).outcome = .error fault) :
  FaultOfTurn d cap ts fault
  := by
  rw [Engine.offer] at hfault
  split at hfault
  · next hrunning =>
    apply h.faultOfTurn_drive hends hrunning _ hfault
    rintro _ ⟨⟩
    apply ht
  · cases hfault
  · cases hfault

theorem Reachable.faultOfTurn_offerAll (h : e.Reachable d cap ts) (hts : ∀ t ∈ tokens, t ∈ ts)
    (hfault : (e.offerAll d tokens).outcome = .error fault) :
  FaultOfTurn d cap ts fault
  := by
  induction tokens generalizing e with
  | nil => cases hfault
  | cons t tokens ih =>
    rw [List.forall_mem_cons] at hts
    have hoffer := h.offer hts.1
    rw [Engine.offerAll] at hfault
    split at hfault
    · cases hfault
    · cases hreply : e.offer d t with
      | mk e' outcome consulted =>
        rw [hreply] at hoffer hfault
        cases outcome with
        | error =>
          cases hfault
          apply h.faultOfTurn_offer hends hts.1
          rw [hreply]
        | ok answer => apply ih hoffer hts.2 hfault

theorem Reachable.faultOfTurn_finish (h : e.Reachable d cap ts)
    (hfault : (e.finish d).outcome = .error fault) :
  FaultOfTurn d cap ts fault
  := by
  have hfault := Grammar.eq_error_of_map_eq_error hfault
  rw [Engine.offerEnd] at hfault
  split at hfault
  · next hrunning =>
    apply h.faultOfTurn_drive hends hrunning _ hfault
    rintro _ ⟨⟩
  · cases hfault

theorem faultOfTurn_parse (hts : ∀ t ∈ tokens, t ∈ ts)
    (hfault : (d.parse tokens cap).outcome = .error fault) :
  FaultOfTurn d cap ts fault
  := by
  have hnew : (Engine.new d cap).Reachable d cap ts := .new
  have hread := hnew.offerAll hts
  rw [outcome_parse, readAll] at hfault
  cases hreply : (Engine.new d cap).offerAll d tokens with
  | mk e outcome consulted =>
    rw [hreply] at hread hfault
    cases outcome with
    | error =>
      cases hfault
      apply hnew.faultOfTurn_offerAll hends hts
      rw [hreply]
    | ok answer => apply hread.faultOfTurn_finish hends hfault

end FaultOfTurn

end CanonicalLR.Engine
