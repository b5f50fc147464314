import CanonicalLR.Proofs.Parse.Answers
import CanonicalLR.Proofs.Parse.Runs
import CanonicalLR.Proofs.Table.Reductions

/-!
# A parser does not reduce for ever

A reduction of an engine changes the stack of states as the table says (`IsMade.reduceStates_eq`).
As the table of a parser has no transition after which reductions never end, the lookahead is dealt
with, or there is another fault, before the limit for the number of turns is reached
(`IsMade.drive_ne_endless`).  So the limit can be forgotten: after a reduction, an engine goes on as
if it began there (`IsMade.drive_eq_of_reduced`), and the turns come to an end without a limit
(`Parser.reductions_end`).
-/

namespace CanonicalLR

open Engine

/-- What can go wrong when the nodes of a rule are arranged: there are too few of them, or one has
another label than it should. -/
theorem Engine.fault_of_arrange {production : Production} {right : List Label} {nodes : List Node}
    {σ : Type} {fault : Fault σ} (h : arrange production right nodes = .error fault) :
  (fault = .stackUnderflow production ∧ nodes.length < right.countP Label.isBasic) ∨
    ∃ l l', fault = .inconsistent production l l'
  := by
  induction right generalizing nodes with
  | nil => cases h
  | cons l right ih =>
    rw [arrange.eq_def] at h
    simp only at h
    split at h
    · next hprompt =>
      rw [List.countP_cons_of_neg (by simp [Label.isBasic, hprompt])]
      apply ih (Grammar.eq_error_of_map_eq_error h)
    · next hbasic =>
      rw [List.countP_cons_of_pos (by simp [Label.isBasic, hbasic])]
      split at h
      · cases h
        left
        use rfl, Nat.succ_pos _
      · next x nodes =>
        split at h
        · apply (ih (Grammar.eq_error_of_map_eq_error h)).imp_left
          rintro ⟨hfault, hlt⟩
          use hfault, Nat.succ_lt_succ hlt
        · cases h
          right
          use l, x.label

/-- If the stacks are high enough for a rule but its nodes cannot be arranged, then one of them has
another label than it should. -/
theorem Engine.Supports.inconsistent {σ ρ : Type} {d : Definition σ ρ} {e : Engine σ} {rule : ρ}
    {fault : Fault σ} (h : e.Supports d rule) (harrange : e.arrangement d rule = .error fault) :
  ∃ expected found, fault = .inconsistent (d.production rule) expected found
  := by
  apply (fault_of_arrange harrange).resolve_left
  rintro ⟨-, hlt⟩
  rw [List.length_reverse, List.length_take_of_le h.1] at hlt
  apply Nat.lt_irrefl _ hlt

/-- The fault of a turn is not that reductions never end. -/
theorem Engine.Turned.fault_ne_endless {σ ρ : Type} {d : Definition σ ρ} {e e' : Engine σ}
    {lookahead : Option Token} {fault : Fault σ} (h : e.Turned d lookahead e' (.failed fault)) :
  fault ≠ .endlessReductions
  := by
  rintro rfl
  cases h with
  | inconsistent _ _ hsupports harrange =>
    obtain ⟨_, _, h⟩ := hsupports.inconsistent harrange
    cases h

namespace Parser.IsMade

variable {p : Parser} {policy : Policy} {e e' : Engine StateId} {lookahead : Option Token}
  {turn : Turn StateId} {bound : Nat}

/-- The transitions of the table of a parser lead to its states. -/
theorem targetsBounded (hp : p.IsMade policy) :
  p.table.TargetsBounded
  := hp.isFilledOf.targetsBounded hp.grammar

/-- A reduction changes the stack of states as the table says. -/
theorem reduceStates_eq (hp : p.IsMade policy)
    (h : e.Turned p.definition lookahead e' .reduced) :
  ∃ n, p.column? (lookahead.map (·.name)) = some n ∧
    p.table.reduceStates n e.states = some e'.states
  := by
  cases h with
  | @reduce current exposed target r children hcurrent haction _ _ hexposed hgoto =>
    obtain ⟨n, _, _, hn, -, -, -, -, -, hreduce⟩ := hp.reduce_spec haction
    use n, hn
    obtain ⟨below, hbelow⟩ := List.head?_eq_some_iff.mp hexposed
    apply ParseTable.reduceStates_eq_some_iff.mpr
    use current, r, exposed, below, target, hcurrent, hreduce
    rw [hbelow, ← goto_eq_some_iff]
    rw [unwind, arity_production] at hbelow
    use hbelow, hgoto

/-- If the limit is reached, then as many reductions were possible. -/
theorem reductions_of_endless (hp : p.IsMade policy)
    (h : (e.driveFor p.definition lookahead bound).outcome = .error .endlessReductions) :
  bound = 0 ∨ ∃ n, p.column? (lookahead.map (·.name)) = some n ∧
    (p.table.reductions n bound e.states).isSome
  := by
  induction bound generalizing e with
  | zero =>
    left
    rfl
  | succ bound ih =>
    right
    have hturned := turned_advance p.definition e lookahead
    rw [driveFor] at h
    cases hadvance : e.advance p.definition lookahead with
    | mk e' turn consulted =>
      rw [hadvance] at hturned h
      cases turn with
      | settled => cases h
      | failed fault =>
        cases h
        apply absurd rfl hturned.fault_ne_endless
      | reduced =>
        obtain ⟨n, hn, hreduce⟩ := hp.reduceStates_eq hturned
        use n, hn
        rw [ParseTable.reductions, hreduce, Option.bind_some]
        rcases ih h with rfl | ⟨n', hn', hsome⟩
        · rfl
        · obtain rfl := Option.some.inj (hn.symm.trans hn')
          apply hsome

/-- The limit for the number of turns is never reached. -/
theorem drive_ne_endless (hp : p.IsMade policy) (e : Engine StateId)
    (lookahead : Option Token) :
  (e.drive p.definition lookahead).outcome ≠ .error .endlessReductions
  := by
  intro h
  rcases hp.reductions_of_endless h with hzero | ⟨n, -, hsome⟩
  · cases hzero
  · obtain ⟨stack, hstack⟩ := Option.isSome_iff_exists.mp hsome
    have hle := ParseTable.length_le_of_reductions hp.targetsBounded hp.table.gotoLoop?_eq hstack
    rw [hp.table.size_eq, Definition.reductionBound, Nat.pow_eq, Nat.succ_mul] at hle
    apply Nat.not_lt.mpr hle
    apply Nat.lt_succ_of_le
    apply Nat.le_add_right

/-- After a reduction, the engine goes on as if it began there. -/
theorem drive_eq_of_reduced (hp : p.IsMade policy)
    (h : (e.advance p.definition lookahead).outcome = .reduced) :
  (e.drive p.definition lookahead).outcome =
      ((e.advance p.definition lookahead).engine.drive p.definition lookahead).outcome ∧
    (e.drive p.definition lookahead).engine =
      ((e.advance p.definition lookahead).engine.drive p.definition lookahead).engine
  := by
  have hne := hp.drive_ne_endless e lookahead
  have hne' := hp.drive_ne_endless (e.advance p.definition lookahead).engine lookahead
  rw [drive] at hne hne' ⊢
  rw [(driveFor_of_reduced h).1] at hne ⊢
  rw [(driveFor_of_reduced h).2, driveFor_eq hne hne']
  constructor <;> rfl

/-- When an engine is driven, the turns come to an end. -/
theorem driven (hp : p.IsMade policy) (e : Engine StateId) (lookahead : Option Token) :
  e.Driven p.definition lookahead (e.drive p.definition lookahead).engine
    (e.drive p.definition lookahead).outcome
  := driven_driveFor (hp.drive_ne_endless e lookahead)

/-- There are no more reductions in a row than the limit allows for. -/
theorem length_le_of_run (hp : p.IsMade policy) {run : Nat → Engine StateId}
    (hrun : ∀ n < bound, (run n).Reduces p.definition lookahead (run (n + 1))) :
  bound ≤ p.definition.reductionBound (run 0).states.length
  := by
  apply Nat.le_of_not_lt
  intro hlt
  apply hp.drive_ne_endless (run 0) lookahead
  apply endless_of_run
  intro n hn
  apply hrun n (Nat.lt_of_lt_of_le hn hlt)

theorem offer_ne_endless (hp : p.IsMade policy) (e : Engine StateId) (t : Token) :
  (e.offer p.definition t).outcome ≠ .error .endlessReductions
  := by
  rw [offer]
  split
  · apply hp.drive_ne_endless
  · rintro ⟨⟩
  · rintro ⟨⟩

theorem finish_ne_endless (hp : p.IsMade policy) (e : Engine StateId) :
  (e.finish p.definition).outcome ≠ .error .endlessReductions
  := by
  intro h
  have h := Grammar.eq_error_of_map_eq_error h
  rw [offerEnd] at h
  split at h
  · apply hp.drive_ne_endless e none h
  · cases h

end Parser.IsMade

namespace Parser

/-- Whatever becomes of conflicts, and whatever is on the stacks of an engine, the number of reductions
in a row is bounded, so that the turns that deal with a token or with the end of the input come to an
end. -/
theorem reductions_end {g : Grammar} {settings : Settings} {p : Parser} (hg : g.Built)
    (hp : Parser.build settings g = .ok p) (e : Engine StateId) :
  (∀ lookahead : Option Token,
    (∀ (run : Nat → Engine StateId) (n : Nat), run 0 = e →
      (∀ i < n, (run i).Reduces p.definition lookahead (run (i + 1))) →
      n ≤ p.definition.reductionBound e.states.length) ∧
    e.Driven p.definition lookahead (e.drive p.definition lookahead).engine
      (e.drive p.definition lookahead).outcome) ∧
  (∀ t, (e.offer p.definition t).outcome ≠ .error .endlessReductions) ∧
  (e.finish p.definition).outcome ≠ .error .endlessReductions
  := by
  have hp := isMade_build hg.wellFormed hp
  constructor
  · intro lookahead
    constructor
    · rintro run n rfl hrun
      apply hp.length_le_of_run hrun
    · apply hp.driven
  · use hp.offer_ne_endless e, hp.finish_ne_endless e

/-- A grammar in which an empty term can be added to a sentence again and again. -/
def padded : Grammar :=
  ((Grammar.ofProductions "S" [⟨"S", [⟨.term, "S"⟩, ⟨.term, "A"⟩]⟩, ⟨"S", [⟨.token, "x"⟩]⟩,
    ⟨"A", []⟩]).toOption).getD .empty

theorem built_padded :
  padded.Built
  := Grammar.built_getD_ofProductions

/-- Where the end of the input is accepted rather than an empty term added, reductions end. -/
theorem reductions_end_padded :
  ∃ p, Parser.build ⟨.useFirst, false, false⟩ padded = .ok p ∧
    ∀ e : Engine StateId, (e.finish p.definition).outcome ≠ .error .endlessReductions
  := by
  have hbuild : ((Parser.build ⟨.useFirst, false, false⟩ padded).toOption).isSome := by
    decide +kernel
  obtain ⟨p, hp⟩ := Option.isSome_iff_exists.mp hbuild
  have hp := Grammar.eq_ok_of_toOption_eq_some hp
  use p, hp
  intro e
  apply (reductions_end built_padded hp e).2.2

end Parser

end CanonicalLR
