import CanonicalLR.Proofs.Parse.Termination

/-!
# Moves of the engine

An engine *moves* (`Engine.Moves`) when it reduces and when it shifts a token of the input.  A move
does not change what comes of the input that is left (`IsMade.readAll_eq_of_moves`), so an engine
that moves over the whole input to a state in which it accepts has parsed it
(`Engine.readAll_eq_of_accept`).
-/

namespace CanonicalLR

namespace Engine

variable {σ ρ : Type} {d : Definition σ ρ} {e e₁ e₂ : Engine σ} {t : Token}
  {lookahead : Option Token} {input input₁ input₂ : List Token} {s exposed target : σ} {rule : ρ}
  {children : List Node} {states states' : List σ} {nodes nodes' : List Node} {x : Node}

/-! ### Higher stacks -/

/-- The engine with further states and nodes on its stacks. -/
def extend (e : Engine σ) (states : List σ) (nodes : List Node) : Engine σ :=
  { e with states := states ++ e.states, nodes := nodes ++ e.nodes }

@[simp]
theorem extend_extend :
  (e.extend states nodes).extend states' nodes' = e.extend (states' ++ states) (nodes' ++ nodes)
  := by
  simp only [extend, List.append_assoc]

/-- When as much is taken from the stacks as was put there, the engine is as before. -/
theorem unwind_extend (hstates : states.length = (d.production rule).arity)
    (hnodes : nodes.length = (d.production rule).arity) :
  (e.extend states nodes).unwind d rule = e
  := by
  simp only [unwind, extend, ← hstates, List.drop_left]
  rw [hstates, ← hnodes, List.drop_left]

/-! ### What a turn does -/

theorem advance_shift (hs : e.states.head? = some s)
    (haction : d.action s (some t.name) = some (.shift target)) :
  (e.advance d (some t)).outcome = .settled ∧
    (e.advance d (some t)).engine = e.extend [target] [.token t]
  := by
  obtain ⟨states, nodes, complaints, status, cap⟩ := e
  obtain ⟨rest, rfl⟩ := List.head?_eq_some_iff.mp hs
  simp only [advance, Option.map_some, haction, true_and]
  rfl

theorem advance_accept (hs : e.states.head? = some s)
    (haction : d.action s none = some .accept) (hnodes : e.nodes = [x]) :
  (e.advance d none).outcome = .settled ∧
    (e.advance d none).engine = { e with status := .accepted }
  := by
  obtain ⟨states, nodes, complaints, status, cap⟩ := e
  obtain ⟨rest, rfl⟩ := List.head?_eq_some_iff.mp hs
  change nodes = [x] at hnodes
  subst hnodes
  simp only [advance, Option.map_none, haction]
  constructor <;> rfl

theorem advance_reduce (hs : e.states.head? = some s)
    (haction : d.action s (lookahead.map (·.name)) = some (.reduce rule))
    (hsupports : e.Supports d rule) (harrange : e.arrangement d rule = .ok children)
    (hexposed : (e.unwind d rule).states.head? = some exposed)
    (hgoto : d.goto exposed rule = some target) :
  (e.advance d lookahead).outcome = .reduced ∧ (e.advance d lookahead).engine =
    (e.unwind d rule).extend [target] [.reduction (d.production rule).left children]
  := by
  have hguard : ¬ (e.nodes.length < (d.production rule).arity ∨
      e.states.length ≤ (d.production rule).arity) := by
    rw [not_or, Nat.not_lt, Nat.not_le]
    apply hsupports
  have hreduce : (e.reduce d rule).outcome = .reduced ∧ (e.reduce d rule).engine =
      (e.unwind d rule).extend [target] [.reduction (d.production rule).left children] := by
    obtain ⟨below, hbelow⟩ := List.head?_eq_some_iff.mp hexposed
    change e.states.drop (d.production rule).arity = exposed :: below at hbelow
    rw [arrangement] at harrange
    rw [Engine.reduce, if_neg hguard]
    simp only [harrange, hbelow, hgoto, unwind, true_and]
    rfl
  obtain ⟨states, nodes, complaints, status, cap⟩ := e
  obtain ⟨rest, rfl⟩ := List.head?_eq_some_iff.mp hs
  simp only [advance, haction]
  apply hreduce

/-! ### Moves -/

/-- The engine moves from one state of itself and of the input to another by reductions and shifts,
without a complaint. -/
inductive Moves (d : Definition σ ρ) :
    Engine σ → List Token → Engine σ → List Token → Prop where
  | refl {e : Engine σ} {input : List Token} : Moves d e input e input
  | reduce {e e' : Engine σ} {input input' : List Token} :
      (e.advance d input.head?).outcome = .reduced →
      Moves d (e.advance d input.head?).engine input e' input' → Moves d e input e' input'
  | shift {e e' : Engine σ} {s target : σ} {t : Token} {input input' : List Token} :
      e.states.head? = some s → d.action s (some t.name) = some (.shift target) →
      Moves d (e.extend [target] [.token t]) input e' input' → Moves d e (t :: input) e' input'

theorem Moves.trans (h : e.Moves d input e₁ input₁) (h' : e₁.Moves d input₁ e₂ input₂) :
  e.Moves d input e₂ input₂
  := by
  induction h with
  | refl => apply h'
  | reduce hreduced _ ih => apply Moves.reduce hreduced (ih h')
  | shift hs haction _ ih => apply Moves.shift hs haction (ih h')

/-- A running engine that accepts the end of the input with one tree on the stack returns it. -/
theorem readAll_eq_of_accept (he : e.status = .running) (hs : e.states.head? = some s)
    (haction : d.action s none = some .accept) (hnodes : e.nodes = [x])
    (hnone : e.complaints = []) :
  e.readAll d [] = .ok ⟨some x, []⟩
  := by
  obtain ⟨hsettled, hengine⟩ := advance_accept hs haction hnodes
  obtain ⟨hok, hend⟩ := driveFor_of_settled hsettled
  rw [readAll_nil, outcome_finish he, drive, hok, hend, hengine]
  simp only [Except.map, Engine.result, isAccepted, hnodes, hnone]
  rfl

end Engine

namespace Parser.IsMade

open Engine

variable {p : Parser} {policy : Policy} {e e' : Engine StateId} {input input' : List Token}

/-- After a reduction the same comes of the input. -/
theorem readAll_eq_of_reduced (hp : p.IsMade policy) (he : e.status = .running)
    (h : (e.advance p.definition input.head?).outcome = .reduced) :
  e.readAll p.definition input =
    (e.advance p.definition input.head?).engine.readAll p.definition input
  := by
  obtain ⟨houtcome, hengine⟩ := hp.drive_eq_of_reduced h
  have he' := (status_of_reduced h).trans he
  cases input with
  | nil =>
    rw [List.head?_nil] at houtcome hengine he' ⊢
    rw [readAll_nil, readAll_nil, outcome_finish he, outcome_finish he', houtcome, hengine]
  | cons t input =>
    rw [List.head?_cons] at houtcome hengine he' ⊢
    rw [readAll_cons he, readAll_cons he', houtcome, hengine]

/-- Moves do not change what comes of the input. -/
theorem readAll_eq_of_moves (hp : p.IsMade policy) (he : e.status = .running)
    (h : e.Moves p.definition input e' input') :
  e'.status = .running ∧ e.readAll p.definition input = e'.readAll p.definition input'
  := by
  induction h with
  | refl => use he
  | reduce hreduced _ ih =>
    obtain ⟨he', hrest⟩ := ih ((status_of_reduced hreduced).trans he)
    use he'
    rw [hp.readAll_eq_of_reduced he hreduced, hrest]
  | shift hs haction _ ih =>
    obtain ⟨he', hrest⟩ := ih he
    use he'
    obtain ⟨hsettled, hengine⟩ := advance_shift hs haction
    obtain ⟨hok, hend⟩ := driveFor_of_settled hsettled
    rw [readAll_cons he, drive, hok, hend, hengine, hrest]

end Parser.IsMade

end CanonicalLR
