import CanonicalLR.Proofs.Grammar.Built
import CanonicalLR.Proofs.Table.Expectations
import CanonicalLR.Proofs.Table.Replays

/-!
# Endless reductions are found, and no others

A reduction is said by the actions of the table (`Reduces`), and a transition is *endless* on a token if
there is a sequence of reductions that goes on for ever and never takes away the state that the
transition started from (`Endless`).

A replay without a bound (`Replays`) has at most one answer.  It has one, that of the replay with a
bound, since reductions that end do so before the bound is met (`replays_replay`).  So a table can be
built exactly if no transition is endless (`replays_exact`).
-/

namespace CanonicalLR.ParseTable

variable {t : ParseTable} {n : TokenId} {origin target : StateId} {stack stack' : List StateId}
  {earlier met : List (List StateId)} {answer answer' : Option (List (List StateId))} {bound k : Nat}

/-! ### Endless transitions -/

/-- As the state on top of the stack says on the token, as many states are taken away as the rule has
symbols, and a transition is made on the term of the rule from the state that is on top then. -/
inductive Reduces (t : ParseTable) (n : TokenId) : List StateId → List StateId → Prop where
  | intro {top exposed target : StateId} {taken below : List StateId} {r : Rule} :
      (taken ++ exposed :: below).head? = some top → t.action? top (.token n) = some (.reduce r) →
        taken.length = r.arity → t.action? exposed (.term r.owner) = some (.goto target) →
        Reduces t n (taken ++ exposed :: below) (target :: exposed :: below)

/-- After the transition from `origin` to `target` the reductions on the token go on for ever, and
`origin` stays at the bottom of the stack. -/
def Endless (t : ParseTable) (n : TokenId) (origin target : StateId) : Prop :=
  ∃ run : Nat → List StateId, run 0 = [target, origin] ∧
    ∀ k, t.Reduces n (run k) (run (k + 1)) ∧ (run k).getLast? = some origin

theorem reduces_iff :
  t.Reduces n stack stack' ↔ t.reduceStates n stack = some stack'
  := by
  rw [reduceStates_eq_some_iff]
  constructor
  · rintro @⟨top, exposed, target, taken, below, r, htop, hr, hlength, hgoto⟩
    use top, r, exposed, below, target, htop, hr
    rw [← hlength, List.drop_left]
    use rfl, hgoto
  · rintro ⟨top, r, exposed, below, target, htop, hr, hdrop, hgoto, rfl⟩
    have hstack := List.take_append_drop r.arity stack
    rw [hdrop] at hstack
    rw [← hstack] at htop ⊢
    apply Reduces.intro htop hr _ hgoto
    apply List.length_take_of_le
    rw [← Nat.not_lt]
    intro hlt
    rw [List.drop_eq_nil_iff.mpr (Nat.le_of_lt hlt)] at hdrop
    cases hdrop

/-- A reduction leaves the state at the bottom. -/
theorem Reduces.getLast?_eq (h : t.Reduces n stack stack') :
  stack'.getLast? = stack.getLast?
  := by
  obtain ⟨-, -, -, -⟩ := h
  rw [List.getLast?_cons_cons, List.getLast?_append_of_ne_nil _ (List.cons_ne_nil _ _)]

/-- A transition is endless exactly if there are runs of any length. -/
theorem endless_iff :
  t.Endless n origin target ↔ ∀ k, (t.reductions n k [target, origin]).isSome
  := by
  constructor
  · rintro ⟨run, hfirst, hrun⟩ k
    have hall : t.reductions n k [target, origin] = some (run k) := by
      induction k with
      | zero => rw [hfirst, reductions]
      | succ k ih => rw [reductions_succ, ih, Option.bind_some, reduces_iff.mp (hrun k).1]
    apply Option.isSome_of_eq_some hall
  · intro h
    choose run hrun using fun k => Option.isSome_iff_exists.mp (h k)
    have hfirst : run 0 = [target, origin] := (Option.some.inj (hrun 0)).symm
    have hstep (k : Nat) : t.Reduces n (run k) (run (k + 1)) := by
      have hnext := hrun (k + 1)
      rw [reductions_succ, hrun k, Option.bind_some] at hnext
      apply reduces_iff.mpr hnext
    use run, hfirst
    intro k
    use hstep k
    induction k with
    | zero =>
      rw [hfirst]
      rfl
    | succ k ih => rw [(hstep k).getLast?_eq, ih]

/-! ### Replays without a bound -/

/-- The replay of the reductions on the token, for as long as they go on: it reports a stack that was met
before or that is too high, or it ends. -/
inductive Replays (t : ParseTable) (n : TokenId) :
    List (List StateId) → List StateId → Option (List (List StateId)) → Prop where
  | report {earlier : List (List StateId)} {stack : List StateId} :
      stack ∈ earlier ∨ t.rows.size + 2 < stack.length →
        Replays t n earlier stack (some (stack :: earlier))
  | finish {earlier : List (List StateId)} {stack : List StateId} :
      ¬ (stack ∈ earlier ∨ t.rows.size + 2 < stack.length) → (∀ next, ¬ t.Reduces n stack next) →
        Replays t n earlier stack none
  | reduce {earlier : List (List StateId)} {stack next : List StateId}
      {answer : Option (List (List StateId))} :
      ¬ (stack ∈ earlier ∨ t.rows.size + 2 < stack.length) → t.Reduces n stack next →
        Replays t n (stack :: earlier) next answer → Replays t n earlier stack answer

/-- A replay has one answer. -/
theorem Replays.unique (h : t.Replays n earlier stack answer) (h' : t.Replays n earlier stack answer') :
  answer = answer'
  := by
  induction h with
  | report hreport =>
    cases h' with
    | report => rfl
    | finish hnew => apply absurd hreport hnew
    | reduce hnew => apply absurd hreport hnew
  | finish hnew hstuck =>
    cases h' with
    | report hreport => apply absurd hreport hnew
    | finish => rfl
    | reduce _ hnext => apply absurd hnext (hstuck _)
  | reduce hnew hnext _ ih =>
    cases h' with
    | report hreport => apply absurd hreport hnew
    | finish _ hstuck => apply absurd hnext (hstuck _)
    | reduce _ hnext' hrest =>
      obtain rfl := Option.some.inj ((reduces_iff.mp hnext).symm.trans (reduces_iff.mp hnext'))
      apply ih hrest

/-- What a replay with a bound reports is the answer of the replay without a bound. -/
theorem replays_of_replay_eq_some (h : t.replay n bound earlier stack = some met) :
  t.Replays n earlier stack (some met)
  := by
  induction bound generalizing earlier stack with
  | zero => cases h
  | succ bound ih =>
    rw [replay] at h
    simp only [Bool.or_eq_true, decide_eq_true_eq] at h
    split at h
    · next hreport =>
      cases h
      exact .report hreport
    · next hnew =>
      obtain ⟨next, hnext, hrest⟩ := Option.bind_eq_some_iff.mp h
      exact .reduce hnew (reduces_iff.mpr hnext) (ih hrest)

/-- If the reductions end before the bound is met, then the replay without a bound ends as well. -/
theorem replays_of_replay_eq_none (h : t.replay n bound earlier stack = none)
    (hend : t.reductions n k stack = none) (hk : k ≤ bound) :
  t.Replays n earlier stack none
  := by
  induction k generalizing bound earlier stack with
  | zero => cases hend
  | succ k ih =>
    obtain ⟨bound, rfl⟩ := Nat.exists_eq_succ_of_ne_zero (Nat.ne_of_gt (Nat.zero_lt_of_lt hk))
    rw [replay] at h
    simp only [Bool.or_eq_true, decide_eq_true_eq] at h
    split at h
    · cases h
    · next hnew =>
      rw [reductions] at hend
      cases hnext : t.reduceStates n stack with
      | none =>
        apply Replays.finish hnew
        intro next hreduces
        rw [reduces_iff, hnext] at hreduces
        cases hreduces
      | some next =>
        rw [hnext, Option.bind_some] at h hend
        exact .reduce hnew (reduces_iff.mpr hnext) (ih h hend (Nat.le_of_succ_le_succ hk))

/-- The replay of a transition has an answer, and does not meet its bound. -/
theorem replays_replay (ht : t.TargetsBounded) (htarget : target < t.rows.size) :
  t.Replays n [] [target, origin] (t.replay n t.replayBound [] [target, origin])
  := by
  cases hreplay : t.replay n t.replayBound [] [target, origin] with
  | some met => apply replays_of_replay_eq_some hreplay
  | none =>
    apply replays_of_replay_eq_none hreplay (reductions_eq_none_of_replay ht htarget hreplay)
    apply Nat.le_of_lt t.pow_lt_replayBound

/-! ### The check of a table -/

variable {g : AugmentedGrammar} {m : Automaton} {policy : Policy}

/-- No transition is found after which reductions never end exactly if no transition is endless. -/
theorem IsFilledOf.gotoLoop?_eq_none_iff (h : IsFilledOf g m policy t) (ht : t.TargetsBounded) :
  t.gotoLoop? = none ↔ ∀ origin y target n, t.action? origin (.term y) = some (.goto target) →
    ¬ t.Endless n origin target
  := by
  constructor
  · intro hnone origin y target n hgoto hendless
    have hsome := endless_iff.mp hendless ((t.rows.size + 1) ^ (t.rows.size + 1))
    rw [reductions_eq_none_of_transition ht hnone hgoto] at hsome
    cases hsome
  · intro hfinite
    rw [gotoLoop?, List.findSome?_eq_none_iff]
    rintro ⟨row, origin⟩ hrow
    rw [List.findSome?_eq_none_iff]
    intro cell hcell
    split
    · next y target =>
      have hgoto : t.action? origin (.term y) = some (.goto target) := by
        rw [← h.mem_row_iff, ParseTable.row, ← Array.getElem?_toList,
          List.mem_zipIdx_iff_getElem?.mp hrow]
        apply hcell
      rw [Option.map_eq_none_iff, List.findSome?_eq_none_iff]
      intro n _
      rw [endless?, Option.map_eq_none_iff, ← Option.not_isSome_iff_eq_none,
        replay_isSome_iff ht (ht origin _ target hgoto), ← endless_iff]
      apply hfinite origin y target n hgoto
    · rfl

/-- Whatever the policy by which the rows are filled, the replay of a transition has one answer, that of
the replay with a bound, and it reports that reductions never end exactly if the transition is endless.
So a table is built of the rows exactly if no transition is endless. -/
theorem replays_exact {h : Grammar} (hh : h.Built) (ha : h.augment = .ok g)
    (hrows : fillRows g policy 0 (Automaton.build g).states = .ok t.rows.toList)
    (heof : t.eof = g.eof) :
  (∀ origin y target n, t.action? origin (.term y) = some (.goto target) →
    (∀ answer, t.Replays n [] [target, origin] answer ↔
      answer = t.replay n t.replayBound [] [target, origin]) ∧
    ((t.endless? t.replayBound origin target n).isSome ↔ t.Endless n origin target)) ∧
  (build g (Automaton.build g) policy = .ok t ↔
    ∀ origin y target n, t.action? origin (.term y) = some (.goto target) →
      ¬ t.Endless n origin target)
  := by
  have hg : g.WellFormed := (hh.wellFormed.augment ha).1
  have hfilled : IsFilledOf g (Automaton.build g) policy t := by
    have hfilled := isFilledOf_of_fillRows hrows
    rw [← heof] at hfilled
    apply hfilled
  have ht := hfilled.targetsBounded hg
  constructor
  · intro origin y target n hgoto
    have htarget := ht origin _ target hgoto
    constructor
    · intro answer
      constructor
      · intro hanswer
        apply hanswer.unique (replays_replay ht htarget)
      · rintro rfl
        apply replays_replay ht htarget
    · rw [endless?, Option.isSome_map, replay_isSome_iff ht htarget, endless_iff]
  · rw [← hfilled.gotoLoop?_eq_none_iff ht]
    constructor
    · intro hbuild
      apply (isTableOf_build hbuild).gotoLoop?_eq
    · intro hnone
      rw [build, hrows, ← heof]
      simp only [bind, Except.bind]
      rw [show (⟨t.rows.toList.toArray, t.eof⟩ : ParseTable) = t from rfl, hnone]
      rfl

/-- A grammar with an empty term in front of what is still to be read. -/
def tower : Grammar :=
  ((Grammar.ofProductions "S" [⟨"S", [⟨.term, "B"⟩, ⟨.term, "S"⟩]⟩, ⟨"S", [⟨.token, "x"⟩]⟩,
    ⟨"B", []⟩]).toOption).getD .empty

/-- If reductions are preferred, then empty terms are piled up without end in front of a token. -/
theorem replays_exact_tower :
  ∃ a t, tower.augment = .ok a ∧
    fillRows a .preferReduce 0 (Automaton.build a).states = .ok t.rows.toList ∧ t.eof = a.eof ∧
    t.action? 0 (.term 1) = some (.goto 1) ∧ t.Endless 0 0 1 ∧
    build a (Automaton.build a) .preferReduce ≠ .ok t
  := by
  have hsome : (tower.augment.toOption.bind fun a =>
      (fillRows a .preferReduce 0 (Automaton.build a).states).toOption.map fun rows =>
        let t : ParseTable := ⟨rows.toArray, a.eof⟩
        (t.action? 0 (.term 1), (t.endless? t.replayBound 0 1 0).isSome)) =
      some (some (.goto 1), true) := by decide +kernel
  obtain ⟨a, ha, hsome⟩ := Option.bind_eq_some_iff.mp hsome
  obtain ⟨rows, hrows, hsome⟩ := Option.map_eq_some_iff.mp hsome
  obtain ⟨hgoto, hreported⟩ := Prod.mk.inj hsome
  have ha := Grammar.eq_ok_of_toOption_eq_some ha
  have hrows := Grammar.eq_ok_of_toOption_eq_some hrows
  obtain ⟨hreplays, hbuild⟩ :=
    replays_exact (t := ⟨rows.toArray, a.eof⟩) Grammar.built_getD_ofProductions ha hrows rfl
  have hendless := (hreplays 0 1 1 0 hgoto).2.mp hreported
  use a, ⟨rows.toArray, a.eof⟩, ha, hrows, rfl, hgoto, hendless
  intro hok
  apply hbuild.mp hok 0 1 1 0 hgoto hendless

end CanonicalLR.ParseTable
