import CanonicalLR.Proofs.Table.Conflicts

/-!
# What conflicts come to

The actions that a state asks for on a token *contend* for its cell: to accept, then the reductions in
the order of their rules, then to shift (`State.contend_contenders`).  A policy sees no more than two
of them at a time, the one that the cell holds and the one that is written.  What is left in the end is
told by the whole list (`Policy.Settles`): one more action keeps this true (`Settles.concat`), and so
do all that are written (`Settles.settle`).

So the cells of a table are settled as the policy says (`settles_build`).  On a term nothing contends.
-/

namespace CanonicalLR

/-! ### Settled cells -/

/-- Of two actions for a token, the first one is written before the second one: to accept comes first,
then come the reductions in the order of their rules, and to shift comes last. -/
def Action.Precedes : Action → Action → Prop
  | .accept, .reduce _ => True
  | .accept, .shift _ => True
  | .reduce r, .reduce r' => r.id < r'.id
  | .reduce _, .shift _ => True
  | _, _ => False

theorem Action.ne_of_precedes {action action' : Action} (h : action.Precedes action') :
  action ≠ action'
  := by
  rintro rfl
  cases action with
  | reduce r => apply Nat.lt_irrefl r.id h
  | shift | goto | accept | error => apply h

namespace Policy

/-- The first one of the actions that has the property, or the first one of all if none has it. -/
def preferred (q : Action → Bool) (first : Action) (more : List Action) : Action :=
  ((first :: more).find? q).getD first

/-- What a cell holds when all contenders for it, which are given in their order, have been written. -/
def Settles (p : Policy) : List Action → Option Action → Prop
  | [], held => held = none
  | [action], held => held = some action
  | first :: second :: more, held =>
    match p with
    | fail => False
    | useFirst => held = some first
    | useLast => held = (first :: second :: more).getLast?
    | preferShift => held = some (preferred Action.isShift first (second :: more))
    | preferReduce => held = some (preferred Action.isReduce first (second :: more))
    | reject => ∃ message, held = some (.error message)

variable {p : Policy} {g : Grammar} {id : StateId} {x : Symbol} {q : Action → Bool}
  {first prior new resolved : Action} {more done actions : List Action} {held prior? : Option Action}

/-- One more action is preferred only if it has the property and no earlier one has it. -/
theorem preferred_concat :
  preferred q first (more ++ [new]) =
    if q new && !q (preferred q first more) then new else preferred q first more
  := by
  rw [preferred, preferred, ← List.cons_append, List.find?_append]
  cases hfind : (first :: more).find? q with
  | some action =>
    have haction := List.find?_some hfind
    simp [haction]
  | none =>
    have hfirst := List.find?_eq_none.mp hfind first List.mem_cons_self
    cases hnew : q new <;> simp [hfirst, hnew]

theorem preferred_pair :
  preferred q first [new] = if q new && !q first then new else first
  := by
  have hfirst : preferred q first [] = first := by
    rw [preferred]
    cases hq : q first <;> simp [hq]
  have hpair : preferred q first ([] ++ [new]) = _ := preferred_concat
  rw [hfirst] at hpair
  apply hpair

/-- The preferred action is one of those that are given. -/
theorem preferred_mem :
  preferred q first more ∈ first :: more
  := by
  rw [preferred]
  cases hfind : (first :: more).find? q with
  | some action => apply List.mem_of_find?_eq_some hfind
  | none => apply List.mem_cons_self

/-- A cell is empty exactly if there was no contender. -/
theorem Settles.eq_none_iff (h : p.Settles done held) :
  held = none ↔ done = []
  := by
  match done, p with
  | [], _ =>
    obtain rfl : held = none := h
    simp
  | [action], _ =>
    obtain rfl : held = some action := h
    simp
  | _ :: _ :: _, .fail => cases h
  | _ :: _ :: _, .useFirst | _ :: _ :: _, .useLast | _ :: _ :: _, .preferShift
  | _ :: _ :: _, .preferReduce =>
    rw [show held = _ from h]
    simp
  | _ :: _ :: _, .reject =>
    obtain ⟨message, rfl⟩ := h
    simp

/-- A cell holds one of its contenders, or the token is refused. -/
theorem Settles.mem_or_isError (h : p.Settles done (some prior)) :
  prior ∈ done ∨ prior.isError = true
  := by
  match done, p with
  | [], _ => cases h
  | [action], _ =>
    cases h
    left
    apply List.mem_singleton_self
  | _ :: _ :: _, .fail => cases h
  | _ :: _ :: _, .useFirst =>
    cases h
    left
    apply List.mem_cons_self
  | _ :: _ :: _, .useLast =>
    left
    apply List.mem_of_getLast? (Eq.symm h)
  | _ :: _ :: _, .preferShift | _ :: _ :: _, .preferReduce =>
    cases h
    left
    apply preferred_mem
  | _ :: _ :: _, .reject =>
    obtain ⟨message, h⟩ := h
    cases h
    right
    rfl

/-- A conflict with one more contender leaves the cell settled. -/
theorem Settles.concat (h : p.Settles done (some prior))
    (hresolve : p.resolve g ⟨id, x, prior, new⟩ = .ok resolved) :
  p.Settles (done ++ [new]) (some resolved)
  := by
  match done, p with
  | [], _ => cases h
  | _, .fail => cases hresolve
  | [_], .useFirst | [_], .useLast =>
    cases h
    cases hresolve
    rfl
  | [_], .preferShift | [_], .preferReduce =>
    cases h
    cases hresolve
    apply congrArg some preferred_pair.symm
  | [_], .reject =>
    cases hresolve
    exact ⟨_, rfl⟩
  | _ :: _ :: _, .useFirst =>
    cases h
    cases hresolve
    rfl
  | first :: second :: more, .useLast =>
    cases hresolve
    exact (List.getLast?_concat (l := first :: second :: more)).symm
  | _ :: _ :: _, .preferShift | _ :: _ :: _, .preferReduce =>
    cases h
    cases hresolve
    apply congrArg some preferred_concat.symm
  | _ :: _ :: _, .reject =>
    cases hresolve
    exact ⟨_, rfl⟩

/-- To write an action that did not contend before leaves the cell settled. -/
theorem Settles.meet (h : p.Settles done held) (hmeet : Row.meet g p id x held new = .ok resolved)
    (hnew : new ∉ done) (herror : new.isError = false) :
  p.Settles (done ++ [new]) (some resolved)
  := by
  rcases Row.meet_cases hmeet with ⟨rfl, rfl⟩ | ⟨rfl, rfl⟩ | ⟨prior, rfl, -, hresolve⟩
  · obtain rfl := h.eq_none_iff.mp rfl
    rfl
  · rcases h.mem_or_isError with hmem | hrefused
    · apply absurd hmem hnew
    · rw [herror] at hrefused
      cases hrefused
  · apply h.concat hresolve

/-- To write different actions leaves the cell settled. -/
theorem Settles.settle (h : p.Settles done prior?) (hsettle : Row.settle g p id x prior? actions = .ok held)
    (hnodup : (done ++ actions).Nodup) (herror : ∀ action ∈ actions, action.isError = false) :
  p.Settles (done ++ actions) held
  := by
  induction actions generalizing done prior? with
  | nil =>
    cases hsettle
    rwa [List.append_nil]
  | cons new actions ih =>
    obtain ⟨action, hmeet, hsettle⟩ := Grammar.exists_of_bind_eq_ok hsettle
    rw [List.append_cons] at hnodup ⊢
    have hnew : new ∉ done := by
      have hdisjoint := (List.nodup_append.mp (List.nodup_append.mp hnodup).1).2.2
      intro hmem
      apply hdisjoint new hmem new (List.mem_singleton_self new) rfl
    apply ih _ hsettle hnodup fun action ha => herror action (List.mem_cons_of_mem _ ha)
    apply h.meet hmeet hnew (herror new List.mem_cons_self)

end Policy

/-! ### Contenders -/

namespace State

open Automaton

variable {g : AugmentedGrammar} {s : State} {n : TokenId}

/-- The actions that contend for the cell of a token, in the order in which they are written. -/
def contenders (eof : TokenId) (s : State) (n : TokenId) : List Action :=
  Row.actionsFor (.token n) (s.candidates eof)

/-- The list has the actions that the state asks for on the token, each one before those that it
precedes. -/
structure Contend (eof : TokenId) (s : State) (n : TokenId) (contenders : List Action) : Prop where
  asks_iff : ∀ action, s.Asks eof n action ↔ action ∈ contenders
  ordered : contenders.Pairwise Action.Precedes

/-- Of two complete rules of a state, the one that comes first has the smaller number. -/
theorem id_lt_of_order (hg : g.grammar.WellFormed) (hs : s.items.Proper g.grammar)
    {e f : ItemSet.Entry} (he : e ∈ s.items.entries) (hf : f ∈ s.items.entries)
    (hcomplete : e.core.isComplete = true) (horder : e.core.order f.core = .lt) :
  e.core.rule.id < f.core.rule.id
  := by
  apply (DottedRule.order_eq_lt_iff.mp horder).resolve_right
  rintro ⟨hid, hdot⟩
  have hrule := hg.eq_of_id_eq (hs.rule_mem e he) (hs.rule_mem f hf) hid
  rw [DottedRule.isComplete, List.isEmpty_iff, DottedRule.rest, List.drop_eq_nil_iff] at hcomplete
  have hend := hs.dot_le f hf
  rw [← hrule, Rule.arity] at hend
  omega

/-- The reductions by one rule are on different tokens. -/
theorem pairwise_reductions (e : ItemSet.Entry) :
  (reductions e).Pairwise fun c c' => c.1 ≠ c'.1
  := by
  rw [reductions]
  split
  · rw [List.pairwise_map]
    apply (IndexSet.pairwise_toList _).imp
    rintro n n' hlt heq
    cases heq
    apply Nat.lt_irrefl n hlt
  · exact .nil

/-- To follow a transition on a token is to shift it. -/
theorem snd_follow {t : Transition} (h : .token n = (follow t).1) :
  (follow t).2 = .shift t.target
  := by
  apply if_pos
  rw [← show .token n = t.symbol from h]

/-- The candidates of a state for a symbol are in their order. -/
theorem pairwise_candidates (hg : g.WellFormed) (hs : s ∈ (build g).states) :
  (s.candidates g.eof).Pairwise fun c c' => c.1 = c'.1 → c.2.Precedes c'.2
  := by
  have hproper := proper_items hg hs
  rw [candidates, List.pairwise_append, List.pairwise_append, List.pairwise_flatMap, List.pairwise_map]
  refine ⟨⟨?_, ⟨?_, ?_⟩, ?_⟩, ?_, ?_⟩
  · split <;> simp
  · intro e _
    apply (pairwise_reductions e).imp
    intro c c' hne heq
    apply absurd heq hne
  · -- Two complete rules are in the order of the entries, which is that of the rules.
    apply (List.Pairwise.and_mem.mp hproper.increasing).imp
    rintro e f ⟨he, hf, horder⟩ c hc c' hc' -
    obtain ⟨hcomplete, _, -, rfl⟩ := mem_reductions.mp hc
    obtain ⟨-, _, -, rfl⟩ := mem_reductions.mp hc'
    apply id_lt_of_order hg.grammar hproper he hf hcomplete horder
  · rintro c hc c' hc' -
    obtain ⟨-, hc⟩ := List.mem_ite_nil_right.mp hc
    obtain ⟨e, -, he⟩ := List.mem_flatMap.mp hc'
    obtain ⟨-, _, -, rfl⟩ := mem_reductions.mp he
    rw [List.mem_singleton.mp hc]
    trivial
  · apply (List.pairwise_map.mp (nodup_symbols hg hs)).imp
    intro t t' hne heq
    apply absurd heq hne
  · intro c hc c' hc' heq
    obtain ⟨t, -, rfl⟩ := List.mem_map.mp hc'
    rcases List.mem_append.mp hc with hc | hc
    · obtain ⟨-, hc⟩ := List.mem_ite_nil_right.mp hc
      rw [List.mem_singleton.mp hc] at heq ⊢
      rw [snd_follow heq]
      trivial
    · obtain ⟨e, -, he⟩ := List.mem_flatMap.mp hc
      obtain ⟨-, n, -, rfl⟩ := mem_reductions.mp he
      rw [snd_follow heq]
      trivial

/-- The actions that are written for a symbol are in their order. -/
theorem pairwise_actionsFor (hg : g.WellFormed) (hs : s ∈ (build g).states) (x : Symbol) :
  (Row.actionsFor x (s.candidates g.eof)).Pairwise Action.Precedes
  := by
  rw [Row.actionsFor, List.pairwise_filterMap]
  apply (pairwise_candidates hg hs).imp
  intro c c' h action hc action' hc'
  simp only [Option.ite_none_right_eq_some, Option.some.injEq] at hc hc'
  obtain ⟨hx, rfl⟩ := hc
  obtain ⟨hx', rfl⟩ := hc'
  apply h (hx.trans hx'.symm)

/-- The contenders are what the state asks for, in the order in which they are written. -/
theorem contend_contenders (hg : g.WellFormed) (hs : s ∈ (build g).states) :
  s.Contend g.eof n (s.contenders g.eof n)
  := by
  constructor
  · intro action
    rw [contenders, Row.mem_actionsFor, State.asks_iff (proper_items hg hs)]
  · apply pairwise_actionsFor hg hs

end State

namespace ParseTable

variable {g : AugmentedGrammar} {policy : Policy} {t : ParseTable} {id : StateId} {state : State}
  {n : TokenId} {x : Symbol} {action : Action}

/-- What the cells of a table hold is settled by what was written for their symbols. -/
theorem IsFilledOf.settles (hg : g.WellFormed) (h : IsFilledOf g (Automaton.build g) policy t)
    (hs : (Automaton.build g).states[id]? = some state) (x : Symbol) :
  policy.Settles (Row.actionsFor x (state.candidates g.eof)) (t.action? id x)
  := by
  have hordered := State.pairwise_actionsFor hg (List.mem_of_getElem? hs) x
  have hempty : policy.Settles [] none := rfl
  apply hempty.settle (Row.settle_of_foldlM_write (h.fillRow_eq id state hs) x)
  · apply hordered.imp Action.ne_of_precedes
  · intro action haction
    apply State.isError_of_mem_candidates (Row.mem_actionsFor.mp haction)

/-- On a symbol that is no token, a state follows its transition. -/
theorem IsFilledOf.action?_eq_some_iff_of_kind (hg : g.WellFormed)
    (h : IsFilledOf g (Automaton.build g) policy t)
    (hs : (Automaton.build g).states[id]? = some state) (hx : x.kind ≠ .token) :
  t.action? id x = some action ↔ ∃ target, action = .goto target ∧ ⟨x, target⟩ ∈ state.transitions
  := by
  have hgoto (target : StateId) (ht : ⟨x, target⟩ ∈ state.transitions) :
      t.action? id x = some (.goto target) := by
    apply h.action?_of_unique hs (State.goto_mem_candidates.mpr ⟨ht, hx⟩)
    intro other hother
    obtain ⟨target', rfl, ht'⟩ := State.eq_goto_of_mem_candidates hx hother
    rw [Automaton.target_unique hg (List.mem_of_getElem? hs) ht ht']
  constructor
  · intro ha
    have hne : Row.actionsFor x (state.candidates g.eof) ≠ [] := by
      rw [ne_eq, ← (h.settles hg hs x).eq_none_iff, ha]
      apply Option.some_ne_none
    obtain ⟨other, hother⟩ := List.exists_mem_of_ne_nil _ hne
    obtain ⟨target, -, ht⟩ := State.eq_goto_of_mem_candidates hx (Row.mem_actionsFor.mp hother)
    use target, Option.some.inj (ha.symm.trans (hgoto target ht))
  · rintro ⟨target, rfl, ht⟩
    apply hgoto target ht

/-- A table has a row for each state.  The contenders for the cell of a token are what the state asks
for, in their order; the cell is filled exactly if there is one, and it holds what the policy makes of
all of them.  The cell of a term holds the transition of the state on the term, of which there is at
most one. -/
theorem settles_build {h : Grammar} (hh : h.Built) (ha : h.augment = .ok g)
    (ht : build g (Automaton.build g) policy = .ok t) :
  t.rows.size = (Automaton.build g).states.length ∧
    ∀ id state, (Automaton.build g).states[id]? = some state →
      (∀ n, state.Contend g.eof n (state.contenders g.eof n) ∧
        ((∃ action, t.action? id (.token n) = some action) ↔ ∃ action, state.Asks g.eof n action) ∧
        policy.Settles (state.contenders g.eof n) (t.action? id (.token n))) ∧
      (∀ y action, t.action? id (.term y) = some action ↔
        ∃ target, action = .goto target ∧ ⟨.term y, target⟩ ∈ state.transitions) ∧
      ∀ y target target', ⟨.term y, target⟩ ∈ state.transitions →
        ⟨.term y, target'⟩ ∈ state.transitions → target = target'
  := by
  have hg : g.WellFormed := (hh.wellFormed.augment ha).1
  have hfilled := (isTableOf_build ht).toIsFilledOf
  use hfilled.size_eq
  intro id state hs
  have hmem := List.mem_of_getElem? hs
  refine ⟨?_, ?_, ?_⟩
  · intro n
    have hcontend := State.contend_contenders (n := n) hg hmem
    have hsettles := hfilled.settles hg hs (.token n)
    refine ⟨hcontend, ?_, hsettles⟩
    simp only [hcontend.asks_iff]
    rw [← Option.ne_none_iff_exists', ne_eq, hsettles.eq_none_iff, State.contenders,
      List.eq_nil_iff_forall_not_mem, not_forall_not]
  · intro y action
    apply hfilled.action?_eq_some_iff_of_kind hg hs
    rintro ⟨⟩
  · intro y target target' ht ht'
    apply Automaton.target_unique hg hmem ht ht'

/-- A grammar with a state that asks to shift a token and to reduce on it by two rules. -/
def crowded : Grammar :=
  ((Grammar.ofProductions "S" [⟨"S", [⟨.term, "A"⟩, ⟨.token, "y"⟩]⟩,
    ⟨"S", [⟨.term, "B"⟩, ⟨.token, "y"⟩]⟩, ⟨"S", [⟨.token, "x"⟩, ⟨.token, "y"⟩]⟩,
    ⟨"A", [⟨.token, "x"⟩]⟩, ⟨"B", [⟨.token, "x"⟩]⟩]).toOption).getD .empty

/-- In the crowded grammar three actions contend for the cell of a token, and if conflicts are rejected
then the token is refused in the end. -/
theorem settles_build_crowded :
  ∃ a t state, crowded.augment = .ok a ∧ build a (Automaton.build a) .reject = .ok t ∧
    (Automaton.build a).states[3]? = some state ∧ (state.contenders a.eof 0).length = 3 ∧
    state.Contend a.eof 0 (state.contenders a.eof 0) ∧
    Policy.reject.Settles (state.contenders a.eof 0) (t.action? 3 (.token 0)) ∧
    (t.action? 3 (.token 0)).map Action.isError = some true
  := by
  have hsome : (crowded.augment.toOption.bind fun a =>
      (build a (Automaton.build a) .reject).toOption.bind fun t =>
        (Automaton.build a).states[3]?.map fun state =>
          ((state.contenders a.eof 0).length, (t.action? 3 (.token 0)).map Action.isError)) =
      some (3, some true) := by decide +kernel
  obtain ⟨a, ha, hsome⟩ := Option.bind_eq_some_iff.mp hsome
  obtain ⟨t, ht, hsome⟩ := Option.bind_eq_some_iff.mp hsome
  obtain ⟨state, hs, hsome⟩ := Option.map_eq_some_iff.mp hsome
  obtain ⟨hlength, herror⟩ := Prod.mk.inj hsome
  have ha := Grammar.eq_ok_of_toOption_eq_some ha
  have ht := Grammar.eq_ok_of_toOption_eq_some ht
  obtain ⟨hcontend, -, hsettles⟩ :=
    ((settles_build Grammar.built_getD_ofProductions ha ht).2 3 state hs).1 0
  use a, t, state, ha, ht, hs, hlength, hcontend, hsettles

end ParseTable

end CanonicalLR
