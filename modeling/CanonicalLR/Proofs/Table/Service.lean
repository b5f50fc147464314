import CanonicalLR.Proofs.Automaton.Continuations
import CanonicalLR.Proofs.Table.Cells

/-!
# A token that may come is read in the end

If a state asks for an action on a token, be it a reduction, then there is a way to reduce on that
token, as the states that are entered ask for, until one of them asks to read it (`Serves`).  This
holds on every walk through the automaton (`Walk.serves`).

The way follows how the token came into the lookahead.  A reduction leads to the state behind the term
of its rule; there the token opens what is left of the rule that the term belongs to, or it is in the
lookahead of that rule.  In the first case the terms in front of the token are opened or passed over
(`Continues.serves_of_opens`, `Continues.serves_of_nil`), and in the second case what is left derives
the empty sequence and that rule is reduced as well (`Continues.serves_behind`).
-/

namespace CanonicalLR.Automaton

/-! ### Following symbols -/

/-- The transitions on the symbols lead from the one stack to the other. -/
inductive Follows (m : Automaton) : List StateId → List Symbol → List StateId → Prop where
  | refl {states : List StateId} : Follows m states [] states
  | step {s target : StateId} {states states' : List StateId} {state : State} {x : Symbol}
      {symbols : List Symbol} :
      m.states[s]? = some state → ⟨x, target⟩ ∈ state.transitions →
      Follows m (target :: s :: states) symbols states' → Follows m (s :: states) (x :: symbols) states'

variable {g : AugmentedGrammar} {m : Automaton} {s target : StateId}
  {states states' below : List StateId} {symbols items more follow after : List Symbol}
  {state : State} {d : DottedRule} {n : TokenId} {x : Symbol} {r : Rule} {action : Action}
  {w : List TokenId}

/-- What was on the stack before is below the states that have been entered. -/
theorem Follows.drop (h : m.Follows states symbols states') :
  states'.drop symbols.length = states
  := by
  induction h with
  | refl => rfl
  | step _ _ _ ih =>
    have htail := congrArg List.tail ih
    rwa [List.tail_drop] at htail

theorem Follows.append {states'' : List StateId} {others : List Symbol}
    (h : m.Follows states symbols states') (h' : m.Follows states' others states'') :
  m.Follows states (symbols ++ others) states''
  := by
  induction h with
  | refl => apply h'
  | step hs ht _ ih => exact .step hs ht (ih h')

/-- The end of the input is not followed. -/
theorem Follows.eof_not_mem (hg : g.WellFormed) (h : (build g).Follows states symbols states') :
  .token g.eof ∉ symbols
  := by
  induction h with
  | refl => apply List.not_mem_nil
  | step hs ht _ ih =>
    rw [List.mem_cons, not_or]
    use (symbol_ne_eof hg (List.mem_of_getElem? hs) ht).symm, ih

/-- A dotted rule is still continued when symbols behind its dot have been followed. -/
theorem Continues.follows (h : Continues g states symbols d follow)
    (hf : (build g).Follows states items states') (hd : d.rest = items ++ after) :
  Continues g states' (items.reverse ++ symbols) ⟨d.rule, d.dot + items.length⟩ follow
  := by
  induction hf generalizing symbols d with
  | refl => apply h
  | @step _ _ _ _ _ x items hs ht _ ih =>
    obtain ⟨hnext, hrest⟩ := DottedRule.next?_and_rest_advance hd
    have hadvance := ih (h.advance hs ht hnext) hrest
    rw [List.reverse_cons, List.append_assoc, List.length_cons, Nat.add_comm items.length, ← Nat.add_assoc]
    apply hadvance

/-- There is a transition on the symbol behind the dot, unless that is the end of the input. -/
theorem Continues.exists_transition (hg : g.WellFormed) (h : Continues g states symbols d follow)
    (hx : d.next? = some x) (hne : x ≠ .token g.eof) :
  ∃ s below state target, states = s :: below ∧ (build g).states[s]? = some state ∧
    ⟨x, target⟩ ∈ state.transitions
  := by
  obtain ⟨s, below, state, lookahead, hstates, hs, hl, -⟩ := h.exists_lookahead hg
  have hnext : x ∈ state.items.nextSymbols :=
    mem_nextSymbols.mpr ⟨d, ItemSet.mem_cores_iff.mpr ⟨lookahead, hl⟩, hx⟩
  obtain ⟨target, ht⟩ := (exists_transition_iff hg (List.mem_of_getElem? hs)).mpr ⟨hnext, hne⟩
  use s, below, state, target

/-! ### Serving a token -/

/-- From the stack, reductions on the token `n` that the states ask for lead to a state that asks to
read it. -/
inductive Serves (g : AugmentedGrammar) (m : Automaton) (n : TokenId) : List StateId → Prop where
  | read {s : StateId} {states : List StateId} {state : State} {action : Action} :
      m.states[s]? = some state → (.token n, action) ∈ state.candidates g.eof →
      action.isReduce = false → Serves g m n (s :: states)
  | reduce {s exposed target : StateId} {states below : List StateId} {state origin : State} {r : Rule} :
      m.states[s]? = some state → (.token n, .reduce r) ∈ state.candidates g.eof →
      (s :: states).drop r.arity = exposed :: below → m.states[exposed]? = some origin →
      ⟨.term r.owner, target⟩ ∈ origin.transitions → Serves g m n (target :: exposed :: below) →
      Serves g m n (s :: states)

/-- A rule that has been read to its end is reduced, if the token opens what comes behind. -/
theorem Continues.serves_reduce (hg : g.WellFormed) (h : Continues g states symbols d follow)
    (hr : r ∈ g.grammar.rules) (hd : d.rest = .term r.owner :: after)
    (hn : Opens g.grammar.rules n (after ++ follow))
    (hf : (build g).Follows states r.basicItems states')
    (hserves : ∀ s below state target, states = s :: below → (build g).states[s]? = some state →
      ⟨.term r.owner, target⟩ ∈ state.transitions → Serves g (build g) n (target :: states)) :
  Serves g (build g) n states'
  := by
  have hinitial := h.predict hd (Grammar.mem_rulesOf.mpr ⟨hr, rfl⟩)
  have hrest : (DottedRule.initial r).rest = r.basicItems ++ [] := (List.append_nil _).symm
  obtain ⟨s', below', state', lookahead, rfl, hs', hl, hle⟩ :=
    (hinitial.follows hf hrest).exists_lookahead hg
  have hnext := (DottedRule.next?_and_rest_advance hd).1
  obtain ⟨s, below, state, target, rfl, hs, ht⟩ := h.exists_transition hg hnext (by rintro ⟨⟩)
  have hcell : (.token n, .reduce r) ∈ state'.candidates g.eof := by
    apply State.reduce_mem_candidates.mpr
    refine ⟨_, ItemSet.exists_entry_of_lookahead? hl, ?_, rfl, n, hle n hn, rfl⟩
    rw [DottedRule.isComplete, List.isEmpty_iff, DottedRule.rest, List.drop_eq_nil_iff]
    apply Nat.le_add_left
  apply Serves.reduce hs' hcell hf.drop hs ht
  apply hserves s below state target rfl hs ht

/-- A token is served in front of symbols that derive the empty sequence if it is served behind
them. -/
theorem Continues.serves_of_nil (hg : g.WellFormed) (hnil : Derives g.grammar.rules items w)
    (hw : w = []) (h : Continues g states symbols d follow)
    (hd : d.rest = items.filter Symbol.isBasic ++ more)
    (hn : Opens g.grammar.rules n (more ++ follow))
    (hserves : ∀ states', (build g).Follows states (items.filter Symbol.isBasic) states' →
      Serves g (build g) n states') :
  Serves g (build g) n states
  := by
  induction hnil generalizing states symbols d follow more with
  | nil => apply hserves states .refl
  | prompt _ ih => apply ih hw h hd hn hserves
  | token _ _ => cases hw
  | @term r items v w hr hv hitems ihv ihw =>
    obtain ⟨rfl, rfl⟩ := List.append_eq_nil_iff.mp hw
    have hbehind : Opens g.grammar.rules n ((items.filter Symbol.isBasic ++ more) ++ follow) := by
      rw [List.append_assoc]
      apply hn.append (derives_filter_isBasic.mpr hitems) rfl
    -- The term is passed over by one of its rules, which is reduced at once.
    apply ihv rfl (h.predict hd (Grammar.mem_rulesOf.mpr ⟨hr, rfl⟩)) (List.append_nil _).symm hbehind
    intro states' hf
    apply h.serves_reduce hg hr hd hbehind hf
    rintro s below state target rfl hs ht
    obtain ⟨hnext, hrest⟩ := DottedRule.next?_and_rest_advance hd
    apply ihw rfl (h.advance hs ht hnext) hrest hn
    intro states'' hf'
    apply hserves states'' (.step hs ht hf')

/-- A token is served that opens what is behind the dot. -/
theorem Continues.serves_of_opens (hg : g.WellFormed) (hn : Opens g.grammar.rules n items)
    (h : Continues g states symbols d follow)
    (hd : d.rest = items.filter Symbol.isBasic ++ more) :
  Serves g (build g) n states
  := by
  induction hn generalizing states symbols d follow more with
  | prompt _ ih => apply ih h hd
  | token =>
    obtain ⟨s, below, state, lookahead, rfl, hs, hl, -⟩ := h.exists_lookahead hg
    have hnext := (DottedRule.next?_and_rest_advance hd).1
    by_cases heof : n = g.eof
    · subst heof
      have haccepts : state.accepts = true := by
        apply (accepts_iff hg (List.mem_of_getElem? hs)).mpr
        apply mem_nextSymbols.mpr
        use d, ItemSet.mem_cores_iff.mpr ⟨lookahead, hl⟩
      apply Serves.read hs (State.accept_mem_candidates.mpr ⟨haccepts, rfl⟩) rfl
    · obtain ⟨_, _, _, target, ⟨⟩, hs', ht⟩ := h.exists_transition hg hnext (by simpa using heof)
      apply Serves.read hs' (State.shift_mem_candidates.mpr ⟨ht, rfl⟩) rfl
  | @term r items hr _ ih =>
    apply ih (h.predict hd (Grammar.mem_rulesOf.mpr ⟨hr, rfl⟩)) (List.append_nil _).symm
  | @skip r items hr hnil hn ih =>
    have hbehind : Opens g.grammar.rules n ((items.filter Symbol.isBasic ++ more) ++ follow) :=
      ((opens_filter.mpr hn).append_right more).append_right follow
    apply serves_of_nil hg hnil rfl (h.predict hd (Grammar.mem_rulesOf.mpr ⟨hr, rfl⟩))
      (List.append_nil _).symm hbehind
    intro states' hf
    apply h.serves_reduce hg hr hd hbehind hf
    rintro s below state target rfl hs ht
    obtain ⟨hnext, hrest⟩ := DottedRule.next?_and_rest_advance hd
    apply ih (h.advance hs ht hnext) hrest

/-- There are no prompts among the symbols behind a dot. -/
theorem filter_of_rest (hd : d.rest = items ++ after) :
  items.filter Symbol.isBasic = items ∧ after.filter Symbol.isBasic = after
  := by
  have hbasic : ∀ x ∈ items ++ after, x.isBasic = true := by
    intro x hx
    rw [← hd] at hx
    apply List.of_mem_filter (List.mem_of_mem_drop hx)
  rw [List.filter_eq_self, List.filter_eq_self]
  use fun x hx => hbasic x (List.mem_append_left _ hx), fun x hx => hbasic x (List.mem_append_right _ hx)

/-- A token is served that opens what comes behind the rule, once there is nothing left of the rule that
must be read. -/
theorem Continues.serves_behind (hg : g.WellFormed) (h : Continues g states symbols d follow)
    (hd : d.rest = items ++ after) (hafter : Derives g.grammar.rules after [])
    (hf : (build g).Follows states items states') (hn : Opens g.grammar.rules n follow) :
  Serves g (build g) n states'
  := by
  induction h generalizing items after states' with
  | start =>
    -- The end of the input cannot be passed over, and there is no transition on it.
    obtain ⟨start, hitems⟩ := hg.items_startRule
    have heof : .token g.eof ∈ items ++ after := by
      rw [← hd, DottedRule.rest, DottedRule.initial, Rule.basicItems, hitems]
      simp [Symbol.isBasic]
    rcases List.mem_append.mp heof with heof | heof
    · apply absurd heof (hf.eof_not_mem hg)
    · apply absurd heof (token_not_mem_of_derives_nil hafter rfl)
  | @predict states symbols d follow after' y r h hy hr ih =>
    obtain ⟨hmem, rfl⟩ := Grammar.mem_rulesOf.mp hr
    have hinitial := h.predict hy hr
    have hbasic : r.basicItems = items ++ after := hd
    have hrest : (⟨r, 0 + items.length⟩ : DottedRule).rest = after.filter Symbol.isBasic ++ [] := by
      rw [(filter_of_rest hd).2, List.append_nil, DottedRule.rest, hbasic, Nat.zero_add, List.drop_left]
    apply (hinitial.follows hf hd).serves_of_nil hg hafter rfl hrest hn
    intro states'' hf'
    rw [(filter_of_rest hd).2] at hf'
    have hall := hf.append hf'
    rw [← hbasic] at hall
    apply h.serves_reduce hg hmem hy hn hall
    rintro s below state target rfl hs ht
    obtain ⟨hnext, hrest'⟩ := DottedRule.next?_and_rest_advance hy
    rcases opens_append.mp hn with hn | ⟨hnil, hn⟩
    · have hitems : d.advance.rest = after'.filter Symbol.isBasic ++ [] := by
        rw [← hrest', (filter_of_rest (List.append_nil _).symm).1, List.append_nil]
      apply (h.advance hs ht hnext).serves_of_opens hg hn hitems
    · have hrest : d.rest = [.term r.owner] ++ after' := hy
      apply ih hrest hnil (.step hs ht .refl) hn
  | @advance s target states symbols d follow state x h hs ht hx ih =>
    obtain ⟨rest, hrest⟩ := List.head?_eq_some_iff.mp hx
    rw [(DottedRule.next?_and_rest_advance hrest).2] at hd
    rw [hd] at hrest
    apply ih hrest hafter (.step hs ht hf) hn

/-- A token is served that opens what is left of the rule together with what comes behind. -/
theorem Continues.serves (hg : g.WellFormed) (h : Continues g states symbols d follow)
    (hn : Opens g.grammar.rules n (d.rest ++ follow)) :
  Serves g (build g) n states
  := by
  have hrest : d.rest = d.rest.filter Symbol.isBasic ++ [] := by
    rw [(filter_of_rest (List.append_nil d.rest).symm).1, List.append_nil]
  rcases opens_append.mp hn with hn | ⟨hnil, hn⟩
  · apply h.serves_of_opens hg hn hrest
  · apply h.serves_behind hg (List.nil_append _).symm hnil .refl hn

/-! ### What a state asks for -/

/-- A token on which the state at the end of a walk asks for an action opens what is left of one of its
rules together with what comes behind. -/
theorem Walk.exists_opens (hg : g.WellFormed) (h : (build g).Walk (s :: states) symbols)
    (hs : (build g).states[s]? = some state) (ha : (.token n, action) ∈ state.candidates g.eof) :
  ∃ d follow, Continues g (s :: states) symbols d follow ∧ Opens g.grammar.rules n (d.rest ++ follow)
  := by
  have hmem := List.mem_of_getElem? hs
  have hnext : .token n ∈ state.items.nextSymbols →
      ∃ d follow, Continues g (s :: states) symbols d follow ∧
        Opens g.grammar.rules n (d.rest ++ follow) := by
    intro hn
    obtain ⟨d, hd, hx⟩ := mem_nextSymbols.mp hn
    obtain ⟨lookahead, hl⟩ := ItemSet.mem_cores_iff.mp hd
    obtain ⟨rest, hrest⟩ := List.head?_eq_some_iff.mp hx
    use d
    apply h.exists_continues hg rfl hs hl
    left
    rw [hrest]
    exact .token
  rcases State.mem_candidates.mp ha with ⟨haccepts, heq⟩ | ⟨e, he, hc, n', hn', heq⟩ | ⟨t, ht, heq⟩
  · cases heq
    apply hnext ((accepts_iff hg hmem).mp haccepts)
  · cases heq
    use e.core
    apply h.exists_continues hg rfl hs ((proper_items hg hmem).lookahead?_eq_some_iff.mpr he)
    right
    rw [DottedRule.isComplete, List.isEmpty_iff] at hc
    rw [hc]
    use .nil
  · apply hnext
    obtain ⟨hx, -⟩ := Prod.mk.inj heq
    rw [hx]
    apply ((exists_transition_iff hg hmem).mp ⟨t.target, ht⟩).1

/-- If all terms derive something, then what has been read and a token on which the state at the end of
the walk asks for an action are the beginning of an input. -/
theorem Walk.exists_derives (hg : g.WellFormed)
    (hgen : ∀ t, g.grammar.contains (.term t) = true → ∃ v, derived g.grammar.rules t v)
    (h : (build g).Walk (s :: states) symbols) (hs : (build g).states[s]? = some state)
    (ha : (.token n, action) ∈ state.candidates g.eof)
    (hw : Derives g.grammar.rules symbols.reverse w) :
  ∃ v, Derives g.grammar.rules (g.startRule.items ++ [.token g.eof]) (w ++ n :: v)
  := by
  obtain ⟨d, follow, hfollow, hn⟩ := h.exists_opens hg hs ha
  obtain ⟨-, hmembers⟩ := hfollow.contains hg
  obtain ⟨v, hv⟩ := hn.exists_derives
    (fun r hr t ht => hgen t (hg.grammar.items_mem r hr _ ht)) fun t ht => hgen t (hmembers _ ht)
  use v
  apply hfollow.derives
  apply derives_append.mpr
  use w, n :: v

/-- A token on which the state at the end of a walk asks for an action is served. -/
theorem Walk.serves (hg : g.WellFormed) (h : (build g).Walk (s :: states) symbols)
    (hs : (build g).states[s]? = some state) (ha : (.token n, action) ∈ state.candidates g.eof) :
  Serves g (build g) n (s :: states)
  := by
  obtain ⟨d, follow, hfollow, hn⟩ := h.exists_opens hg hs ha
  apply hfollow.serves hg hn

end CanonicalLR.Automaton
