import CanonicalLR.Proofs.Automaton.Collection
import CanonicalLR.Proofs.Table.Replays
import CanonicalLR.Proofs.Table.Service

/-!
# Tables without conflicts

Under the policy that allows no conflict there is a table exactly if no state asks for two different
actions on a token (`exists_build_iff`).  Otherwise two such actions are reported.

That there may be a transition after which reductions never end is not reported: in a table without
conflicts a token on which there is a reduction is read in the end (`Serves.exists_reductions`), on any
stack that can come about (`gotoLoop?_eq_none`).
-/

namespace CanonicalLR

/-! ### Conflicts -/

namespace State

/-- The actions that the state asks for on a token: to accept the end of the input, to reduce by a
complete rule on a token in its lookahead, and to shift a token. -/
inductive Asks (eof : TokenId) (s : State) : TokenId → Action → Prop where
  | accept : s.accepts = true → Asks eof s eof .accept
  | reduce {d : DottedRule} {lookahead : IndexSet} {n : TokenId} :
      s.items.lookahead? d = some lookahead → d.isComplete = true → n ∈ lookahead →
      Asks eof s n (.reduce d.rule)
  | shift {n : TokenId} {target : StateId} :
      ⟨.token n, target⟩ ∈ s.transitions → Asks eof s n (.shift target)

variable {eof n : TokenId} {s : State} {action : Action}

/-- The state asks for the actions that are its candidates. -/
theorem asks_iff {g : Grammar} (hs : s.items.Proper g) :
  s.Asks eof n action ↔ (.token n, action) ∈ s.candidates eof
  := by
  constructor
  · rintro (haccepts | ⟨hl, hcomplete, hn⟩ | ht)
    · apply accept_mem_candidates.mpr ⟨haccepts, rfl⟩
    · apply reduce_mem_candidates.mpr
      refine ⟨_, hs.lookahead?_eq_some_iff.mp hl, hcomplete, rfl, n, hn, rfl⟩
    · apply shift_mem_candidates.mpr ⟨ht, rfl⟩
  · intro h
    rcases mem_candidates.mp h with ⟨haccepts, heq⟩ | ⟨e, he, hcomplete, n', hn, heq⟩ | ⟨t, ht, heq⟩
    · cases heq
      exact .accept haccepts
    · cases heq
      exact .reduce (hs.lookahead?_eq_some_iff.mpr he) hcomplete hn
    · obtain ⟨x, target⟩ := t
      obtain ⟨rfl, rfl⟩ := Prod.mk.inj heq
      exact .shift ht

end State

/-- No state asks for two different actions on a token. -/
def Automaton.ConflictFree (eof : TokenId) (m : Automaton) : Prop :=
  ∀ (id : StateId) (state : State), m.states[id]? = some state → ∀ n action action',
    state.Asks eof n action → state.Asks eof n action' → action = action'

/-! ### Rows without conflicts -/

namespace Row

variable {g : Grammar} {id : StateId} {cells cells' : List (Symbol × Action)} {e : TableError}

/-- Two different actions of the list for the same symbol are reported. -/
def Reported (g : Grammar) (id : StateId) (cells : List (Symbol × Action)) (e : TableError) : Prop :=
  ∃ x prior new, (x, prior) ∈ cells ∧ (x, new) ∈ cells ∧ prior ≠ new ∧
    e = .conflict id (g.displaySymbol x) (prior.display g) (new.display g)

theorem Reported.mono (h : Reported g id cells e) (hcells : cells ⊆ cells') :
  Reported g id cells' e
  := by
  obtain ⟨x, prior, new, hprior, hnew, hreport⟩ := h
  use x, prior, new, hcells hprior, hcells hnew

/-- To write an action without a conflict adds it, unless it is there. -/
theorem write_fail_cases (g : Grammar) (id : StateId) (row : Row) (cell : Symbol × Action) :
  (∃ row', row.write g .fail id cell = .ok row' ∧ row' ⊆ row ++ [cell]) ∨
    ∃ e, row.write g .fail id cell = .error e ∧ Reported g id (row ++ [cell]) e
  := by
  rw [write]
  split
  · left
    use row ++ [cell], rfl
    apply List.Subset.refl
  · next prior hprior =>
    split
    · left
      use row, rfl
      apply List.subset_append_left
    · next hne =>
      right
      obtain ⟨before, after, heq, -⟩ := List.lookup_eq_some_iff.mp hprior
      refine ⟨_, rfl, cell.1, prior, cell.2, ?_, ?_, hne, rfl⟩
      · rw [heq]
        simp
      · apply List.mem_append_right row List.mem_cons_self

/-- Either all actions can be written, or there are two different ones for the same symbol, which are
reported. -/
theorem foldlM_write_fail_cases (g : Grammar) (id : StateId) (row : Row)
    (cells : List (Symbol × Action)) :
  (∃ row', cells.foldlM (write g .fail id) row = .ok row' ∧ row' ⊆ row ++ cells) ∨
    ∃ e, cells.foldlM (write g .fail id) row = .error e ∧ Reported g id (row ++ cells) e
  := by
  induction cells generalizing row with
  | nil =>
    left
    use row, rfl
    apply List.subset_append_left
  | cons cell cells ih =>
    rw [List.foldlM_cons, List.append_cons]
    rcases write_fail_cases g id row cell with ⟨next, hwrite, hnext⟩ | ⟨e, herror, hreported⟩
    · have hcells : next ++ cells ⊆ row ++ [cell] ++ cells :=
        List.append_subset.mpr ⟨List.subset_append_of_subset_left cells hnext,
          List.subset_append_right _ cells⟩
      rw [hwrite]
      rcases ih next with ⟨row', hrow', hsub⟩ | ⟨e, herror, hreported⟩
      · left
        use row', hrow', List.Subset.trans hsub hcells
      · right
        use e, herror
        apply hreported.mono hcells
    · right
      use e
      rw [herror]
      use rfl
      apply hreported.mono (List.subset_append_left _ cells)

end Row

namespace ParseTable

open Automaton

variable {g : AugmentedGrammar} {m : Automaton} {policy : Policy} {t : ParseTable} {id : StateId}
  {states : List State} {n : TokenId} {stack stack' : List StateId}

/-- Either all rows can be filled, or the first one that cannot tells why. -/
theorem fillRows_cases (g : AugmentedGrammar) (policy : Policy) (id : StateId) (states : List State) :
  (∃ rows, fillRows g policy id states = .ok rows) ∨
    ∃ i state e, states[i]? = some state ∧ fillRow g policy (id + i) state = .error e ∧
      fillRows g policy id states = .error e
  := by
  induction states generalizing id with
  | nil =>
    left
    use []
    rfl
  | cons s states ih =>
    rw [fillRows]
    cases hrow : fillRow g policy id s with
    | error e =>
      right
      use 0, s, e, rfl, hrow
      rfl
    | ok row =>
      rcases ih (id + 1) with ⟨rows, hrows⟩ | ⟨i, state, e, hs, hfill, hrows⟩
      · left
        use row :: rows
        rw [hrows]
        rfl
      · right
        use i + 1, state, e, hs
        rw [← hfill, hrows, Nat.add_assoc, Nat.add_comm 1]
        use rfl
        rfl

/-! ### Reductions of a table without conflicts -/

/-- In a table without conflicts the reductions on a token that is served lead to a state that asks to
read it. -/
theorem Serves.exists_reductions (h : IsFilledOf g (Automaton.build g) .fail t)
    (hserves : Serves g (Automaton.build g) n stack) :
  ∃ k s below state action, t.reductions n k stack = some (s :: below) ∧
    (Automaton.build g).states[s]? = some state ∧ (.token n, action) ∈ state.candidates g.eof ∧
    action.isReduce = false
  := by
  induction hserves with
  | @read s states state action hs ha hread => use 0, s, states, state, action, rfl, hs, ha, hread
  | @reduce s exposed target states below state origin r hs ha hdrop horigin ht _ ih =>
    obtain ⟨k, s', below', state', action, hrun, hs', ha', hread⟩ := ih
    use k + 1, s', below', state', action
    have hgoto : t.action? exposed (.term r.owner) = some (.goto target) := by
      apply h.action?_of_mem_candidates horigin
      apply State.goto_mem_candidates.mpr ⟨ht, by rintro ⟨⟩⟩
    have hreduce : t.reduceStates n (s :: states) = some (target :: exposed :: below) :=
      reduceStates_eq_some_iff.mpr
        ⟨s, r, exposed, below, target, rfl, h.action?_of_mem_candidates hs ha, hdrop, hgoto, rfl⟩
    rw [reductions, hreduce]
    use hrun

/-- A token that is served on a stack is served after a reduction. -/
theorem Serves.of_reduceStates (h : IsFilledOf g (Automaton.build g) .fail t)
    (hserves : Serves g (Automaton.build g) n stack) (hreduce : t.reduceStates n stack = some stack') :
  Serves g (Automaton.build g) n stack'
  := by
  obtain ⟨top, r, exposed, below, target, htop, hr, hdrop, hgoto, rfl⟩ :=
    reduceStates_eq_some_iff.mp hreduce
  cases hserves with
  | read hs ha hread =>
    cases htop
    rw [h.action?_of_mem_candidates hs ha] at hr
    cases hr
    cases hread
  | reduce hs ha hdrop' horigin ht hserves =>
    cases htop
    rw [h.action?_of_mem_candidates hs ha] at hr
    cases hr
    obtain ⟨rfl, rfl⟩ := List.cons.inj (hdrop'.symm.trans hdrop)
    have hcell : (.term r.owner, .goto _) ∈ State.candidates g.eof _ :=
      State.goto_mem_candidates.mpr ⟨ht, by rintro ⟨⟩⟩
    rw [h.action?_of_mem_candidates horigin hcell] at hgoto
    cases hgoto
    apply hserves

/-- On a walk through the automaton, the reductions of a table without conflicts come to an end. -/
theorem exists_reductions_eq_none (hg : g.WellFormed) (h : IsFilledOf g (Automaton.build g) .fail t)
    {symbols : List Symbol} (hwalk : (Automaton.build g).Walk stack symbols) :
  ∃ k, t.reductions n k stack = none
  := by
  cases hfirst : t.reduceStates n stack with
  | none =>
    use 1
    rw [reductions, hfirst, Option.bind_none]
  | some next =>
    obtain ⟨top, r, -, -, -, htop, hr, -⟩ := reduceStates_eq_some_iff.mp hfirst
    obtain ⟨below, rfl⟩ := List.head?_eq_some_iff.mp htop
    obtain ⟨state, hs, hcell | herror⟩ := h.mem_candidates_of_action? hr
    · obtain ⟨k, s, below', state', action, hrun, hs', ha, hread⟩ :=
        Serves.exists_reductions h (hwalk.serves hg hs hcell)
      use k + 1
      rw [reductions_succ, hrun, Option.bind_some, Option.eq_none_iff_forall_ne_some]
      intro stack hstack
      obtain ⟨_, r', -, -, -, ⟨⟩, hr', -⟩ := reduceStates_eq_some_iff.mp hstack
      rw [h.action?_of_mem_candidates hs' ha] at hr'
      cases hr'
      cases hread
    · cases herror

/-- A walk leads to each state of the automaton. -/
theorem exists_walk (hg : g.WellFormed) (hid : id < (Automaton.build g).states.length) :
  ∃ states symbols, (Automaton.build g).Walk (id :: states) symbols
  := by
  have hreach := reflTransGen_leads hg hid
  clear hid
  induction hreach with
  | refl => use [], [], .start
  | @tail origin target _ hlast ih =>
    obtain ⟨states, symbols, hwalk⟩ := ih
    obtain ⟨state, hs, t, ht, rfl⟩ := hlast
    use origin :: states, t.symbol :: symbols, .step hwalk hs ht

/-- The rows of a table without conflicts have nothing but what the states ask for. -/
theorem IsFilledOf.mem_candidates_of_mem (h : IsFilledOf g m .fail t) {row : Row}
    {cell : Symbol × Action} (hrow : t.rows.toList[id]? = some row) (hcell : cell ∈ row) :
  ∃ state, m.states[id]? = some state ∧ cell ∈ state.candidates g.eof
  := by
  rw [Array.getElem?_toList] at hrow
  have hlt := (Array.getElem?_eq_some_iff.mp hrow).1
  rw [h.size_eq] at hlt
  use m.states[id], List.getElem?_eq_getElem hlt
  have hfill := h.fillRow_eq id _ (List.getElem?_eq_getElem hlt)
  rw [ParseTable.row, hrow, Option.getD_some, fillRow] at hfill
  rcases Row.foldlM_write_fail_cases g.grammar id [] (m.states[id].candidates g.eof) with
    ⟨row', hrow', hcells⟩ | ⟨_, herror, -⟩
  · obtain rfl := Except.ok.inj (hfill.symm.trans hrow')
    apply hcells hcell
  · rw [herror] at hfill
    cases hfill

/-- The actions of a table without conflicts are those that the states ask for. -/
theorem IsFilledOf.action?_eq_some_iff (h : IsFilledOf g m .fail t) {x : Symbol} {action : Action} :
  t.action? id x = some action ↔
    ∃ state, m.states[id]? = some state ∧ (x, action) ∈ state.candidates g.eof
  := by
  constructor
  · intro ha
    obtain ⟨row, hrow, hcell⟩ := exists_row_of_action? ha
    apply h.mem_candidates_of_mem hrow hcell
  · rintro ⟨state, hs, hcell⟩
    apply h.action?_of_mem_candidates hs hcell

/-- In a table without conflicts there is no transition after which reductions never end. -/
theorem gotoLoop?_eq_none (hg : g.WellFormed) (h : IsFilledOf g (Automaton.build g) .fail t) :
  t.gotoLoop? = none
  := by
  rw [gotoLoop?, List.findSome?_eq_none_iff]
  rintro ⟨row, origin⟩ hrow
  rw [List.findSome?_eq_none_iff]
  intro cell hcell
  obtain ⟨state, hs, hcandidate⟩ :=
    h.mem_candidates_of_mem (List.mem_zipIdx_iff_getElem?.mp hrow) hcell
  split
  · next y target =>
    obtain ⟨ht, -⟩ := State.goto_mem_candidates.mp hcandidate
    rw [Option.map_eq_none_iff, List.findSome?_eq_none_iff]
    intro n _
    rw [endless?, Option.map_eq_none_iff, ← Option.not_isSome_iff_eq_none]
    have htargets := h.targetsBounded hg
    have hgoto := h.action?_of_mem_candidates hs hcandidate
    rw [replay_isSome_iff htargets (htargets origin _ target hgoto)]
    intro hendless
    -- The same reductions would never end on the stack of a walk that takes the transition.
    obtain ⟨below, symbols, hwalk⟩ := exists_walk hg (List.getElem?_eq_some_iff.mp hs).1
    obtain ⟨k, hk⟩ := exists_reductions_eq_none (n := n) hg h (hwalk.step hs ht)
    obtain ⟨stack, hstack⟩ := Option.isSome_iff_exists.mp (hendless k)
    have hrun : t.reductions n k ([target, origin] ++ below) = some (stack ++ below) :=
      reductions_append hstack
    rw [List.cons_append, List.cons_append, List.nil_append, hk] at hrun
    cases hrun
  · rfl

/-! ### Building a table without conflicts -/

/-- A conflict between two different candidates of a state is one on a token. -/
theorem exists_asks_of_ne (hg : g.WellFormed) {state : State} {x : Symbol} {prior new : Action}
    (hs : state ∈ (Automaton.build g).states) (hprior : (x, prior) ∈ state.candidates g.eof)
    (hnew : (x, new) ∈ state.candidates g.eof) (hne : prior ≠ new) :
  ∃ n, x = .token n ∧ state.Asks g.eof n prior ∧ state.Asks g.eof n new
  := by
  have hproper := proper_items hg hs
  by_cases hx : x.kind = .token
  · obtain ⟨kind, n⟩ := x
    obtain rfl : kind = .token := hx
    use n, rfl, (State.asks_iff hproper).mpr hprior, (State.asks_iff hproper).mpr hnew
  · obtain ⟨target, rfl, ht⟩ := State.eq_goto_of_mem_candidates hx hprior
    obtain ⟨target', rfl, ht'⟩ := State.eq_goto_of_mem_candidates hx hnew
    apply absurd (congrArg Action.goto (target_unique hg hs ht ht')) hne

/-- The two different actions of a state on a token are reported. -/
def Reports (g : AugmentedGrammar) (m : Automaton) (e : TableError) : Prop :=
  ∃ id state n prior new, m.states[id]? = some state ∧ state.Asks g.eof n prior ∧
    state.Asks g.eof n new ∧ prior ≠ new ∧
    e = .conflict id (g.grammar.displaySymbol (.token n)) (prior.display g.grammar)
      (new.display g.grammar)

/-- Either there is a table, or two different actions of a state on a token are reported. -/
theorem build_fail_cases (hg : g.WellFormed) :
  (∃ t, build g (Automaton.build g) .fail = .ok t) ∨
    ∃ e, build g (Automaton.build g) .fail = .error e ∧ Reports g (Automaton.build g) e
  := by
  rw [build]
  rcases fillRows_cases g .fail 0 (Automaton.build g).states with
    ⟨rows, hrows⟩ | ⟨id, state, e, hs, hfill, hrows⟩
  · left
    use ⟨rows.toArray, g.eof⟩
    rw [hrows]
    simp only [bind, Except.bind]
    rw [gotoLoop?_eq_none hg (isFilledOf_of_fillRows hrows)]
    rfl
  · right
    use e
    rw [hrows]
    use rfl
    rw [Nat.zero_add, fillRow] at hfill
    rcases Row.foldlM_write_fail_cases g.grammar id [] (state.candidates g.eof) with
      ⟨_, hok, -⟩ | ⟨_, herror, x, prior, new, hprior, hnew, hne, rfl⟩
    · rw [hok] at hfill
      cases hfill
    · obtain ⟨n, rfl, hasks, hasks'⟩ := exists_asks_of_ne hg (List.mem_of_getElem? hs) hprior hnew hne
      use id, state, n, prior, new, hs, hasks, hasks', hne
      apply Except.error.inj (hfill.symm.trans herror)

/-- Under the policy that allows no conflict, there is a table of the automaton exactly if no state asks
for two different actions on a token; otherwise two such actions are reported, and never that
reductions do not end. -/
theorem exists_build_iff {h : Grammar} (hh : h.Built) (ha : h.augment = .ok g) :
  ((∃ t, build g (Automaton.build g) .fail = .ok t) ↔ (Automaton.build g).ConflictFree g.eof) ∧
    ∀ e, build g (Automaton.build g) .fail = .error e → Reports g (Automaton.build g) e
  := by
  have hg : g.WellFormed := (hh.wellFormed.augment ha).1
  constructor
  · constructor
    · rintro ⟨t, ht⟩ id state hs n action action' hasks hasks'
      have htable := isTableOf_build ht
      have hproper := proper_items hg (List.mem_of_getElem? hs)
      have haction := htable.action?_of_mem_candidates hs ((State.asks_iff hproper).mp hasks)
      have haction' := htable.action?_of_mem_candidates hs ((State.asks_iff hproper).mp hasks')
      apply Option.some.inj (haction.symm.trans haction')
    · intro hfree
      apply (build_fail_cases hg).resolve_right
      rintro ⟨-, -, id, state, n, prior, new, hs, hasks, hasks', hne, -⟩
      apply hne (hfree id state hs n prior new hasks hasks')
  · intro e he
    rcases build_fail_cases hg with ⟨t, ht⟩ | ⟨e', he', hreports⟩
    · rw [he] at ht
      cases ht
    · rw [he] at he'
      cases he'
      apply hreports

/-- A grammar with an empty term, and with a term that derives nothing and begins with itself. -/
def hollow : Grammar :=
  ((Grammar.ofProductions "S" [⟨"S", [⟨.token, "x"⟩]⟩, ⟨"S", [⟨.term, "A"⟩, ⟨.token, "("⟩, ⟨.term, "B"⟩]⟩,
    ⟨"A", []⟩, ⟨"B", [⟨.term, "B"⟩, ⟨.token, "y"⟩]⟩]).toOption).getD .empty

/-- The hollow grammar has a table, and so no conflicts. -/
theorem exists_build_iff_hollow :
  ∃ a, hollow.augment = .ok a ∧ (∃ t, build a (Automaton.build a) .fail = .ok t) ∧
    (Automaton.build a).ConflictFree a.eof
  := by
  have hsome : (hollow.augment.toOption.bind fun a =>
      (build a (Automaton.build a) .fail).toOption).isSome = true := by decide +kernel
  obtain ⟨t, ht⟩ := Option.isSome_iff_exists.mp hsome
  obtain ⟨a, ha, ht⟩ := Option.bind_eq_some_iff.mp ht
  have ha := Grammar.eq_ok_of_toOption_eq_some ha
  have ht := Grammar.eq_ok_of_toOption_eq_some ht
  use a, ha, ⟨t, ht⟩
  apply (exists_build_iff Grammar.built_getD_ofProductions ha).1.mp ⟨t, ht⟩

end ParseTable

end CanonicalLR
