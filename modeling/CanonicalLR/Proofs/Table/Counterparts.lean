import CanonicalLR.Proofs.Automaton.Counterparts
import CanonicalLR.Proofs.Table.Expectations
import CanonicalLR.Proofs.Table.Reductions

/-!
# The tables of grammars that are written alike

What a row has for a symbol depends on the candidates for this symbol only
(`Row.foldlM_write_cases`).  So it does not matter that the tokens of a lookahead come in the order of
their numbers: of augmented grammars that are written alike, the states have counterparts as candidates
for counterparts (`State.Counterpart.candidates`), and their rows are counterparts, or none can be
written (`Row.foldlM_write_counterpart`).

By tables that are counterparts the same stacks of states are reduced (`Counterpart.replay_eq`), so
reductions that never end are found in both of them or in none.  Hence both grammars have a table, and
the tables are counterparts, or neither has one (`ParseTable.counterpart_build`).
-/

namespace CanonicalLR

/-! ### Related outcomes -/

/-- Both outcomes are errors, or they are related. -/
inductive RelOutcome {ε α β : Type} (R : α → β → Prop) : Except ε α → Except ε β → Prop where
  | error (e e' : ε) : RelOutcome R (.error e) (.error e')
  | ok {a : α} {b : β} : R a b → RelOutcome R (.ok a) (.ok b)

/-- What is done with related outcomes has related outcomes. -/
theorem RelOutcome.bind {ε α α' β β' : Type} {R : α → β → Prop} {R' : α' → β' → Prop}
    {outcome : Except ε α} {outcome' : Except ε β} {f : α → Except ε α'} {f' : β → Except ε β'}
    (h : RelOutcome R outcome outcome') (hf : ∀ a b, R a b → RelOutcome R' (f a) (f' b)) :
  RelOutcome R' (outcome >>= f) (outcome' >>= f')
  := by
  cases h with
  | error e e' => exact .error e e'
  | ok hab => apply hf _ _ hab

variable {g g' : Grammar} {policy : Policy} {id : StateId} {x x' : Symbol} {row row' : Row}
  {cells cells' : List (Symbol × Action)} {prior new prior' new' : Action}
  {actions actions' : List Action}

/-! ### Actions -/

/-- The actions are the same but for the numbers of rules and for messages. -/
inductive Action.Counterpart (g g' : Grammar) : Action → Action → Prop where
  | shift (target : StateId) : Counterpart g g' (.shift target) (.shift target)
  | reduce {r r' : Rule} : Rule.Counterpart g g' r r' → Counterpart g g' (.reduce r) (.reduce r')
  | goto (target : StateId) : Counterpart g g' (.goto target) (.goto target)
  | accept : Counterpart g g' .accept .accept
  | error (message message' : String) : Counterpart g g' (.error message) (.error message')

namespace Action.Counterpart

theorem symm (h : Action.Counterpart g g' prior prior') :
  Action.Counterpart g' g prior' prior
  := by
  cases h with
  | shift target => exact .shift target
  | reduce hr => exact .reduce hr.symm
  | goto target => exact .goto target
  | accept => exact .accept
  | error message message' => exact .error message' message

theorem unique (hg : g.WellFormed) (h : Action.Counterpart g g' prior prior')
    (h' : Action.Counterpart g g' prior new') (hnew : new'.isError = false) :
  prior' = new'
  := by
  cases h' with
  | reduce hr' =>
    cases h with
    | reduce hr => rw [hr.unique hg hr']
  | shift | goto | accept =>
    cases h
    rfl
  | error => cases hnew

theorem isError_eq (h : Action.Counterpart g g' prior prior') :
  prior.isError = prior'.isError
  := by
  cases h <;> rfl

/-- An action is met by itself if its counterpart is. -/
theorem eq_iff (hg : g.Alike g') (hprior : Action.Counterpart g g' prior prior')
    (hnew : Action.Counterpart g g' new new') (herror : new.isError = false) :
  prior = new ↔ prior' = new'
  := by
  constructor
  · rintro rfl
    apply hprior.unique hg.left hnew (hnew.isError_eq ▸ herror)
  · rintro rfl
    apply hprior.symm.unique hg.right hnew.symm herror

/-- A conflict comes to counterparts, or it is resolved in neither table. -/
theorem resolve (g g' : Grammar) (policy : Policy) (id : StateId) (x x' : Symbol)
    (hprior : Action.Counterpart g g' prior prior') (hnew : Action.Counterpart g g' new new') :
  RelOutcome (Action.Counterpart g g') (policy.resolve g ⟨id, x, prior, new⟩)
    (policy.resolve g' ⟨id, x', prior', new'⟩)
  := by
  have hshift : (new.isShift && !prior.isShift) = (new'.isShift && !prior'.isShift) := by
    cases hprior <;> cases hnew <;> rfl
  have hreduce : (new.isReduce && !prior.isReduce) = (new'.isReduce && !prior'.isReduce) := by
    cases hprior <;> cases hnew <;> rfl
  cases policy with
  | fail => exact .error _ _
  | useFirst => exact .ok hprior
  | useLast => exact .ok hnew
  | preferShift =>
    apply RelOutcome.ok
    simp only [hshift]
    split
    · apply hnew
    · apply hprior
  | preferReduce =>
    apply RelOutcome.ok
    simp only [hreduce]
    split
    · apply hnew
    · apply hprior
  | reject => exact .ok (.error _ _)

end Action.Counterpart

/-! ### Rows -/

namespace Row

/-- The rows have counterparts as actions for counterparts, and actions for no other symbols. -/
structure Counterpart (g g' : Grammar) (row row' : Row) : Prop where
  action : ∀ x x', Symbol.Counterpart g g' x x' →
    Option.Rel (Action.Counterpart g g') (row.lookup x) (row'.lookup x')
  left : ∀ x action, row.lookup x = some action → ∃ x', Symbol.Counterpart g g' x x'
  right : ∀ x' action', row'.lookup x' = some action' → ∃ x, Symbol.Counterpart g g' x x'

theorem Counterpart.symm (h : Counterpart g g' row row') :
  Counterpart g' g row' row
  := by
  constructor
  · intro x' x hx
    have hrel := h.action x x' hx.symm
    generalize row.lookup x = o at hrel
    generalize row'.lookup x' = o' at hrel
    cases hrel with
    | none => exact .none
    | some haction => exact .some haction.symm
  · intro x' action' hx'
    obtain ⟨x, hx⟩ := h.right x' action' hx'
    exact ⟨x, hx.symm⟩
  · intro x action hx
    obtain ⟨x', hx'⟩ := h.left x action hx
    exact ⟨x', hx'.symm⟩

/-- What two actions come to are counterparts if they meet counterparts. -/
theorem meet_counterpart (h : g.Alike g') (policy : Policy) (id : StateId) (x x' : Symbol)
    {prior prior' : Option Action} (hprior : Option.Rel (Action.Counterpart g g') prior prior')
    (hnew : Action.Counterpart g g' new new') (herror : new.isError = false) :
  RelOutcome (Action.Counterpart g g') (meet g policy id x prior new)
    (meet g' policy id x' prior' new')
  := by
  cases hprior with
  | none => exact .ok hnew
  | @some prior prior' hprior =>
    rw [meet, meet]
    have heq := hprior.eq_iff h hnew herror
    by_cases hsame : prior = new
    · rw [if_pos hsame, if_pos (heq.mp hsame)]
      exact .ok hprior
    · rw [if_neg hsame, if_neg (mt heq.mpr hsame)]
      apply hprior.resolve g g' policy id x x' hnew

/-- What is settled for counterparts by counterparts are counterparts. -/
theorem settle_counterpart (h : g.Alike g') (policy : Policy) (id : StateId) (x x' : Symbol)
    {prior prior' : Option Action} (hprior : Option.Rel (Action.Counterpart g g') prior prior')
    (hactions : List.Forall₂ (Action.Counterpart g g') actions actions')
    (herror : ∀ action ∈ actions, action.isError = false) :
  RelOutcome (Option.Rel (Action.Counterpart g g')) (settle g policy id x prior actions)
    (settle g' policy id x' prior' actions')
  := by
  induction hactions generalizing prior prior' with
  | nil => exact .ok hprior
  | @cons new new' actions actions' hnew _ ih =>
    rw [settle, settle]
    apply (meet_counterpart h policy id x x' hprior hnew (herror new List.mem_cons_self)).bind
    intro action action' haction
    apply ih (.some haction)
    intro other hother
    apply herror other (List.mem_cons_of_mem _ hother)

/-- Counterparts have counterparts as actions in the lists, in the same order, and all symbols that
have actions have counterparts. -/
structure CellsAlike (g g' : Grammar) (cells cells' : List (Symbol × Action)) : Prop where
  actionsFor : ∀ x x', Symbol.Counterpart g g' x x' →
    List.Forall₂ (Action.Counterpart g g') (actionsFor x cells) (actionsFor x' cells')
  left : ∀ c ∈ cells, ∃ x', Symbol.Counterpart g g' c.1 x'
  right : ∀ c ∈ cells', ∃ x, Symbol.Counterpart g g' x c.1

/-- There is an action for a symbol in a list if an action is settled by the list. -/
theorem exists_mem_of_settle {action : Action}
    (h : settle g policy id x none (Row.actionsFor x cells) = .ok (some action)) :
  ∃ c ∈ cells, c.1 = x
  := by
  by_contra hnone
  have hempty : Row.actionsFor x cells = [] := by
    rw [Row.actionsFor, List.filterMap_eq_nil_iff]
    intro c hc
    apply if_neg
    intro hx
    apply hnone ⟨c, hc, hx⟩
  rw [hempty] at h
  cases h

/-- Rows into which lists that are alike are written are counterparts, or neither can be written. -/
theorem foldlM_write_counterpart (h : g.Alike g') (policy : Policy) (id : StateId)
    (hcells : CellsAlike g g' cells cells') (herror : ∀ c ∈ cells, c.2.isError = false) :
  RelOutcome (Counterpart g g') (cells.foldlM (write g policy id) [])
    (cells'.foldlM (write g' policy id) [])
  := by
  have hsettle : ∀ x x', Symbol.Counterpart g g' x x' →
      RelOutcome (Option.Rel (Action.Counterpart g g'))
        (settle g policy id x (List.lookup x []) (Row.actionsFor x cells))
        (settle g' policy id x' (List.lookup x' []) (Row.actionsFor x' cells')) := by
    intro x x' hx
    apply settle_counterpart h policy id x x' .none (hcells.actionsFor x x' hx)
    intro action haction
    apply herror (x, action) (mem_actionsFor.mp haction)
  rcases foldlM_write_cases g policy id [] cells with ⟨e, he, c, hc, hfail⟩ | ⟨row, hrow, hok⟩ <;>
    rcases foldlM_write_cases g' policy id [] cells' with
      ⟨e', he', c', hc', hfail'⟩ | ⟨row', hrow', hok'⟩
  · rw [he, he']
    exact .error e e'
  · obtain ⟨x', hx⟩ := hcells.left c hc
    have hrel := hsettle c.1 x' hx
    rw [hfail, hok'] at hrel
    cases hrel
  · obtain ⟨x, hx⟩ := hcells.right c' hc'
    have hrel := hsettle x c'.1 hx
    rw [hok, hfail'] at hrel
    cases hrel
  · rw [hrow, hrow']
    refine .ok ⟨?_, ?_, ?_⟩
    · intro x x' hx
      have hrel := hsettle x x' hx
      rw [hok, hok'] at hrel
      cases hrel with
      | ok hrel => apply hrel
    · intro x action hx
      have hsome := hok x
      rw [hx] at hsome
      obtain ⟨c, hc, rfl⟩ := exists_mem_of_settle hsome
      apply hcells.left c hc
    · intro x' action' hx'
      have hsome := hok' x'
      rw [hx'] at hsome
      obtain ⟨c, hc, rfl⟩ := exists_mem_of_settle hsome
      apply hcells.right c hc

end Row

/-! ### Candidates -/

namespace Row.CellsAlike

theorem nil :
  CellsAlike g g' [] []
  := by
  constructor
  · intro x x' _
    exact .nil
  · intro c hc
    cases hc
  · intro c hc
    cases hc

theorem append {more more' : List (Symbol × Action)} (h : CellsAlike g g' cells cells')
    (hmore : CellsAlike g g' more more') :
  CellsAlike g g' (cells ++ more) (cells' ++ more')
  := by
  constructor
  · intro x x' hx
    rw [Row.actionsFor, Row.actionsFor, List.filterMap_append, List.filterMap_append]
    apply List.rel_append (h.actionsFor x x' hx) (hmore.actionsFor x x' hx)
  · intro c hc
    rcases List.mem_append.mp hc with hc | hc
    · apply h.left c hc
    · apply hmore.left c hc
  · intro c hc
    rcases List.mem_append.mp hc with hc | hc
    · apply h.right c hc
    · apply hmore.right c hc

theorem flatMap {α β : Type} {R : α → β → Prop} {f : α → List (Symbol × Action)}
    {f' : β → List (Symbol × Action)} {as : List α} {bs : List β}
    (hf : ∀ a b, R a b → CellsAlike g g' (f a) (f' b)) (h : List.Forall₂ R as bs) :
  CellsAlike g g' (as.flatMap f) (bs.flatMap f')
  := by
  induction h with
  | nil => exact nil
  | cons hab _ ih =>
    rw [List.flatMap_cons, List.flatMap_cons]
    apply (hf _ _ hab).append ih

/-- Single actions are alike. -/
theorem singleton (hg : g.Alike g') (hx : Symbol.Counterpart g g' x x')
    (hnew : Action.Counterpart g g' new new') :
  CellsAlike g g' [(x, new)] [(x', new')]
  := by
  constructor
  · intro y y' hy
    rw [actionsFor_cons, actionsFor_cons]
    have heq : x = y ↔ x' = y' := Relator.rel_eq (Symbol.biUnique_counterpart hg) hx hy
    by_cases hxy : x = y
    · rw [if_pos hxy, if_pos (heq.mp hxy)]
      exact .cons hnew .nil
    · rw [if_neg hxy, if_neg (mt heq.mpr hxy)]
      exact .nil
  · intro c hc
    rw [List.mem_singleton.mp hc]
    use x'
  · intro c hc
    rw [List.mem_singleton.mp hc]
    use x

/-- Of an action that is given to tokens, a symbol has one if it is one of them. -/
theorem actionsFor_tokens {ns : List TokenId} (hns : ns.Nodup) :
  Row.actionsFor x (ns.map fun n => (.token n, new)) = if ∃ n ∈ ns, x = .token n then [new] else []
  := by
  induction ns with
  | nil => simp [Row.actionsFor]
  | cons n ns ih =>
    rw [List.nodup_cons] at hns
    rw [List.map_cons, actionsFor_cons, ih hns.2]
    by_cases hx : Symbol.token n = x
    · have hnone : ¬ ∃ m ∈ ns, x = .token m := by
        rintro ⟨m, hm, rfl⟩
        cases hx
        apply hns.1 hm
      rw [if_pos hx, if_neg hnone, if_pos ⟨n, List.mem_cons_self, hx.symm⟩]
    · have hiff : (∃ m ∈ n :: ns, x = .token m) ↔ ∃ m ∈ ns, x = .token m := by
        simp [List.mem_cons, Ne.symm hx]
      simp only [if_neg hx, hiff]

/-- Actions are alike that are given to sets of tokens that are counterparts. -/
theorem tokens (hg : g.Alike g') {tokens tokens' : IndexSet}
    (htokens : IndexSet.Counterpart g g' tokens tokens') (hnew : Action.Counterpart g g' new new') :
  CellsAlike g g' (tokens.toList.map fun n => (.token n, new))
    (tokens'.toList.map fun n => (.token n, new'))
  := by
  constructor
  · intro x x' hx
    have hiff : (∃ n ∈ tokens.toList, x = .token n) ↔ ∃ n ∈ tokens'.toList, x' = .token n := by
      constructor
      · rintro ⟨n, hn, rfl⟩
        obtain ⟨n', hn', hs⟩ := htokens.1 n (IndexSet.mem_toList.mp hn)
        exact ⟨n', IndexSet.mem_toList.mpr hn', hx.unique hg.right hs⟩
      · rintro ⟨n', hn', rfl⟩
        obtain ⟨n, hn, hs⟩ := htokens.2 n' (IndexSet.mem_toList.mp hn')
        exact ⟨n, IndexSet.mem_toList.mpr hn, hx.symm.unique hg.left hs⟩
    rw [actionsFor_tokens tokens.pairwise_toList.nodup, actionsFor_tokens tokens'.pairwise_toList.nodup]
    simp only [hiff]
    split
    · exact .cons hnew .nil
    · exact .nil
  · intro c hc
    obtain ⟨n, hn, rfl⟩ := List.mem_map.mp hc
    obtain ⟨n', -, hs⟩ := htokens.1 n (IndexSet.mem_toList.mp hn)
    use .token n'
  · intro c hc
    obtain ⟨n', hn', rfl⟩ := List.mem_map.mp hc
    obtain ⟨n, -, hs⟩ := htokens.2 n' (IndexSet.mem_toList.mp hn')
    exact ⟨.token n, hs.symm⟩

end Row.CellsAlike

/-- The candidates of counterparts are alike. -/
theorem State.Counterpart.candidates (hg : g.Alike g') {eof eof' : TokenId}
    (heof : Symbol.Counterpart g g' (.token eof) (.token eof')) {s s' : State}
    (h : State.Counterpart g g' s s') :
  Row.CellsAlike g g' (s.candidates eof) (s'.candidates eof')
  := by
  rw [State.candidates, State.candidates, List.map_eq_flatMap, List.map_eq_flatMap]
  apply Row.CellsAlike.append (.append _ _) _
  · rw [← h.accepts_eq]
    split
    · exact .singleton hg heof .accept
    · exact .nil
  · apply Row.CellsAlike.flatMap _ h.items
    intro e e' he
    rw [State.reductions, State.reductions, ← he.core.isComplete_eq hg]
    split
    · exact .tokens hg he.lookahead (.reduce he.core.rule)
    · exact .nil
  · apply Row.CellsAlike.flatMap _ h.transitions
    intro t t' ht
    apply Row.CellsAlike.singleton hg ht.symbol
    rw [← ht.symbol.kind_eq, ← ht.target_eq]
    split
    · exact .shift t.target
    · exact .goto t.target

/-! ### Tables -/

/-- The tables have as many rows, and their rows are counterparts. -/
structure ParseTable.Counterpart (g g' : Grammar) (t t' : ParseTable) : Prop where
  size_eq : t.rows.size = t'.rows.size
  row : ∀ id, Row.Counterpart g g' (t.row id) (t'.row id)

namespace ParseTable

variable {t t' : ParseTable} {n n' : TokenId} {stack stack' : List StateId}

namespace Counterpart

theorem symm (h : Counterpart g g' t t') :
  Counterpart g' g t' t
  := ⟨h.size_eq.symm, fun id => (h.row id).symm⟩

/-- If there is an action for a symbol, then it has a counterpart, which has a counterpart as action. -/
theorem exists_action? (h : Counterpart g g' t t') {action : Action}
    (ha : t.action? id x = some action) :
  ∃ x' action', Symbol.Counterpart g g' x x' ∧ t'.action? id x' = some action' ∧
    Action.Counterpart g g' action action'
  := by
  obtain ⟨x', hx⟩ := (h.row id).left x action ha
  obtain ⟨action', ha', haction⟩ := exists_eq_some_of_rel ((h.row id).action x x' hx) ha
  exact ⟨x', action', hx, ha', haction⟩

/-- What the one table reduces the other one does, too. -/
theorem reduceStates (hg : g.Alike g') (h : Counterpart g g' t t')
    (hn : Symbol.Counterpart g g' (.token n) (.token n'))
    (hstack : t.reduceStates n stack = some stack') :
  t'.reduceStates n' stack = some stack'
  := by
  rw [reduceStates_eq_some_iff] at hstack ⊢
  obtain ⟨top, r, exposed, below, target, htop, hreduce, hdrop, hgoto, rfl⟩ := hstack
  obtain ⟨_, hreduce', hr⟩ := exists_eq_some_of_rel ((h.row top).action _ _ hn) hreduce
  cases hr with
  | @reduce _ r' hr =>
    obtain ⟨_, hgoto', htarget⟩ :=
      exists_eq_some_of_rel ((h.row exposed).action _ _ (hr.owner hg)) hgoto
    cases htarget
    exact ⟨top, r', exposed, below, target, htop, hreduce', hr.arity_eq hg ▸ hdrop, hgoto', rfl⟩

/-- The replays by both tables are the same. -/
theorem replay_eq (hg : g.Alike g') (h : Counterpart g g' t t')
    (hn : Symbol.Counterpart g g' (.token n) (.token n')) (bound : Nat)
    (earlier : List (List StateId)) :
  t.replay n bound earlier stack = t'.replay n' bound earlier stack
  := by
  have hreduce : ∀ stack, t.reduceStates n stack = t'.reduceStates n' stack := by
    intro stack
    apply Option.ext
    intro stack'
    constructor
    · apply h.reduceStates hg hn
    · apply h.symm.reduceStates hg.symm hn.symm
  induction bound generalizing earlier stack with
  | zero => rfl
  | succ bound ih =>
    rw [replay, replay, h.size_eq, hreduce]
    split
    · rfl
    · cases t'.reduceStates n' stack with
      | none => rfl
      | some next => apply ih

end Counterpart

section filled

variable {a : AugmentedGrammar} {m : Automaton}

theorem IsFilledOf.action?_of_mem (h : IsFilledOf a m policy t) (hrow : t.rows.toList[id]? = some row)
    {action : Action} (hcell : (x, action) ∈ row) :
  t.action? id x = some action
  := by
  rw [Array.getElem?_toList] at hrow
  apply h.mem_row_iff.mp
  rw [ParseTable.row, hrow, Option.getD_some]
  apply hcell

/-- The tokens of a table have actions. -/
theorem IsFilledOf.exists_action?_of_mem_tokens (h : IsFilledOf a m policy t) (hn : n ∈ t.tokens) :
  ∃ id action, t.action? id (.token n) = some action
  := by
  rw [tokens, List.mem_eraseDups, List.mem_flatMap] at hn
  obtain ⟨row, hrow, hcell⟩ := hn
  obtain ⟨id, hid⟩ := List.mem_iff_getElem?.mp hrow
  obtain ⟨⟨⟨kind, n'⟩, action⟩, hcell, heq⟩ := List.mem_filterMap.mp hcell
  cases kind with
  | token =>
    cases heq
    exact ⟨id, action, h.action?_of_mem hid hcell⟩
  | term => cases heq
  | prompt => cases heq

/-- If reductions always end by a table, then they do by its counterpart. -/
theorem Counterpart.gotoLoop?_eq_none (hg : g.Alike g') (h : Counterpart g g' t t')
    (hfilled : IsFilledOf a m policy t) (hnone : t'.gotoLoop? = none) :
  t.gotoLoop? = none
  := by
  rw [gotoLoop?, List.findSome?_eq_none_iff]
  rintro ⟨row, origin⟩ hrow
  rw [List.findSome?_eq_none_iff]
  intro cell hcell
  split
  · next term target =>
    rw [Option.map_eq_none_iff, List.findSome?_eq_none_iff]
    intro n hn
    rw [endless?, Option.map_eq_none_iff]
    have hgoto := hfilled.action?_of_mem (List.mem_zipIdx_iff_getElem?.mp hrow) hcell
    obtain ⟨⟨kind, term'⟩, _, hterm, hgoto', htarget⟩ := h.exists_action? hgoto
    obtain rfl : Kind.term = kind := hterm.kind_eq
    cases htarget
    obtain ⟨id, action, haction⟩ := hfilled.exists_action?_of_mem_tokens hn
    obtain ⟨⟨kind, n'⟩, action', hn', haction', -⟩ := h.exists_action? haction
    obtain rfl : Kind.token = kind := hn'.kind_eq
    rw [h.replay_eq hg hn', replayBound, h.size_eq]
    apply replay_eq_none hnone hgoto' (mem_tokens_of_action? haction')
  · rfl

end filled

/-! ### Building -/

section build

variable {g g' : AugmentedGrammar}

/-- The rows of states that are counterparts are counterparts, or there are no rows of either. -/
theorem fillRows_counterpart (h : g.Alike g') (policy : Policy) {states states' : List State}
    (hstates : List.Forall₂ (State.Counterpart g.grammar g'.grammar) states states') (id : StateId) :
  RelOutcome (List.Forall₂ (Row.Counterpart g.grammar g'.grammar)) (fillRows g policy id states)
    (fillRows g' policy id states')
  := by
  induction hstates generalizing id with
  | nil => exact .ok .nil
  | @cons s s' states states' hs _ ih =>
    rw [fillRows, fillRows]
    have hcells := hs.candidates h.grammar h.eof
    have herror : ∀ c ∈ s.candidates g.eof, c.2.isError = false :=
      fun c hc => State.isError_of_mem_candidates hc
    apply (Row.foldlM_write_counterpart h.grammar policy id hcells herror).bind
    intro row row' hrow
    apply (ih (id + 1)).bind
    intro rows rows' hrows
    exact .ok (.cons hrow hrows)

/-- Tables with rows that are counterparts are counterparts. -/
theorem counterpart_of_rows {g g' : Grammar} {rows rows' : List Row} {eof eof' : TokenId}
    (h : List.Forall₂ (Row.Counterpart g g') rows rows') :
  Counterpart g g' ⟨rows.toArray, eof⟩ ⟨rows'.toArray, eof'⟩
  := by
  constructor
  · simp [h.length_eq]
  · intro id
    have hrel := rel_getElem? h id
    rw [row, row, List.getElem?_toArray, List.getElem?_toArray]
    generalize rows[id]? = o at hrel
    generalize rows'[id]? = o' at hrel
    cases hrel with
    | some hrow => apply hrow
    | none =>
      constructor
      · intro x x' _
        exact .none
      · intro x action hx
        cases hx
      · intro x action hx
        cases hx

/-- Of augmented grammars that are written alike, the tables are counterparts, or neither has one. -/
theorem counterpart_build (h : g.Alike g') (policy : Policy) :
  RelOutcome (Counterpart g.grammar g'.grammar) (build g (Automaton.build g) policy)
    (build g' (Automaton.build g') policy)
  := by
  have hrel := fillRows_counterpart h policy (Automaton.counterpart_build h) 0
  rw [build, build]
  generalize hrows : fillRows g policy 0 (Automaton.build g).states = outcome at hrel
  generalize hrows' : fillRows g' policy 0 (Automaton.build g').states = outcome' at hrel
  cases hrel with
  | error e e' => exact .error e e'
  | @ok rows rows' hcounterparts =>
    have hfilled := isFilledOf_of_fillRows hrows
    have hfilled' := isFilledOf_of_fillRows hrows'
    have ht : Counterpart g.grammar g'.grammar ⟨rows.toArray, g.eof⟩ ⟨rows'.toArray, g'.eof⟩ :=
      counterpart_of_rows hcounterparts
    simp only [bind, Except.bind]
    cases hloop : gotoLoop? ⟨rows.toArray, g.eof⟩ with
    | none =>
      rw [ht.symm.gotoLoop?_eq_none h.grammar.symm hfilled' hloop]
      exact .ok ht
    | some loop =>
      cases hloop' : gotoLoop? ⟨rows'.toArray, g'.eof⟩ with
      | none =>
        have hnone := ht.gotoLoop?_eq_none h.grammar hfilled hloop'
        cases hloop.symm.trans hnone
      | some loop' => exact .error _ _

end build

end ParseTable

end CanonicalLR
