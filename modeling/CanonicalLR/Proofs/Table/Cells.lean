import Mathlib.Tactic.Use
import CanonicalLR.Table.GotoLoop
import CanonicalLR.Proofs.Automaton.ItemSets
import CanonicalLR.Proofs.Grammar.WellFormed

/-!
# The cells of a parse table

The actions in the row of a state are candidates of that state, apart from those by which a token is
refused (`lookup_foldlM_write`).  Under the policy that allows no conflict the row has all the
candidates, and so for each symbol at most one (`lookup_foldlM_write_of_mem`); under any policy it
has a candidate that is the only one for its symbol (`lookup_foldlM_write_of_unique`).

The actions for a symbol are written one after the other, and where two meet, the policy decides.  What
a row has for a symbol depends on the candidates for this symbol only (`foldlM_write_cases`).

A table that could be built has such a row for each state, and no transition after which reductions
never end (`isTableOf_build`).
-/

namespace CanonicalLR

variable {policy : Policy} {x : Symbol} {action : Action} {row row' : Row}
  {cell : Symbol × Action} {cells : List (Symbol × Action)}

namespace Row

variable {g : Grammar} {id : StateId} {new : Action} {actions : List Action}
  {prior? held : Option Action}

theorem lookup_cons {y : Symbol} {prior : Action} :
  List.lookup x ((y, prior) :: row) = if x = y then some prior else row.lookup x
  := by
  rw [List.lookup_cons]
  split
  · next h => rw [if_pos (eq_of_beq h)]
  · next h => rw [if_neg (ne_of_beq_false h)]

/-- The actions once one has been replaced. -/
theorem lookup_replace {s : Symbol} :
  (row.replace s action).lookup x =
    if x = s then (row.lookup s).map fun _ => action else row.lookup x
  := by
  induction row with
  | nil => simp [replace]
  | cons cell row ih =>
    rw [replace] at ih ⊢
    obtain ⟨y, prior⟩ := cell
    rw [List.map_cons]
    by_cases hy : y = s
    · subst hy
      rw [if_pos rfl, lookup_cons, lookup_cons, lookup_cons, ih, if_pos rfl]
      by_cases hx : x = y
      · rw [if_pos hx, if_pos hx, Option.map_some]
      · simp only [if_neg hx]
    · rw [if_neg hy, lookup_cons, lookup_cons, lookup_cons, ih, if_neg (Ne.symm hy)]
      by_cases hx : x = y
      · rw [if_pos hx, if_neg (hx.trans_ne hy), if_pos hx]
      · rw [if_neg hx, if_neg hx]

/-- A row in which something has been written comes from a row in which the first of it has been
written. -/
theorem exists_of_foldlM_cons (h : (cell :: cells).foldlM (write g policy id) row = .ok row') :
  ∃ next, row.write g policy id cell = .ok next ∧
    cells.foldlM (write g policy id) next = .ok row'
  := by
  rw [List.foldlM_cons] at h
  cases hnext : row.write g policy id cell with
  | error e =>
    rw [hnext] at h
    cases h
  | ok next =>
    rw [hnext] at h
    use next, rfl
    apply h

/-! ### One symbol at a time -/

/-- The actions of a list that are for a symbol. -/
def actionsFor (x : Symbol) (cells : List (Symbol × Action)) : List Action :=
  cells.filterMap fun c => if c.1 = x then some c.2 else none

/-- The action for a symbol when one more is written. -/
def meet (g : Grammar) (policy : Policy) (id : StateId) (x : Symbol) (prior : Option Action)
    (new : Action) : Except TableError Action :=
  match prior with
  | none => .ok new
  | some prior => if prior = new then .ok prior else policy.resolve g ⟨id, x, prior, new⟩

/-- The action for a symbol when all actions of a list are written for it. -/
def settle (g : Grammar) (policy : Policy) (id : StateId) (x : Symbol) :
    Option Action → List Action → Except TableError (Option Action)
  | prior, [] => .ok prior
  | prior, new :: actions => do
    let action ← meet g policy id x prior new
    settle g policy id x (some action) actions

theorem actionsFor_cons {cell : Symbol × Action} :
  actionsFor x (cell :: cells) =
    if cell.1 = x then cell.2 :: actionsFor x cells else actionsFor x cells
  := by
  rw [actionsFor, List.filterMap_cons]
  by_cases hx : cell.1 = x
  · simp only [if_pos hx, actionsFor]
  · simp only [if_neg hx, actionsFor]

theorem mem_actionsFor :
  action ∈ actionsFor x cells ↔ (x, action) ∈ cells
  := by
  simp only [actionsFor, List.mem_filterMap, Option.ite_none_right_eq_some, Option.some.injEq]
  constructor
  · rintro ⟨⟨y, action⟩, hcell, rfl, rfl⟩
    apply hcell
  · intro hcell
    use (x, action), hcell

/-- To write an action means to write it for its symbol only. -/
theorem write_cases (g : Grammar) (policy : Policy) (id : StateId) (row : Row)
    (cell : Symbol × Action) :
  (∃ e, row.write g policy id cell = .error e ∧
      meet g policy id cell.1 (row.lookup cell.1) cell.2 = .error e) ∨
    ∃ row' action, row.write g policy id cell = .ok row' ∧
      meet g policy id cell.1 (row.lookup cell.1) cell.2 = .ok action ∧
      ∀ x, row'.lookup x = if x = cell.1 then some action else row.lookup x
  := by
  obtain ⟨y, new⟩ := cell
  rw [write]
  cases hy : row.lookup y with
  | none =>
    refine .inr ⟨_, new, rfl, rfl, ?_⟩
    intro x
    rw [List.lookup_append, lookup_cons]
    split
    · next hx => rw [hx, hy, Option.none_or]
    · rw [List.lookup_nil, Option.or_none]
  | some prior =>
    rw [meet]
    by_cases heq : prior = new
    · rw [if_pos heq]
      refine .inr ⟨row, prior, if_pos heq, rfl, ?_⟩
      intro x
      split
      · next hx => rw [hx, hy]
      · rfl
    · rw [if_neg heq]
      cases hresolve : policy.resolve g ⟨id, y, prior, new⟩ with
      | error e =>
        refine .inl ⟨e, ?_, rfl⟩
        simp only [if_neg heq, hresolve, Except.map]
      | ok action =>
        refine .inr ⟨row.replace y action, action, ?_, rfl, ?_⟩
        · simp only [if_neg heq, hresolve, Except.map]
        · intro x
          rw [lookup_replace, hy, Option.map_some]

/-- To write actions into a row means to write those for each symbol, one symbol at a time. -/
theorem foldlM_write_cases (g : Grammar) (policy : Policy) (id : StateId) (row : Row)
    (cells : List (Symbol × Action)) :
  (∃ e, cells.foldlM (write g policy id) row = .error e ∧ ∃ cell ∈ cells,
      settle g policy id cell.1 (row.lookup cell.1) (actionsFor cell.1 cells) = .error e) ∨
    ∃ row', cells.foldlM (write g policy id) row = .ok row' ∧
      ∀ x, settle g policy id x (row.lookup x) (actionsFor x cells) = .ok (row'.lookup x)
  := by
  induction cells generalizing row with
  | nil => exact .inr ⟨row, rfl, fun _ => rfl⟩
  | cons cell cells ih =>
    rw [List.foldlM_cons]
    rcases write_cases g policy id row cell with
      ⟨e, hwrite, hmeet⟩ | ⟨next, action, hwrite, hmeet, hnext⟩
    · refine .inl ⟨e, by rw [hwrite]; rfl, cell, List.mem_cons_self, ?_⟩
      rw [actionsFor_cons, if_pos rfl, settle, hmeet]
      rfl
    · have hsettle : ∀ x, settle g policy id x (row.lookup x) (actionsFor x (cell :: cells)) =
          settle g policy id x (next.lookup x) (actionsFor x cells) := by
        intro x
        rw [actionsFor_cons, hnext]
        by_cases hx : x = cell.1
        · rw [if_pos hx.symm, if_pos hx, settle, hx, hmeet]
          rfl
        · rw [if_neg (Ne.symm hx), if_neg hx]
      rw [hwrite]
      rcases ih next with ⟨e, hrest, other, hother, herror⟩ | ⟨row', hrest, hok⟩
      · exact .inl ⟨e, hrest, other, List.mem_cons_of_mem _ hother, (hsettle _).trans herror⟩
      · exact .inr ⟨row', hrest, fun x => (hsettle x).trans (hok x)⟩

/-- What is found in a row for a symbol after actions have been written is settled by those for the
symbol. -/
theorem settle_of_foldlM_write (h : cells.foldlM (write g policy id) row = .ok row') (x : Symbol) :
  settle g policy id x (row.lookup x) (actionsFor x cells) = .ok (row'.lookup x)
  := by
  rcases foldlM_write_cases g policy id row cells with ⟨e, herror, -⟩ | ⟨next, hnext, hsettle⟩
  · rw [herror] at h
    cases h
  · obtain rfl := Except.ok.inj (h.symm.trans hnext)
    apply hsettle

/-! ### What is found -/

/-- What a conflict comes to is one of its actions, or the token is refused. -/
theorem resolve_spec {c : Conflict} (h : policy.resolve g c = .ok action) :
  action = c.prior ∨ action = c.new ∨ action.isError = true
  := by
  cases policy with
  | fail => cases h
  | useFirst =>
    cases h
    left
    rfl
  | useLast =>
    cases h
    right
    left
    rfl
  | preferShift =>
    cases h
    split <;> simp
  | preferReduce =>
    cases h
    split <;> simp
  | reject =>
    cases h
    right
    right
    rfl

/-- An action is the first one for its symbol, or it meets itself, or the policy decides. -/
theorem meet_cases (h : meet g policy id x prior? new = .ok action) :
  (prior? = none ∧ action = new) ∨ (prior? = some action ∧ action = new) ∨
    ∃ prior, prior? = some prior ∧ prior ≠ new ∧
      policy.resolve g ⟨id, x, prior, new⟩ = .ok action
  := by
  cases prior? with
  | none =>
    cases h
    left
    use rfl
  | some prior =>
    right
    rw [meet] at h
    split at h
    · next heq =>
      cases h
      left
      use rfl
    · next hne =>
      right
      use prior, rfl, hne

/-- Where two actions meet, there is one of them in the end, or the token is refused. -/
theorem meet_spec (h : meet g policy id x prior? new = .ok action) :
  prior? = some action ∨ action = new ∨ action.isError = true
  := by
  rcases meet_cases h with ⟨-, rfl⟩ | ⟨rfl, -⟩ | ⟨prior, rfl, -, hresolve⟩
  · right
    left
    rfl
  · left
    rfl
  · rw [Option.some_inj, eq_comm]
    apply resolve_spec hresolve

/-- Under the policy that allows no conflict, what meets is the same. -/
theorem meet_fail (h : meet g .fail id x prior? new = .ok action) :
  action = new ∧ ∀ prior, prior? = some prior → prior = action
  := by
  rcases meet_cases h with ⟨rfl, rfl⟩ | ⟨rfl, rfl⟩ | ⟨prior, -, -, hresolve⟩
  · use rfl
    rintro _ ⟨⟩
  · use rfl
    rintro _ ⟨⟩
    rfl
  · cases hresolve

/-- What is settled was there before, or it is one of the actions, or the token is refused. -/
theorem settle_spec (h : settle g policy id x prior? actions = .ok (some action)) :
  prior? = some action ∨ action ∈ actions ∨ action.isError = true
  := by
  induction actions generalizing prior? with
  | nil =>
    cases h
    left
    rfl
  | cons new actions ih =>
    obtain ⟨next, hmeet, hrest⟩ := Grammar.exists_of_bind_eq_ok h
    rcases ih hrest with hnext | hmem | herror
    · obtain rfl := Option.some.inj hnext
      apply (meet_spec hmeet).imp_right
      apply Or.imp_left
      rintro rfl
      apply List.mem_cons_self
    · right
      left
      apply List.mem_cons_of_mem _ hmem
    · right
      right
      apply herror

/-- Under the policy that allows no conflict, all actions are the one that is settled. -/
theorem settle_fail (h : settle g .fail id x prior? actions = .ok held)
    (haction : prior? = some action ∨ action ∈ actions) :
  held = some action
  := by
  induction actions generalizing prior? with
  | nil =>
    cases h
    simpa using haction
  | cons new actions ih =>
    obtain ⟨next, hmeet, hrest⟩ := Grammar.exists_of_bind_eq_ok h
    obtain ⟨rfl, hprior⟩ := meet_fail hmeet
    apply ih hrest
    rcases haction with rfl | hmem
    · left
      rw [hprior action rfl]
    · apply (List.mem_cons.mp hmem).imp_left
      rintro rfl
      rfl

/-- Whatever the policy, an action that meets itself only is settled. -/
theorem settle_of_unique (h : settle g policy id x prior? actions = .ok held)
    (hactions : ∀ other ∈ actions, other = action)
    (hprior : ∀ prior, prior? = some prior → prior = action)
    (haction : prior? = some action ∨ action ∈ actions) :
  held = some action
  := by
  induction actions generalizing prior? with
  | nil =>
    cases h
    simpa using haction
  | cons new actions ih =>
    obtain ⟨next, hmeet, hrest⟩ := Grammar.exists_of_bind_eq_ok h
    have hnext : next = action := by
      rcases meet_cases hmeet with ⟨-, rfl⟩ | ⟨rfl, -⟩ | ⟨prior, rfl, hne, -⟩
      · apply hactions next List.mem_cons_self
      · apply hprior next rfl
      · rw [hprior prior rfl, hactions new List.mem_cons_self] at hne
        apply absurd rfl hne
    subst hnext
    apply ih hrest (fun other ho => hactions other (List.mem_cons_of_mem _ ho)) _ (.inl rfl)
    rintro prior ⟨⟩
    rfl

/-- What is found in a row was there before, or it has been written, or a token is refused. -/
theorem lookup_foldlM_write (h : cells.foldlM (write g policy id) row = .ok row')
    (hx : row'.lookup x = some action) :
  row.lookup x = some action ∨ (x, action) ∈ cells ∨ action.isError = true
  := by
  rw [← mem_actionsFor]
  apply settle_spec
  rw [settle_of_foldlM_write h, hx]

/-- Under the policy that allows no conflict, all that is written is found, and what was there
before. -/
theorem lookup_foldlM_write_of_mem (h : cells.foldlM (write g .fail id) row = .ok row')
    (hx : row.lookup x = some action ∨ (x, action) ∈ cells) :
  row'.lookup x = some action
  := by
  rw [← mem_actionsFor] at hx
  apply settle_fail (settle_of_foldlM_write h x) hx

/-- Whatever the policy, the only action that is written for a symbol is found. -/
theorem lookup_foldlM_write_of_unique (h : cells.foldlM (write g policy id) row = .ok row')
    (hcells : ∀ other, (x, other) ∈ cells → other = action)
    (hrow : ∀ prior, row.lookup x = some prior → prior = action)
    (hx : row.lookup x = some action ∨ (x, action) ∈ cells) :
  row'.lookup x = some action
  := by
  simp only [← mem_actionsFor] at hcells hx
  apply settle_of_unique (settle_of_foldlM_write h x) hcells hrow hx

end Row

/-! ### Candidates -/

namespace State

variable {eof : TokenId} {s : State} {target : StateId} {r : Rule} {n : TokenId}

/-- A reduction is a candidate on the tokens in the lookahead of a complete core. -/
theorem mem_reductions {e : ItemSet.Entry} {c : Symbol × Action} :
  c ∈ reductions e ↔ e.core.isComplete ∧
    ∃ n, n ∈ e.lookahead ∧ c = (.token n, .reduce e.core.rule)
  := by
  rw [reductions]
  split
  · next h =>
    simp only [List.mem_map, IndexSet.mem_toList, h, true_and]
    constructor
    · rintro ⟨n, hn, rfl⟩
      use n
    · rintro ⟨n, hn, rfl⟩
      use n
  · next h => simp [h]

/-- What the candidates of a state are. -/
theorem mem_candidates {c : Symbol × Action} :
  c ∈ s.candidates eof ↔ s.accepts = true ∧ c = (.token eof, .accept) ∨
    (∃ e ∈ s.items.entries, e.core.isComplete ∧
      ∃ n, n ∈ e.lookahead ∧ c = (.token n, .reduce e.core.rule)) ∨
    ∃ t ∈ s.transitions, c = follow t
  := by
  rw [candidates, List.mem_append, List.mem_append, or_assoc]
  simp only [List.mem_ite_nil_right, List.mem_singleton, List.mem_flatMap, mem_reductions,
    List.mem_map, eq_comm (a := c)]

theorem shift_mem_candidates :
  (x, .shift target) ∈ s.candidates eof ↔ ⟨x, target⟩ ∈ s.transitions ∧ x.kind = .token
  := by
  rw [mem_candidates]
  constructor
  · rintro (⟨-, h⟩ | ⟨_, -, -, _, -, h⟩ | ⟨t, ht, h⟩)
    · cases h
    · cases h
    · rw [follow] at h
      split at h
      · next hkind =>
        cases h
        use ht
      · cases h
  · rintro ⟨ht, hkind⟩
    right
    right
    use ⟨x, target⟩, ht
    rw [follow, if_pos hkind]

theorem goto_mem_candidates :
  (x, .goto target) ∈ s.candidates eof ↔ ⟨x, target⟩ ∈ s.transitions ∧ x.kind ≠ .token
  := by
  rw [mem_candidates]
  constructor
  · rintro (⟨-, h⟩ | ⟨_, -, -, _, -, h⟩ | ⟨t, ht, h⟩)
    · cases h
    · cases h
    · rw [follow] at h
      split at h
      · cases h
      · next hkind =>
        cases h
        use ht
  · rintro ⟨ht, hkind⟩
    right
    right
    use ⟨x, target⟩, ht
    rw [follow, if_neg hkind]

theorem reduce_mem_candidates :
  (x, .reduce r) ∈ s.candidates eof ↔ ∃ e ∈ s.items.entries, e.core.isComplete ∧
    e.core.rule = r ∧ ∃ n, n ∈ e.lookahead ∧ x = .token n
  := by
  rw [mem_candidates]
  constructor
  · rintro (⟨-, h⟩ | ⟨e, he, hc, n, hn, h⟩ | ⟨t, ht, h⟩)
    · cases h
    · cases h
      use e, he, hc, rfl, n, hn
    · rw [follow] at h
      split at h <;> cases h
  · rintro ⟨e, he, hc, rfl, n, hn, rfl⟩
    right
    left
    use e, he, hc, n, hn

theorem accept_mem_candidates :
  (x, .accept) ∈ s.candidates eof ↔ s.accepts = true ∧ x = .token eof
  := by
  rw [mem_candidates]
  constructor
  · rintro (⟨haccepts, h⟩ | ⟨_, -, -, _, -, h⟩ | ⟨t, ht, h⟩)
    · cases h
      use haccepts
    · cases h
    · rw [follow] at h
      split at h <;> cases h
  · rintro ⟨haccepts, rfl⟩
    left
    use haccepts

/-- No state asks to refuse a token. -/
theorem isError_of_mem_candidates (h : (x, action) ∈ s.candidates eof) :
  action.isError = false
  := by
  rcases mem_candidates.mp h with ⟨-, h⟩ | ⟨_, -, -, _, -, h⟩ | ⟨t, -, h⟩
  · cases h
    rfl
  · cases h
    rfl
  · rw [follow] at h
    split at h <;> cases h <;> rfl

/-- All that is done on a symbol that is no token is to follow a transition. -/
theorem eq_goto_of_mem_candidates (hx : x.kind ≠ .token) (h : (x, action) ∈ s.candidates eof) :
  ∃ target, action = .goto target ∧ ⟨x, target⟩ ∈ s.transitions
  := by
  rcases mem_candidates.mp h with ⟨-, h⟩ | ⟨_, -, -, _, -, h⟩ | ⟨⟨symbol, target⟩, ht, h⟩
  · cases h
    apply absurd rfl hx
  · cases h
    apply absurd rfl hx
  · obtain ⟨rfl, rfl⟩ := Prod.mk.inj h
    use target, if_neg hx

end State

/-! ### The table -/

namespace ParseTable

variable {g : AugmentedGrammar} {m : Automaton} {t : ParseTable} {id : StateId} {state : State}
  {states : List State} {rows : List Row}

/-- There is a row for each state, in which its candidates have been written. -/
theorem fillRows_spec (h : fillRows g policy id states = .ok rows) :
  rows.length = states.length ∧ ∀ (i : Nat) (state : State), states[i]? = some state →
    ∃ row, rows[i]? = some row ∧ fillRow g policy (id + i) state = .ok row
  := by
  induction states generalizing id rows with
  | nil =>
    cases h
    use rfl
    intro i state hs
    cases hs
  | cons s states ih =>
    rw [fillRows] at h
    cases hrow : fillRow g policy id s with
    | error e =>
      rw [hrow] at h
      cases h
    | ok row =>
      cases hrows : fillRows g policy (id + 1) states with
      | error e =>
        rw [hrow, hrows] at h
        cases h
      | ok rest =>
        rw [hrow, hrows] at h
        cases h
        obtain ⟨hlength, hrest⟩ := ih hrows
        use congrArg Nat.succ hlength
        intro i state hs
        cases i with
        | zero =>
          cases hs
          use row, rfl, hrow
        | succ i =>
          obtain ⟨row', hrow', hfill⟩ := hrest i state hs
          use row', hrow'
          rw [← hfill, Nat.add_assoc, Nat.add_comm 1]

/-- The rows of the table have been filled with what the states ask for. -/
structure IsFilledOf (g : AugmentedGrammar) (m : Automaton) (policy : Policy) (t : ParseTable) :
    Prop where
  eof_eq : t.eof = g.eof
  size_eq : t.rows.size = m.states.length
  fillRow_eq : ∀ (id : StateId) (state : State), m.states[id]? = some state →
    fillRow g policy id state = .ok (t.row id)

/-- What is known of a table that could be built. -/
structure IsTableOf (g : AugmentedGrammar) (m : Automaton) (policy : Policy) (t : ParseTable) : Prop
    extends IsFilledOf g m policy t where
  gotoLoop?_eq : t.gotoLoop? = none

/-- The rows of all states are those of a table. -/
theorem isFilledOf_of_fillRows (h : fillRows g policy 0 m.states = .ok rows) :
  IsFilledOf g m policy ⟨rows.toArray, g.eof⟩
  := by
  obtain ⟨hlength, hfill⟩ := fillRows_spec h
  use rfl
  · simpa using hlength
  · intro id state hs
    obtain ⟨row, hrow, hfill⟩ := hfill id state hs
    rw [Nat.zero_add] at hfill
    rw [hfill, ParseTable.row, List.getElem?_toArray, hrow, Option.getD_some]

/-- A table that could be built has a row for each state, and no transition after which reductions
never end. -/
theorem isTableOf_build (h : build g m policy = .ok t) :
  IsTableOf g m policy t
  := by
  rw [build] at h
  cases hrows : fillRows g policy 0 m.states with
  | error e =>
    rw [hrows] at h
    cases h
  | ok rows =>
    rw [hrows] at h
    simp only [bind, Except.bind] at h
    split at h
    · next hloop =>
      cases h
      use isFilledOf_of_fillRows hrows
    · cases h

namespace IsFilledOf

/-- An action of the table is a candidate of a state, or the token is refused. -/
theorem mem_candidates_of_action? (h : IsFilledOf g m policy t) (ha : t.action? id x = some action) :
  ∃ state, m.states[id]? = some state ∧
    ((x, action) ∈ state.candidates g.eof ∨ action.isError = true)
  := by
  rw [action?] at ha
  cases hs : m.states[id]? with
  | none =>
    rw [List.getElem?_eq_none_iff, ← h.size_eq] at hs
    rw [ParseTable.row, Array.getElem?_eq_none hs] at ha
    cases ha
  | some state =>
    use state, rfl
    have hfill := h.fillRow_eq id state hs
    rcases Row.lookup_foldlM_write hfill ha with hnil | hcell
    · cases hnil
    · apply hcell

/-- Under the policy that allows no conflict, the candidates of a state are its actions. -/
theorem action?_of_mem_candidates (h : IsFilledOf g m .fail t) (hs : m.states[id]? = some state)
    (hx : (x, action) ∈ state.candidates g.eof) :
  t.action? id x = some action
  := Row.lookup_foldlM_write_of_mem (h.fillRow_eq id state hs) (.inr hx)

/-- Whatever the policy, the only candidate of a state for a symbol is its action. -/
theorem action?_of_unique (h : IsFilledOf g m policy t) (hs : m.states[id]? = some state)
    (hx : (x, action) ∈ state.candidates g.eof)
    (hunique : ∀ other, (x, other) ∈ state.candidates g.eof → other = action) :
  t.action? id x = some action
  := by
  apply Row.lookup_foldlM_write_of_unique (h.fillRow_eq id state hs) hunique _ (.inr hx)
  rintro prior ⟨⟩

end IsFilledOf

end ParseTable

end CanonicalLR
