import CanonicalLR.Proofs.Table.Cells

/-!
# Expected tokens

A row has at most one action for a symbol (`IsFilledOf.nodup_row`).  So its actions are those of the
table (`IsFilledOf.mem_row_iff`), and each of the tokens that are expected is listed once
(`Row.nodup_expectedTokens`).
-/

namespace CanonicalLR

namespace Row

variable {g : Grammar} {policy : Policy} {id : StateId} {row row' : Row} {cell : Symbol × Action}
  {cells : List (Symbol × Action)} {x : Symbol} {action : Action} {n : TokenId}

/-- No other symbols have an action once one has been replaced. -/
theorem map_fst_replace :
  (row.replace x action).map Prod.fst = row.map Prod.fst
  := by
  rw [replace, List.map_map]
  apply List.map_congr_left
  intro cell _
  rw [Function.comp_apply]
  split
  · next h => rw [h]
  · rfl

/-- An action is written for a symbol that has none yet, or it takes the place of another one. -/
theorem nodup_write (h : row.write g policy id cell = .ok row') (hrow : (row.map Prod.fst).Nodup) :
  (row'.map Prod.fst).Nodup
  := by
  rw [write] at h
  split at h
  · next hnone =>
    cases h
    rw [List.map_append, List.map_singleton]
    apply hrow.append (List.nodup_singleton _)
    rw [List.disjoint_singleton]
    intro hmem
    obtain ⟨prior, hprior, heq⟩ := List.mem_map.mp hmem
    apply absurd (List.lookup_eq_none_iff.mp hnone prior hprior)
    simp [heq]
  · split at h
    · cases h
      apply hrow
    · obtain ⟨resolved, -, rfl⟩ := Grammar.exists_of_map_eq_ok h
      rw [map_fst_replace]
      apply hrow

theorem nodup_foldlM_write (h : cells.foldlM (write g policy id) row = .ok row')
    (hrow : (row.map Prod.fst).Nodup) :
  (row'.map Prod.fst).Nodup
  := by
  induction cells generalizing row with
  | nil =>
    cases h
    apply hrow
  | cons cell cells ih =>
    obtain ⟨next, hwrite, hrest⟩ := exists_of_foldlM_cons h
    apply ih hrest (nodup_write hwrite hrow)

/-- The tokens that are expected are those that the row has an action for. -/
theorem mem_expectedTokens :
  n ∈ row.expectedTokens ↔ ∃ action, (.token n, action) ∈ row ∧ action.isError = false
  := by
  rw [expectedTokens, List.mem_filterMap]
  constructor
  · rintro ⟨⟨⟨kind, id⟩, action⟩, hcell, h⟩
    cases kind with
    | token =>
      obtain ⟨herror, heq⟩ := Option.ite_none_left_eq_some.mp h
      cases heq
      use action, hcell, Bool.eq_false_iff.mpr herror
    | term => cases h
    | prompt => cases h
  · rintro ⟨action, hcell, herror⟩
    use (.token n, action), hcell
    simp [herror]

/-- A token is listed once if it has one action. -/
theorem nodup_expectedTokens (hrow : (row.map Prod.fst).Nodup) :
  row.expectedTokens.Nodup
  := by
  induction row with
  | nil => exact List.nodup_nil
  | cons cell row ih =>
    obtain ⟨⟨kind, id⟩, action⟩ := cell
    rw [List.map_cons, List.nodup_cons] at hrow
    have hrest := ih hrow.2
    cases kind with
    | token =>
      by_cases herror : action.isError = true
      · simpa [expectedTokens, herror] using hrest
      · have hnew : id ∉ expectedTokens row := by
          intro hmem
          obtain ⟨other, hother, -⟩ := mem_expectedTokens.mp hmem
          apply hrow.1 (List.mem_map.mpr ⟨_, hother, rfl⟩)
        have hcons : expectedTokens ((.token id, action) :: row) = id :: expectedTokens row := by
          simp [expectedTokens, herror]
        rw [hcons]
        apply List.nodup_cons.mpr ⟨hnew, hrest⟩
    | term => apply hrest
    | prompt => apply hrest

end Row

namespace ParseTable.IsFilledOf

variable {g : AugmentedGrammar} {m : Automaton} {policy : Policy} {t : ParseTable} {id : StateId}
  {x : Symbol} {action : Action} {n : TokenId}

/-- There is at most one action for a symbol in each row. -/
theorem nodup_row (h : IsFilledOf g m policy t) :
  ((t.row id).map Prod.fst).Nodup
  := by
  cases hs : m.states[id]? with
  | none =>
    rw [List.getElem?_eq_none_iff, ← h.size_eq] at hs
    rw [ParseTable.row, Array.getElem?_eq_none hs]
    exact List.nodup_nil
  | some state => apply Row.nodup_foldlM_write (h.fillRow_eq id state hs) List.nodup_nil

/-- The actions of the table are those in its rows. -/
theorem mem_row_iff (h : IsFilledOf g m policy t) :
  (x, action) ∈ t.row id ↔ t.action? id x = some action
  := by
  rw [action?, List.lookup_eq_some_iff]
  constructor
  · intro hcell
    obtain ⟨before, after, heq⟩ := List.append_of_mem hcell
    use before, after, heq
    intro other hother
    have hnodup : ((t.row id).map Prod.fst).Nodup := h.nodup_row
    rw [heq, List.map_append, List.map_cons] at hnodup
    have hne : x ≠ other.1 := by
      rintro rfl
      apply List.disjoint_of_nodup_append hnodup (List.mem_map_of_mem hother) List.mem_cons_self
    simpa using hne
  · rintro ⟨before, after, heq, -⟩
    rw [heq]
    apply List.mem_append_right _ List.mem_cons_self

/-- The tokens are expected for which there is an action that does not refuse them. -/
theorem mem_expectedTokens_iff (h : IsFilledOf g m policy t) :
  n ∈ (t.row id).expectedTokens ↔
    ∃ action, t.action? id (.token n) = some action ∧ action.isError = false
  := by
  simp only [Row.mem_expectedTokens, h.mem_row_iff]

end ParseTable.IsFilledOf

end CanonicalLR
