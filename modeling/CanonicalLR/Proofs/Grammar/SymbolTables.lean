import Mathlib.Data.List.Nodup
import CanonicalLR.Proofs.Grammar.Names

/-!
# Proper symbol tables

A table is *proper* (`SymbolTable.Proper`) if its numbers are increasing and below the next one,
and its names are names, no two of them the same.  Then to look up by number and to look up by name
are inverse to each other: both tell whether an entry is there (`name?_eq_some_iff`,
`find?_eq_some_iff`).  Tables stay proper when a name is added and when a symbol is removed.
-/

namespace CanonicalLR.SymbolTable

/-- The numbers are increasing and were given out before, and the names are names, no two of them
the same. -/
structure Proper (t : SymbolTable) : Prop where
  ids_increasing : t.ids.Pairwise (· < ·)
  ids_old : ∀ id ∈ t.ids, id < t.next
  names_nodup : t.names.Nodup
  isName : ∀ name ∈ t.names, Text.IsName name

variable {t : SymbolTable} {id : Nat} {name : String}

theorem mem_ids_iff :
  id ∈ t.ids ↔ ∃ name, (id, name) ∈ t.entries
  := by
  simp [ids]

theorem mem_names_iff :
  name ∈ t.names ↔ ∃ id, (id, name) ∈ t.entries
  := by
  simp [names]

@[simp]
theorem contains_iff :
  t.contains id = true ↔ id ∈ t.ids
  := by
  simp [contains]

theorem proper_empty :
  Proper empty
  := ⟨.nil, by simp [ids, empty], .nil, by simp [names, empty]⟩

/-! ### Lookup -/

/-- A name is not found exactly if it is not there. -/
theorem find?_eq_none_iff :
  t.find? name = none ↔ name ∉ t.names
  := by
  simp only [find?, Option.map_eq_none_iff, List.find?_eq_none, beq_iff_eq, names, List.mem_map,
    not_exists, not_and]

namespace Proper

theorem ids_nodup (h : t.Proper) :
  t.ids.Nodup
  := h.ids_increasing.imp Nat.ne_of_lt

/-- The numbers stand for one name each. -/
theorem name_unique (h : t.Proper) {name' : String} (hm : (id, name) ∈ t.entries)
    (hm' : (id, name') ∈ t.entries) :
  name = name'
  := congrArg Prod.snd (List.inj_on_of_nodup_map h.ids_nodup hm hm' rfl)

/-- The names stand for one number each. -/
theorem id_unique (h : t.Proper) {id' : Nat} (hm : (id, name) ∈ t.entries)
    (hm' : (id', name) ∈ t.entries) :
  id = id'
  := congrArg Prod.fst (List.inj_on_of_nodup_map h.names_nodup hm hm' rfl)

theorem name?_eq_some_iff (h : t.Proper) :
  t.name? id = some name ↔ (id, name) ∈ t.entries
  := by
  rw [name?]
  constructor
  · intro hl
    obtain ⟨before, after, he, -⟩ := List.lookup_eq_some_iff.mp hl
    simp [he]
  · intro hm
    cases hl : t.entries.lookup id with
    | none =>
      have := List.lookup_eq_none_iff.mp hl (id, name) hm
      simp at this
    | some name' =>
      obtain ⟨before, after, he, -⟩ := List.lookup_eq_some_iff.mp hl
      have hm' : (id, name') ∈ t.entries := by simp [he]
      rw [h.name_unique hm hm']

theorem find?_eq_some_iff (h : t.Proper) :
  t.find? name = some id ↔ (id, name) ∈ t.entries
  := by
  constructor
  · intro hf
    obtain ⟨⟨id', name'⟩, hm, rfl⟩ := Option.map_eq_some_iff.mp hf
    obtain rfl : name' = name := by simpa using List.find?_some hm
    apply List.mem_of_find?_eq_some hm
  · intro hm
    cases hf : t.find? name with
    | none => apply absurd (mem_names_iff.mpr ⟨id, hm⟩) (find?_eq_none_iff.mp hf)
    | some id' =>
      obtain ⟨⟨id'', name'⟩, hm', rfl⟩ := Option.map_eq_some_iff.mp hf
      obtain rfl : name' = name := by simpa using List.find?_some hm'
      rw [h.id_unique hm (List.mem_of_find?_eq_some hm')]

end Proper

/-! ### Adding and removing -/

/-- A name that is there is not added again. -/
theorem intern_of_mem (h : t.Proper) (hm : (id, name) ∈ t.entries) :
  t.intern name = (id, t)
  := by
  rw [intern, h.find?_eq_some_iff.mpr hm]

/-- A name that is not there is added with the next number. -/
theorem intern_of_not_mem (hn : name ∉ t.names) :
  t.intern name = (t.next, ⟨t.entries ++ [(t.next, name)], t.next + 1⟩)
  := by
  rw [intern, find?_eq_none_iff.mpr hn]

/-- The entries after a name was added are those before and that of the name. -/
theorem mem_intern (h : t.Proper) {entry : Nat × String} :
  entry ∈ (t.intern name).2.entries ↔ entry ∈ t.entries ∨ entry = ((t.intern name).1, name)
  := by
  by_cases hn : name ∈ t.names
  · obtain ⟨id, hm⟩ := mem_names_iff.mp hn
    rw [intern_of_mem h hm]
    constructor
    · exact .inl
    · rintro (he | rfl)
      · apply he
      · apply hm
  · simp [intern_of_not_mem hn]

theorem Proper.intern (h : t.Proper) (hname : Text.IsName name) :
  (t.intern name).2.Proper
  := by
  by_cases hn : name ∈ t.names
  · obtain ⟨id, hm⟩ := mem_names_iff.mp hn
    rw [intern_of_mem h hm]
    apply h
  · rw [intern_of_not_mem hn]
    constructor
    · simp only [ids, List.map_append, List.map_cons, List.map_nil]
      apply List.pairwise_append.mpr
      refine ⟨h.ids_increasing, List.pairwise_singleton _ _, ?_⟩
      intro id hid next hnext
      rw [List.mem_singleton.mp hnext]
      apply h.ids_old id hid
    · intro id hid
      simp only [ids, List.map_append, List.mem_append] at hid
      rcases hid with hid | hid
      · apply Nat.lt_succ_of_lt (h.ids_old id hid)
      · simp at hid
        simp [hid]
    · simp only [names, List.map_append, List.map_cons, List.map_nil]
      apply List.nodup_append.mpr
      refine ⟨h.names_nodup, List.pairwise_singleton _ _, ?_⟩
      rintro name' hn' _ hlast rfl
      rw [List.mem_singleton.mp hlast] at hn'
      apply hn hn'
    · intro name' hn'
      simp only [names, List.map_append, List.mem_append] at hn'
      rcases hn' with hn' | hn'
      · apply h.isName name' hn'
      · simp at hn'
        rwa [hn']

theorem Proper.erase (h : t.Proper) (id : Nat) :
  (t.erase id).Proper
  := by
  have hs : (t.erase id).entries.Sublist t.entries := List.filter_sublist
  constructor
  · apply h.ids_increasing.sublist (hs.map _)
  · intro id' hid'
    apply h.ids_old id' ((hs.map _).subset hid')
  · apply h.names_nodup.sublist (hs.map _)
  · intro name hn
    apply h.isName name ((hs.map _).subset hn)

end CanonicalLR.SymbolTable
