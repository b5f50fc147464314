import CanonicalLR.Store.Basic
import CanonicalLR.Proofs.Grammar.SymbolTables

/-!
# Arenas that agree with a table

In an arena that is *indexed* (`Arena.Indexed`) the index is inverse to the map of the symbols.  From a
symbol table, with a content for each number, comes the arena `Arena.ofTable`, which is indexed if the
table is proper.  Adding, removing and changing symbols in it leads to the arena of the table in which
that was done (`intern_ofTable`, `erase_ofTable`, `modify_ofTable`): so the two maps never part.
-/

namespace CanonicalLR

/-! ### Ordered maps -/

namespace OrderedMap

variable {κ α : Type} [DecidableEq κ] {m : OrderedMap κ α} {k : κ} {a : α}

theorem get?_eq_none_iff :
  m.get? k = none ↔ k ∉ m.keys
  := by
  simp only [get?, List.lookup_eq_none_iff, keys, List.mem_map, bne_iff_ne, ne_eq, not_exists,
    not_and]
  constructor
  · rintro h x hx rfl
    apply h x hx rfl
  · rintro h x hx rfl
    apply h x hx rfl

theorem contains_iff :
  m.contains k = true ↔ k ∈ m.keys
  := by
  rw [contains, ← not_iff_not, ← get?_eq_none_iff, Bool.not_eq_true, Option.isSome_eq_false_iff,
    Option.isNone_iff_eq_none]

/-- If no key occurs twice, the value at a key is the one beside it. -/
theorem get?_eq_some_iff (h : m.keys.Nodup) :
  m.get? k = some a ↔ (k, a) ∈ m.entries
  := by
  constructor
  · intro hget
    obtain ⟨before, after, he, -⟩ := List.lookup_eq_some_iff.mp hget
    simp [he]
  · intro hmem
    cases hget : m.get? k with
    | none => apply absurd (List.mem_map_of_mem hmem) (get?_eq_none_iff.mp hget)
    | some a' =>
      obtain ⟨before, after, he, -⟩ := List.lookup_eq_some_iff.mp hget
      have hmem' : (k, a') ∈ m.entries := by simp [he]
      cases List.inj_on_of_nodup_map h hmem hmem' rfl
      rfl

/-- A new key is added behind the others. -/
theorem insert_of_not_mem (h : k ∉ m.keys) (a : α) :
  m.insert k a = ⟨m.entries ++ [(k, a)]⟩
  := by
  rw [insert, contains, get?_eq_none_iff.mpr h]
  rfl

/-- What is left when the keys of a list are removed. -/
theorem entries_foldl_erase (ks : List κ) (m : OrderedMap κ α) :
  (ks.foldl erase m).entries = m.entries.filter fun entry => entry.1 ∉ ks
  := by
  induction ks generalizing m with
  | nil => simp
  | cons k ks ih =>
    rw [List.foldl_cons, ih, erase, List.filter_filter]
    apply List.filter_congr
    intro entry _
    simp [Bool.and_comm]

end OrderedMap

/-! ### Numbers that no symbol has -/

namespace SymbolTable

variable {t : SymbolTable} {id : Nat}

theorem name?_eq_none_iff :
  t.name? id = none ↔ id ∉ t.ids
  := by
  simp only [name?, List.lookup_eq_none_iff, ids, List.mem_map, bne_iff_ne, ne_eq, not_exists,
    not_and]
  constructor
  · rintro h x hx rfl
    apply h x hx rfl
  · rintro h x hx rfl
    apply h x hx rfl

theorem erase_of_not_mem (h : id ∉ t.ids) :
  t.erase id = t
  := by
  rw [erase, List.filter_eq_self.mpr]
  intro entry hentry
  rw [decide_eq_true_eq]
  rintro rfl
  apply h (List.mem_map_of_mem hentry)

end SymbolTable

/-! ### Arenas -/

namespace Arena

variable {α : Type} {content content' : Nat → α} {t : SymbolTable} {name : String} {id : Nat}

/-- The names are names, no two of them the same, and the index is the inverse of the map of the
symbols. -/
structure Indexed (a : Arena α) : Prop where
  /-- The symbols know their numbers. -/
  id_eq : ∀ id x, a.symbols.get? id = some x → x.id = id
  ids_nodup : a.symbols.keys.Nodup
  names_nodup : (a.symbols.values.map (·.name)).Nodup
  isName : ∀ x ∈ a.symbols.values, Text.IsName x.name
  index_nodup : a.index.keys.Nodup
  index_iff : ∀ name id,
    a.index.get? name = some id ↔ ∃ x, a.symbols.get? id = some x ∧ x.name = name
  /-- The numbers were given out before. -/
  ids_old : ∀ id ∈ a.symbols.keys, id < a.next

/-- The arena of the symbols in a table, each with a content. -/
def ofTable (content : Nat → α) (t : SymbolTable) : Arena α where
  symbols := ⟨t.entries.map fun entry => (entry.1, ⟨entry.1, entry.2, content entry.1⟩)⟩
  index := ⟨t.entries.map fun entry => (entry.2, entry.1)⟩
  next := t.next

@[simp]
theorem table_ofTable (content : Nat → α) (t : SymbolTable) :
  (ofTable content t).table = t
  := by
  rw [table, ofTable, List.map_map]
  apply congrArg (SymbolTable.mk · t.next)
  apply List.map_id

@[simp]
theorem keys_symbols_ofTable :
  (ofTable content t).symbols.keys = t.ids
  := by
  simp [OrderedMap.keys, ofTable, SymbolTable.ids]

@[simp]
theorem keys_index_ofTable :
  (ofTable content t).index.keys = t.names
  := by
  simp [OrderedMap.keys, ofTable, SymbolTable.names]

@[simp]
theorem length_symbols_ofTable :
  (ofTable content t).symbols.entries.length = t.size
  := List.length_map _

/-- The index has the names of the table. -/
@[simp]
theorem get?_index_ofTable :
  (ofTable content t).index.get? name = t.find? name
  := by
  obtain ⟨entries, next⟩ := t
  simp only [ofTable, OrderedMap.get?, SymbolTable.find?]
  induction entries with
  | nil => rfl
  | cons entry entries ih =>
    rw [List.map_cons, List.lookup_cons, List.find?_cons, ih]
    by_cases h : entry.2 = name
    · simp [h]
    · have h' : (name == entry.2) = false := by simpa using Ne.symm h
      simp [h', beq_eq_false_iff_ne.mpr h]

@[simp]
theorem get?_symbols_ofTable :
  (ofTable content t).symbols.get? id = (t.name? id).map fun name => ⟨id, name, content id⟩
  := by
  obtain ⟨entries, next⟩ := t
  simp only [ofTable, OrderedMap.get?, SymbolTable.name?]
  induction entries with
  | nil => rfl
  | cons entry entries ih =>
    rw [List.map_cons, List.lookup_cons, List.lookup_cons, ih]
    by_cases h : id = entry.1
    · simp [h]
    · have h' : (id == entry.1) = false := by simpa using h
      simp [h']

@[simp]
theorem nameOf_ofTable :
  (ofTable content t).nameOf id = (t.name? id).getD ""
  := by
  rw [nameOf, get?_symbols_ofTable, Option.map_map]
  cases t.name? id <;> rfl

/-- Only the contents of the symbols in the table matter. -/
theorem ofTable_congr (h : ∀ id ∈ t.ids, content id = content' id) :
  ofTable content t = ofTable content' t
  := by
  simp only [ofTable, mk.injEq, OrderedMap.mk.injEq, and_true]
  apply List.map_congr_left
  intro entry hentry
  rw [h entry.1 (List.mem_map_of_mem hentry)]

theorem indexed_ofTable (h : t.Proper) (content : Nat → α) :
  (ofTable content t).Indexed
  := by
  have hvalues : (ofTable content t).symbols.values.map (·.name) = t.names := by
    simp [OrderedMap.values, ofTable, SymbolTable.names]
  constructor
  · intro id x hx
    rw [get?_symbols_ofTable] at hx
    obtain ⟨name, -, rfl⟩ := Option.map_eq_some_iff.mp hx
    rfl
  · rw [keys_symbols_ofTable]
    apply h.ids_nodup
  · rw [hvalues]
    apply h.names_nodup
  · intro x hx
    apply h.isName
    rw [← hvalues]
    apply List.mem_map_of_mem hx
  · rw [keys_index_ofTable]
    apply h.names_nodup
  · intro name id
    rw [get?_index_ofTable, get?_symbols_ofTable, h.find?_eq_some_iff, ← h.name?_eq_some_iff]
    simp only [Option.map_eq_some_iff]
    constructor
    · intro hname
      exact ⟨_, ⟨name, hname, rfl⟩, rfl⟩
    · rintro ⟨_, ⟨name', hname, rfl⟩, rfl⟩
      apply hname
  · rw [keys_symbols_ofTable]
    apply h.ids_old

/-! ### Operations on arenas -/

/-- To add a symbol to the arena of a table leads to the arena of the table with the symbol, if a new
symbol comes with its content. -/
theorem intern_ofTable (h : t.Proper) (content : Nat → α) (name : String) :
  (ofTable content t).intern name (content t.next) =
    ((t.intern name).1, ofTable content (t.intern name).2)
  := by
  rw [intern, get?_index_ofTable, SymbolTable.intern]
  cases hf : t.find? name with
  | some id => rfl
  | none =>
    have hnext : t.next ∉ t.ids := fun hmem => Nat.lt_irrefl _ (h.ids_old _ hmem)
    simp only
    rw [OrderedMap.insert_of_not_mem (by rwa [keys_symbols_ofTable]),
      OrderedMap.insert_of_not_mem (by rwa [keys_index_ofTable, ← SymbolTable.find?_eq_none_iff])]
    simp [ofTable]

/-- To remove a symbol from the arena of a table leads to the arena of the table without it. -/
theorem erase_ofTable (h : t.Proper) (content : Nat → α) (id : Nat) :
  (ofTable content t).erase id = ofTable content (t.erase id)
  := by
  rw [erase, get?_symbols_ofTable]
  cases hname : t.name? id with
  | none =>
    rw [SymbolTable.erase_of_not_mem (SymbolTable.name?_eq_none_iff.mp hname)]
    rfl
  | some name =>
    have hentry := h.name?_eq_some_iff.mp hname
    simp only [Option.map_some, ofTable, OrderedMap.erase, SymbolTable.erase, List.filter_map,
      mk.injEq, OrderedMap.mk.injEq, and_true]
    use rfl
    congr 1
    -- The entry with the number is the only one with the name.
    apply List.filter_congr
    rintro ⟨id', name'⟩ hentry'
    simp only [Function.comp_apply, decide_eq_decide, ne_eq, not_iff_not]
    constructor
    · rintro rfl
      apply h.id_unique hentry' hentry
    · rintro rfl
      apply h.name_unique hentry' hentry

/-- To change a content in the arena of a table leads to the arena with the changed contents. -/
theorem modify_ofTable (id : Nat) (f : α → α) :
  (ofTable content t).modify id f =
    ofTable (fun i => if i = id then f (content i) else content i) t
  := by
  simp only [modify, OrderedMap.modify, ofTable, List.map_map, mk.injEq, OrderedMap.mk.injEq, and_true]
  apply List.map_congr_left
  intro entry _
  simp only [Function.comp_apply]
  split <;> rfl

end Arena

end CanonicalLR
