/-!
# Symbol tables

The type `SymbolTable` of the tables of the symbols of one kind: their numbers and their names, in
the order in which they were added.  A name is added once (`intern`), and a number that was given
out is never given out again, also after its symbol was removed: it may be missing from a later
table, but it will not stand for another name there.
-/

namespace CanonicalLR

/-- The symbols of one kind. -/
structure SymbolTable where
  /-- The numbers of the symbols with their names, the oldest first. -/
  entries : List (Nat × String)
  /-- The number for the next new name. -/
  next : Nat
deriving DecidableEq

namespace SymbolTable

/-- The table without symbols. -/
def empty : SymbolTable :=
  ⟨[], 0⟩

/-- The numbers of the symbols, the oldest first. -/
def ids (t : SymbolTable) : List Nat :=
  t.entries.map (·.1)

/-- The names of the symbols, the oldest first. -/
def names (t : SymbolTable) : List String :=
  t.entries.map (·.2)

/-- The number of symbols. -/
def size (t : SymbolTable) : Nat :=
  t.entries.length

/-- Whether the symbol with the number `id` is in the table. -/
def contains (t : SymbolTable) (id : Nat) : Bool :=
  t.ids.contains id

/-- The name of the symbol with the number `id`. -/
def name? (t : SymbolTable) (id : Nat) : Option String :=
  t.entries.lookup id

/-- The number of the symbol with the given name. -/
def find? (t : SymbolTable) (name : String) : Option Nat :=
  (t.entries.find? fun entry => entry.2 == name).map (·.1)

/-- The number of the symbol with the given name, and the table with it, to which it is added if
it is new. -/
def intern (t : SymbolTable) (name : String) : Nat × SymbolTable :=
  match t.find? name with
  | some id => (id, t)
  | none => (t.next, ⟨t.entries ++ [(t.next, name)], t.next + 1⟩)

/-- The table without the symbol with the number `id`. -/
def erase (t : SymbolTable) (id : Nat) : SymbolTable :=
  { t with entries := t.entries.filter fun entry => entry.1 ≠ id }

/-- The place of the symbol with the number `id`, counted from zero. -/
def position (t : SymbolTable) (id : Nat) : Nat :=
  t.ids.idxOf id

end SymbolTable

end CanonicalLR
