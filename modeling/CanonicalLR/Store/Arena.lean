/-!
# Arenas with an index of names

An `OrderedMap` is a map that keeps its keys in the order in which they were added.  An `Arena` of the
symbols of one kind consists of two such maps, one from numbers to entries and one from names back to
numbers, which is the index.  A symbol is added to both of them (`intern`), and it is removed from
both (`erase`).
-/

namespace CanonicalLR

/-- A map with its keys in the order in which they were added. -/
structure OrderedMap (κ α : Type) where
  entries : List (κ × α)
deriving DecidableEq

namespace OrderedMap

variable {κ α : Type} [DecidableEq κ]

/-- The map without keys. -/
def empty : OrderedMap κ α :=
  ⟨[]⟩

/-- The keys, the oldest first. -/
def keys (m : OrderedMap κ α) : List κ :=
  m.entries.map (·.1)

/-- The values, in the order of their keys. -/
def values (m : OrderedMap κ α) : List α :=
  m.entries.map (·.2)

/-- The value at a key. -/
def get? (m : OrderedMap κ α) (k : κ) : Option α :=
  m.entries.lookup k

/-- Whether there is a value at a key. -/
def contains (m : OrderedMap κ α) (k : κ) : Bool :=
  (m.get? k).isSome

/-- The map in which the values at a key are changed. -/
def modify (m : OrderedMap κ α) (k : κ) (f : α → α) : OrderedMap κ α :=
  ⟨m.entries.map fun entry => if entry.1 = k then (entry.1, f entry.2) else entry⟩

/-- The map with a value at a key; a key that is there keeps its place. -/
def insert (m : OrderedMap κ α) (k : κ) (a : α) : OrderedMap κ α :=
  if m.contains k then m.modify k fun _ => a else ⟨m.entries ++ [(k, a)]⟩

/-- The map without a key; the others keep their order. -/
def erase (m : OrderedMap κ α) (k : κ) : OrderedMap κ α :=
  ⟨m.entries.filter fun entry => entry.1 ≠ k⟩

end OrderedMap

/-- A symbol in an arena, with what belongs to it. -/
structure Arena.Entry (α : Type) where
  id : Nat
  name : String
  content : α
deriving DecidableEq

/-- The symbols of one kind, each with a content in `α`. -/
structure Arena (α : Type) where
  symbols : OrderedMap Nat (Arena.Entry α)
  /-- The numbers of the symbols by their names. -/
  index : OrderedMap String Nat
  /-- The number for the next new name. -/
  next : Nat
deriving DecidableEq

namespace Arena

variable {α : Type}

/-- The arena without symbols. -/
def empty : Arena α :=
  ⟨.empty, .empty, 0⟩

/-- The number of the symbol with a name, and the arena with it, to which it is added with the given
content if the index does not have the name. -/
def intern (a : Arena α) (name : String) (content : α) : Nat × Arena α :=
  match a.index.get? name with
  | some id => (id, a)
  | none =>
    (a.next,
      { symbols := a.symbols.insert a.next ⟨a.next, name, content⟩
        index := a.index.insert name a.next
        next := a.next + 1 })

/-- The arena without the symbol with the number `id`, whose name is taken from the index too. -/
def erase (a : Arena α) (id : Nat) : Arena α :=
  match a.symbols.get? id with
  | none => a
  | some entry => { a with symbols := a.symbols.erase id, index := a.index.erase entry.name }

/-- The arena in which the content of a symbol is changed. -/
def modify (a : Arena α) (id : Nat) (f : α → α) : Arena α :=
  { a with symbols := a.symbols.modify id fun entry => { entry with content := f entry.content } }

/-- The name of the symbol with the number `id`, empty if there is none. -/
def nameOf (a : Arena α) (id : Nat) : String :=
  ((a.symbols.get? id).map (·.name)).getD ""

end Arena

end CanonicalLR
