import CanonicalLR.Proofs.NormalForm.Tidiness
import CanonicalLR.Proofs.Store.Runs

/-!
# What a number stands for

A symbol may be removed, and a name that is free again may be given to another symbol, as happens to
the tails of terms when a grammar is brought into normal form more than once.  But that symbol gets a
number that was not given out before: a number stands for the same name for all time, or for nothing
(`Store.Stable`).  This holds between any two moments of a sequence of operations, and the start and
the error outlast the normal form (`Store.stable_run`).
-/

namespace CanonicalLR

namespace Store

/-- The name of a symbol, if it is in the store. -/
def name? (s : Store) (x : Symbol) : Option String :=
  (s.grammar.table x.kind).name? x.id

/-- The number of the symbol has been given out, whether or not the symbol is still in the store. -/
def Issued (s : Store) (x : Symbol) : Prop :=
  x.id < (s.grammar.table x.kind).next

/-- The numbers that the first store has given out have no other meaning in the second one. -/
structure Stable (s s' : Store) : Prop where
  /-- A symbol has the name that it had, unless it is absent. -/
  kept : ∀ x name, s.name? x = some name → s'.name? x = some name ∨ s'.name? x = none
  /-- A symbol that was removed does not come back. -/
  gone : ∀ x, s.Issued x → s.name? x = none → s'.name? x = none
  /-- If a name has passed to another symbol, then that symbol is new, and the former one is absent. -/
  renewed : ∀ l x x', s.find? l = some x → s'.find? l = some x' → x' ≠ x →
    ¬ s.Issued x' ∧ s'.name? x = none

end Store

namespace Grammar

variable {g g' : Grammar}

theorem name?_store (x : Symbol) :
  g.store.name? x = (g.table x.kind).name? x.id
  := by
  rw [Store.name?, grammar_store]

theorem issued_store (x : Symbol) :
  g.store.Issued x ↔ x.id < (g.table x.kind).next
  := by
  rw [Store.Issued, grammar_store]

namespace WellFormed

variable {x x' : Symbol} {name : String}

theorem name?_eq_some_iff (h : g.WellFormed) :
  g.store.name? x = some name ↔ (x.id, name) ∈ (g.table x.kind).entries
  := by
  rw [name?_store, (h.proper x.kind).name?_eq_some_iff]

/-- The numbers of the symbols in a store have been given out. -/
theorem issued (h : g.WellFormed) (hname : g.store.name? x = some name) :
  g.store.Issued x
  := by
  rw [issued_store]
  apply (h.proper x.kind).ids_old
  apply SymbolTable.mem_ids_iff.mpr ⟨name, h.name?_eq_some_iff.mp hname⟩

/-- No two symbols of a kind have the same name. -/
theorem eq_of_name?_eq (h : g.WellFormed) (hkind : x.kind = x'.kind)
    (hname : g.store.name? x = some name) (hname' : g.store.name? x' = some name) :
  x = x'
  := by
  rw [h.name?_eq_some_iff] at hname hname'
  obtain ⟨k, id⟩ := x
  obtain ⟨k', id'⟩ := x'
  obtain rfl : k = k' := hkind
  apply congrArg (Symbol.mk k) ((h.proper k).id_unique hname hname')

/-- A symbol that is found has the name by which it is found. -/
theorem name?_of_find? (h : g.WellFormed) {l : Label} (hfind : g.store.find? l = some x) :
  x.kind = l.kind ∧ g.store.name? x = some (Text.trim l.name)
  := by
  rw [find?_store] at hfind
  obtain ⟨hkind, hentry⟩ := h.mem_of_find? hfind
  use hkind
  rw [h.name?_eq_some_iff, hkind]
  apply hentry

end WellFormed

namespace Later

/-- In a later store a symbol whose number had been given out has the name that it had. -/
theorem name?_eq_some (h : Later g g') (hg : g.WellFormed) (hg' : g'.WellFormed) {x : Symbol}
    {name : String} (hissued : g.store.Issued x) (hname : g'.store.name? x = some name) :
  g.store.name? x = some name
  := by
  rw [hg'.name?_eq_some_iff] at hname
  rw [issued_store] at hissued
  rw [hg.name?_eq_some_iff]
  apply (h.table x.kind).old_mem _ hname hissued

theorem stable (h : Later g g') (hg : g.WellFormed) (hg' : g'.WellFormed) :
  g.store.Stable g'.store
  := by
  constructor
  · intro x name hname
    cases hlater : g'.store.name? x with
    | none => exact .inr rfl
    | some name' =>
      rw [← hname, h.name?_eq_some hg hg' (hg.issued hname) hlater]
      exact .inl rfl
  · intro x hissued hgone
    by_contra hback
    obtain ⟨name, hname⟩ := Option.ne_none_iff_exists'.mp hback
    rw [h.name?_eq_some hg hg' hissued hname] at hgone
    cases hgone
  · intro l x x' hfind hfind' hne
    obtain ⟨hkind, hname⟩ := hg.name?_of_find? hfind
    obtain ⟨hkind', hname'⟩ := hg'.name?_of_find? hfind'
    constructor
    · -- An old symbol would have had the name when the former one had it.
      intro hissued
      apply hne
      apply hg.eq_of_name?_eq (hkind'.trans hkind.symm) _ hname
      apply h.name?_eq_some hg hg' hissued hname'
    · -- If the former one were there, it would still have the name.
      by_contra hleft
      obtain ⟨name, hleft⟩ := Option.ne_none_iff_exists'.mp hleft
      have hsame := h.name?_eq_some hg hg' (hg.issued hname) hleft
      obtain rfl : name = Text.trim l.name := Option.some.inj (hsame.symm.trans hname)
      apply hne
      apply hg'.eq_of_name?_eq (hkind'.trans hkind.symm) hname' hleft

end Later

end Grammar

namespace Store

/-- Between two moments of any sequence of operations, among which may be the augmentation and the
normal form in either mode, no number changes its meaning: if it stands for a name at the first moment,
it stands for the same name at the second one, or for nothing, also if the name has passed to a new
symbol with a new number.  And a normal form has the start and the error of that of which it is the
normal form.  (The counters are numbers of any size.) -/
theorem stable_run (operations later : List Operation) :
  (run operations).Stable (run (operations ++ later)) ∧
    ∀ merge s, (run operations).normalize merge = .ok s →
      s.start = (run operations).start ∧ s.error = (run operations).error
  := by
  have hwellFormed := Grammar.wellFormed_run operations
  rw [Grammar.store_run, Grammar.store_run]
  constructor
  · apply (Grammar.later_run operations later).stable hwellFormed
    apply Grammar.wellFormed_run
  · intro merge s hs
    rw [Grammar.normalize_store hwellFormed] at hs
    obtain ⟨g, hg, rfl⟩ := Grammar.exists_of_map_eq_ok hs
    use Grammar.start_normalize hwellFormed hg
    apply Grammar.error_normalize hg

/-- The operations by which the rules of the term `S` get a tail. -/
def tailed : List Operation :=
  [.setStart "S", .newRule "S", .append ⟨.term, "S"⟩, .append ⟨.token, "a"⟩,
    .newRule "S", .append ⟨.token, "b"⟩, .normalize false]

/-- The operations by which `S` and its tail are removed, and come back under the same names. -/
def retailed : List Operation :=
  [.setStart "R", .newRule "R", .append ⟨.token, "c"⟩, .normalize false] ++ tailed

/-- The tail of `S` has number 1.  It is removed, and a tail with the same name comes back with number 4,
which had not been given out when the first one was there.  Number 1 stands for nothing then. -/
theorem stable_retailed :
  (run tailed).find? ⟨.term, "S_tail"⟩ = some (.term 1) ∧
    (run (tailed ++ retailed)).find? ⟨.term, "S_tail"⟩ = some (.term 4) ∧
    ¬ (run tailed).Issued (.term 4) ∧ (run (tailed ++ retailed)).name? (.term 1) = none
  := by
  have hfind : (run tailed).find? ⟨.term, "S_tail"⟩ = some (.term 1) := by decide +kernel
  have hfind' : (run (tailed ++ retailed)).find? ⟨.term, "S_tail"⟩ = some (.term 4) := by
    decide +kernel
  use hfind, hfind'
  apply (stable_run tailed retailed).1.renewed _ _ _ hfind hfind'
  decide

end Store

end CanonicalLR
