import CanonicalLR.Proofs.Grammar.SymbolTables

/-!
# Well-formed grammars

A grammar is *well formed* (`Grammar.WellFormed`) if its tables are proper, its rules are numbered
in increasing order, and whatever its rules, its start term and its error token refer to is a
member.  Every operation by which a grammar grows keeps it well formed.

In a well-formed grammar a member is determined by its label (`WellFormed.eq_of_label_eq`), and it
is found by its name (`WellFormed.find?_nameOf`).
-/

namespace CanonicalLR.Grammar

/-- The tables are proper, the rules are numbered in increasing order, and nothing refers to a
symbol that is no member. -/
structure WellFormed (g : Grammar) : Prop where
  proper : ∀ k, (g.table k).Proper
  rules_increasing : g.rules.Pairwise fun r s => r.id < s.id
  rules_old : ∀ r ∈ g.rules, r.id < g.nextRule
  owner_mem : ∀ r ∈ g.rules, g.contains (.term r.owner)
  items_mem : ∀ r ∈ g.rules, ∀ s ∈ r.items, g.contains s
  start_mem : ∀ t ∈ g.start, g.contains (.term t)
  error_mem : ∀ t ∈ g.error, g.contains (.token t)

variable {g : Grammar}

/-- An answer of a computation that is followed by a function is the image of an answer. -/
theorem exists_of_map_eq_ok {ε α β : Type} {f : α → β} {x : Except ε α} {b : β}
    (h : x.map f = .ok b) :
  ∃ a, x = .ok a ∧ f a = b
  := by
  cases x with
  | error e => cases h
  | ok a => use a, rfl, by simpa [Except.map] using h

/-- An error of a computation that is followed by a function is an error of the computation. -/
theorem eq_error_of_map_eq_error {ε α β : Type} {f : α → β} {x : Except ε α} {e : ε}
    (h : x.map f = .error e) :
  x = .error e
  := by
  cases x with
  | error e' =>
    cases h
    rfl
  | ok a => cases h

/-- What is done after something else has a result only if that has. -/
theorem exists_of_bind_eq_ok {ε α β : Type} {f : α → Except ε β} {x : Except ε α} {b : β}
    (h : x >>= f = .ok b) :
  ∃ a, x = .ok a ∧ f a = .ok b
  := by
  cases x with
  | error e => cases h
  | ok a => use a, rfl, h

/-- There is a result exactly if there is one when errors are worded in another way. -/
theorem eq_ok_of_mapError_eq_ok {ε ε' α : Type} {f : ε → ε'} {x : Except ε α} {a : α}
    (h : x.mapError f = .ok a) :
  x = .ok a
  := by
  cases x with
  | error e => cases h
  | ok a' =>
    cases h
    rfl

theorem eq_ok_of_toOption_eq_some {ε α : Type} {x : Except ε α} {a : α}
    (h : x.toOption = some a) :
  x = .ok a
  := by
  cases x with
  | error e => cases h
  | ok a' =>
    cases h
    rfl

theorem contains_iff {s : Symbol} :
  g.contains s = true ↔ s.id ∈ (g.table s.kind).ids
  := SymbolTable.contains_iff

theorem ne_of_contains {s s' : Symbol} (hs : g.contains s = true) (hs' : g.contains s' = false) :
  s ≠ s'
  := by
  rintro rfl
  rw [hs] at hs'
  cases hs'

theorem mem_rulesOf {t : TermId} {r : Rule} :
  r ∈ g.rulesOf t ↔ r ∈ g.rules ∧ r.owner = t
  := by
  simp [rulesOf]

/-! ### Tables -/

@[simp]
theorem table_withTable (k k' : Kind) (t : SymbolTable) :
  (g.withTable k t).table k' = if k' = k then t else g.table k'
  := by
  cases k <;> cases k' <;> rfl

@[simp]
theorem rules_withTable (k : Kind) (t : SymbolTable) :
  (g.withTable k t).rules = g.rules
  := by
  cases k <;> rfl

@[simp]
theorem nextRule_withTable (k : Kind) (t : SymbolTable) :
  (g.withTable k t).nextRule = g.nextRule
  := by
  cases k <;> rfl

@[simp]
theorem start_withTable (k : Kind) (t : SymbolTable) :
  (g.withTable k t).start = g.start
  := by
  cases k <;> rfl

@[simp]
theorem error_withTable (k : Kind) (t : SymbolTable) :
  (g.withTable k t).error = g.error
  := by
  cases k <;> rfl

/-! ### Members and their names -/

namespace WellFormed

/-- A member has an entry with its name. -/
theorem entry_mem (h : g.WellFormed) {s : Symbol} (hs : g.contains s) :
  (s.id, g.nameOf s) ∈ (g.table s.kind).entries
  := by
  obtain ⟨name, hm⟩ := SymbolTable.mem_ids_iff.mp (contains_iff.mp hs)
  rw [nameOf, (h.proper s.kind).name?_eq_some_iff.mpr hm]
  apply hm

/-- The name in the entry of a symbol is its name. -/
theorem nameOf_eq (h : g.WellFormed) {s : Symbol} {name : String}
    (hm : (s.id, name) ∈ (g.table s.kind).entries) :
  g.nameOf s = name
  := by
  rw [nameOf, (h.proper s.kind).name?_eq_some_iff.mpr hm]
  rfl

/-- Members with the same label are the same. -/
theorem eq_of_label_eq (h : g.WellFormed) {s s' : Symbol} (hs : g.contains s)
    (hs' : g.contains s') (hl : g.label s = g.label s') :
  s = s'
  := by
  obtain ⟨k, id⟩ := s
  obtain ⟨k', id'⟩ := s'
  obtain ⟨rfl, hname⟩ : k = k' ∧ g.nameOf ⟨k, id⟩ = g.nameOf ⟨k', id'⟩ := by simpa [label] using hl
  have hm := h.entry_mem hs
  rw [hname] at hm
  apply congrArg (Symbol.mk k) ((h.proper k).id_unique hm (h.entry_mem hs'))

/-- The name of a member is a name. -/
theorem isName_nameOf (h : g.WellFormed) {s : Symbol} (hs : g.contains s) :
  Text.IsName (g.nameOf s)
  := (h.proper s.kind).isName _ (SymbolTable.mem_names_iff.mpr ⟨s.id, h.entry_mem hs⟩)

/-- A member is found by its name. -/
theorem find?_nameOf (h : g.WellFormed) {s : Symbol} (hs : g.contains s) :
  g.find? (g.label s) = some s
  := by
  rw [find?, label, Text.trim_of_isName (h.isName_nameOf hs),
    (h.proper s.kind).find?_eq_some_iff.mpr (h.entry_mem hs)]
  rfl

/-- A symbol that is found is a member with the trimmed name. -/
theorem mem_of_find? (h : g.WellFormed) {l : Label} {s : Symbol} (hf : g.find? l = some s) :
  s.kind = l.kind ∧ (s.id, Text.trim l.name) ∈ (g.table l.kind).entries
  := by
  obtain ⟨id, hid, rfl⟩ := Option.map_eq_some_iff.mp hf
  use rfl, (h.proper l.kind).find?_eq_some_iff.mp hid

/-- What is found by a label is the member of that kind with the trimmed name. -/
theorem find?_eq_some_iff (h : g.WellFormed) {l : Label} {s : Symbol} :
  g.find? l = some s ↔ g.contains s = true ∧ g.label s = ⟨l.kind, Text.trim l.name⟩
  := by
  constructor
  · intro hf
    obtain ⟨hk, hm⟩ := h.mem_of_find? hf
    rw [← hk] at hm
    use contains_iff.mpr (SymbolTable.mem_ids_iff.mpr ⟨_, hm⟩)
    rw [label, h.nameOf_eq hm, hk]
  · rintro ⟨hs, hl⟩
    obtain ⟨hk, hname⟩ := Label.mk.inj hl
    have hfind := h.find?_nameOf hs
    rw [hl, find?, Text.trim_trim] at hfind
    apply hfind

/-- Rules with the same number are the same. -/
theorem eq_of_id_eq (h : g.WellFormed) {r r' : Rule} (hr : r ∈ g.rules) (hr' : r' ∈ g.rules)
    (hid : r.id = r'.id) :
  r = r'
  := by
  apply List.inj_on_of_nodup_map _ hr hr' hid
  apply List.pairwise_map.mpr (h.rules_increasing.imp Nat.ne_of_lt)

/-! ### Other rules -/

/-- A grammar stays well formed when it is given other rules that refer to members only. -/
theorem withRules (h : g.WellFormed) {rules : List Rule} {nextRule : RuleId}
    (hincreasing : rules.Pairwise fun r s => r.id < s.id) (hold : ∀ r ∈ rules, r.id < nextRule)
    (howner : ∀ r ∈ rules, g.contains (.term r.owner))
    (hitems : ∀ r ∈ rules, ∀ s ∈ r.items, g.contains s) :
  WellFormed { g with rules, nextRule }
  := ⟨h.proper, hincreasing, hold, howner, hitems, h.start_mem, h.error_mem⟩

/-- A grammar stays well formed when rules are left out. -/
theorem sublist (h : g.WellFormed) {rules : List Rule} (hs : rules.Sublist g.rules) :
  WellFormed { g with rules }
  := by
  apply h.withRules
  · apply h.rules_increasing.sublist hs
  · exact fun r hr => h.rules_old r (hs.subset hr)
  · exact fun r hr => h.owner_mem r (hs.subset hr)
  · exact fun r hr => h.items_mem r (hs.subset hr)

theorem removeRules (h : g.WellFormed) (p : Rule → Bool) :
  (g.removeRules p).WellFormed
  := h.sublist List.filter_sublist

theorem removeRule (h : g.WellFormed) (id : RuleId) :
  (g.removeRule id).WellFormed
  := h.sublist List.filter_sublist

/-- A grammar stays well formed when a rule is added that refers to members only. -/
theorem pushRule (h : g.WellFormed) {owner : TermId} {items : List Symbol}
    (howner : g.contains (.term owner)) (hitems : ∀ s ∈ items, g.contains s) :
  (g.pushRule owner items).2.WellFormed
  := by
  apply h.withRules
  · apply List.pairwise_append.mpr
    refine ⟨h.rules_increasing, List.pairwise_singleton _ _, ?_⟩
    intro r hr new hnew
    rw [List.mem_singleton.mp hnew]
    apply h.rules_old r hr
  · intro r hr
    rcases List.mem_append.mp hr with hr | hr
    · apply Nat.lt_succ_of_lt (h.rules_old r hr)
    · rw [List.mem_singleton.mp hr]
      apply Nat.lt_succ_self _
  · intro r hr
    rcases List.mem_append.mp hr with hr | hr
    · apply h.owner_mem r hr
    · rwa [List.mem_singleton.mp hr]
  · intro r hr
    rcases List.mem_append.mp hr with hr | hr
    · apply h.items_mem r hr
    · rwa [List.mem_singleton.mp hr]

/-- A grammar stays well formed when the right sides of its rules are changed to others that refer
to members only. -/
theorem mapItems (h : g.WellFormed) (f : Rule → List Symbol)
    (hf : ∀ r ∈ g.rules, ∀ s ∈ f r, g.contains s) :
  WellFormed { g with rules := g.rules.map fun r => { r with items := f r } }
  := by
  apply h.withRules
  · exact List.pairwise_map.mpr h.rules_increasing
  all_goals
    intro r' hr'
    obtain ⟨r, hr, rfl⟩ := List.mem_map.mp hr'
  · apply h.rules_old r hr
  · apply h.owner_mem r hr
  · apply hf r hr

theorem extendRule (h : g.WellFormed) {s : Symbol} (hs : g.contains s) (id : RuleId) :
  (g.extendRule id s).WellFormed
  := by
  have heq : g.extendRule id s = { g with
      rules := g.rules.map fun r =>
        { r with items := if r.id = id then r.items ++ [s] else r.items } } := by
    rw [Grammar.extendRule]
    congr
    funext r
    split <;> rfl
  rw [heq]
  apply h.mapItems
  intro r hr x hx
  split at hx
  · rcases List.mem_append.mp hx with hx | hx
    · apply h.items_mem r hr x hx
    · rwa [List.mem_singleton.mp hx]
  · apply h.items_mem r hr x hx

end WellFormed

/-! ### New symbols -/

/-- The members after a symbol was added are those before and the symbol. -/
theorem contains_intern (h : g.WellFormed) {l : Label} {s : Symbol} :
  (g.intern l).2.contains s = true ↔ g.contains s = true ∨ s = (g.intern l).1
  := by
  obtain ⟨k, id⟩ := s
  simp only [contains_iff, Grammar.intern, table_withTable, Symbol.mk.injEq]
  split
  · next hk =>
    rw [SymbolTable.mem_ids_iff, hk]
    simp only [SymbolTable.mem_intern (h.proper l.kind), SymbolTable.mem_ids_iff, Prod.mk.injEq]
    constructor
    · rintro ⟨name, hm | ⟨rfl, rfl⟩⟩
      · exact .inl ⟨name, hm⟩
      · exact .inr ⟨trivial, rfl⟩
    · rintro (⟨name, hm⟩ | ⟨-, rfl⟩)
      · use name, .inl hm
      · use l.name, .inr ⟨rfl, rfl⟩
  · next hk => simp [hk]

/-- The entries that were there stay when a symbol is added. -/
theorem entries_subset_intern (h : g.WellFormed) (l : Label) (k : Kind) :
  (g.table k).entries ⊆ ((g.intern l).2.table k).entries
  := by
  intro entry he
  rw [Grammar.intern, table_withTable]
  split
  · next hk =>
    subst hk
    apply (SymbolTable.mem_intern (h.proper l.kind)).mpr (.inl he)
  · apply he

/-- A member stays a member when a symbol is added. -/
theorem contains_intern_of_contains (h : g.WellFormed) (l : Label) {s : Symbol}
    (hs : g.contains s) :
  (g.intern l).2.contains s
  := (contains_intern h).mpr (.inl hs)

/-- A symbol whose name is new was no member. -/
theorem not_contains_intern (h : g.WellFormed) {l : Label} (hn : l.name ∉ (g.table l.kind).names) :
  g.contains (g.intern l).1 = false
  := by
  have hid : (g.intern l).1 = ⟨l.kind, (g.table l.kind).next⟩ := by
    rw [Grammar.intern, SymbolTable.intern_of_not_mem hn]
  rw [hid, Bool.eq_false_iff]
  intro hc
  apply absurd ((h.proper l.kind).ids_old _ (contains_iff.mp hc)) (Nat.lt_irrefl _)

/-- A symbol has the name that it was added with. -/
theorem nameOf_intern (h : g.WellFormed) {l : Label} (hl : (g.intern l).2.WellFormed) :
  (g.intern l).2.nameOf (g.intern l).1 = l.name
  := by
  apply hl.nameOf_eq
  have hm : (_, l.name) ∈ ((g.table l.kind).intern l.name).2.entries :=
    (SymbolTable.mem_intern (h.proper l.kind)).mpr (.inr rfl)
  simpa [Grammar.intern] using hm

@[simp]
theorem rules_intern (l : Label) :
  (g.intern l).2.rules = g.rules
  := rules_withTable _ _

@[simp]
theorem start_intern (l : Label) :
  (g.intern l).2.start = g.start
  := start_withTable _ _

@[simp]
theorem error_intern (l : Label) :
  (g.intern l).2.error = g.error
  := error_withTable _ _

namespace WellFormed

theorem intern (h : g.WellFormed) {l : Label} (hl : Text.IsName l.name) :
  (g.intern l).2.WellFormed
  := by
  constructor
  · intro k
    simp only [Grammar.intern, table_withTable]
    split
    · apply (h.proper l.kind).intern hl
    · apply h.proper k
  · simpa [Grammar.intern] using h.rules_increasing
  · simpa [Grammar.intern] using h.rules_old
  · intro r hr
    rw [rules_intern] at hr
    apply contains_intern_of_contains h l (h.owner_mem r hr)
  · intro r hr s hs
    rw [rules_intern] at hr
    apply contains_intern_of_contains h l (h.items_mem r hr s hs)
  · intro t ht
    rw [start_intern] at ht
    apply contains_intern_of_contains h l (h.start_mem t ht)
  · intro t ht
    simp only [Grammar.intern, error_withTable] at ht
    apply contains_intern_of_contains h l (h.error_mem t ht)

/-- What is declared is a member of a well-formed grammar. -/
theorem declare (h : g.WellFormed) {l : Label} {s : Symbol} {g' : Grammar}
    (hd : g.declare l = .ok (s, g')) :
  g'.WellFormed ∧ g'.contains s = true ∧ s.kind = l.kind
  := by
  rw [Grammar.declare] at hd
  cases hc : checkName l.name with
  | error e => simp [hc, Except.map] at hd
  | ok name =>
    simp only [hc, Except.map, Except.ok.injEq] at hd
    have hs := congrArg Prod.fst hd
    have hg := congrArg Prod.snd hd
    subst hs hg
    use h.intern (isName_of_checkName hc), (contains_intern h).mpr (.inr rfl)
    rfl

/-! ### Building -/

theorem empty :
  empty.WellFormed
  := by
  constructor
  · rintro (_ | _ | _) <;> apply SymbolTable.proper_empty
  all_goals simp [Grammar.empty]

/-- A member can be made the start term. -/
theorem withStart (h : g.WellFormed) {t : TermId} (ht : g.contains (.term t)) :
  { g with start := some t }.WellFormed
  := by
  constructor
  · apply h.proper
  · apply h.rules_increasing
  · apply h.rules_old
  · apply h.owner_mem
  · apply h.items_mem
  · rintro t ⟨⟩
    apply ht
  · apply h.error_mem

theorem setStart (h : g.WellFormed) {name : String} {s : Symbol} {g' : Grammar}
    (hs : g.setStart name = .ok (s, g')) :
  g'.WellFormed
  := by
  obtain ⟨⟨s, g₁⟩, hd, he⟩ := exists_of_map_eq_ok hs
  cases he
  obtain ⟨h₁, hm, hk⟩ := h.declare hd
  obtain ⟨k, id⟩ := s
  obtain rfl : k = .term := hk
  apply h₁.withStart hm

theorem setError (h : g.WellFormed) {name : String} {s : Symbol} {g' : Grammar}
    (hs : g.setError name = .ok (s, g')) :
  g'.WellFormed
  := by
  obtain ⟨⟨s, g₁⟩, hd, he⟩ := exists_of_map_eq_ok hs
  cases he
  obtain ⟨h₁, hm, hk⟩ := h.declare hd
  obtain ⟨k, id⟩ := s
  obtain rfl : k = .token := hk
  refine ⟨h₁.proper, h₁.rules_increasing, h₁.rules_old, h₁.owner_mem, h₁.items_mem, h₁.start_mem, ?_⟩
  rintro t ⟨⟩
  apply hm

theorem newRule (h : g.WellFormed) {left : String} {id : RuleId} {g' : Grammar}
    (hr : g.newRule left = .ok (id, g')) :
  g'.WellFormed
  := by
  obtain ⟨⟨s, g₁⟩, hd, he⟩ := exists_of_map_eq_ok hr
  cases he
  obtain ⟨h₁, hm, hk⟩ := h.declare hd
  obtain ⟨k, id⟩ := s
  obtain rfl : k = .term := hk
  apply h₁.pushRule hm (by simp)

theorem append (h : g.WellFormed) (id : RuleId) (l : Label) :
  (g.append id l).2.WellFormed
  := by
  rw [Grammar.append]
  split
  · next s g' hd =>
    obtain ⟨h', hm, -⟩ := h.declare hd
    apply h'.extendRule hm id
  · apply h.removeRule id

theorem appendEach (id : RuleId) (labels : List Label) (h : g.WellFormed) :
  (g.appendEach id labels).2.WellFormed
  := by
  induction labels generalizing g with
  | nil => apply h
  | cons l labels ih => apply ih (h.append id l)

end WellFormed

end CanonicalLR.Grammar
