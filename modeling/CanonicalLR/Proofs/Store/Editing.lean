import CanonicalLR.Store.Edit
import CanonicalLR.Proofs.NormalForm.Elimination
import CanonicalLR.Proofs.NormalForm.Merging
import CanonicalLR.Proofs.Store.Arenas

/-!
# Stores of grammars

The store of a grammar (`Grammar.store`) has the indexes and the lists of rules that go with its tables
and its rules.  If every rule has an owner and the numbers are in order (`Grammar.Storable`), then the
lists name the rules of the terms (`rulesOf_store`), and whatever is done to the store leads to the
store of the grammar to which the same was done: for symbols that are added (`intern_store`) or removed
(`removeSymbol_store`), and for rules that are added (`pushRule_store`), extended, removed
(`removeRule_store`) or replaced.
-/

namespace CanonicalLR.Grammar

variable {g : Grammar} {t : TermId} {id : RuleId}

/-- The tables are proper, the rules are numbered in increasing order, and the owners of the rules and
the start term are members. -/
structure Storable (g : Grammar) : Prop where
  proper : ∀ k, (g.table k).Proper
  rules_increasing : g.rules.Pairwise fun r s => r.id < s.id
  rules_old : ∀ r ∈ g.rules, r.id < g.nextRule
  owner_mem : ∀ r ∈ g.rules, g.contains (.term r.owner)
  start_mem : ∀ t ∈ g.start, g.contains (.term t)

theorem WellFormed.storable (h : g.WellFormed) :
  g.Storable
  := ⟨h.proper, h.rules_increasing, h.rules_old, h.owner_mem, h.start_mem⟩

/-- The numbers of the rules of a term, the oldest first. -/
def ruleIdsOf (g : Grammar) (t : TermId) : List RuleId :=
  (g.rulesOf t).map (·.id)

/-- The store of a grammar. -/
def store (g : Grammar) : Store where
  terms := .ofTable g.ruleIdsOf g.terms
  tokens := .ofTable (fun _ => ()) g.tokens
  prompts := .ofTable (fun _ => ()) g.prompts
  rules := ⟨g.rules.map fun r => (r.id, r)⟩
  nextRule := g.nextRule
  start := g.start
  error := g.error

theorem terms_store (g : Grammar) :
  g.store.terms = .ofTable g.ruleIdsOf g.terms
  := rfl

theorem rules_store (g : Grammar) :
  g.store.rules = ⟨g.rules.map fun r => (r.id, r)⟩
  := rfl

theorem start_store (g : Grammar) :
  g.store.start = g.start
  := rfl

@[simp]
theorem values_rules_store (g : Grammar) :
  g.store.rules.values = g.rules
  := by
  rw [store, OrderedMap.values, List.map_map]
  apply List.map_id

@[simp]
theorem keys_rules_store (g : Grammar) :
  g.store.rules.keys = g.rules.map (·.id)
  := List.map_map

/-- The grammar that is kept in its store is the grammar itself. -/
@[simp]
theorem grammar_store (g : Grammar) :
  g.store.grammar = g
  := by
  rw [Store.grammar, values_rules_store]
  simp [store]

/-! ### Lookup -/

theorem get?_index_store (k : Kind) (name : String) :
  (g.store.index k).get? name = (g.table k).find? name
  := by
  cases k <;> apply Arena.get?_index_ofTable

theorem find?_store (l : Label) :
  g.store.find? l = g.find? l
  := by
  rw [Store.find?, get?_index_store, Grammar.find?]

theorem contains_store (s : Symbol) :
  g.store.contains s = g.contains s
  := by
  obtain ⟨k, id⟩ := s
  rw [Bool.eq_iff_iff, contains_iff]
  cases k <;>
    simp only [Store.contains, OrderedMap.contains_iff, store, Arena.keys_symbols_ofTable, table]

@[simp]
theorem nameOf_terms_store (t : TermId) :
  g.store.terms.nameOf t = g.termName t
  := Arena.nameOf_ofTable

@[simp]
theorem keys_terms_store (g : Grammar) :
  g.store.terms.symbols.keys = g.terms.ids
  := Arena.keys_symbols_ofTable

namespace Storable

theorem ruleIds_nodup (h : g.Storable) :
  (g.rules.map (·.id)).Nodup
  := List.pairwise_map.mpr (h.rules_increasing.imp Nat.ne_of_lt)

/-- Rules with the same number are the same. -/
theorem eq_of_id_eq (h : g.Storable) {r r' : Rule} (hr : r ∈ g.rules) (hr' : r' ∈ g.rules)
    (hid : r.id = r'.id) :
  r = r'
  := List.inj_on_of_nodup_map h.ruleIds_nodup hr hr' hid

/-- A rule is found by its number. -/
theorem get?_rules_eq_some_iff (h : g.Storable) {r : Rule} :
  g.store.rules.get? id = some r ↔ r ∈ g.rules ∧ r.id = id
  := by
  rw [OrderedMap.get?_eq_some_iff (by rw [keys_rules_store]; apply h.ruleIds_nodup), store]
  simp only [List.mem_map, Prod.mk.injEq]
  constructor
  · rintro ⟨r, hr, rfl, rfl⟩
    use hr
  · rintro ⟨hr, rfl⟩
    use r, hr

/-- A term that is no member has no rules. -/
theorem rulesOf_eq_nil (h : g.Storable) (ht : g.contains (.term t) = false) :
  g.rulesOf t = []
  := by
  rw [rulesOf, List.filter_eq_nil_iff]
  intro r hr howner
  rw [← beq_iff_eq.mp howner] at ht
  rw [h.owner_mem r hr] at ht
  cases ht

/-- The list of a term has the numbers of its rules, and there is no list for any other term. -/
theorem content_terms (h : g.Storable) (t : TermId) :
  ((g.store.terms.symbols.get? t).map (·.content)).getD [] = g.ruleIdsOf t
  := by
  rw [store, Arena.get?_symbols_ofTable, Option.map_map]
  cases hname : g.terms.name? t with
  | some name => rfl
  | none =>
    rw [ruleIdsOf, h.rulesOf_eq_nil]
    · rfl
    · rw [Bool.eq_false_iff, ne_eq, contains_iff]
      apply SymbolTable.name?_eq_none_iff.mp hname

/-- The rules on the list of a term are those that it owns. -/
theorem rulesOf_store (h : g.Storable) (t : TermId) :
  g.store.rulesOf t = g.rulesOf t
  := by
  have hlist : g.store.rulesOf t =
      (((g.store.terms.symbols.get? t).map (·.content)).getD []).filterMap g.store.rules.get? := by
    rw [Store.rulesOf]
    cases g.store.terms.symbols.get? t <;> rfl
  rw [hlist, h.content_terms, ruleIdsOf, List.filterMap_map]
  have hget : ∀ r ∈ g.rulesOf t, (g.store.rules.get? ∘ (·.id)) r = some r := fun r hr =>
    h.get?_rules_eq_some_iff.mpr ⟨(mem_rulesOf.mp hr).1, rfl⟩
  rw [List.filterMap_congr hget, List.filterMap_some]

end Storable

/-! ### Symbols -/

/-- To add a symbol to the store of a grammar leads to the store of the grammar with the symbol. -/
theorem Storable.intern_store (h : g.Storable) (l : Label) :
  g.store.intern l = ((g.intern l).1, (g.intern l).2.store)
  := by
  obtain ⟨k, name⟩ := l
  cases k with
  | term =>
    have hnew : g.ruleIdsOf g.terms.next = [] := by
      rw [ruleIdsOf, h.rulesOf_eq_nil]
      · rfl
      · rw [Bool.eq_false_iff]
        intro hmem
        apply Nat.lt_irrefl _ ((h.proper .term).ids_old _ (contains_iff.mp hmem))
    have hintern := Arena.intern_ofTable (h.proper .term) g.ruleIdsOf name
    rw [table, hnew] at hintern
    simp only [Store.intern, store, hintern]
    rfl
  | token =>
    have hintern := Arena.intern_ofTable (h.proper .token) (fun _ => ()) name
    simp only [table] at hintern
    simp only [Store.intern, store, hintern]
    rfl
  | prompt =>
    have hintern := Arena.intern_ofTable (h.proper .prompt) (fun _ => ()) name
    simp only [table] at hintern
    simp only [Store.intern, store, hintern]
    rfl

/-- An answer in which the grammar is replaced by its store. -/
def stored {α : Type} (answer : α × Grammar) : α × Store :=
  (answer.1, answer.2.store)

theorem Storable.declare_store (h : g.Storable) (l : Label) :
  g.store.declare l = (g.declare l).map stored
  := by
  rw [Store.declare, Grammar.declare]
  cases checkName l.name with
  | error e => rfl
  | ok name =>
    simp only [Except.map, h.intern_store]
    rfl

/-! ### Rules -/

/-- The store of a grammar with other rules has other lists for the terms. -/
theorem store_withRules {rules : List Rule} {nextRule : RuleId} {content : TermId → List RuleId}
    (hcontent : ∀ t, (rules.filter fun r => r.owner == t).map (·.id) = content t) :
  Grammar.store { g with rules, nextRule } =
    { g.store with
      terms := .ofTable content g.terms
      rules := ⟨rules.map fun r => (r.id, r)⟩
      nextRule }
  := by
  obtain rfl : (fun t => (rules.filter fun r => r.owner == t).map (·.id)) = content :=
    funext hcontent
  rfl

theorem Storable.pushRule_store (h : g.Storable) (owner : TermId) (items : List Symbol) :
  g.store.pushRule owner items = stored (g.pushRule owner items)
  := by
  have hnew : g.nextRule ∉ g.store.rules.keys := by
    rw [keys_rules_store, List.mem_map]
    rintro ⟨r, hr, hid⟩
    apply Nat.ne_of_lt (h.rules_old r hr) hid
  let rule : Rule := ⟨g.nextRule, owner, items⟩
  have hinsert := OrderedMap.insert_of_not_mem hnew rule
  have hcontent : ∀ t, ((g.rules ++ [rule]).filter fun r => r.owner == t).map (·.id) =
        if t = owner then g.ruleIdsOf t ++ [g.nextRule] else g.ruleIdsOf t := by
    intro t
    rw [List.filter_append, List.map_append, ruleIdsOf, rulesOf]
    split
    · next heq => simp [rule, heq]
    · next hne => simp [rule, Ne.symm hne]
  apply congrArg (Prod.mk rule)
  apply Eq.trans _ (store_withRules hcontent).symm
  simp only [store] at hinsert ⊢
  rw [hinsert, Arena.modify_ofTable, List.map_append]
  rfl

theorem Storable.removeRule_store (h : g.Storable) (id : RuleId) :
  g.store.removeRule id = (g.removeRule id).store
  := by
  rw [Store.removeRule]
  cases hget : g.store.rules.get? id with
  | none =>
    rw [OrderedMap.get?_eq_none_iff, keys_rules_store, List.mem_map] at hget
    push Not at hget
    rw [removeRule, List.filter_eq_self.mpr (by simpa using hget)]
  | some r =>
    obtain ⟨hr, rfl⟩ := h.get?_rules_eq_some_iff.mp hget
    have hcontent : ∀ t,
        ((g.rules.filter fun r' => r'.id ≠ r.id).filter fun r' => r'.owner == t).map (·.id) =
          if t = r.owner then (g.ruleIdsOf t).filter (fun i => i ≠ r.id) else g.ruleIdsOf t := by
      intro t
      rw [List.filter_filter, List.filter_congr fun r' _ => Bool.and_comm _ _, ← List.filter_filter]
      split
      · rw [ruleIdsOf, rulesOf, List.filter_map]
        rfl
      · next hne =>
        -- The rule is not one of this term.
        rw [List.filter_eq_self.mpr, ruleIdsOf, rulesOf]
        intro r' hr'
        obtain ⟨hr', howner⟩ := mem_rulesOf.mp hr'
        rw [decide_eq_true_eq]
        intro hid
        apply hne
        rw [← howner, h.eq_of_id_eq hr' hr hid]
    apply Eq.trans _ (store_withRules hcontent).symm
    simp only [store, Arena.modify_ofTable, OrderedMap.erase, List.filter_map]
    rfl

theorem extendRule_store (id : RuleId) (s : Symbol) :
  g.store.extendRule id s = (g.extendRule id s).store
  := by
  let extend (r : Rule) : Rule := if r.id = id then { r with items := r.items ++ [s] } else r
  have howner : ∀ r, (extend r).owner = r.owner := by
    intro r
    simp only [extend]
    split <;> rfl
  have hid : ∀ r, (extend r).id = r.id := by
    intro r
    simp only [extend]
    split <;> rfl
  have hcontent : ∀ t, ((g.rules.map extend).filter fun r => r.owner == t).map (·.id) =
      g.ruleIdsOf t := by
    intro t
    rw [List.filter_map, List.map_map, ruleIdsOf, rulesOf]
    simp only [Function.comp_def, howner, hid]
  apply Eq.trans _ (store_withRules hcontent).symm
  simp only [Store.extendRule, OrderedMap.modify, store, List.map_map]
  congr 2
  apply List.map_congr_left
  intro r _
  simp only [Function.comp_apply, hid]
  simp only [extend]
  split <;> rfl

/-! ### Grammars that can be stored -/

namespace Storable

/-- A grammar can be stored when it is given other rules with owners. -/
theorem withRules (h : g.Storable) {rules : List Rule} {nextRule : RuleId}
    (hincreasing : rules.Pairwise fun r s => r.id < s.id) (hold : ∀ r ∈ rules, r.id < nextRule)
    (howner : ∀ r ∈ rules, g.contains (.term r.owner)) :
  Storable { g with rules, nextRule }
  := ⟨h.proper, hincreasing, hold, howner, h.start_mem⟩

theorem sublist (h : g.Storable) {rules : List Rule} (hs : rules.Sublist g.rules) :
  Storable { g with rules }
  := by
  apply h.withRules (h.rules_increasing.sublist hs)
  · exact fun r hr => h.rules_old r (hs.subset hr)
  · exact fun r hr => h.owner_mem r (hs.subset hr)

theorem removeRule (h : g.Storable) (id : RuleId) :
  (g.removeRule id).Storable
  := h.sublist List.filter_sublist

theorem pushRule (h : g.Storable) {owner : TermId} (howner : g.contains (.term owner))
    (items : List Symbol) :
  (g.pushRule owner items).2.Storable
  := by
  apply h.withRules
  · apply List.pairwise_append.mpr
    refine ⟨h.rules_increasing, List.pairwise_singleton _ _, ?_⟩
    intro r hr new hnew
    rw [List.mem_singleton.mp hnew]
    apply h.rules_old r hr
  · intro r hr
    rcases List.mem_append.mp hr with hr | hr
    · apply Nat.lt_succ_of_lt (h.rules_old r hr)
    · rw [List.mem_singleton.mp hr]
      apply Nat.lt_succ_self _
  · intro r hr
    rcases List.mem_append.mp hr with hr | hr
    · apply h.owner_mem r hr
    · rwa [List.mem_singleton.mp hr]

theorem removeSymbol (h : g.Storable) (s : Symbol) :
  (g.removeSymbol s).Storable
  := by
  constructor
  · apply proper_removeSymbol h.proper s
  · rw [rules_removeSymbol]
    apply h.rules_increasing.sublist List.filter_sublist
  · intro r hr
    rw [rules_removeSymbol, List.mem_filter] at hr
    rw [nextRule_removeSymbol]
    apply h.rules_old r hr.1
  · intro r hr
    rw [rules_removeSymbol, List.mem_filter, decide_eq_true_eq] at hr
    apply contains_removeSymbol.mpr ⟨h.owner_mem r hr.1, hr.2⟩
  · intro t ht
    obtain ⟨ht, hne⟩ := mem_start_removeSymbol.mp ht
    apply contains_removeSymbol.mpr ⟨h.start_mem t ht, hne⟩

end Storable

/-- If each of a sequence of operations on the store of a grammar leads to the store of the grammar
after the operation, then so do all of them. -/
theorem foldl_store {β : Type} {P : Grammar → Prop} (op : Grammar → β → Grammar)
    (op' : Store → β → Store) (step : ∀ g b, P g → op' g.store b = (op g b).store ∧ P (op g b))
    (hg : P g) (bs : List β) :
  bs.foldl op' g.store = (bs.foldl op g).store ∧ P (bs.foldl op g)
  := by
  induction bs generalizing g with
  | nil => use rfl, hg
  | cons b bs ih =>
    obtain ⟨he, hg'⟩ := step g b hg
    rw [List.foldl_cons, List.foldl_cons, he]
    apply ih hg'

/-! ### Replacing the rules of a term -/

theorem foldl_removeRule (ids : List RuleId) :
  ids.foldl removeRule g = { g with rules := g.rules.filter fun r => r.id ∉ ids }
  := by
  induction ids generalizing g with
  | nil => simp
  | cons id ids ih =>
    rw [List.foldl_cons, ih, removeRule, List.filter_filter]
    congr 1
    apply List.filter_congr
    intro r _
    simp [Bool.and_comm]

namespace Storable

theorem foldl_removeRule_store (h : g.Storable) (ids : List RuleId) :
  ids.foldl Store.removeRule g.store =
    Grammar.store { g with rules := g.rules.filter fun r => r.id ∉ ids }
  := by
  have hfold := foldl_store Grammar.removeRule Store.removeRule
    (fun g id h => ⟨Storable.removeRule_store h id, h.removeRule id⟩) h ids
  rw [hfold.1, foldl_removeRule]

/-- To remove one by one the rules that have a property is to remove them all. -/
theorem removeRules_store (h : g.Storable) (p : Rule → Bool) :
  ((g.rules.filter p).map (·.id)).foldl Store.removeRule g.store = (g.removeRules p).store
  := by
  rw [h.foldl_removeRule_store, removeRules]
  congr 2
  apply List.filter_congr
  intro r hr
  rw [Bool.eq_iff_iff, decide_eq_true_eq, Bool.not_eq_true', ← Bool.not_eq_true]
  apply not_congr
  simp only [List.mem_map, List.mem_filter]
  constructor
  · rintro ⟨r', ⟨hr', hp⟩, hid⟩
    rwa [← h.eq_of_id_eq hr' hr hid]
  · intro hp
    use r, ⟨hr, hp⟩

theorem pushRules_store (h : g.Storable) {owner : TermId} (howner : g.contains (.term owner))
    (rights : List (List Symbol)) :
  rights.foldl (fun s right => (s.pushRule owner right).2) g.store =
      (g.pushRules owner rights).store ∧ (g.pushRules owner rights).Storable
  := by
  obtain ⟨hstore, hstorable, -⟩ :=
    foldl_store (P := fun g => g.Storable ∧ g.contains (.term owner))
      (fun g right => (g.pushRule owner right).2) (fun s right => (s.pushRule owner right).2)
      (fun g right hg => ⟨by rw [hg.1.pushRule_store]; rfl, hg.1.pushRule hg.2 right, hg.2⟩)
      ⟨h, howner⟩ rights
  exact ⟨hstore, hstorable⟩

/-- To replace the rules of a term leads to the store of the grammar in which they are replaced, if
there is the term or no new rule. -/
theorem replaceRules_store (h : g.Storable) {owner : TermId} {rights : List (List Symbol)}
    (howner : rights ≠ [] → g.contains (.term owner)) :
  g.store.replaceRules owner rights = (g.replaceRules owner rights).store ∧
    (g.replaceRules owner rights).Storable
  := by
  have hold : (g.ruleIdsOf owner).foldl Store.removeRule g.store =
      (g.removeRules fun r => r.owner = owner).store :=
    h.removeRules_store fun r => r.owner = owner
  have hremoved : (g.removeRules fun r => r.owner = owner).Storable := h.sublist List.filter_sublist
  rw [Store.replaceRules]
  simp only [h.content_terms, hold]
  by_cases hnil : rights = []
  · rw [hnil]
    exact ⟨rfl, hremoved⟩
  · apply hremoved.pushRules_store (howner hnil)

/-! ### Removing symbols -/

/-- The rules whose numbers are on the list of a term are its own. -/
theorem mem_ruleIdsOf_iff (h : g.Storable) {r : Rule} (hr : r ∈ g.rules) :
  r.id ∈ g.ruleIdsOf t ↔ r.owner = t
  := by
  simp only [ruleIdsOf, List.mem_map, mem_rulesOf]
  constructor
  · rintro ⟨r', ⟨hr', rfl⟩, hid⟩
    rw [h.eq_of_id_eq hr' hr hid]
  · intro howner
    use r, ⟨hr, howner⟩

/-- To remove what is no member changes nothing. -/
theorem removeSymbol_term_of_not_mem (h : g.Storable) (ht : t ∉ g.terms.ids) :
  g.removeSymbol (.term t) = g
  := by
  have hrules : (g.removeSymbol (.term t)).rules = g.rules := by
    rw [rules_removeSymbol, List.filter_eq_self.mpr]
    intro r hr
    rw [decide_eq_true_eq]
    rintro ⟨⟩
    apply ht (contains_iff.mp (h.owner_mem r hr))
  have hstart : (g.removeSymbol (.term t)).start = g.start := by
    change g.start.filter (fun start => start ≠ t) = g.start
    cases hs : g.start with
    | none => rfl
    | some start =>
      have hne : start ≠ t := by
        rintro rfl
        apply ht (contains_iff.mp (h.start_mem start hs))
      simp [hne]
  have hterms : (g.removeSymbol (.term t)).terms = g.terms := SymbolTable.erase_of_not_mem ht
  calc g.removeSymbol (.term t)
    _ = { g with
          terms := (g.removeSymbol (.term t)).terms
          rules := (g.removeSymbol (.term t)).rules
          start := (g.removeSymbol (.term t)).start } := rfl
    _ = g := by rw [hterms, hrules, hstart]

theorem removeTerm_store (h : g.Storable) (t : TermId) :
  g.store.removeTerm t = (g.removeSymbol (.term t)).store
  := by
  have hget : g.store.terms.symbols.get? t =
      (g.terms.name? t).map fun name => ⟨t, name, g.ruleIdsOf t⟩ := Arena.get?_symbols_ofTable
  rw [Store.removeTerm, hget]
  cases hname : g.terms.name? t with
  | none =>
    rw [h.removeSymbol_term_of_not_mem (SymbolTable.name?_eq_none_iff.mp hname)]
    rfl
  | some name =>
    have hrules : (g.removeSymbol (.term t)).rules =
        g.rules.filter fun r => r.id ∉ g.ruleIdsOf t := by
      rw [rules_removeSymbol]
      apply List.filter_congr
      intro r hr
      simp [h.mem_ruleIdsOf_iff hr]
    have hcontent : ∀ t' ∈ (g.terms.erase t).ids,
        g.ruleIdsOf t' = (g.removeSymbol (.term t)).ruleIdsOf t' := by
      intro t' ht'
      have hne : t' ≠ t := by
        simp only [SymbolTable.ids, SymbolTable.erase, List.mem_map, List.mem_filter,
          decide_eq_true_eq] at ht'
        obtain ⟨entry, ⟨-, hne⟩, rfl⟩ := ht'
        apply hne
      rw [ruleIdsOf, ruleIdsOf, rulesOf, rulesOf, rules_removeSymbol, List.filter_filter]
      congr 1
      apply List.filter_congr
      intro r _
      by_cases howner : r.owner = t'
      · simp [howner, hne]
      · simp [howner]
    have hterms : g.store.terms.erase t = (g.removeSymbol (.term t)).store.terms := by
      apply (Arena.erase_ofTable (h.proper .term) g.ruleIdsOf t).trans
      apply Arena.ofTable_congr hcontent
    have hmap : (g.ruleIdsOf t).foldl OrderedMap.erase g.store.rules =
        (g.removeSymbol (.term t)).store.rules := by
      rw [rules_store (g.removeSymbol (.term t)), hrules]
      apply congrArg OrderedMap.mk
      rw [OrderedMap.entries_foldl_erase, rules_store, List.filter_map]
      rfl
    simp only [Option.map_some]
    rw [hterms, hmap]
    rfl

/-- To remove a symbol leads to the store of the grammar without it. -/
theorem removeSymbol_store (h : g.Storable) (s : Symbol) :
  g.store.removeSymbol s = (g.removeSymbol s).store
  := by
  obtain ⟨k, id⟩ := s
  cases k with
  | term => apply h.removeTerm_store
  | token =>
    have htokens := Arena.erase_ofTable (h.proper .token) (fun _ => ()) id
    simp only [table] at htokens
    simp only [Store.removeSymbol, store, htokens]
    rfl
  | prompt =>
    have hprompts := Arena.erase_ofTable (h.proper .prompt) (fun _ => ()) id
    simp only [table] at hprompts
    simp only [Store.removeSymbol, store, hprompts]
    rfl

theorem removeSymbols_store (h : g.Storable) (removed : List Symbol) :
  removed.foldl Store.removeSymbol g.store = (removed.foldl Grammar.removeSymbol g).store
  := (foldl_store Grammar.removeSymbol Store.removeSymbol
    (fun _ s h => ⟨Storable.removeSymbol_store h s, h.removeSymbol s⟩) h removed).1

/-- To put a term in the place of another leads to the store of the grammar in which that is done. -/
theorem substituteTerm_store (h : g.Storable) {source target : TermId}
    (htarget : g.contains (.term target)) :
  g.store.substituteTerm source target = (g.substituteTerm source target).store
  := by
  let renamed : Grammar := { g with
    rules := g.rules.map fun r => { r with items := renameItems source target r.items }
    start := g.start.map fun start => if start = source then target else start }
  have hstorable : renamed.Storable := by
    refine ⟨h.proper, List.pairwise_map.mpr h.rules_increasing, ?_, ?_, ?_⟩
    · intro r' hr'
      obtain ⟨r, hr, rfl⟩ := List.mem_map.mp hr'
      apply h.rules_old r hr
    · intro r' hr'
      obtain ⟨r, hr, rfl⟩ := List.mem_map.mp hr'
      apply h.owner_mem r hr
    · intro t ht
      obtain ⟨t', ht', rfl⟩ := Option.map_eq_some_iff.mp ht
      split
      · apply htarget
      · apply h.start_mem t' ht'
  have hcontent : renamed.ruleIdsOf = g.ruleIdsOf := by
    funext t
    rw [ruleIdsOf, ruleIdsOf, rulesOf, rulesOf, List.filter_map, List.map_map]
    rfl
  have hrenamed : renamed.store = { g.store with
      rules := ⟨g.store.rules.entries.map fun entry =>
        (entry.1, { entry.2 with items := renameItems source target entry.2.items })⟩
      start := g.store.start.map fun start => if start = source then target else start } := by
    rw [store, hcontent]
    simp [store, renamed, Function.comp_def]
  rw [Store.substituteTerm]
  simp only [← hrenamed]
  apply hstorable.removeTerm_store source

end Storable

/-! ### Fresh tails -/

theorem freshName_store (base : String) :
  g.store.freshName base = g.freshName base
  := by
  rw [Store.freshName, freshName, terms_store, Arena.length_symbols_ofTable]
  simp only [Arena.get?_index_ofTable]

/-- To add a tail leads to the store of the grammar with it. -/
theorem Storable.freshTail_store (h : g.Storable) (t : TermId) :
  g.store.freshTail t = stored (g.freshTail t)
  := by
  rw [Store.freshTail, freshName_store, nameOf_terms_store, h.intern_store]
  rfl

end CanonicalLR.Grammar
