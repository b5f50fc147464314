import Mathlib.Data.List.Perm.Subperm
import CanonicalLR.NormalForm.Tidy
import CanonicalLR.Proofs.Grammar.WellFormed

/-!
# Editing well-formed grammars

The operations that bring a grammar into another form keep it well formed, and for each of them
there is a lemma that says which right sides the terms have afterwards (`Grammar.HasRule`): when
the rules of a term are replaced (`hasRule_replaceRules`), when symbols are removed
(`mem_rules_removeSymbols`), and when a term takes the place of another (`hasRule_substituteTerm`).
To tidy the rules leaves some of them out, but none that says something new
(`exists_same_of_mem`).  The term that is added as the tail of another one is new
(`not_contains_freshTail`).
-/

namespace CanonicalLR.Grammar

/-- The sequence `items` is the right side of a rule of the term `t`. -/
def HasRule (g : Grammar) (t : TermId) (items : List Symbol) : Prop :=
  ∃ r ∈ g.rules, r.owner = t ∧ r.items = items

variable {g : Grammar} {t owner : TermId} {items : List Symbol}

theorem hasRule_of_mem {r : Rule} (hr : r ∈ g.rules) :
  g.HasRule r.owner r.items
  := ⟨r, hr, rfl, rfl⟩

/-- The right sides of a term are those of its rules. -/
theorem hasRule_iff_mem_rulesOf :
  g.HasRule t items ↔ items ∈ (g.rulesOf t).map (·.items)
  := by
  simp [HasRule, mem_rulesOf, and_assoc]

namespace WellFormed

theorem contains_owner (h : g.WellFormed) (hr : g.HasRule t items) :
  g.contains (.term t)
  := by
  obtain ⟨r, hr, rfl, rfl⟩ := hr
  apply h.owner_mem r hr

theorem contains_items (h : g.WellFormed) (hr : g.HasRule t items) {s : Symbol} (hs : s ∈ items) :
  g.contains s
  := by
  obtain ⟨r, hr, rfl, rfl⟩ := hr
  apply h.items_mem r hr s hs

end WellFormed

/-! ### Replacing the rules of a term -/

theorem hasRule_pushRule {right : List Symbol} :
  (g.pushRule owner right).2.HasRule t items ↔ g.HasRule t items ∨ t = owner ∧ items = right
  := by
  simp only [HasRule, pushRule, List.mem_append, List.mem_singleton]
  constructor
  · rintro ⟨r, hr | rfl, rfl, rfl⟩
    · exact .inl ⟨r, hr, rfl, rfl⟩
    · exact .inr ⟨rfl, rfl⟩
  · rintro (⟨r, hr, rfl, rfl⟩ | ⟨rfl, rfl⟩)
    · exact ⟨r, .inl hr, rfl, rfl⟩
    · exact ⟨_, .inr rfl, rfl, rfl⟩

/-- The right sides after rules of a term were added. -/
theorem hasRule_pushRules {rights : List (List Symbol)} :
  (g.pushRules owner rights).HasRule t items ↔ g.HasRule t items ∨ t = owner ∧ items ∈ rights
  := by
  induction rights generalizing g with
  | nil => simp [pushRules]
  | cons right rights ih =>
    change (pushRules (g.pushRule owner right).2 owner rights).HasRule t items ↔ _
    rw [ih, hasRule_pushRule, List.mem_cons, or_assoc, ← and_or_left]

/-- The right sides after the rules of a term were replaced. -/
theorem hasRule_replaceRules {rights : List (List Symbol)} :
  (g.replaceRules owner rights).HasRule t items ↔
    (t ≠ owner ∧ g.HasRule t items) ∨ t = owner ∧ items ∈ rights
  := by
  rw [replaceRules, hasRule_pushRules]
  simp only [HasRule, removeRules, List.mem_filter, Bool.not_eq_eq_eq_not, Bool.not_true,
    decide_eq_false_iff_not]
  constructor
  · rintro (⟨r, ⟨hr, hne⟩, rfl, rfl⟩ | h)
    · exact .inl ⟨hne, r, hr, rfl, rfl⟩
    · exact .inr h
  · rintro (⟨hne, r, hr, rfl, rfl⟩ | h)
    · exact .inl ⟨r, ⟨hr, hne⟩, rfl, rfl⟩
    · exact .inr h

/-- To add rules changes nothing but the rules and the number of the next one. -/
theorem exists_pushRules (g : Grammar) (owner : TermId) (rights : List (List Symbol)) :
  ∃ rules nextRule, g.pushRules owner rights = { g with rules, nextRule }
  := by
  induction rights generalizing g with
  | nil => exact ⟨g.rules, g.nextRule, rfl⟩
  | cons right rights ih =>
    obtain ⟨rules, nextRule, he⟩ := ih (g.pushRule owner right).2
    use rules, nextRule, he

/-- To replace rules changes nothing but the rules and the number of the next one. -/
theorem exists_replaceRules (g : Grammar) (owner : TermId) (rights : List (List Symbol)) :
  ∃ rules nextRule, g.replaceRules owner rights = { g with rules, nextRule }
  := exists_pushRules _ _ _

@[simp]
theorem table_replaceRules (k : Kind) (rights : List (List Symbol)) :
  (g.replaceRules owner rights).table k = g.table k
  := by
  obtain ⟨rules, nextRule, he⟩ := g.exists_replaceRules owner rights
  rw [he]
  rfl

@[simp]
theorem start_replaceRules (rights : List (List Symbol)) :
  (g.replaceRules owner rights).start = g.start
  := by
  obtain ⟨rules, nextRule, he⟩ := g.exists_replaceRules owner rights
  rw [he]

@[simp]
theorem error_replaceRules (rights : List (List Symbol)) :
  (g.replaceRules owner rights).error = g.error
  := by
  obtain ⟨rules, nextRule, he⟩ := g.exists_replaceRules owner rights
  rw [he]

@[simp]
theorem contains_replaceRules (rights : List (List Symbol)) (s : Symbol) :
  (g.replaceRules owner rights).contains s = g.contains s
  := by
  simp [contains]

namespace WellFormed

theorem pushRules (h : g.WellFormed) {rights : List (List Symbol)}
    (hrights : ∀ right ∈ rights, g.contains (.term owner) ∧ ∀ s ∈ right, g.contains s) :
  (g.pushRules owner rights).WellFormed
  := by
  induction rights generalizing g with
  | nil => apply h
  | cons right rights ih =>
    obtain ⟨howner, hitems⟩ := hrights right List.mem_cons_self
    apply ih (h.pushRule howner hitems)
    exact fun right hright => hrights right (List.mem_cons_of_mem _ hright)

/-- A grammar stays well formed when the rules of a term are replaced by others, if all of these
refer to members only. -/
theorem replaceRules (h : g.WellFormed) {rights : List (List Symbol)}
    (hrights : ∀ right ∈ rights, g.contains (.term owner) ∧ ∀ s ∈ right, g.contains s) :
  (g.replaceRules owner rights).WellFormed
  := (h.removeRules _).pushRules hrights

end WellFormed

/-! ### Removing symbols -/

/-- The members after a symbol was removed are the others. -/
theorem contains_removeSymbol {s s' : Symbol} :
  (g.removeSymbol s).contains s' = true ↔ g.contains s' = true ∧ s' ≠ s
  := by
  obtain ⟨k, id⟩ := s
  obtain ⟨k', id'⟩ := s'
  cases k <;> cases k' <;>
    simp [removeSymbol, contains_iff, table, withTable, removeRules, SymbolTable.ids,
      SymbolTable.erase]

/-- The rules after a symbol was removed are those of the other terms. -/
theorem rules_removeSymbol {s : Symbol} :
  (g.removeSymbol s).rules = g.rules.filter fun r => .term r.owner ≠ s
  := by
  obtain ⟨k, id⟩ := s
  cases k <;> simp [removeSymbol, withTable, removeRules]

theorem nextRule_removeSymbol {s : Symbol} :
  (g.removeSymbol s).nextRule = g.nextRule
  := by
  obtain ⟨k, id⟩ := s
  cases k <;> rfl

theorem mem_start_removeSymbol {s : Symbol} :
  t ∈ (g.removeSymbol s).start ↔ t ∈ g.start ∧ .term t ≠ s
  := by
  obtain ⟨k, id⟩ := s
  cases k <;> simp [removeSymbol, withTable, removeRules, Option.filter_eq_some_iff]

theorem mem_error_removeSymbol {s : Symbol} {n : TokenId} :
  n ∈ (g.removeSymbol s).error ↔ n ∈ g.error ∧ .token n ≠ s
  := by
  obtain ⟨k, id⟩ := s
  cases k <;> simp [removeSymbol, withTable, removeRules, Option.filter_eq_some_iff]

/-- The entries after a symbol was removed were there before. -/
theorem entries_removeSymbol_subset {s : Symbol} {k : Kind} :
  ((g.removeSymbol s).table k).entries ⊆ (g.table k).entries
  := by
  obtain ⟨k', id⟩ := s
  cases k' <;> cases k <;>
    simp [removeSymbol, table, withTable, removeRules, SymbolTable.erase]

theorem proper_removeSymbol (h : ∀ k, (g.table k).Proper) (s : Symbol) (k : Kind) :
  ((g.removeSymbol s).table k).Proper
  := by
  obtain ⟨k', id⟩ := s
  have h' : ((g.withTable k' ((g.table k').erase id)).table k).Proper := by
    rw [table_withTable]
    split
    · apply (h k').erase id
    · apply h k
  cases k' <;> cases k <;> apply h'

section removeSymbols

variable {removed : List Symbol}

/-- The members after symbols were removed are the others. -/
theorem contains_removeSymbols {s : Symbol} :
  (removed.foldl removeSymbol g).contains s = true ↔ g.contains s = true ∧ s ∉ removed
  := by
  induction removed generalizing g with
  | nil => simp
  | cons x removed ih => simp [ih, contains_removeSymbol, and_assoc]

/-- The rules after symbols were removed are those of the other terms. -/
theorem rules_removeSymbols :
  (removed.foldl removeSymbol g).rules = g.rules.filter fun r => .term r.owner ∉ removed
  := by
  induction removed generalizing g with
  | nil => simp
  | cons x removed ih =>
    rw [List.foldl_cons, ih, rules_removeSymbol, List.filter_filter]
    apply List.filter_congr
    intro r _
    rw [Bool.eq_iff_iff]
    simp [and_comm]

theorem mem_rules_removeSymbols {r : Rule} :
  r ∈ (removed.foldl removeSymbol g).rules ↔ r ∈ g.rules ∧ .term r.owner ∉ removed
  := by
  simp [rules_removeSymbols]

theorem mem_start_removeSymbols :
  t ∈ (removed.foldl removeSymbol g).start ↔ t ∈ g.start ∧ .term t ∉ removed
  := by
  induction removed generalizing g with
  | nil => simp
  | cons x removed ih => rw [List.foldl_cons, ih, mem_start_removeSymbol, List.mem_cons]; tauto

theorem mem_error_removeSymbols {n : TokenId} :
  n ∈ (removed.foldl removeSymbol g).error ↔ n ∈ g.error ∧ .token n ∉ removed
  := by
  induction removed generalizing g with
  | nil => simp
  | cons x removed ih => rw [List.foldl_cons, ih, mem_error_removeSymbol, List.mem_cons]; tauto

theorem entries_removeSymbols_subset {k : Kind} :
  ((removed.foldl removeSymbol g).table k).entries ⊆ (g.table k).entries
  := by
  induction removed generalizing g with
  | nil => exact fun _ h => h
  | cons x removed ih => exact fun _ h => entries_removeSymbol_subset (ih h)

theorem proper_removeSymbols (h : ∀ k, (g.table k).Proper) (k : Kind) :
  ((removed.foldl removeSymbol g).table k).Proper
  := by
  induction removed generalizing g with
  | nil => apply h k
  | cons x removed ih => apply ih (proper_removeSymbol h x)

theorem nextRule_removeSymbols :
  (removed.foldl removeSymbol g).nextRule = g.nextRule
  := by
  induction removed generalizing g with
  | nil => rfl
  | cons x removed ih => rw [List.foldl_cons, ih, nextRule_removeSymbol]

/-- A grammar stays well formed when symbols are removed that occur in no rule of another term. -/
theorem WellFormed.removeSymbols (h : g.WellFormed)
    (hitems : ∀ r ∈ g.rules, .term r.owner ∉ removed → ∀ s ∈ r.items, s ∉ removed) :
  (removed.foldl removeSymbol g).WellFormed
  := by
  constructor
  · apply proper_removeSymbols h.proper
  · rw [rules_removeSymbols]
    apply h.rules_increasing.sublist List.filter_sublist
  · intro r hr
    rw [nextRule_removeSymbols]
    apply h.rules_old r (mem_rules_removeSymbols.mp hr).1
  · intro r hr
    obtain ⟨hr, howner⟩ := mem_rules_removeSymbols.mp hr
    apply contains_removeSymbols.mpr ⟨h.owner_mem r hr, howner⟩
  · intro r hr s hs
    obtain ⟨hr, howner⟩ := mem_rules_removeSymbols.mp hr
    apply contains_removeSymbols.mpr ⟨h.items_mem r hr s hs, hitems r hr howner s hs⟩
  · intro t ht
    obtain ⟨ht, hn⟩ := mem_start_removeSymbols.mp ht
    apply contains_removeSymbols.mpr ⟨h.start_mem t ht, hn⟩
  · intro n hn
    obtain ⟨hn, hr⟩ := mem_error_removeSymbols.mp hn
    apply contains_removeSymbols.mpr ⟨h.error_mem n hn, hr⟩

/-- The symbols that are left keep their names. -/
theorem WellFormed.nameOf_removeSymbols (h : g.WellFormed) {s : Symbol}
    (hs : (removed.foldl removeSymbol g).contains s) :
  (removed.foldl removeSymbol g).nameOf s = g.nameOf s
  := by
  obtain ⟨name, hm⟩ := SymbolTable.mem_ids_iff.mp (contains_iff.mp hs)
  rw [nameOf, (proper_removeSymbols h.proper s.kind).name?_eq_some_iff.mpr hm, nameOf,
    (h.proper s.kind).name?_eq_some_iff.mpr (entries_removeSymbols_subset hm)]

end removeSymbols

/-! ### Putting a term in the place of another -/

section substituteTerm

variable {source target : TermId}

theorem mem_renameItems {s : Symbol} :
  s ∈ renameItems source target items ↔
    (s ∈ items ∧ s ≠ .term source) ∨ s = .term target ∧ .term source ∈ items
  := by
  simp only [renameItems, List.mem_map]
  constructor
  · rintro ⟨x, hx, rfl⟩
    split
    · next he => exact .inr ⟨rfl, he ▸ hx⟩
    · next hne => exact .inl ⟨hx, hne⟩
  · rintro (⟨hs, hne⟩ | ⟨rfl, hs⟩)
    · use s, hs, if_neg hne
    · use .term source, hs, if_pos rfl

/-- The right sides after the term `target` took the place of the term `source`. -/
theorem hasRule_substituteTerm :
  (g.substituteTerm source target).HasRule t items ↔
    t ≠ source ∧ ∃ right, g.HasRule t right ∧ items = renameItems source target right
  := by
  simp only [HasRule, substituteTerm, rules_removeSymbol, List.mem_filter, List.mem_map]
  constructor
  · rintro ⟨_, ⟨⟨r, hr, rfl⟩, hne⟩, rfl, rfl⟩
    exact ⟨by simpa using hne, r.items, ⟨r, hr, rfl, rfl⟩, rfl⟩
  · rintro ⟨hne, _, ⟨r, hr, rfl, rfl⟩, rfl⟩
    exact ⟨_, ⟨⟨r, hr, rfl⟩, by simpa using hne⟩, rfl, rfl⟩

/-- The members after the term `target` took the place of the term `source`. -/
theorem contains_substituteTerm {s : Symbol} :
  (g.substituteTerm source target).contains s = true ↔ g.contains s = true ∧ s ≠ .term source
  := contains_removeSymbol

/-- The start term after the term `target` took the place of the term `source`. -/
theorem start_substituteTerm (hne : source ≠ target) :
  (g.substituteTerm source target).start = g.start.map fun t => if t = source then target else t
  := by
  cases hs : g.start with
  | none => simp [substituteTerm, removeSymbol, hs]
  | some t =>
    have hleft : (if t = source then target else t) ≠ source := by
      split
      · apply hne.symm
      · assumption
    simp [substituteTerm, removeSymbol, hs, Option.filter, hleft]

theorem WellFormed.substituteTerm (h : g.WellFormed) (hne : source ≠ target)
    (htarget : g.contains (.term target)) :
  (g.substituteTerm source target).WellFormed
  := by
  have hterm : .term target ≠ Symbol.term source := by simpa using hne.symm
  have hrenamed := h.mapItems (fun r => renameItems source target r.items) fun r hr s hs => by
    rcases mem_renameItems.mp hs with ⟨hs, -⟩ | ⟨rfl, -⟩
    · apply h.items_mem r hr s hs
    · apply htarget
  change (List.foldl removeSymbol _ [.term source]).WellFormed
  apply WellFormed.removeSymbols
  · refine ⟨hrenamed.proper, hrenamed.rules_increasing, hrenamed.rules_old, hrenamed.owner_mem,
      hrenamed.items_mem, ?_, hrenamed.error_mem⟩
    intro t ht
    obtain ⟨t', ht', rfl⟩ := Option.map_eq_some_iff.mp ht
    split
    · apply htarget
    · apply h.start_mem t' ht'
  · intro r' hr' _ s hs
    obtain ⟨r, hr, rfl⟩ := List.mem_map.mp hr'
    rw [List.mem_singleton]
    rcases mem_renameItems.mp hs with ⟨-, hs⟩ | ⟨rfl, -⟩
    · apply hs
    · apply hterm

end substituteTerm

/-! ### Tidy rules -/

/-- The values of a list that repeat no earlier one are in it, in the same order. -/
theorem eraseDupsBy_sublist {α : Type} (same : α → α → Bool) :
  ∀ as : List α, (as.eraseDupsBy same).Sublist as
  | [] => .refl _
  | a :: as => by
    rw [List.eraseDupsBy_cons]
    apply ((eraseDupsBy_sublist same _).trans List.filter_sublist).cons_cons a
  termination_by as => as.length
  decreasing_by apply Nat.lt_succ_of_le (List.length_filter_le _ _)

/-- Every value of a list repeats one that is left. -/
theorem exists_mem_eraseDupsBy {α : Type} (same : α → α → Bool) (hrefl : ∀ a, same a a) {a : α} :
  ∀ as : List α, a ∈ as → ∃ b ∈ as.eraseDupsBy same, same a b
  | b :: as, ha => by
    rw [List.eraseDupsBy_cons]
    by_cases hsame : same a b
    · use b, List.mem_cons_self, hsame
    · have hne : a ≠ b := by
        rintro rfl
        apply hsame (hrefl a)
      have hleft : a ∈ as.filter fun c => same c b = false :=
        List.mem_filter.mpr ⟨List.mem_of_ne_of_mem hne ha, by simpa using hsame⟩
      obtain ⟨c, hc, hac⟩ := exists_mem_eraseDupsBy same hrefl _ hleft
      use c, List.mem_cons_of_mem _ hc, hac
  termination_by as => as.length
  decreasing_by apply Nat.lt_succ_of_le (List.length_filter_le _ _)

/-- Of the rules of a list, those that repeat no earlier one are left. -/
theorem distinctRules_sublist (rules : List Rule) :
  (distinctRules rules).Sublist rules
  := by
  have h := (eraseDupsBy_sublist (fun a b => a.1 == b.1 && a.2.same b.2)
    (rules.map fun r => (fingerprint r, r))).map Prod.snd
  rw [List.map_map] at h
  change (distinctRules rules).Sublist (rules.map id) at h
  rwa [List.map_id] at h

/-- Every rule of a list is left, or one that says the same. -/
theorem exists_same_of_mem {rules : List Rule} {r : Rule} (hr : r ∈ rules) :
  ∃ r' ∈ distinctRules rules, r'.owner = r.owner ∧ r'.items = r.items
  := by
  obtain ⟨⟨n, r'⟩, hm, hsame⟩ := exists_mem_eraseDupsBy
    (fun a b => a.1 == b.1 && a.2.same b.2) (by simp [Rule.same])
    (rules.map fun r => (fingerprint r, r)) (List.mem_map_of_mem hr)
  refine ⟨r', List.mem_map.mpr ⟨_, hm, rfl⟩, ?_⟩
  simp only [Rule.same, Bool.and_eq_true, decide_eq_true_eq] at hsame
  use hsame.2.1.symm, hsame.2.2.symm

theorem tidyRules_sublist (g : Grammar) :
  g.tidyRules.rules.Sublist g.rules
  := (distinctRules_sublist _).trans List.filter_sublist

/-- To tidy the rules changes nothing but the rules. -/
theorem contains_tidyRules (s : Symbol) :
  g.tidyRules.contains s = g.contains s
  := rfl

theorem WellFormed.tidyRules (h : g.WellFormed) :
  g.tidyRules.WellFormed
  := h.sublist g.tidyRules_sublist

/-! ### Fresh tails -/

/-- No term has the name that is chosen for a tail. -/
theorem freshName_not_mem (g : Grammar) (base : String) :
  (∃ n, g.freshName base = tailName base n) ∧ g.freshName base ∉ g.terms.names
  := by
  have hsome : ∃ name ∈ (List.range (g.terms.size + 1)).map (tailName base),
      (g.terms.find? name).isNone := by
    by_contra hall
    push Not at hall
    have hsub : (List.range (g.terms.size + 1)).map (tailName base) ⊆ g.terms.names := by
      intro name hname
      by_contra hn
      apply hall name hname
      rw [Option.isNone_iff_eq_none, SymbolTable.find?_eq_none_iff]
      apply hn
    have hnodup : ((List.range (g.terms.size + 1)).map (tailName base)).Nodup :=
      List.nodup_range.map (tailName_injective base)
    have hle := (List.subperm_of_subset hnodup hsub).length_le
    simp only [SymbolTable.names, SymbolTable.size, List.length_map, List.length_range] at hle
    omega
  rw [freshName]
  cases hf : ((List.range (g.terms.size + 1)).map (tailName base)).find? fun name =>
      (g.terms.find? name).isNone with
  | none =>
    obtain ⟨name, hname, hnone⟩ := hsome
    apply absurd hnone (List.find?_eq_none.mp hf name hname)
  | some name =>
    obtain ⟨n, -, rfl⟩ := List.mem_map.mp (List.mem_of_find?_eq_some hf)
    have := List.find?_some hf
    rw [Option.isNone_iff_eq_none, SymbolTable.find?_eq_none_iff] at this
    use ⟨n, rfl⟩, this

/-- The tail of a term was no member before. -/
theorem not_contains_freshTail (h : g.WellFormed) (t : TermId) :
  g.contains (.term (g.freshTail t).1) = false
  := not_contains_intern h (freshName_not_mem g (g.termName t)).2

/-- The members after a tail was added are those before and the tail. -/
theorem contains_freshTail (h : g.WellFormed) {s : Symbol} :
  (g.freshTail t).2.contains s = true ↔ g.contains s = true ∨ s = .term (g.freshTail t).1
  := contains_intern h

theorem WellFormed.freshTail (h : g.WellFormed) (ht : g.contains (.term t)) :
  (g.freshTail t).2.WellFormed
  := by
  apply h.intern
  obtain ⟨⟨n, he⟩, -⟩ := freshName_not_mem g (g.termName t)
  rw [he]
  apply isName_tailName (h.isName_nameOf ht) n

end CanonicalLR.Grammar
