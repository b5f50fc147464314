import CanonicalLR.Proofs.Store.Runs

/-!
# Rules that are discarded

A rule is in the grammar before its right side is complete, as a draft (`Grammar.Drafted`), and when a
label is refused, it is taken out again.  Labels that come after that are declared all the same, but
there is no rule any more that they could be added to.

So a rule of which some label was refused leaves nothing behind but symbols, which have no rules
(`Store.gainsSymbols_of_refused`).
-/

namespace CanonicalLR

namespace Grammar

variable {g g' g'' : Grammar} {draft : List Rule} {id : RuleId} {l : Label} {labels : List Label}
  {s : Symbol}

/-! ### Drafts -/

/-- The grammar `g'` has the rules of `g` and a draft of the rule with the number `id`, unless that was
discarded.  There may be new symbols behind those of `g`. -/
structure Drafted (g : Grammar) (id : RuleId) (draft : List Rule) (g' : Grammar) : Prop where
  rules_eq : g'.rules = g.rules ++ draft
  id_eq : ∀ r ∈ draft, r.id = id
  start_eq : g'.start = g.start
  error_eq : g'.error = g.error
  grows : ∀ k, ∃ added, (g'.table k).entries = (g.table k).entries ++ added

/-- To declare a symbol adds it behind the others, if it is new. -/
theorem exists_entries_intern (g : Grammar) (l : Label) (k : Kind) :
  ∃ added, ((g.intern l).2.table k).entries = (g.table k).entries ++ added
  := by
  rw [intern, table_withTable]
  split
  · next hk =>
    rw [hk, SymbolTable.intern]
    split
    · use []
      simp
    · use [((g.table l.kind).next, l.name)]
  · use []
    simp

namespace Drafted

theorem refl (g : Grammar) (id : RuleId) :
  g.Drafted id [] g
  := by
  constructor
  · rw [List.append_nil]
  · rintro r ⟨⟩
  · rfl
  · rfl
  · intro k
    use []
    rw [List.append_nil]

theorem declare (h : g.Drafted id draft g') (hd : g'.declare l = .ok (s, g'')) :
  g.Drafted id draft g''
  := by
  obtain ⟨name, -, he⟩ := exists_of_map_eq_ok hd
  obtain rfl : (g'.intern ⟨l.kind, name⟩).2 = g'' := congrArg Prod.snd he
  constructor
  · rw [rules_intern, h.rules_eq]
  · apply h.id_eq
  · rw [start_intern, h.start_eq]
  · rw [error_intern, h.error_eq]
  · intro k
    obtain ⟨added, hadded⟩ := h.grows k
    obtain ⟨more, hmore⟩ := exists_entries_intern g' ⟨l.kind, name⟩ k
    use added ++ more
    rw [hmore, hadded, List.append_assoc]

/-- A new rule is a draft without symbols. -/
theorem newRule {left : String} (hr : g.newRule left = .ok (id, g')) :
  id = g.nextRule ∧ ∃ draft, g.Drafted id draft g'
  := by
  obtain ⟨⟨s, g₁⟩, hd, he⟩ := exists_of_map_eq_ok hr
  cases he
  have h₁ := (refl g g₁.nextRule).declare hd
  constructor
  · obtain ⟨name, -, he⟩ := exists_of_map_eq_ok hd
    obtain rfl : (g.intern ⟨.term, name⟩).2 = g₁ := congrArg Prod.snd he
    apply nextRule_withTable
  · use [⟨g₁.nextRule, s.id, []⟩]
    constructor
    · change g₁.rules ++ _ = _
      rw [h₁.rules_eq, List.append_nil]
    · intro r hr
      rw [List.mem_singleton.mp hr]
    · apply h₁.start_eq
    · apply h₁.error_eq
    · apply h₁.grows

section append

variable (hnew : ∀ r ∈ g.rules, r.id ≠ id)

include hnew

/-- The draft is the only rule that is extended. -/
theorem extendRule (h : g.Drafted id draft g') (s : Symbol) :
  g.Drafted id (draft.map fun r => { r with items := r.items ++ [s] }) (g'.extendRule id s)
  := by
  constructor
  · have hkept : g.rules.map (fun r => if r.id = id then { r with items := r.items ++ [s] } else r) =
        g.rules := by
      refine (List.map_congr_left ?_).trans g.rules.map_id'
      intro r hr
      rw [if_neg (hnew r hr)]
    have hdraft : draft.map (fun r => if r.id = id then { r with items := r.items ++ [s] } else r) =
        draft.map fun r => { r with items := r.items ++ [s] } := by
      apply List.map_congr_left
      intro r hr
      rw [if_pos (h.id_eq r hr)]
    simp only [Grammar.extendRule]
    rw [h.rules_eq, List.map_append, hkept, hdraft]
  · intro r' hr'
    obtain ⟨r, hr, rfl⟩ := List.mem_map.mp hr'
    apply h.id_eq r hr
  · apply h.start_eq
  · apply h.error_eq
  · apply h.grows

/-- The draft is the only rule that is removed. -/
theorem removeRule (h : g.Drafted id draft g') :
  g.Drafted id [] (g'.removeRule id)
  := by
  constructor
  · have hkept : g.rules.filter (fun r => r.id ≠ id) = g.rules := by
      apply List.filter_eq_self.mpr
      intro r hr
      apply decide_eq_true (hnew r hr)
    have hdraft : draft.filter (fun r => r.id ≠ id) = [] := by
      apply List.filter_eq_nil_iff.mpr
      intro r hr
      rw [decide_eq_true_eq, not_not]
      apply h.id_eq r hr
    simp only [Grammar.removeRule]
    rw [h.rules_eq, List.filter_append, hkept, hdraft]
  · rintro r ⟨⟩
  · apply h.start_eq
  · apply h.error_eq
  · apply h.grows

/-- When a label is refused, the draft is discarded, and it stays so. -/
theorem append (h : g.Drafted id draft g') (l : Label) :
  ∃ draft', g.Drafted id draft' (g'.append id l).2 ∧
    (draft = [] ∨ (∃ e, (g'.append id l).1 = .error e) → draft' = [])
  := by
  rw [Grammar.append]
  cases hd : g'.declare l with
  | ok answer =>
    obtain ⟨s, g''⟩ := answer
    refine ⟨_, (h.declare hd).extendRule hnew s, ?_⟩
    rintro (rfl | ⟨_, ⟨⟩⟩)
    rfl
  | error e =>
    use [], h.removeRule hnew
    intro _
    rfl

/-- When one of the labels is refused, in whatever place, the draft is discarded in the end. -/
theorem appendEach (h : g.Drafted id draft g') (labels : List Label) :
  ∃ draft', g.Drafted id draft' (g'.appendEach id labels).2 ∧
    (draft = [] ∨ (∃ e, .error e ∈ (g'.appendEach id labels).1) → draft' = [])
  := by
  induction labels generalizing draft g' with
  | nil =>
    use draft, h
    rintro (hnil | ⟨_, ⟨⟩⟩)
    apply hnil
  | cons l labels ih =>
    obtain ⟨draft₁, h₁, hdiscarded₁⟩ := h.append hnew l
    obtain ⟨draft₂, h₂, hdiscarded₂⟩ := ih h₁
    use draft₂, h₂
    rintro (hnil | ⟨e, he⟩)
    · apply hdiscarded₂ (.inl (hdiscarded₁ (.inl hnil)))
    · rcases List.mem_cons.mp he with he | he
      · apply hdiscarded₂ (.inl (hdiscarded₁ (.inr ⟨e, he.symm⟩)))
      · apply hdiscarded₂ (.inr ⟨e, he⟩)

end append

end Drafted

/-! ### Stores of drafts -/

theorem appendEach_store (h : g.WellFormed) (id : RuleId) (labels : List Label) :
  g.store.appendEach id labels = stored (g.appendEach id labels)
  := by
  induction labels generalizing g with
  | nil => rfl
  | cons l labels ih =>
    rw [Store.appendEach, append_store h, Grammar.appendEach]
    simp only [stored]
    rw [ih (h.append id l)]
    rfl

end Grammar

namespace Store

variable {s s' : Store} {id : RuleId}

/-- The second store has the rules of the first one, and all of its symbols under the numbers that they
have there.  It may have other symbols behind them, which have no rules. -/
structure GainsSymbols (s s' : Store) : Prop where
  rules_eq : s'.rules = s.rules
  start_eq : s'.start = s.start
  error_eq : s'.error = s.error
  /-- The terms keep their lists of rules. -/
  terms : ∃ added, s'.terms.symbols.entries = s.terms.symbols.entries ++ added ∧
    ∀ entry ∈ added, entry.2.content = []
  tokens : ∃ added, s'.tokens.symbols.entries = s.tokens.symbols.entries ++ added
  prompts : ∃ added, s'.prompts.symbols.entries = s.prompts.symbols.entries ++ added
  find?_eq : ∀ l x, s.find? l = some x → s'.find? l = some x

/-- The symbols of a table that grew are in the arena behind those that were there before. -/
theorem entries_ofTable_append {α : Type} {t t' : SymbolTable} {added : List (Nat × String)}
    (h : t'.entries = t.entries ++ added) (content : Nat → α) :
  (Arena.ofTable content t').symbols.entries = (Arena.ofTable content t).symbols.entries ++
    added.map fun entry => (entry.1, ⟨entry.1, entry.2, content entry.1⟩)
  := by
  simp only [Arena.ofTable]
  rw [h, List.map_append]

/-- A draft that was discarded leaves only symbols behind. -/
theorem gainsSymbols_of_drafted {g g' : Grammar} (h : g.WellFormed) (h' : g'.WellFormed)
    (hdrafted : g.Drafted id [] g') :
  GainsSymbols g.store g'.store
  := by
  have hrules : g'.rules = g.rules := by rw [hdrafted.rules_eq, List.append_nil]
  have hlists : g'.ruleIdsOf = g.ruleIdsOf := by
    funext t
    rw [Grammar.ruleIdsOf, Grammar.rulesOf, hrules, Grammar.ruleIdsOf, Grammar.rulesOf]
  constructor
  · rw [Grammar.rules_store, Grammar.rules_store, hrules]
  · apply hdrafted.start_eq
  · apply hdrafted.error_eq
  · obtain ⟨added, hadded⟩ := hdrafted.grows .term
    rw [Grammar.terms_store, Grammar.terms_store, hlists]
    refine ⟨_, entries_ofTable_append hadded g.ruleIdsOf, ?_⟩
    intro entry hentry
    obtain ⟨⟨t, name⟩, ht, rfl⟩ := List.mem_map.mp hentry
    -- A number that is new in the table is not one of the old ones, none of which occurs twice.
    have hnodup := (h'.proper .term).ids_nodup
    rw [SymbolTable.ids, hadded, List.map_append] at hnodup
    have hnew : g.contains (.term t) = false := by
      rw [Bool.eq_false_iff, ne_eq, Grammar.contains_iff]
      intro hold
      apply (List.nodup_append.mp hnodup).2.2 t hold t (List.mem_map_of_mem ht) rfl
    simp only [Grammar.ruleIdsOf]
    rw [h.storable.rulesOf_eq_nil hnew, List.map_nil]
  · obtain ⟨added, hadded⟩ := hdrafted.grows .token
    exact ⟨_, entries_ofTable_append hadded _⟩
  · obtain ⟨added, hadded⟩ := hdrafted.grows .prompt
    exact ⟨_, entries_ofTable_append hadded _⟩
  · intro l x hx
    rw [Grammar.find?_store, Grammar.find?] at hx ⊢
    obtain ⟨i, hi, rfl⟩ := Option.map_eq_some_iff.mp hx
    obtain ⟨added, hadded⟩ := hdrafted.grows l.kind
    obtain ⟨entry, hentry, rfl⟩ := Option.map_eq_some_iff.mp hi
    rw [SymbolTable.find?, hadded, List.find?_append, hentry]
    rfl

/-- Let a rule be begun in any store and written label by label, and let some of the labels be refused,
whichever they are, and whatever comes after them.  Then in the end the rules, their order, the list of
every term, the start and the error are what they were before the rule was begun; there may be new
symbols, but no term among them has a rule, and every symbol that was there has kept its number. -/
theorem gainsSymbols_of_refused (operations : List Operation) (left : String) (labels : List Label)
    (hbegun : (run operations).newRule left = .ok (id, s))
    (hrefused : ∃ e, .error e ∈ (s.appendEach id labels).1) :
  GainsSymbols (run operations) (s.appendEach id labels).2
  := by
  have hwellFormed := Grammar.wellFormed_run operations
  rw [Grammar.store_run] at hbegun ⊢
  rw [Grammar.newRule_store hwellFormed] at hbegun
  obtain ⟨⟨id', g⟩, hg, he⟩ := Grammar.exists_of_map_eq_ok hbegun
  cases he
  have hg' := hwellFormed.newRule hg
  obtain ⟨hid, draft, hdraft⟩ := Grammar.Drafted.newRule hg
  have hnew : ∀ r ∈ (Grammar.run operations).rules, r.id ≠ id' := by
    intro r hr
    rw [hid]
    apply Nat.ne_of_lt (hwellFormed.rules_old r hr)
  obtain ⟨draft', hdraft', hdiscarded⟩ := hdraft.appendEach hnew labels
  rw [Grammar.appendEach_store hg'] at hrefused ⊢
  rw [hdiscarded (.inr hrefused)] at hdraft'
  apply gainsSymbols_of_drafted hwellFormed (hg'.appendEach id' labels) hdraft'

/-- The operations by which the rule `S := 'x'` gets into a store with the start term `S`. -/
def single : List Operation :=
  [.setStart "S", .newRule "S", .append ⟨.token, "x"⟩]

/-- That store once a rule for the new term `T` is begun. -/
def begun : Store :=
  (((run single).newRule "T").toOption.map (·.2)).getD .empty

/-- The labels of a right side, of which the second and the fourth are refused. -/
def ragged : List Label :=
  [⟨.token, "y"⟩, ⟨.prompt, "$p"⟩, ⟨.term, "S"⟩, ⟨.token, " "⟩, ⟨.term, "U"⟩]

/-- The name of a prompt and a blank name are refused while the rule for the new term `T` is written.  What
was accepted before and in between leaves its symbols behind, among them the terms `T` and `U`, and
nothing else. -/
theorem gainsSymbols_ragged :
  (run single).newRule "T" = .ok (1, begun) ∧
    (∃ e, .error e ∈ (begun.appendEach 1 ragged).1) ∧
    GainsSymbols (run single) (begun.appendEach 1 ragged).2 ∧
    (begun.appendEach 1 ragged).2.grammar.terms.names = ["S", "T", "U"]
  := by
  have hbegun : (run single).newRule "T" = .ok (1, begun) := by decide +kernel
  have hrefused : ∃ e, .error e ∈ (begun.appendEach 1 ragged).1 := by
    use GrammarError.invalidName "$p"
    decide +kernel
  use hbegun, hrefused, gainsSymbols_of_refused single "T" ragged hbegun hrefused
  decide +kernel

end Store

end CanonicalLR
