import CanonicalLR.Store.Operations
import CanonicalLR.Proofs.Store.Counters
import CanonicalLR.Proofs.Store.NormalForms

/-!
# What holds of every store

Whatever operations lead to a store, the store is *sound* (`Store.Sound`): its indexes are inverse to
its arenas, its lists of rules are those of the owners, and nothing refers to what is no member.  It
keeps the grammar that the same operations on grammars lead to, and the numbers that were given out are
below its counters for all time (`Store.sound_run`).
-/

namespace CanonicalLR

namespace Grammar

variable {g g' g'' : Grammar}

/-! ### Operations on the store of a grammar -/

theorem append_store (h : g.WellFormed) (id : RuleId) (l : Label) :
  g.store.append id l = stored (g.append id l)
  := by
  rw [Store.append, append, h.storable.declare_store]
  cases g.declare l with
  | error e =>
    simp only [Except.map]
    rw [h.storable.removeRule_store]
    rfl
  | ok answer =>
    simp only [Except.map, stored]
    rw [extendRule_store]

theorem newRule_store (h : g.WellFormed) (left : String) :
  g.store.newRule left = (g.newRule left).map stored
  := by
  rw [Store.newRule, newRule, h.storable.declare_store]
  cases hd : g.declare ⟨.term, left⟩ with
  | error e => rfl
  | ok answer =>
    have h' := (h.declare hd).1
    simp only [Except.map, stored]
    rw [h'.storable.pushRule_store]
    rfl

theorem augment_store (h : g.WellFormed) :
  g.store.augment = g.augment.map fun a => a.grammar.store
  := by
  rw [Store.augment, augment, find?_store, find?_store, start_store]
  cases hstart : g.start with
  | none => rfl
  | some start =>
    simp only [contains_store]
    split
    · rfl
    · split
      · rfl
      · have h₁ := h.intern (l := ⟨.term, startTermName⟩) isName_startTermName
        have h₂ := h₁.intern (l := ⟨.token, eofTokenName⟩) isName_eofTokenName
        rw [h.storable.intern_store]
        simp only
        rw [h₁.storable.intern_store]
        simp only
        rw [h₂.storable.pushRule_store]
        rfl

/-! ### Runs -/

/-- An editor of a grammar in which the grammar is replaced by its store. -/
def storedEditor (e : Editor Grammar) : Editor Store :=
  ⟨e.content.store, e.rule⟩

theorem replace_store {ε : Type} (e : Editor Grammar) (outcome : Except ε Grammar) :
  (storedEditor e).replace (outcome.map store) = storedEditor (e.replace outcome)
  := by
  cases outcome <;> rfl

/-- An operation on the store of a grammar leads to the store of the grammar after the operation. -/
theorem perform_store {e : Editor Grammar} (h : e.content.WellFormed) (o : Operation) :
  Store.perform (storedEditor e) o = storedEditor (perform e o)
  := by
  obtain ⟨g, rule⟩ := e
  cases o with
  | declare l =>
    rw [perform, ← replace_store, Store.perform]
    simp only [storedEditor, h.storable.declare_store]
    cases g.declare l <;> rfl
  | setStart name =>
    rw [perform, ← replace_store, Store.perform]
    simp only [storedEditor, Store.setStart, setStart, h.storable.declare_store]
    cases g.declare ⟨.term, name⟩ <;> rfl
  | setError name =>
    rw [perform, ← replace_store, Store.perform]
    simp only [storedEditor, Store.setError, setError, h.storable.declare_store]
    cases g.declare ⟨.token, name⟩ <;> rfl
  | newRule left =>
    rw [perform, Store.perform]
    simp only [storedEditor, newRule_store h]
    cases g.newRule left <;> rfl
  | append l =>
    rw [perform, Store.perform]
    simp only [storedEditor, append_store h]
    cases rule <;> rfl
  | augment =>
    rw [perform, ← replace_store, Store.perform]
    simp only [storedEditor, augment_store h]
    cases g.augment <;> rfl
  | normalize merge =>
    rw [perform, ← replace_store, Store.perform]
    simp only [storedEditor, normalize_store h]

/-- The grammar is well formed, and it is later than the grammar before. -/
structure Succeeds (g g' : Grammar) : Prop where
  wellFormed : g'.WellFormed
  later : Later g g'

theorem succeeds_replace {ε : Type} {e : Editor Grammar} (h : e.content.WellFormed)
    {outcome : Except ε Grammar} (hok : ∀ g', outcome = .ok g' → Succeeds e.content g') :
  Succeeds e.content (e.replace outcome).content
  := by
  cases outcome with
  | error _ => exact ⟨h, .refl _⟩
  | ok g' => apply hok g' rfl

/-- Every operation keeps a grammar well formed and leads to a later one. -/
theorem succeeds_perform {e : Editor Grammar} (h : e.content.WellFormed) (o : Operation) :
  Succeeds e.content (perform e o).content
  := by
  cases o with
  | declare l =>
    apply succeeds_replace h
    intro g' hg'
    obtain ⟨⟨s, _⟩, hd, rfl⟩ := exists_of_map_eq_ok hg'
    exact ⟨(h.declare hd).1, .declare hd⟩
  | setStart name =>
    apply succeeds_replace h
    intro g' hg'
    obtain ⟨⟨s, _⟩, hs, rfl⟩ := exists_of_map_eq_ok hg'
    exact ⟨h.setStart hs, .setStart hs⟩
  | setError name =>
    apply succeeds_replace h
    intro g' hg'
    obtain ⟨⟨s, _⟩, hs, rfl⟩ := exists_of_map_eq_ok hg'
    exact ⟨h.setError hs, .setError hs⟩
  | newRule left =>
    rw [perform]
    cases hr : e.content.newRule left with
    | error _ => exact ⟨h, .refl _⟩
    | ok answer => exact ⟨h.newRule hr, .newRule hr⟩
  | append l =>
    rw [perform, Editor.extend]
    split
    · next id _ => exact ⟨h.append id l, .append _ id l⟩
    · exact ⟨h, .refl _⟩
  | augment =>
    apply succeeds_replace h
    intro g' hg'
    obtain ⟨a, ha, rfl⟩ := exists_of_map_eq_ok hg'
    exact ⟨(h.augment ha).1.grammar, .augment ha⟩
  | normalize merge =>
    apply succeeds_replace h
    intro g' hn
    exact ⟨h.normalize hn, .normalize hn⟩

/-- A sequence of operations keeps a grammar well formed and leads to a later one, and on its store it
leads to the store of the grammar afterwards. -/
theorem foldl_perform {e : Editor Grammar} (h : e.content.WellFormed) (operations : List Operation) :
  Succeeds e.content (operations.foldl perform e).content ∧
    operations.foldl Store.perform (storedEditor e) = storedEditor (operations.foldl perform e)
  := by
  induction operations generalizing e with
  | nil =>
    use ⟨h, .refl _⟩
    rfl
  | cons o operations ih =>
    have ho := succeeds_perform h o
    obtain ⟨hsucceeds, hstore⟩ := ih ho.wellFormed
    use ⟨hsucceeds.wellFormed, ho.later.trans hsucceeds.later⟩
    rw [List.foldl_cons, perform_store h, hstore, List.foldl_cons]

/-- Operations lead to a well-formed grammar. -/
theorem wellFormed_run (operations : List Operation) :
  (run operations).WellFormed
  := (foldl_perform (e := ⟨.empty, none⟩) WellFormed.empty operations).1.wellFormed

/-- Operations lead to the store of the grammar that they lead to. -/
theorem store_run (operations : List Operation) :
  Store.run operations = (run operations).store
  := congrArg Editor.content (foldl_perform (e := ⟨.empty, none⟩) WellFormed.empty operations).2

/-- More operations lead to a later grammar. -/
theorem later_run (operations later : List Operation) :
  Later (run operations) (run (operations ++ later))
  := by
  have hwellFormed := wellFormed_run operations
  rw [run, run, List.foldl_append]
  apply (foldl_perform hwellFormed later).1.later

end Grammar

namespace Store

variable {s : Store}

/-! ### Soundness -/

/-- Each of the things that the store says twice is said in the same way, and nothing refers to what is
no member. -/
structure Sound (s : Store) : Prop where
  terms : s.terms.Indexed
  tokens : s.tokens.Indexed
  prompts : s.prompts.Indexed
  /-- The rules know their numbers. -/
  keys_rules : s.rules.keys = s.rules.values.map (·.id)
  rules_increasing : s.rules.keys.Pairwise (· < ·)
  rules_old : ∀ id ∈ s.rules.keys, id < s.nextRule
  /-- The list of a term has the numbers of the rules that it owns, and no others. -/
  listed : ∀ t x, s.terms.symbols.get? t = some x →
    x.content = (s.rules.values.filter fun r => r.owner == t).map (·.id)
  rulesOf_eq : ∀ t, s.rulesOf t = s.rules.values.filter fun r => r.owner == t
  owner_mem : ∀ r ∈ s.rules.values, s.contains (.term r.owner)
  items_mem : ∀ r ∈ s.rules.values, ∀ x ∈ r.items, s.contains x
  start_mem : ∀ t ∈ s.start, s.contains (.term t)
  error_mem : ∀ t ∈ s.error, s.contains (.token t)

/-- The store of a well-formed grammar is sound. -/
theorem sound_store {g : Grammar} (h : g.WellFormed) :
  g.store.Sound
  := by
  constructor
  · exact Arena.indexed_ofTable (h.proper .term) g.ruleIdsOf
  · exact Arena.indexed_ofTable (h.proper .token) fun _ => ()
  · exact Arena.indexed_ofTable (h.proper .prompt) fun _ => ()
  · rw [Grammar.keys_rules_store, Grammar.values_rules_store]
  · rw [Grammar.keys_rules_store, List.pairwise_map]
    apply h.rules_increasing
  · rw [Grammar.keys_rules_store, List.forall_mem_map]
    apply h.rules_old
  · intro t x hx
    rw [Grammar.terms_store, Arena.get?_symbols_ofTable] at hx
    obtain ⟨name, -, rfl⟩ := Option.map_eq_some_iff.mp hx
    rw [Grammar.values_rules_store]
    rfl
  · intro t
    rw [h.storable.rulesOf_store, Grammar.values_rules_store]
    rfl
  · rw [Grammar.values_rules_store]
    simp only [Grammar.contains_store]
    apply h.owner_mem
  · rw [Grammar.values_rules_store]
    simp only [Grammar.contains_store]
    apply h.items_mem
  · simp only [Grammar.contains_store]
    apply h.start_mem
  · simp only [Grammar.contains_store]
    apply h.error_mem

/-- The numbers of the members of the first store are below the counters of the second one. -/
structure IssuedBefore (s s' : Store) : Prop where
  terms : ∀ id ∈ s.terms.symbols.keys, id < s'.terms.next
  tokens : ∀ id ∈ s.tokens.symbols.keys, id < s'.tokens.next
  prompts : ∀ id ∈ s.prompts.symbols.keys, id < s'.prompts.next
  rules : ∀ id ∈ s.rules.keys, id < s'.nextRule

theorem issuedBefore_of_later {g g' : Grammar} (h : g.WellFormed) (hlater : g.Later g') :
  IssuedBefore g.store g'.store
  := by
  have hsound := sound_store h
  constructor
  · intro id hid
    apply Nat.lt_of_lt_of_le (hsound.terms.ids_old id hid) (hlater.next_le .term)
  · intro id hid
    apply Nat.lt_of_lt_of_le (hsound.tokens.ids_old id hid) (hlater.next_le .token)
  · intro id hid
    apply Nat.lt_of_lt_of_le (hsound.prompts.ids_old id hid) (hlater.next_le .prompt)
  · intro id hid
    apply Nat.lt_of_lt_of_le (hsound.rules_old id hid) hlater.nextRule_le

/-- Whatever operations lead to a store, also if some of them fail, the store is sound, and it keeps the
grammar that the same operations lead to.  Whatever is done to it, no number that it has now is given
out again: its numbers stay below the counters.  (The counters are numbers of any size.) -/
theorem sound_run (operations : List Operation) :
  (run operations).Sound ∧ (run operations).grammar = Grammar.run operations ∧
    ∀ later, IssuedBefore (run operations) (run (operations ++ later))
  := by
  have hwellFormed := Grammar.wellFormed_run operations
  rw [Grammar.store_run]
  use sound_store hwellFormed, Grammar.grammar_store _
  intro later
  rw [Grammar.store_run]
  apply issuedBefore_of_later hwellFormed (Grammar.later_run operations later)

end Store

end CanonicalLR
