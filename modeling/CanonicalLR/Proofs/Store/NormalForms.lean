import Mathlib.Data.List.Sort
import CanonicalLR.Store.Edit
import CanonicalLR.Proofs.Grammar.Built
import CanonicalLR.Proofs.Grammar.Diagnosis
import CanonicalLR.Proofs.Store.Editing

/-!
# Stores in normal form

Bringing the store of a grammar into normal form leads to the store of the normal form of the grammar,
or fails for the same reason (`normalize_store`).  There is a lemma for each step on the way: when rules
that say nothing are removed (`tidyRules_store`), when duplicate terms are merged (`mergeIf_store`), when
left recursion is eliminated (`eliminate_store`), and when symbols are removed that cannot be reached
(`removeUnreachable_store`).
-/

namespace CanonicalLR.Grammar

variable {g : Grammar} {head : TermId}

/-! ### Tidy rules -/

/-- Of a list in increasing order the values are left that no smaller one is the same as. -/
theorem mem_eraseDupsBy_iff {α : Type} {same : α → α → Bool} {lt : α → α → Prop}
    (htrans : ∀ a b c, same b c = true → same c a = true → same b a = true)
    (hasymm : ∀ a b, lt a b → ¬ lt b a) {b : α} :
  ∀ as : List α, as.Pairwise lt →
    (b ∈ as.eraseDupsBy same ↔ b ∈ as ∧ ∀ c ∈ as, lt c b → same b c = false)
  | [], _ => by simp
  | a :: as, h => by
    obtain ⟨hfirst, hrest⟩ := List.pairwise_cons.mp h
    rw [List.eraseDupsBy_cons, List.mem_cons,
      mem_eraseDupsBy_iff htrans hasymm _ (hrest.sublist List.filter_sublist)]
    simp only [List.mem_filter, decide_eq_true_eq, List.mem_cons, forall_eq_or_imp]
    constructor
    · rintro (rfl | ⟨⟨hb, hne⟩, hleft⟩)
      · use .inl rfl, fun hlt => absurd hlt (hasymm _ _ hlt)
        intro c hc hlt
        apply absurd hlt (hasymm _ _ (hfirst c hc))
      · use .inr hb, fun _ => hne
        intro c hc hlt
        cases hca : same c a with
        | false => apply hleft c ⟨hc, hca⟩ hlt
        | true =>
          rw [Bool.eq_false_iff]
          intro hbc
          rw [htrans a b c hbc hca] at hne
          cases hne
    · rintro ⟨rfl | hb, hfalse, hsmaller⟩
      · exact .inl rfl
      · right
        use ⟨hb, hfalse (hfirst b hb)⟩
        intro c hc hlt
        apply hsmaller c hc.1 hlt
  termination_by as => as.length
  decreasing_by apply Nat.lt_succ_of_le (List.length_filter_le _ _)

/-- The rules that are left are those that repeat no rule with a smaller number. -/
theorem mem_distinctRules_iff {rules : List Rule} (h : rules.Pairwise fun r s => r.id < s.id)
    {r : Rule} :
  r ∈ distinctRules rules ↔ r ∈ rules ∧ ∀ r' ∈ rules, r'.id < r.id → r'.same r = false
  := by
  have hmarked : (rules.map fun r => (fingerprint r, r)).Pairwise fun a b => a.2.id < b.2.id :=
    List.pairwise_map.mpr h
  have hmem : r ∈ distinctRules rules ↔ (fingerprint r, r) ∈
      (rules.map fun r => (fingerprint r, r)).eraseDupsBy fun a b => a.1 == b.1 && a.2.same b.2 := by
    rw [distinctRules, List.mem_map]
    constructor
    · rintro ⟨entry, hentry, rfl⟩
      obtain ⟨r', -, rfl⟩ := List.mem_map.mp ((eraseDupsBy_sublist _ _).subset hentry)
      exact hentry
    · intro hentry
      exact ⟨_, hentry, rfl⟩
  have hsame : ∀ r', (fingerprint r == fingerprint r' && r.same r') = r'.same r := by
    intro r'
    rw [Bool.eq_iff_iff, Bool.and_eq_true, beq_iff_eq]
    simp only [Rule.same, decide_eq_true_eq]
    constructor
    · rintro ⟨-, ho, hi⟩
      use ho.symm, hi.symm
    · rintro ⟨ho, hi⟩
      rw [fingerprint, fingerprint, ho, hi]
      use rfl
  rw [hmem, mem_eraseDupsBy_iff _ _ _ hmarked]
  · simp only [List.mem_map, Prod.mk.injEq, forall_exists_index, and_imp]
    constructor
    · rintro ⟨⟨r', hr', -, rfl⟩, hsmaller⟩
      use hr'
      intro r'' hr'' hlt
      rw [← hsame]
      apply hsmaller _ r'' hr'' rfl hlt
    · rintro ⟨hr, hsmaller⟩
      use ⟨r, hr, rfl, rfl⟩
      rintro _ r' hr' rfl hlt
      rw [hsame]
      apply hsmaller r' hr' hlt
  · rintro ⟨_, a⟩ ⟨_, b⟩ ⟨_, c⟩
    simp only [Bool.and_eq_true, beq_iff_eq, Rule.same, decide_eq_true_eq]
    rintro ⟨rfl, hb⟩ ⟨rfl, hc⟩
    use rfl, hb.1.trans hc.1, hb.2.trans hc.2
  · intro a b hlt
    apply Nat.lt_asymm hlt

/-- The numbers on a list in increasing order that repeat an earlier one. -/
theorem mem_repeated_iff {s : Store} {earlier ids : List RuleId} {id : RuleId}
    (h : (earlier ++ ids).Pairwise (· < ·)) :
  id ∈ s.repeated earlier ids ↔
    id ∈ ids ∧ ∃ prior ∈ earlier ++ ids, prior < id ∧ s.sameRule prior id = true
  := by
  induction ids generalizing earlier with
  | nil => simp [Store.repeated]
  | cons first ids ih =>
    have hbefore : ∀ prior ∈ earlier, prior < first := fun prior hprior =>
      (List.pairwise_append.mp h).2.2 prior hprior first List.mem_cons_self
    have hbehind : ∀ prior ∈ ids, first < prior :=
      (List.pairwise_cons.mp (List.pairwise_append.mp h).2.1).1
    have hshift : earlier ++ [first] ++ ids = earlier ++ first :: ids := by simp
    rw [Store.repeated, List.mem_append, ih (by rwa [hshift]), hshift, List.mem_cons, or_and_right]
    apply or_congr_left
    rw [List.mem_ite_nil_right, List.mem_singleton, List.any_eq_true, and_comm]
    apply and_congr_right
    rintro rfl
    apply exists_congr
    intro prior
    rw [List.mem_append, List.mem_cons]
    constructor
    · rintro ⟨hprior, hsame⟩
      use .inl hprior, hbefore prior hprior
    · rintro ⟨hprior | rfl | hprior, hlt, hsame⟩
      · use hprior
      · apply absurd hlt (Nat.lt_irrefl _)
      · apply absurd hlt (Nat.lt_asymm (hbehind prior hprior))

namespace Storable

theorem sameRule_store (h : g.Storable) {r r' : Rule} (hr : r ∈ g.rules) (hr' : r' ∈ g.rules) :
  g.store.sameRule r.id r'.id = r.same r'
  := by
  rw [Store.sameRule, h.get?_rules_eq_some_iff.mpr ⟨hr, rfl⟩, h.get?_rules_eq_some_iff.mpr ⟨hr', rfl⟩]

/-- The numbers on the lists of the terms that repeat an earlier one are those of the rules that repeat
one with a smaller number. -/
theorem mem_repeated_store_iff (h : g.Storable) {r : Rule} (hr : r ∈ g.rules) :
  (r.id ∈ g.store.terms.symbols.values.flatMap fun entry => g.store.repeated [] entry.content) ↔
    ∃ r' ∈ g.rules, r'.id < r.id ∧ r'.same r = true
  := by
  have hincreasing (t : TermId) : ([] ++ g.ruleIdsOf t).Pairwise (· < ·) := by
    rw [List.nil_append, ruleIdsOf, List.pairwise_map]
    apply h.rules_increasing.sublist List.filter_sublist
  simp only [terms_store, Arena.ofTable, OrderedMap.values, List.map_map, List.mem_flatMap,
    List.mem_map, Function.comp_apply, exists_exists_and_eq_and]
  constructor
  · rintro ⟨entry, -, hrepeated⟩
    rw [mem_repeated_iff (hincreasing _)] at hrepeated
    obtain ⟨-, prior, hprior, hlt, hsame⟩ := hrepeated
    obtain ⟨r', hr', rfl⟩ := List.mem_map.mp hprior
    have hr' := (mem_rulesOf.mp hr').1
    rw [h.sameRule_store hr' hr] at hsame
    use r', hr', hlt
  · rintro ⟨r', hr', hlt, hsame⟩
    obtain ⟨name, hentry⟩ := SymbolTable.mem_ids_iff.mp (contains_iff.mp (h.owner_mem r hr))
    use ⟨r.owner, name⟩, hentry
    rw [mem_repeated_iff (hincreasing _)]
    have howner : r'.owner = r.owner := (Rule.same_iff.mp hsame).1
    use (h.mem_ruleIdsOf_iff hr).mpr rfl, r'.id, (h.mem_ruleIdsOf_iff hr').mpr howner, hlt
    rw [h.sameRule_store hr' hr, hsame]

/-- To tidy the rules leads to the store of the grammar with tidy rules. -/
theorem tidyRules_store (h : g.Storable) :
  g.store.tidyRules = g.tidyRules.store
  := by
  have hremove : ((g.rules.filter Rule.isNonproductive).map (·.id)).foldl Store.removeRule g.store =
      g.removeNonproductiveRules.store := h.removeRules_store _
  rw [Store.tidyRules]
  simp only [values_rules_store, hremove]
  have h : g.removeNonproductiveRules.Storable := h.sublist List.filter_sublist
  rw [h.foldl_removeRule_store, Grammar.tidyRules, removeDuplicateRules]
  congr 2
  have hdistinct := h.rules_increasing.sublist (distinctRules_sublist _)
  refine List.Pairwise.eq_of_mem_iff (r := fun r s : Rule => r.id < s.id)
    (h.rules_increasing.sublist List.filter_sublist) hdistinct ?_
  intro r
  rw [mem_distinctRules_iff h.rules_increasing, List.mem_filter, decide_eq_true_eq]
  apply and_congr_right
  intro hr
  rw [h.mem_repeated_store_iff hr]
  push Not
  simp only [Bool.not_eq_true]

/-! ### Merging -/

theorem isDuplicateTerm_store (h : g.Storable) :
  g.store.isDuplicateTerm = g.isDuplicateTerm
  := by
  funext a b
  rw [Store.isDuplicateTerm, isDuplicateTerm, h.rulesOf_store, h.rulesOf_store]

end Storable

theorem mergeStep_store (h : g.WellFormed) :
  g.store.mergeStep = g.mergeStep.map store
  := by
  rw [Store.mergeStep, keys_terms_store, h.storable.isDuplicateTerm_store, mergeStep, Option.map_map]
  apply Option.map_congr
  rintro ⟨a, b⟩ hpair
  obtain ⟨ha, hb, -, hne⟩ := firstPair?_eq_some hpair
  have hne := hne (h.proper .term).ids_nodup
  simp only [Function.comp_apply]
  -- Of the two terms, one takes the place of the other.
  have hmerge : ∀ source target, source ≠ target → g.contains (.term target) = true →
      (g.store.substituteTerm source target).tidyRules =
        (g.substituteTerm source target).tidyRules.store := by
    intro source target hne htarget
    rw [h.storable.substituteTerm_store htarget]
    apply (h.substituteTerm hne htarget).storable.tidyRules_store
  change (if g.start = some b then _ else _ : Store).tidyRules = _
  split
  · apply hmerge a b hne (contains_iff.mpr hb)
  · apply hmerge b a hne.symm (contains_iff.mpr ha)

/-- If each step on the store of a grammar leads to the store of the grammar after a step, then so do
steps until there are no more. -/
theorem exhaust_store {P : Grammar → Prop} {step : Grammar → Option Grammar}
    {step' : Store → Option Store} (hstep : ∀ g, P g → step' g.store = (step g).map store)
    (keep : ∀ g g', P g → step g = some g' → P g') (bound : Nat) (hg : P g) :
  exhaust step' bound g.store = (exhaust step bound g).store
  := by
  induction bound generalizing g with
  | zero => rfl
  | succ bound ih =>
    rw [exhaust, exhaust, hstep g hg]
    cases hnext : step g with
    | none => rfl
    | some g' => apply ih (keep g g' hg hnext)

theorem mergeIf_store (h : g.WellFormed) (merge : Bool) :
  g.store.mergeIf merge = (g.mergeIf merge).store
  := by
  rw [Store.mergeIf, mergeIf]
  split
  · rw [terms_store, Arena.length_symbols_ofTable]
    apply exhaust_store (fun _ h => mergeStep_store h) (fun _ _ h hstep => h.mergeStep hstep) _ h
  · rfl

/-! ### Elimination of left recursion -/

/-- A term with a rule is a member. -/
theorem Storable.contains_of_rulesOf (h : g.Storable) (hne : g.rulesOf head ≠ []) :
  g.contains (.term head) = true
  := by
  by_contra hhead
  apply hne (h.rulesOf_eq_nil (Bool.eq_false_iff.mpr hhead))

theorem splitHead_store (h : g.WellFormed) (head : TermId) :
  g.store.splitHead head = (g.splitHead head).map store
  := by
  rw [Store.splitHead, splitHead, h.storable.rulesOf_store, h.storable.freshTail_store]
  simp only
  split
  · rfl
  · next hothers =>
    have hhead : g.contains (.term head) = true := by
      apply h.storable.contains_of_rulesOf
      intro hnil
      rw [hnil] at hothers
      apply hothers rfl
    -- The tail is there before its rules are.
    have htail := (contains_freshTail (t := head) h).mpr (.inr rfl)
    have hhead' := (contains_freshTail (t := head) h).mpr (.inl hhead)
    rw [Option.map_some, stored]
    simp only
    obtain ⟨hstore, hstorable⟩ :=
      (h.freshTail hhead).storable.replaceRules_store fun _ => htail
    rw [hstore, (hstorable.replaceRules_store _).1]
    intro _
    rw [contains_replaceRules]
    apply hhead'

theorem expandLeading_store (h : g.Storable) (items : List Symbol) :
  g.store.expandLeading items = g.expandLeading items
  := by
  have hrules : g.store.rulesOf = g.rulesOf := funext h.rulesOf_store
  unfold Store.expandLeading
  rw [hrules]
  rfl

theorem expandHead_store (h : g.Storable) (a : Analysis) (head : TermId) :
  g.store.expandHead a head = (g.expandHead a head).store
  := by
  rw [Store.expandHead, expandHead, h.rulesOf_store]
  simp only [expandLeading_store h]
  apply (h.replaceRules_store _).1
  intro hne
  apply h.contains_of_rulesOf
  intro hnil
  apply hne
  rw [hnil]
  rfl

theorem eliminationStep_store (h : g.WellFormed) (a : Analysis) (head : TermId) :
  g.store.eliminationStep a head = (g.eliminationStep a head).map store
  := by
  rw [Store.eliminationStep, eliminationStep, h.storable.rulesOf_store]
  split
  · apply splitHead_store h
  · rw [expandHead_store h.storable]
    rfl

/-- The elimination of left recursion in the store of a grammar leads to the store of the grammar
without left recursion, or it is given up at the same place. -/
theorem eliminate_store (h : g.WellFormed) (steps : Nat) :
  g.store.eliminate steps = (g.eliminate steps).map store
  := by
  have hname (g : Grammar) : g.store.terms.nameOf = g.termName := funext nameOf_terms_store
  induction steps generalizing g with
  | zero =>
    unfold Store.eliminate eliminate
    simp only [grammar_store, hname]
    cases g.analyze.leftRecursion <;> rfl
  | succ steps ih =>
    unfold Store.eliminate eliminate
    simp only [grammar_store, hname]
    cases g.analyze.leftRecursion with
    | nil => rfl
    | cons head path =>
      simp only [eliminationStep_store h]
      cases hstep : g.eliminationStep g.analyze head with
      | none => rfl
      | some g' =>
        have h' := (keeps_eliminationStep h hstep).wellFormed
        simp only [Option.map_some]
        rw [h'.storable.tidyRules_store]
        apply ih h'.tidyRules

/-! ### Normal forms -/

theorem removeUnreachable_store (h : g.WellFormed) :
  g.store.removeUnreachable = g.removeUnreachable.store
  := by
  rw [Store.removeUnreachable, removeUnreachable, grammar_store, start_store]
  cases g.start with
  | none => rfl
  | some start => apply h.storable.removeSymbols_store

/-- To bring the store of a grammar into normal form leads to the store of the normal form, and it
fails only if the grammar has none, for the same reason. -/
theorem normalize_store (h : g.WellFormed) (merge : Bool) :
  g.store.normalize merge = (g.normalize merge).map store
  := by
  have hlimit : ∀ g : Grammar, g.store.stepLimit = g.stepLimit := by
    intro g
    rw [Store.stepLimit, stepLimit, terms_store, Arena.length_symbols_ofTable, rules_store,
      List.length_map]
  have h₁ := h.tidyRules.mergeIf merge
  rw [Store.normalize, normalize, h.storable.tidyRules_store]
  simp only [mergeIf_store h.tidyRules, hlimit, eliminate_store h₁]
  rw [eliminateLeftRecursion]
  cases he : (g.tidyRules.mergeIf merge).eliminate (g.tidyRules.mergeIf merge).stepLimit with
  | error e => rfl
  | ok g' =>
    have h' := (keeps_eliminate h₁ he).wellFormed
    simp only [Except.map]
    rw [mergeIf_store h', removeUnreachable_store (h'.mergeIf merge)]

end CanonicalLR.Grammar
