import CanonicalLR.Grammar.Display
import CanonicalLR.Proofs.NormalForm.Recursion

/-!
# Normal forms of normal forms

A normal form is tidy, holds no unreachable symbol, and if merging was asked for, no duplicate terms
(`normal_normalize`).  If it has no left recursion either, then it is its own normal form
(`Normal.normalize_eq`).

A normal form may be left recursive (`leftRecursive_normalize_lopsided`).  When it is brought into
normal form once more, the result is shown differently (`not_leftRecursive_of_outline_eq`): if it had
the same terms under the same names, then only tails would have been merged into other terms, and
they come after the start term, so the result would not be left recursive.
-/

namespace CanonicalLR.Grammar

variable {g g' n n' e : Grammar} {merge : Bool} {a b source target t : TermId} {start : TermId}
  {s : Symbol}

/-! ### What is shown of a grammar -/

/-- What is shown of a grammar: its terms, with a mark at the start term, its tokens, with a mark at
the error token, its prompts, and its rules, term by term. -/
structure Outline where
  terms : List (Label × Bool)
  tokens : List (Label × Bool)
  prompts : List Label
  rules : List Production
deriving DecidableEq

/-- What is shown of the grammar. -/
def outline (g : Grammar) : Outline where
  terms := g.terms.ids.map fun t => (g.label (.term t), g.start = some t)
  tokens := g.tokens.ids.map fun t => (g.label (.token t), g.error = some t)
  prompts := g.prompts.ids.map fun p => g.label (.prompt p)
  rules := g.terms.ids.flatMap fun t => (g.rulesOf t).map g.production

/-- Grammars with the same outline are shown as the same text. -/
theorem display_eq_of_outline_eq (h : g.outline = g'.outline) :
  g.display = g'.display
  := by
  let mark (word : String) (entry : Label × Bool) : String :=
    entry.1.display ++ if entry.2 then " (" ++ word ++ ")" else ""
  have htext (g : Grammar) : g.display = Text.unlines
      (["## terms:"] ++ g.outline.terms.map (mark "start") ++
        ["", "## tokens:"] ++ g.outline.tokens.map (mark "error") ++
        ["", "## prompts:"] ++ g.outline.prompts.map Label.display ++
        ["", "## rules:"] ++ g.outline.rules.map Production.display) := by
    simp only [display, outline, mark, displaySymbol, List.map_map, List.map_flatMap, Function.comp_def,
      decide_eq_true_eq]
    rfl
  rw [htext, htext, h]

/-- What is shown of a grammar are the productions of all its rules. -/
theorem mem_rules_outline (hg : g.WellFormed) {p : Production} :
  p ∈ g.outline.rules ↔ ∃ r ∈ g.rules, g.production r = p
  := by
  simp only [outline, List.mem_flatMap, List.mem_map, mem_rulesOf]
  constructor
  · rintro ⟨t, -, r, ⟨hr, -⟩, he⟩
    use r, hr, he
  · rintro ⟨r, hr, he⟩
    exact ⟨r.owner, contains_iff.mp (hg.owner_mem r hr), r, ⟨hr, rfl⟩, he⟩

/-! ### Merging comes to its end -/

/-- No pair is found exactly if no two values of the list are related. -/
theorem firstPair?_eq_none_iff {α : Type} {related : α → α → Bool} {as : List α} :
  firstPair? related as = none ↔ as.Pairwise fun a b => ¬ related a b
  := by
  induction as with
  | nil => simp [firstPair?]
  | cons a as ih =>
    rw [firstPair?, List.pairwise_cons]
    split
    · next b hb =>
      simp only [reduceCtorEq, false_iff, not_and]
      intro hall
      apply absurd (List.find?_some hb) (hall b (List.mem_of_find?_eq_some hb))
    · next hnone =>
      rw [ih]
      simp only [List.find?_eq_none] at hnone
      exact ⟨fun h => ⟨hnone, h⟩, fun h => h.2⟩

/-- Of the first pair of a list the first value comes first. -/
theorem rel_of_firstPair?_eq_some {α : Type} {related : α → α → Bool} {as : List α} {a b : α}
    {R : α → α → Prop} (hR : as.Pairwise R) (h : firstPair? related as = some (a, b)) :
  R a b
  := by
  induction as with
  | nil => cases h
  | cons c as ih =>
    obtain ⟨hc, has⟩ := List.pairwise_cons.mp hR
    rw [firstPair?] at h
    split at h
    · next d hd =>
      cases h
      apply hc b (List.mem_of_find?_eq_some hd)
    · apply ih has h

/-- No merge is possible exactly if no two terms pass for duplicates. -/
theorem mergeStep_eq_none_iff :
  g.mergeStep = none ↔ g.terms.ids.Pairwise fun a b => ¬ g.isDuplicateTerm a b
  := by
  rw [mergeStep, Option.map_eq_none_iff, firstPair?_eq_none_iff]

/-- There is one term less after a merge. -/
theorem size_mergeStep_lt (hg : g.WellFormed) (h : g.mergeStep = some g') :
  g'.terms.size < g.terms.size
  := by
  rw [mergeStep_eq] at h
  obtain ⟨⟨source, target⟩, hnext, rfl⟩ := Option.map_eq_some_iff.mp h
  obtain ⟨-, hsource, -⟩ := exists_of_nextMerge?_eq_some hg hnext
  obtain ⟨name, hm⟩ := SymbolTable.mem_ids_iff.mp (contains_iff.mp hsource)
  apply List.length_filter_lt_length_iff_exists.mpr ⟨_, hm, by simp⟩

/-- When duplicate terms were merged, there are none left. -/
theorem mergeStep_mergeDuplicates (hg : g.WellFormed) :
  g.mergeDuplicates.mergeStep = none
  := stuck_exhaust_of_keep (motive := WellFormed) (fun _ _ hg hstep => hg.mergeStep hstep)
    (fun g => g.terms.size) (fun _ _ hg hstep => size_mergeStep_lt hg hstep) hg (Nat.le_refl _)

/-- Where no merge is possible, merging changes nothing. -/
theorem mergeDuplicates_eq_self (h : g.mergeStep = none) :
  g.mergeDuplicates = g
  := by
  rw [mergeDuplicates]
  cases g.terms.size with
  | zero => rfl
  | succ bound => rw [exhaust, h]

theorem mergesTo_mergeDuplicates (g : Grammar) :
  g.MergesTo g.mergeDuplicates
  := exhaust_induction (motive := g.MergesTo) (fun _ _ hto hstep => hto.tail hstep) _ .refl

/-- On the way to the end of merging no other grammars are met than those from which this end is
reached. -/
theorem MergesTo.mergesTo_mergeDuplicates (hg : g.WellFormed) (h : g.MergesTo g') :
  g'.MergesTo g.mergeDuplicates
  := by
  have hunique : Relator.RightUnique fun g g' : Grammar => g.mergeStep = some g' :=
    fun _ _ _ h h' => Option.some.inj (h.symm.trans h')
  rcases Relation.ReflTransGen.total_of_right_unique hunique h g.mergesTo_mergeDuplicates with
    hto | hto
  · apply hto
  · rcases hto.cases_head with rfl | ⟨g'', hstep, -⟩
    · exact .refl
    · rw [mergeStep_mergeDuplicates hg] at hstep
      cases hstep

/-- A grammar stays well formed and keeps its start term when terms are merged. -/
theorem MergesTo.wellFormed_and_start (hg : g.WellFormed) (h : g.MergesTo g') :
  g'.WellFormed ∧ g'.start = g.start
  := by
  induction h with
  | refl => use hg
  | tail _ hstep ih => use ih.1.mergeStep hstep, (tokens_start_mergeStep ih.1 hstep).2.trans ih.2

theorem entries_substituteTerm_subset (k : Kind) :
  ((g.substituteTerm source target).table k).entries ⊆ (g.table k).entries
  := by
  cases k <;> simp [substituteTerm, removeSymbol, table, withTable, removeRules, SymbolTable.erase]

/-- A merge adds no entry. -/
theorem MergesTo.entries_subset (h : g.MergesTo g') (k : Kind) :
  (g'.table k).entries ⊆ (g.table k).entries
  := by
  induction h with
  | refl => apply List.Subset.refl
  | tail _ hstep ih =>
    rw [mergeStep_eq] at hstep
    obtain ⟨⟨source, target⟩, -, rfl⟩ := Option.map_eq_some_iff.mp hstep
    apply List.Subset.trans (entries_substituteTerm_subset k) ih

/-! ### Duplicates among reachable terms -/

/-- The rules of a term that can be reached are left when the others are removed. -/
theorem rulesOf_removeUnreachable (hleft : g.removeUnreachable.contains (.term t)) :
  g.removeUnreachable.rulesOf t = g.rulesOf t
  := by
  rw [removeUnreachable] at hleft ⊢
  split at hleft
  · rfl
  · next start hs =>
    have hnot := (contains_removeSymbols.mp hleft).2
    rw [rulesOf, rulesOf, rules_removeSymbols, List.filter_filter]
    apply List.filter_congr
    intro r hr
    by_cases howner : r.owner = t
    · subst howner
      simpa using hnot
    · simp [howner]

theorem ids_removeSymbols_sublist (removed : List Symbol) :
  (removed.foldl removeSymbol g).terms.ids.Sublist g.terms.ids
  := by
  induction removed generalizing g with
  | nil => exact .refl _
  | cons s removed ih =>
    apply ih.trans
    obtain ⟨k, id⟩ := s
    cases k with
    | term => apply List.filter_sublist.map
    | token => exact .refl _
    | prompt => exact .refl _

/-- If there are no duplicate terms, there are none among those that can be reached. -/
theorem mergeStep_removeUnreachable (h : g.mergeStep = none) :
  g.removeUnreachable.mergeStep = none
  := by
  rw [mergeStep_eq_none_iff] at h ⊢
  have hsub : g.removeUnreachable.terms.ids.Sublist g.terms.ids := by
    rw [removeUnreachable]
    split
    · exact .refl _
    · apply ids_removeSymbols_sublist
  apply (h.sublist hsub).imp_of_mem
  intro a b ha hb hdup
  rwa [isDuplicateTerm, rulesOf_removeUnreachable (contains_iff.mpr ha),
    rulesOf_removeUnreachable (contains_iff.mpr hb)]

/-! ### Normal grammars -/

/-- The rules are tidy, there are no duplicate terms if they are to be merged, and no symbol but the
error token is unreachable from the start term. -/
structure Normal (merge : Bool) (g : Grammar) : Prop where
  tidy : g.Tidy
  merged : merge = true → g.mergeStep = none
  reachable : ∀ start, g.start = some start → g.unreachable start = []

/-- A normal form is normal. -/
theorem normal_normalize (hg : g.WellFormed) (hn : g.normalize merge = .ok n) :
  n.Normal merge
  := by
  use tidy_normalize hn
  all_goals
    obtain ⟨e, he, rfl⟩ := exists_of_map_eq_ok hn
    have hwell := (keeps_eliminate (hg.tidyRules.mergeIf merge) he).wellFormed
  · rintro rfl
    apply mergeStep_removeUnreachable (mergeStep_mergeDuplicates hwell)
  · intro start hs
    apply unreachable_eq_nil_iff.mpr
    intro s
    rw [start_removeUnreachable] at hs
    apply reaches_of_contains_removeUnreachable (hwell.mergeIf merge) hs

/-- To tidy and to merge changes nothing in a normal grammar. -/
theorem Normal.mergeIf_tidyRules (h : g.Normal merge) :
  g.tidyRules.mergeIf merge = g
  := by
  rw [h.tidy.tidyRules_eq, mergeIf]
  split
  · next hmerge => apply mergeDuplicates_eq_self (h.merged hmerge)
  · rfl

/-- A normal grammar without left recursion is its own normal form. -/
theorem Normal.normalize_eq (h : g.Normal merge) (hrec : g.analyze.leftRecursion = []) :
  g.normalize merge = .ok g
  := by
  have heliminate : g.eliminateLeftRecursion = .ok g := by
    rw [eliminateLeftRecursion]
    unfold eliminate
    simp only [hrec]
  have hmerge : g.mergeIf merge = g := by
    have := h.mergeIf_tidyRules
    rwa [h.tidy.tidyRules_eq] at this
  have hreachable : g.removeUnreachable = g := by
    rw [removeUnreachable]
    split
    · rfl
    · next start hs =>
      rw [h.reachable start hs]
      rfl
  rw [normalize, h.mergeIf_tidyRules, heliminate]
  simp only [Except.map, hmerge, hreachable]

/-! ### Left recursive normal forms -/

/-- The grammar `g'` has the terms of `g`, and possibly others that were added after them. -/
def Lengthens (g g' : Grammar) : Prop :=
  g.terms.next ≤ g'.terms.next ∧
    ∀ t, g'.contains (.term t) = true → g.contains (.term t) = true ∨ g.terms.next ≤ t

theorem Lengthens.refl (g : Grammar) :
  Lengthens g g
  := ⟨Nat.le_refl _, fun _ => .inl⟩

theorem Lengthens.trans {g'' : Grammar} (h : Lengthens g g') (h' : Lengthens g' g'') :
  Lengthens g g''
  := by
  use Nat.le_trans h.1 h'.1
  intro t ht
  rcases h'.2 t ht with ht | ht
  · apply h.2 t ht
  · exact .inr (Nat.le_trans h.1 ht)

theorem Lengthens.of_terms_eq (h : g'.terms = g.terms) :
  Lengthens g g'
  := by
  rw [Lengthens, h]
  use Nat.le_refl _
  intro t ht
  left
  simpa [Grammar.contains, table, h] using ht

/-- The tail of a term is added after the other terms. -/
theorem lengthens_freshTail (hg : g.WellFormed) (t : TermId) :
  Lengthens g (g.freshTail t).2
  := by
  have hnew := (freshName_not_mem g (g.termName t)).2
  have hfresh : (g.freshTail t).1 = g.terms.next ∧
      (g.freshTail t).2.terms.next = g.terms.next + 1 := by
    simp only [freshTail, intern, withTable, table]
    rw [SymbolTable.intern_of_not_mem hnew]
    exact ⟨rfl, rfl⟩
  rw [Lengthens, hfresh.2]
  use Nat.le_succ _
  intro u hu
  rcases (contains_freshTail hg).mp hu with hu | hu
  · exact .inl hu
  · rw [hfresh.1, Symbol.mk.injEq] at hu
    exact .inr (Nat.le_of_eq hu.2.symm)

/-- The elimination adds terms after those that there are. -/
theorem lengthens_eliminate {steps : Nat} (hg : g.WellFormed) (h : g.eliminate steps = .ok g') :
  Lengthens g g'
  := by
  let motive (h : Grammar) : Prop := h.WellFormed ∧ Lengthens g h
  refine (eliminate_induction (motive := motive) ?_ ⟨hg, .refl g⟩ h).1.2
  rintro h head path h' ⟨hh, hlong⟩ _ hstep
  use (keeps_eliminationStep hh hstep).wellFormed.tidyRules
  apply hlong.trans
  change Lengthens h h'
  rw [eliminationStep] at hstep
  split at hstep
  · obtain ⟨-, tail, -, rfl⟩ := exists_of_splitHead_eq_some hstep
    apply (lengthens_freshTail hh head).trans
    apply Lengthens.of_terms_eq
    apply (table_replaceRules .term _).trans (table_replaceRules .term _)
  · cases hstep
    apply Lengthens.of_terms_eq
    apply table_replaceRules .term

/-- To remove what is unreachable adds no entry. -/
theorem entries_removeUnreachable_subset (k : Kind) :
  (g.removeUnreachable.table k).entries ⊆ (g.table k).entries
  := by
  rw [removeUnreachable]
  split
  · apply List.Subset.refl
  · apply entries_removeSymbols_subset

theorem entries_mergeIf_subset (k : Kind) :
  ((g.mergeIf merge).table k).entries ⊆ (g.table k).entries
  := by
  rw [mergeIf]
  split
  · apply g.mergesTo_mergeDuplicates.entries_subset k
  · apply List.Subset.refl

/-- A member is a member of a grammar with more entries. -/
theorem contains_of_subset (hsub : ∀ k, (g.table k).entries ⊆ (g'.table k).entries)
    (hs : g.contains s) :
  g'.contains s
  := by
  obtain ⟨name, hm⟩ := SymbolTable.mem_ids_iff.mp (contains_iff.mp hs)
  apply contains_iff.mpr (SymbolTable.mem_ids_iff.mpr ⟨name, hsub _ hm⟩)

section outline

/-- The label of a symbol is the same in a grammar with more entries. -/
theorem WellFormed.label_eq_of_subset (he : e.WellFormed) (hg : g.WellFormed)
    (hsub : ∀ k, (g.table k).entries ⊆ (e.table k).entries) (hs : g.contains s) :
  e.contains s ∧ e.label s = g.label s
  := by
  use contains_of_subset hsub hs
  rw [label, label, he.nameOf_eq (hsub _ (hg.entry_mem hs))]

/-- Sequences of members with the same labels are the same. -/
theorem WellFormed.eq_of_map_label_eq (he : e.WellFormed) {xs ys : List Symbol}
    (hxs : ∀ s ∈ xs, e.contains s) (hys : ∀ s ∈ ys, e.contains s)
    (hl : xs.map e.label = ys.map e.label) :
  xs = ys
  := by
  induction xs generalizing ys with
  | nil => simpa using hl.symm
  | cons x xs ih =>
    obtain ⟨y, ys, rfl⟩ : ∃ y ys', ys = y :: ys' := by
      cases ys with
      | nil => simp at hl
      | cons y ys => use y, ys
    obtain ⟨hx, hrest⟩ := List.cons.inj hl
    rw [he.eq_of_label_eq (hxs x List.mem_cons_self) (hys y List.mem_cons_self) hx,
      ih (fun s hs => hxs s (List.mem_cons_of_mem _ hs))
        (fun s hs => hys s (List.mem_cons_of_mem _ hs)) hrest]

variable (he : e.WellFormed) (hn : n.WellFormed) (hn' : n'.WellFormed)
  (hsub : ∀ k, (n.table k).entries ⊆ (e.table k).entries)
  (hsub' : ∀ k, (n'.table k).entries ⊆ (e.table k).entries) (houtline : n'.outline = n.outline)

include he hn hn' hsub hsub' houtline

/-- Two grammars with entries from the same tables have the same terms if they are shown alike. -/
theorem contains_term_of_outline_eq (ht : n.contains (.term t)) :
  n'.contains (.term t)
  := by
  have hshown : (n.label (.term t), decide (n.start = some t)) ∈ n'.outline.terms := by
    rw [houtline]
    apply List.mem_map.mpr ⟨t, contains_iff.mp ht, rfl⟩
  obtain ⟨t', ht', hlabel⟩ := List.mem_map.mp hshown
  have ht' : n'.contains (.term t') := contains_iff.mpr ht'
  obtain ⟨hmem, heq⟩ := he.label_eq_of_subset hn hsub ht
  obtain ⟨hmem', heq'⟩ := he.label_eq_of_subset hn' hsub' ht'
  have hsame := he.eq_of_label_eq hmem' hmem (heq'.trans ((Prod.mk.inj hlabel).1.trans heq.symm))
  rwa [← hsame]

/-- Two grammars with entries from the same tables have the same right sides if they are shown
alike. -/
theorem hasRule_of_outline_eq {items : List Symbol} (hr : n.HasRule t items) :
  n'.HasRule t items
  := by
  obtain ⟨r, hr, rfl, rfl⟩ := hr
  have hshown : n.production r ∈ n'.outline.rules := by
    rw [houtline]
    apply (mem_rules_outline hn).mpr ⟨r, hr, rfl⟩
  obtain ⟨r', hr', hproduction⟩ := (mem_rules_outline hn').mp hshown
  obtain ⟨hleft, hright⟩ := Production.mk.inj hproduction
  have howner : r'.owner = r.owner := by
    obtain ⟨hmem, heq⟩ := he.label_eq_of_subset hn hsub (hn.owner_mem r hr)
    obtain ⟨hmem', heq'⟩ := he.label_eq_of_subset hn' hsub' (hn'.owner_mem r' hr')
    have hlabel : n'.label (.term r'.owner) = n.label (.term r.owner) := congrArg (Label.mk .term) hleft
    simpa using he.eq_of_label_eq hmem' hmem (heq'.trans (hlabel.trans heq.symm))
  have hitems : r'.items = r.items := by
    have hmem := fun s hs => he.label_eq_of_subset hn hsub (hn.items_mem r hr s hs)
    have hmem' := fun s hs => he.label_eq_of_subset hn' hsub' (hn'.items_mem r' hr' s hs)
    apply he.eq_of_map_label_eq (fun s hs => (hmem' s hs).1) fun s hs => (hmem s hs).1
    rw [List.map_congr_left fun s hs => (hmem' s hs).2, hright,
      List.map_congr_left fun s hs => (hmem s hs).2]
  exact ⟨r', hr', howner, hitems⟩

end outline

/-- If all terms of a grammar are left after an elimination and merging, then no term was merged into
a later start term. -/
theorem startMergesSameRules_of_contains {steps : Nat} (hn : n.WellFormed)
    (he : n.eliminate steps = .ok e)
    (hleft : ∀ t, n.contains (.term t) → e.mergeDuplicates.contains (.term t)) :
  e.StartMergesSameRules
  := by
  intro h hto a b hpair hstart
  have hkeeps := keeps_eliminate hn he
  obtain ⟨hwell, hstarts⟩ := hto.wellFormed_and_start hkeeps.wellFormed
  have hnext : h.nextMerge? = some (a, b) := by
    rw [nextMerge?, hpair]
    simp [hstart]
  have hstep : h.mergeStep = some (h.substituteTerm a b).tidyRules := by
    rw [mergeStep_eq, hnext, Option.map_some]
  -- The first of the two goes, so it is a tail, and it comes after the start term.
  have hgone : ¬ n.contains (.term a) := by
    intro ha
    have hmem := hleft a ha
    rcases (hto.mergesTo_mergeDuplicates hkeeps.wellFormed).cases_head with heq | ⟨h₁, hstep₁, hrest⟩
    · have hstuck := mergeStep_mergeDuplicates hkeeps.wellFormed
      rw [← heq, hstep] at hstuck
      cases hstuck
    · obtain rfl := Option.some.inj (hstep.symm.trans hstep₁)
      have hcontains := contains_of_subset (MergesTo.entries_subset hrest) hmem
      apply (contains_substituteTerm.mp hcontains).2 rfl
  have hlt : a < b := rel_of_firstPair?_eq_some (hwell.proper .term).ids_increasing hpair
  have hb : b < n.terms.next := by
    apply (hn.proper .term).ids_old b (contains_iff.mp (hn.start_mem b _))
    rw [← hkeeps.start_eq, ← hstarts, hstart]
    rfl
  have ha : e.contains (.term a) :=
    contains_of_subset hto.entries_subset (contains_iff.mpr (firstPair?_eq_some hpair).1)
  have hle := ((lengthens_eliminate hn he).2 a ha).resolve_left hgone
  apply absurd (Nat.lt_trans hlt hb) (Nat.not_lt.mpr hle)

/-- If a normal grammar has a normal form that is shown like it, then it is not left recursive. -/
theorem Normal.not_leftRecursive_of_outline_eq (h : n.Normal merge) (hn : n.WellFormed)
    (hn' : n.normalize merge = .ok n') (houtline : n'.outline = n.outline) :
  ¬ n.LeftRecursive t
  := by
  have hwell' := hn.normalize hn'
  obtain ⟨e, he, heq⟩ := exists_of_map_eq_ok hn'
  rw [h.mergeIf_tidyRules] at he
  have hkeeps := keeps_eliminate hn he
  have hsub' : ∀ k, (n'.table k).entries ⊆ (e.table k).entries := fun k =>
    heq ▸ List.Subset.trans (entries_removeUnreachable_subset k) (entries_mergeIf_subset k)
  have hcontains : ∀ t, n.contains (.term t) → n'.contains (.term t) := fun _ =>
    contains_term_of_outline_eq hkeeps.wellFormed hn hwell' hkeeps.entries_subset hsub' houtline
  have hrules : ∀ t items, n.HasRule t items → n'.HasRule t items := fun _ _ =>
    hasRule_of_outline_eq hkeeps.wellFormed hn hwell' hkeeps.entries_subset hsub' houtline
  have hnone : ∀ t, ¬ n'.LeftRecursive t := by
    intro t
    apply not_leftRecursive_normalize hn hn'
    rintro rfl e' he'
    have hmerged := h.mergeIf_tidyRules
    rw [mergeIf, if_pos rfl] at hmerged
    rw [hmerged] at he'
    obtain rfl := Except.ok.inj (he.symm.trans he')
    apply startMergesSameRules_of_contains hn he
    intro t ht
    have hleft := hcontains t ht
    rw [← heq] at hleft
    apply contains_of_subset entries_removeUnreachable_subset hleft
  intro ht
  apply hnone t (leftRecursive_of_hasRule hrules ht)

/-! ### Bringing into normal form twice -/

/-- A normal form has a normal form that is shown like it exactly if no left recursion is found in it;
and then it is its own normal form.  So it is if no merging was asked for, or if, after the elimination,
terms are merged into a later start term only if the two have the same rules. -/
theorem normalize_normalize_iff (hg : g.Built) (hn : g.normalize merge = .ok n) :
  ((∃ n', n.normalize merge = .ok n' ∧ n'.outline = n.outline) ↔ n.analyze.leftRecursion = []) ∧
    (n.analyze.leftRecursion = [] → n.normalize merge = .ok n) ∧
    ((merge = true → ∀ e, g.tidyRules.mergeDuplicates.eliminateLeftRecursion = .ok e →
      e.StartMergesSameRules) → n.normalize merge = .ok n)
  := by
  have hwell := hg.wellFormed.normalize hn
  have hnormal := normal_normalize hg.wellFormed hn
  refine ⟨⟨?_, ?_⟩, hnormal.normalize_eq, fun hsame => ?_⟩
  · rintro ⟨n', hn', houtline⟩
    apply (Analysis.leftRecursion_eq_nil_iff hwell).mpr
    exact fun t => hnormal.not_leftRecursive_of_outline_eq hwell hn' houtline
  · exact fun hnil => ⟨n, hnormal.normalize_eq hnil, rfl⟩
  · apply hnormal.normalize_eq
    apply (Analysis.leftRecursion_eq_nil_iff hwell).mpr
    exact fun t => not_leftRecursive_normalize hg.wellFormed hn hsame

/-- The normal form of the grammar with two tails that are duplicates is its own normal form. -/
theorem normalize_normalize_repeats :
  ∃ n, repeats.normalize true = .ok n ∧ n ≠ repeats ∧ n.normalize true = .ok n
  := by
  have hn : repeats.normalize true = .ok (((repeats.normalize true).toOption).getD empty) := by
    decide +kernel
  refine ⟨_, hn, by decide +kernel, ?_⟩
  apply (normalize_normalize_iff built_repeats hn).2.1
  decide +kernel

/-- The normal form whose start term is left recursive has another normal form, which is shown
differently. -/
theorem display_normalize_lopsided :
  lopsided.Built ∧ ∃ n n', lopsided.normalize true = .ok n ∧ n.normalize true = .ok n' ∧
    n'.display ≠ n.display
  := by
  have hn : lopsided.normalize true = .ok (((lopsided.normalize true).toOption).getD empty) := by
    decide +kernel
  have hn' : (((lopsided.normalize true).toOption).getD empty).normalize true =
      .ok (((((lopsided.normalize true).toOption).getD empty).normalize true).toOption.getD empty) := by
    decide +kernel
  refine ⟨built_lopsided, _, _, hn, hn', ?_⟩
  decide +kernel

end CanonicalLR.Grammar
