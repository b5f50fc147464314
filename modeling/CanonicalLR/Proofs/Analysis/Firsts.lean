import CanonicalLR.Proofs.Analysis.Agreement

/-!
# The analysis is complete

Whatever is derived from a term is known to the analysis: a term from which the empty sequence is
derived is known to be nullable, and the first token of any other sequence is known to begin a
derivation of the term (`begins_of_agreesWith`).  So `firstsOf` misses no token that a sequence of
symbols and what follows it can begin with (`headD_mem_firstsOf`), and it holds no number but those
of tokens of the grammar (`mem_ids_of_mem_firstsOf`).
-/

namespace CanonicalLR.Analysis

variable {g : Grammar} {a : Analysis} {t : TermId} {items : List Symbol} {w : List TokenId}
  {fallback : IndexSet} {n : TokenId}

/-- The sequences that may be derived from a term as far as the facts tell: the empty sequence if
the term is nullable, and those that begin with one of its firsts. -/
def Begins (a : Analysis) : Reading :=
  fun t w => (w = [] → (a.of t).nullable) ∧ ∀ n, w.head? = some n → n ∈ (a.of t).firsts

/-- If the facts agree with a right side, then its owner may begin with all that it may begin
with. -/
theorem begins_of_agrees (h : Agrees a t ((a.of t).nullable = true) items)
    (hw : Reads (Begins a) items w) :
  Begins a t w
  := by
  induction items generalizing w with
  | nil =>
    obtain rfl := hw
    use fun _ => h
    simp
  | cons s items ih =>
    obtain ⟨u, v, rfl, hu, hv⟩ := hw
    match s with
    | .prompt _ =>
      obtain rfl := hu
      apply ih h hv
    | .token n =>
      obtain rfl := hu
      use by simp
      intro m hm
      obtain rfl : n = m := by simpa using hm
      apply h
    | .term c =>
      obtain ⟨-, hfirsts, hrest⟩ := h
      obtain ⟨hnullable, hfirst⟩ := hu
      cases u with
      | nil => apply ih (hrest (hnullable rfl)) hv
      | cons m u =>
        use by simp
        intro m' hm'
        apply hfirsts m' (hfirst m' hm')

/-- What is derived from a term is known about it, if the facts agree with all rules. -/
theorem begins_of_agreesWith (hg : g.WellFormed) (h : ∀ t ∈ g.terms.ids, AgreesWith g a t)
    (hw : derived g.rules t w) :
  Begins a t w
  := by
  have hclosed : ∀ r ∈ g.rules, ClosedUnder (Begins a) r := by
    intro r hr w hw
    have hmember := Grammar.contains_iff.mp (hg.owner_mem r hr)
    have hagrees := h r.owner hmember r (Grammar.mem_rulesOf.mpr ⟨hr, rfl⟩)
    apply begins_of_agrees hagrees hw
  have := Derives.reads hclosed hw
  rwa [reads_singleton] at this

/-- What is read off the symbols, and a token of the fallback after it, begins with one of their
firsts. -/
theorem headD_mem_firstsOf_of_reads (hw : Reads (Begins a) items w) (hn : n ∈ fallback) :
  w.headD n ∈ a.firstsOf fallback items
  := by
  induction items generalizing w with
  | nil =>
    obtain rfl := hw
    apply hn
  | cons s items ih =>
    obtain ⟨u, v, rfl, hu, hv⟩ := hw
    match s with
    | .prompt _ =>
      obtain rfl := hu
      apply ih hv
    | .token m =>
      obtain rfl := hu
      apply IndexSet.mem_union.mpr (.inl _)
      apply IndexSet.mem_singleton.mpr rfl
    | .term c =>
      obtain ⟨hnullable, hfirst⟩ := hu
      cases u with
      | nil =>
        have hc : a.nullableSymbol (.term c) = true := hnullable rfl
        apply IndexSet.mem_union.mpr (.inr _)
        rw [if_pos hc]
        apply ih hv
      | cons m u =>
        apply IndexSet.mem_union.mpr (.inl _)
        apply hfirst m rfl

/-- What is derived from the symbols, and a token of the fallback after it, begins with one of their
firsts. -/
theorem headD_mem_firstsOf (hg : g.WellFormed) (hw : Derives g.rules items w)
    (hn : n ∈ fallback) :
  w.headD n ∈ g.analyze.firstsOf fallback items
  := by
  apply headD_mem_firstsOf_of_reads _ hn
  apply (derives_iff_reads.mp hw).mono
  intro t _ u hu
  apply begins_of_agreesWith hg (agrees_analyze hg).2 hu

/-- What follows a sequence takes the place of the fallback. -/
theorem firstsOf_append {others : List Symbol} :
  a.firstsOf fallback (items ++ others) = a.firstsOf (a.firstsOf fallback others) items
  := by
  induction items with
  | nil => rfl
  | cons s items ih =>
    match s with
    | .prompt _ => apply ih
    | .token _ => rfl
    | .term _ => simp only [List.cons_append, firstsOf, ih]

/-- Prompts do not matter to the firsts. -/
theorem firstsOf_filter :
  a.firstsOf fallback (items.filter Symbol.isBasic) = a.firstsOf fallback items
  := by
  induction items with
  | nil => rfl
  | cons s items ih =>
    match s with
    | .prompt _ => apply ih
    | .token _ => rfl
    | .term c =>
      change a.firstsOf fallback (.term c :: items.filter Symbol.isBasic) = _
      simp only [firstsOf, ih]

/-- With more tokens in the fallback there are more firsts. -/
theorem firstsOf_mono {fallback' : IndexSet} (h : ∀ m, m ∈ fallback → m ∈ fallback')
    (hn : n ∈ a.firstsOf fallback items) :
  n ∈ a.firstsOf fallback' items
  := by
  induction items with
  | nil => apply h n hn
  | cons s items ih =>
    match s with
    | .prompt _ => apply ih hn
    | .token _ => apply hn
    | .term c =>
      simp only [firstsOf, IndexSet.mem_union] at hn ⊢
      apply hn.imp_right
      intro hrest
      split at hrest
      · next hc =>
        rw [if_pos hc]
        apply ih hrest
      · apply absurd hrest (IndexSet.not_mem_empty n)

/-- The firsts of members are among numbers that the tokens of the grammar and the fallback are
among. -/
theorem mem_ids_of_mem_firstsOf {ids : List TokenId} (h : Known g a)
    (htokens : g.tokens.ids ⊆ ids) (hitems : ∀ s ∈ items, g.contains s)
    (hfallback : ∀ m, m ∈ fallback → m ∈ ids) (hn : n ∈ a.firstsOf fallback items) :
  n ∈ ids
  := by
  induction items with
  | nil => apply hfallback n hn
  | cons s items ih =>
    have hrest := ih fun s hs => hitems s (List.mem_cons_of_mem _ hs)
    have hs := hitems s List.mem_cons_self
    match s with
    | .prompt _ => apply hrest hn
    | .token m =>
      rcases IndexSet.mem_union.mp hn with hn | hn
      · rw [IndexSet.mem_singleton.mp hn]
        apply htokens (Grammar.contains_iff.mp hs)
      · apply absurd hn (IndexSet.not_mem_empty n)
    | .term c =>
      rcases IndexSet.mem_union.mp hn with hn | hn
      · apply htokens (h.firsts_mem c n hn)
      · split at hn
        · apply hrest hn
        · apply absurd hn (IndexSet.not_mem_empty n)

end CanonicalLR.Analysis
