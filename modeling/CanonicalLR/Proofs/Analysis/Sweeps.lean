import CanonicalLR.Analysis.Sweep
import CanonicalLR.Proofs.Analysis.Exactness
import CanonicalLR.Proofs.Grammar.Built
import CanonicalLR.Proofs.Language.Forms

/-!
# Sweeps find the facts

While there are sweeps, what is known holds of the grammar, and it agrees with the rules of all terms
that are not dirty (`Flagged.Sound`).  A sweep that finds out nothing leaves no term dirty, and any
other leaves less to be found out, so there are no sweeps for ever (`stuck_swept`).  In the end the
facts are exact, and so they are the same as those that are found with a queue (`analysis_swept`).

Said in terms of rewriting (`facts_exact`), a term is known to be nullable exactly if it has the empty
form, and its firsts are the tokens that begin its forms.
-/

namespace CanonicalLR.Analysis

variable {g : Grammar} {a a' : Analysis} {s next : Flagged} {t u : TermId} {terms : List TermId}

namespace Flagged

/-- What is known holds of the grammar, and it agrees with the rules of all terms that are not
dirty. -/
structure Sound (g : Grammar) (s : Flagged) : Prop where
  justified : Justified g s.analysis
  agrees : ∀ t ∈ g.terms.ids, ¬ s.dirty t = true → AgreesWith g s.analysis t

theorem dirty_visit :
  (s.visit g t).dirty u = true ↔
    (s.visit g t).analysis.of t ≠ s.analysis.of t ∧ u ∈ ((s.visit g t).analysis.of t).ancestors ∨
      u ≠ t ∧ s.dirty u = true
  := by
  simp [visit]

section visit

variable (hg : g.WellFormed) (h : s.Sound g)

include hg h

theorem Sound.visit (ht : t ∈ g.terms.ids) :
  (s.visit g t).Sound g
  := by
  constructor
  · apply justified_learnAll hg ht h.justified fun _ hr => hr
  · intro u hu hn
    rw [dirty_visit, not_or, not_and_or, not_and_or, not_not, not_not] at hn
    apply agreesWith_learnAll hg ht h.justified.known h.agrees hu hn.2 hn.1

/-- Either a visit finds out nothing and leaves the term clean, or less is left to be found out. -/
theorem visit_cases (ht : t ∈ g.terms.ids) :
  (s.visit g t).analysis = s.analysis ∧
      (∀ u, (s.visit g t).dirty u = true → s.dirty u = true ∧ u ≠ t) ∨
    total g (s.visit g t).analysis < total g s.analysis
  := by
  have hextends := (extends_learnAll hg ht h.justified.known fun _ hr => hr).1
  apply hextends.eq_or_lt.imp
  · intro heq
    have hvisit : (s.visit g t).analysis = s.analysis := heq
    use hvisit
    intro u hu
    rw [dirty_visit, hvisit] at hu
    rcases hu with ⟨hchanged, -⟩ | ⟨hut, hu⟩
    · apply absurd rfl hchanged
    · use hu, hut
  · apply total_lt ht hextends

/-- The same holds of the visits to some terms, one after the other. -/
theorem foldl_visit_cases (hterms : ∀ t ∈ terms, t ∈ g.terms.ids) :
  (terms.foldl (visit g) s).Sound g ∧
    ((terms.foldl (visit g) s).analysis = s.analysis ∧
        (∀ u, (terms.foldl (visit g) s).dirty u = true → s.dirty u = true ∧ u ∉ terms) ∨
      total g (terms.foldl (visit g) s).analysis < total g s.analysis)
  := by
  induction terms generalizing s with
  | nil => use h, .inl ⟨rfl, fun u hu => ⟨hu, List.not_mem_nil⟩⟩
  | cons t terms ih =>
    have ht := hterms t List.mem_cons_self
    obtain ⟨hsound, hrest⟩ := ih (h.visit hg ht) fun u hu => hterms u (List.mem_cons_of_mem t hu)
    use hsound
    rw [List.foldl_cons]
    rcases visit_cases hg h ht with ⟨hsame, hdirty⟩ | hlt
    · rw [hsame] at hrest
      apply hrest.imp_left
      rintro ⟨hsame', hdirty'⟩
      use hsame'
      intro u hu
      obtain ⟨hu, hnot⟩ := hdirty' u hu
      obtain ⟨hu, hut⟩ := hdirty u hu
      use hu
      rw [List.mem_cons, not_or]
      use hut
    · right
      rcases hrest with ⟨hsame', -⟩ | hlt'
      · rw [hsame']
        apply hlt
      · apply Nat.lt_trans hlt' hlt

end visit

/-! ### Sweeps -/

theorem mem_pending :
  t ∈ s.pending g ↔ t ∈ g.terms.ids ∧ s.dirty t = true
  := List.mem_filter

theorem sweep_eq_some_iff :
  sweep g s = some next ↔ s.pending g ≠ [] ∧ next = (s.pending g).foldl (visit g) s
  := by
  rw [sweep]
  cases s.pending g <;> simp [eq_comm]

theorem stuck_sweep_iff :
  Stuck (sweep g) s ↔ s.pending g = []
  := by
  rw [Stuck, sweep]
  cases s.pending g <;> simp

theorem Sound.sweep (hg : g.WellFormed) (h : s.Sound g) (hsweep : sweep g s = some next) :
  next.Sound g
  := by
  obtain ⟨-, rfl⟩ := sweep_eq_some_iff.mp hsweep
  apply (foldl_visit_cases hg h fun t ht => (mem_pending.mp ht).1).1

/-- A bound for the number of sweeps that are still to be made. -/
def remaining (g : Grammar) (s : Flagged) : Nat :=
  total g s.analysis + if s.pending g = [] then 0 else 1

theorem remaining_lt (hg : g.WellFormed) (h : s.Sound g) (hsweep : sweep g s = some next) :
  next.remaining g < s.remaining g
  := by
  obtain ⟨hpending, hnext⟩ := sweep_eq_some_iff.mp hsweep
  rw [remaining, remaining, if_neg hpending]
  rcases (foldl_visit_cases hg h fun t ht => (mem_pending.mp ht).1).2 with ⟨hsame, hdirty⟩ | hlt
  · have hclean : next.pending g = [] := by
      rw [List.eq_nil_iff_forall_not_mem]
      intro t ht
      obtain ⟨hmem, ht⟩ := mem_pending.mp ht
      rw [hnext] at ht
      obtain ⟨ht, hnot⟩ := hdirty t ht
      apply hnot (mem_pending.mpr ⟨hmem, ht⟩)
    rw [if_pos hclean, hnext, hsame]
    apply Nat.lt_succ_self
  · rw [← hnext] at hlt
    split <;> omega

theorem sound_initial (g : Grammar) :
  (initial g).Sound g
  := ⟨justified_initial, fun _ _ hn => absurd rfl hn⟩

end Flagged

/-- When the sweeps are over, what is known holds of the grammar. -/
theorem sound_swept (hg : g.WellFormed) :
  g.swept.Sound g
  := exhaust_induction (fun _ _ h hsweep => h.sweep hg hsweep) (sweeps g) (Flagged.sound_initial g)

/-- There are no sweeps for ever. -/
theorem stuck_swept (hg : g.WellFormed) :
  Stuck (sweep g) g.swept
  := by
  apply stuck_exhaust_of_keep (fun _ _ h hsweep => h.sweep hg hsweep) (Flagged.remaining g)
    (fun _ _ h hsweep => Flagged.remaining_lt hg h hsweep) (Flagged.sound_initial g)
  have htotal := total_le g (Flagged.initial g).analysis
  rw [Flagged.remaining, sweeps]
  split <;> omega

/-- The sweeps find the same facts as the search with a queue. -/
theorem analysis_swept (hg : g.WellFormed) :
  g.swept.analysis = g.analyze
  := by
  have hclean := Flagged.stuck_sweep_iff.mp (stuck_swept hg)
  have hexact : Exact g g.swept.analysis := by
    use (sound_swept hg).justified
    intro t ht
    apply (sound_swept hg).agrees t ht
    intro hdirty
    have hmem := Flagged.mem_pending.mpr ⟨ht, hdirty⟩
    rw [hclean] at hmem
    cases hmem
  apply hexact.unique hg (exact_analyze hg)

/-- The sweeps over the terms of a grammar come to an end, with the facts of the grammar.  A term is
known to be nullable exactly if it has the empty form, and its firsts are the tokens that begin its
forms; the firsts of a sequence are the tokens that begin its forms, and those of the fallback if each
of its basic symbols has the empty form. -/
theorem facts_exact (hg : g.Built) :
  Stuck (sweep g) g.swept ∧ g.swept.analysis = g.analyze ∧
    (∀ t, g.analyze.nullable t = true ↔ g.HasForm [.term t] []) ∧
    (∀ t n, n ∈ g.analyze.firstSet t ↔ ∃ rest, g.HasForm [.term t] (.token n :: rest)) ∧
    ∀ items fallback n, n ∈ g.analyze.firstsOf fallback items ↔
      (∃ rest, g.HasForm (items.filter Symbol.isBasic) (.token n :: rest)) ∨
        (∀ s ∈ items.filter Symbol.isBasic, g.HasForm [s] []) ∧ n ∈ fallback
  := by
  have hg := hg.wellFormed
  refine ⟨stuck_swept hg, analysis_swept hg, ?_, ?_, ?_⟩
  · intro t
    rw [nullable_analyze hg, Grammar.hasForm_nil_iff, derived]
  · intro t n
    rw [firsts_analyze hg, Grammar.exists_hasForm_token_iff]
  · intro items fallback n
    rw [mem_firstsOf_analyze hg, Grammar.exists_hasForm_token_iff, opens_filter,
      ← derives_filter_isBasic, derives_nil_iff_forall]
    simp only [Grammar.hasForm_nil_iff]

/-- A grammar with terms that vanish, that begin with themselves and that have no rules. -/
def fading : Grammar :=
  ((Grammar.ofProductions "S" [⟨"S", [⟨.term, "A"⟩, ⟨.prompt, "p"⟩, ⟨.term, "S"⟩, ⟨.token, "x"⟩]⟩,
    ⟨"S", [⟨.term, "C"⟩, ⟨.token, "c"⟩]⟩, ⟨"A", [⟨.term, "B"⟩]⟩, ⟨"B", []⟩,
    ⟨"B", [⟨.term, "A"⟩, ⟨.token, "b"⟩]⟩]).toOption).getD .empty

/-- In the fading grammar, the term `A` has the empty form, the start term has forms that begin with
the token `b` although it derives nothing, and `C` has no form that begins with a token. -/
theorem facts_exact_fading :
  fading.Built ∧ fading.HasForm [.term 1] [] ∧
    (∃ rest, fading.HasForm [.term 0] (.token 2 :: rest)) ∧
    ∀ n, ¬ ∃ rest, fading.HasForm [.term 2] (.token n :: rest)
  := by
  have hbuilt : fading.Built := Grammar.built_getD_ofProductions
  obtain ⟨-, -, hnullable, hfirsts, -⟩ := facts_exact hbuilt
  have hnone : fading.analyze.firstSet 2 = ∅ := by decide +kernel
  use hbuilt, (hnullable 1).mp (by decide +kernel), (hfirsts 0 2).mp (by decide +kernel)
  intro n
  rw [← hfirsts, hnone]
  apply IndexSet.not_mem_empty

end CanonicalLR.Analysis
