import CanonicalLR.Proofs.NormalForm.Recursion

/-!
# Proper grammars

A grammar is *proper* if every term derives something, none derives the empty sequence, and none can
be rewritten to itself alone (`Proper`).  A sequence to which a term is rewritten then has a symbol
that is no prompt, and it can be led by no other term than the first of these symbols
(`Proper.exists_leading?`, `eq_of_canLead`).

Grammars of which every right side holds two symbols or a token, and by which every term derives
something in one step, are proper (`proper_of_substantial`).
-/

namespace CanonicalLR

open Relation

variable {items xs ys prompts rest : List Symbol} {s : Symbol} {t : TermId}

/-! ### Leading symbols -/

/-- The first symbol of a sequence that is no prompt. -/
def leading? (items : List Symbol) : Option Symbol :=
  items.find? Symbol.isBasic

theorem isBasic_eq_false_iff :
  s.isBasic = false ↔ s.isPrompt = true
  := by
  simp [Symbol.isBasic, Symbol.isPrompt]

theorem leading?_append :
  leading? (xs ++ ys) = (leading? xs).or (leading? ys)
  := List.find?_append

theorem leading?_eq_none_iff :
  leading? items = none ↔ ∀ s ∈ items, s.isPrompt
  := by
  simp [leading?, isBasic_eq_false_iff]

/-- The leading symbol stands behind prompts. -/
theorem leading?_eq_some_iff :
  leading? items = some s ↔ s.isBasic ∧ ∃ prompts rest, (∀ p ∈ prompts, p.isPrompt) ∧
    items = prompts ++ s :: rest
  := by
  rw [leading?, List.find?_eq_some_iff_append]
  simp only [Bool.not_eq_eq_eq_not, Bool.not_true, isBasic_eq_false_iff]
  constructor
  · rintro ⟨hs, prompts, rest, he, hp⟩
    use hs, prompts, rest
  · rintro ⟨hs, prompts, rest, hp, he⟩
    use hs, prompts, rest

theorem leading?_prompts_append (hp : ∀ s ∈ prompts, s.isPrompt) :
  leading? (prompts ++ items) = leading? items
  := by
  rw [leading?_append, leading?_eq_none_iff.mpr hp, Option.none_or]

/-- A sequence begins with a term if this is its leading symbol. -/
theorem beginsWith_iff :
  BeginsWith items t ↔ leading? items = some (.term t)
  := by
  rw [leading?_eq_some_iff, BeginsWith]
  simp [Symbol.isBasic]

namespace Grammar

variable {g₀ g g' : Grammar} {head tail u : TermId} {right w : List Symbol}

theorem afterHead?_prompts (hp : ∀ s ∈ prompts, s.isPrompt) :
  afterHead? head (prompts ++ .term head :: rest) = some (prompts ++ rest)
  := by
  simp [afterHead?, List.dropWhile_append_of_pos hp, List.takeWhile_append_of_pos hp,
    Symbol.isPrompt]

theorem afterHead?_isSome_iff :
  (afterHead? head items).isSome ↔ leading? items = some (.term head)
  := by
  constructor
  · intro h
    obtain ⟨after, h⟩ := Option.isSome_iff_exists.mp h
    obtain ⟨prompts, rest, hp, rfl, -⟩ := exists_of_afterHead?_eq_some h
    rw [leading?_prompts_append hp]
    rfl
  · intro h
    obtain ⟨-, prompts, rest, hp, rfl⟩ := leading?_eq_some_iff.mp h
    simp [afterHead?_prompts hp]

/-- A right side that begins with a term is expanded by the right sides of that term. -/
theorem mem_expandLeading_prompts (hp : ∀ s ∈ prompts, s.isPrompt) :
  items ∈ g.expandLeading (prompts ++ .term t :: rest) ↔
    ∃ middle, g.HasRule t middle ∧ items = prompts ++ middle ++ rest
  := by
  have hdrop : (prompts ++ .term t :: rest).dropWhile Symbol.isPrompt = .term t :: rest := by
    simp [List.dropWhile_append_of_pos hp, Symbol.isPrompt]
  have htake : (prompts ++ .term t :: rest).takeWhile Symbol.isPrompt = prompts := by
    simp [List.takeWhile_append_of_pos hp, Symbol.isPrompt]
  simp only [expandLeading, hdrop, htake, List.mem_map, mem_rulesOf, HasRule]
  constructor
  · rintro ⟨r, ⟨hr, rfl⟩, rfl⟩
    exact ⟨r.items, ⟨r, hr, rfl, rfl⟩, rfl⟩
  · rintro ⟨_, ⟨r, hr, rfl, rfl⟩, rfl⟩
    exact ⟨r, ⟨hr, rfl⟩, rfl⟩

/-- A sequence can be led by its leading symbol only, if that does not derive the empty sequence. -/
theorem eq_of_canLead (hs : leading? items = some s)
    (hnil : ∀ t, s = .term t → ¬ derived g.rules t []) (h : g.CanLead items u) :
  s = .term u
  := by
  obtain ⟨hbasic, prompts, rest, hp, rfl⟩ := leading?_eq_some_iff.mp hs
  have h := (canLead_prompts_append hp).mp h
  obtain ⟨kind, t⟩ := s
  cases kind with
  | prompt => simp [Symbol.isBasic] at hbasic
  | token => simp at h
  | term =>
    rcases canLead_term.mp h with rfl | ⟨ht, -⟩
    · rfl
    · apply absurd ht (hnil t rfl)

/-- Whether a right side can begin with the head is whether it can be led by a term from which the
head is reached. -/
theorem canBeginWith_analyze (hg : g.WellFormed) :
  canBeginWith g.analyze head items = true ↔
    ∃ u, g.CanLead items u ∧ ReflTransGen g.Leads u head
  := by
  induction items with
  | nil => simp [canBeginWith]
  | cons s items ih =>
    match s with
    | .prompt _ => simp [canBeginWith, ih]
    | .token _ => simp [canBeginWith]
    | .term t =>
      simp only [canBeginWith, Bool.or_eq_true, Bool.and_eq_true, decide_eq_true_eq, ih,
        Analysis.dependsOn_analyze hg, Analysis.nullable_analyze hg, canLead_term]
      constructor
      · rintro ((rfl | hdepends) | ⟨hnil, u, hu, hreach⟩)
        · exact ⟨t, .inl rfl, .refl⟩
        · exact ⟨t, .inl rfl, hdepends.to_reflTransGen⟩
        · exact ⟨u, .inr ⟨hnil, hu⟩, hreach⟩
      · rintro ⟨u, rfl | ⟨hnil, hu⟩, hreach⟩
        · left
          exact (reflTransGen_iff_eq_or_transGen.mp hreach).imp_left Eq.symm
        · exact .inr ⟨hnil, u, hu, hreach⟩

/-! ### Proper grammars -/

/-- Every term derives a sequence of tokens, no term derives the empty sequence, and no term can be
rewritten, in one step or more, to itself alone. -/
structure Proper (g : Grammar) : Prop where
  productive : ∀ t, g.contains (.term t) → ∃ w, derived g.rules t w
  not_nullable : ∀ t, g.contains (.term t) → ¬ derived g.rules t []
  not_alone : ∀ t items, TransGen g.Rewrites [.term t] items →
    items.filter Symbol.isBasic ≠ [.term t]

theorem WellFormed.contains_of_rewritten (hg : g.WellFormed) (ht : g.contains (.term t))
    (h : TransGen g.Rewrites [.term t] w) :
  ∀ s ∈ w, g.contains s
  := by
  induction h with
  | single h => apply hg.contains_of_rewrites h (by simpa using ht)
  | tail _ h ih => apply hg.contains_of_rewrites h ih

/-- What a term is rewritten to by a proper grammar has a leading symbol. -/
theorem Proper.exists_leading? (hp : g.Proper) (hg : g.WellFormed) (ht : g.contains (.term t))
    (h : TransGen g.Rewrites [.term t] w) :
  ∃ s, leading? w = some s ∧ g.contains s
  := by
  cases hlead : leading? w with
  | some s => use s, rfl, hg.contains_of_rewritten ht h s (List.mem_of_find?_eq_some hlead)
  | none =>
    have hnil : Derives g.rules w [] := by
      apply derives_iff_reads.mpr
      apply (reads_prompts (leading?_eq_none_iff.mp hlead)).mpr rfl
    have ht' : Derives g.rules [.term t] [] := by
      clear hlead
      induction h with
      | single h => apply derives_of_rewrites h hnil
      | tail _ h ih => apply ih (derives_of_rewrites h hnil)
    apply absurd ht' (hp.not_nullable t ht)

/-- In a proper grammar, tidying the rules leaves out repeated rules only. -/
theorem Proper.hasRule_tidyRules_iff (hp : g.Proper) :
  g.tidyRules.HasRule t items ↔ g.HasRule t items
  := by
  constructor
  · apply hasRule_of_hasRule_tidyRules
  · intro hr
    apply (hasRule_tidyRules hr).resolve_right
    apply hp.not_alone t items (.single (rewrites_singleton_iff.mpr hr))

theorem Proper.tidyRules (hp : g.Proper) :
  g.tidyRules.Proper
  := by
  constructor
  · intro t ht
    simp only [derived_tidyRules]
    apply hp.productive t ht
  · intro t ht
    rw [derived_tidyRules]
    apply hp.not_nullable t ht
  · intro t items h
    apply hp.not_alone t items
    apply TransGen.mono _ _ _ h
    exact fun _ _ => Rewrites.of_hasRule fun _ _ => hasRule_of_hasRule_tidyRules
/-! ### Substantial sequences -/

/-- Prompts aside, the sequence holds two symbols at least, or it is a token. -/
def Substantial (items : List Symbol) : Prop :=
  2 ≤ (items.filter Symbol.isBasic).length ∨
    (items.filter Symbol.isBasic).map Symbol.kind = [.token]

instance : DecidablePred Substantial :=
  fun _ => inferInstanceAs (Decidable (_ ∨ _))

/-- By substantial right sides, substantial sequences are rewritten to substantial sequences. -/
theorem Substantial.rewrites (hrules : ∀ r ∈ g.rules, Substantial r.items) (h : g.Rewrites xs ys)
    (hxs : Substantial xs) :
  Substantial ys
  := by
  obtain ⟨t, _, before, after, ⟨r, hr, -, rfl⟩, rfl, rfl⟩ := h
  have hlength : 1 ≤ (r.items.filter Symbol.isBasic).length := by
    rcases hrules r hr with htwo | hone
    · exact Nat.le_of_succ_le htwo
    · rw [← List.length_map Symbol.kind, hone]
      rfl
  left
  rcases hxs with htwo | hone
  · simp only [List.filter_append, List.length_append, List.filter_cons, Symbol.isBasic, ne_eq,
      reduceCtorEq, not_false_eq_true, decide_true, if_true, List.length_cons] at htwo hlength ⊢
    omega
  · have hterm : Kind.term ∈ [Kind.token] := by
      rw [← hone]
      simp [Symbol.isBasic]
    simp at hterm

theorem Substantial.of_transGen (hrules : ∀ r ∈ g.rules, Substantial r.items)
    (h : TransGen g.Rewrites [.term t] items) :
  Substantial items
  := by
  induction h with
  | single h =>
    obtain ⟨r, hr, -, rfl⟩ := rewrites_singleton_iff.mp h
    apply hrules r hr
  | tail _ h ih => apply ih.rewrites hrules h

theorem exists_derives_of_tokens (hitems : ∀ s ∈ items, s.kind ≠ .term) :
  ∃ w, Derives g.rules items w
  := by
  induction items with
  | nil => use [], .nil
  | cons s items ih =>
    obtain ⟨w, hw⟩ := ih fun s hs => hitems s (List.mem_cons_of_mem _ hs)
    match s with
    | .prompt _ => use w, .prompt hw
    | .token n => use n :: w, .token hw
    | .term _ => simp at hitems

/-- A grammar is proper if its right sides are substantial and every term has one without terms. -/
theorem proper_of_substantial (hrules : ∀ r ∈ g.rules, Substantial r.items)
    (htokens : ∀ t ∈ g.terms.ids, ∃ r ∈ g.rules, r.owner = t ∧ ∀ s ∈ r.items, s.kind ≠ .term) :
  g.Proper
  := by
  constructor
  · intro t ht
    obtain ⟨r, hr, rfl, hitems⟩ := htokens t (contains_iff.mp ht)
    obtain ⟨w, hw⟩ := exists_derives_of_tokens (g := g) hitems
    use w, derived_iff.mpr ⟨r, hr, rfl, hw⟩
  · intro t _ hnil
    obtain ⟨prompts, hp, hmany⟩ := exists_prompts_of_derives hnil rfl
    rcases reflTransGen_iff_eq_or_transGen.mp hmany with rfl | hmany
    · simp [Symbol.isPrompt] at hp
    · have hsubstantial := Substantial.of_transGen hrules hmany
      simp [Substantial, filter_isBasic_prompts hp] at hsubstantial
  · intro t items hmany he
    have hsubstantial := Substantial.of_transGen hrules hmany
    simp [Substantial, he] at hsubstantial

end Grammar

end CanonicalLR
