import Mathlib.Logic.Relation
import CanonicalLR.Proofs.NormalForm.Tidying

/-!
# Rewriting and left recursion

A sequence of symbols is *rewritten* when one of its terms is replaced by one of the right sides of
that term (`Grammar.Rewrites`).  A term is *left recursive* if it can be rewritten, in one step or
more, to a sequence that begins with the term itself (`Grammar.LeftRecursive`); prompts in front do
not matter.

Left recursion is a matter of which terms *lead* to which (`Grammar.Leads`): a term leads to
another one if the other occurs in one of its right sides and nothing needs to be read before it.
A term is left recursive exactly if it leads to itself, in one step or more
(`leftRecursive_iff`).
-/

namespace CanonicalLR

/-- The first symbol of the sequence that is no prompt is the term `t`. -/
def BeginsWith (items : List Symbol) (t : TermId) : Prop :=
  ∃ prompts rest, (∀ s ∈ prompts, s.isPrompt) ∧ items = prompts ++ .term t :: rest

namespace Grammar

variable {g : Grammar} {t u : TermId} {items xs ys : List Symbol} {w : List TokenId}

/-- One of the terms of the sequence is replaced by one of its right sides. -/
def Rewrites (g : Grammar) (xs ys : List Symbol) : Prop :=
  ∃ t items before after, g.HasRule t items ∧ xs = before ++ .term t :: after ∧
    ys = before ++ items ++ after

/-- In one step or more, the term is rewritten to a sequence that begins with it. -/
def LeftRecursive (g : Grammar) (t : TermId) : Prop :=
  ∃ items, Relation.TransGen g.Rewrites [.term t] items ∧ BeginsWith items t

/-- The term `u` occurs in the sequence, and what comes before it derives the empty sequence. -/
def CanLead (g : Grammar) (items : List Symbol) (u : TermId) : Prop :=
  ∃ before after, items = before ++ .term u :: after ∧ Derives g.rules before []

/-- The term `u` can lead one of the right sides of the term `t`. -/
def Leads (g : Grammar) (t u : TermId) : Prop :=
  ∃ items, g.HasRule t items ∧ g.CanLead items u

/-! ### Leading terms of sequences -/

@[simp]
theorem not_canLead_nil :
  ¬ g.CanLead [] u
  := by
  rintro ⟨before, after, he, -⟩
  simp at he

@[simp]
theorem canLead_prompt {p : PromptId} :
  g.CanLead (.prompt p :: items) u ↔ g.CanLead items u
  := by
  constructor
  · rintro ⟨_ | ⟨s, before⟩, after, he, hb⟩
    · simp at he
    · obtain ⟨rfl, rfl⟩ := List.cons.inj he
      cases hb with
      | prompt hb => exact ⟨before, after, rfl, hb⟩
  · rintro ⟨before, after, rfl, hb⟩
    use .prompt p :: before, after, rfl
    exact .prompt hb

@[simp]
theorem not_canLead_token {n : TokenId} :
  ¬ g.CanLead (.token n :: items) u
  := by
  rintro ⟨_ | ⟨s, before⟩, after, he, hb⟩
  · simp at he
  · obtain ⟨rfl, rfl⟩ := List.cons.inj he
    cases hb

theorem derives_term_nil :
  Derives g.rules (.term t :: items) [] ↔ derived g.rules t [] ∧ Derives g.rules items []
  := derives_cons_nil

/-- A sequence can be led by the term in front, and by what can lead the rest if the term in front
derives the empty sequence. -/
@[simp]
theorem canLead_term :
  g.CanLead (.term t :: items) u ↔ t = u ∨ derived g.rules t [] ∧ g.CanLead items u
  := by
  constructor
  · rintro ⟨_ | ⟨s, before⟩, after, he, hb⟩
    · left
      simpa using (List.cons.inj he).1
    · obtain ⟨rfl, rfl⟩ := List.cons.inj he
      obtain ⟨ht, hb⟩ := derives_term_nil.mp hb
      exact .inr ⟨ht, before, after, rfl, hb⟩
  · rintro (rfl | ⟨ht, before, after, rfl, hb⟩)
    · use [], items, rfl
      exact .nil
    · use .term t :: before, after, rfl
      apply derives_term_nil.mpr ⟨ht, hb⟩

/-- Two sequences side by side can be led by what can lead the first, and by what can lead the
second if the first derives the empty sequence. -/
theorem canLead_append :
  g.CanLead (xs ++ ys) u ↔ g.CanLead xs u ∨ Derives g.rules xs [] ∧ g.CanLead ys u
  := by
  induction xs with
  | nil => simp [Derives.nil]
  | cons s xs ih =>
    match s with
    | .prompt p =>
      have hp : Derives g.rules (.prompt p :: xs) [] ↔ Derives g.rules xs [] := by
        constructor
        · rintro (_ | hxs)
          apply hxs
        · apply Derives.prompt
      rw [List.cons_append, canLead_prompt, canLead_prompt, ih, hp]
    | .token n =>
      have hn : ¬ Derives g.rules (.token n :: xs) [] := by rintro ⟨⟩
      simp [hn]
    | .term t =>
      rw [List.cons_append, canLead_term, canLead_term, ih, derives_term_nil]
      tauto

/-- Prompts in front make no difference to what can lead a sequence. -/
theorem canLead_prompts_append {prompts : List Symbol} (hp : ∀ s ∈ prompts, s.isPrompt) :
  g.CanLead (prompts ++ items) u ↔ g.CanLead items u
  := by
  have hno : ¬ g.CanLead prompts u := by
    rintro ⟨before, after, rfl, -⟩
    have := hp (.term u) (by simp)
    simp [Symbol.isPrompt] at this
  have hnil : Derives g.rules prompts [] := derives_iff_reads.mpr ((reads_prompts hp).mpr rfl)
  rw [canLead_append, or_iff_right hno, and_iff_right hnil]

/-- A sequence that begins with a term can be led by it. -/
theorem canLead_of_beginsWith (h : BeginsWith items t) :
  g.CanLead items t
  := by
  obtain ⟨prompts, rest, hp, rfl⟩ := h
  apply (canLead_prompts_append hp).mpr
  apply canLead_term.mpr (.inl rfl)

/-- A term leads to the terms that one of its right sides begins with. -/
theorem leads_of_beginsWith (hr : g.HasRule t items) (h : BeginsWith items u) :
  g.Leads t u
  := ⟨items, hr, canLead_of_beginsWith h⟩

/-! ### Rewriting -/

/-- What is rewritten within a sequence leaves the rest of it as it is. -/
theorem Rewrites.append (h : g.Rewrites xs ys) (before after : List Symbol) :
  g.Rewrites (before ++ xs ++ after) (before ++ ys ++ after)
  := by
  obtain ⟨t, items, front, back, hr, rfl, rfl⟩ := h
  use t, items, before ++ front, back ++ after, hr
  simp

theorem rewritesMany_append (h : Relation.ReflTransGen g.Rewrites xs ys)
    (before after : List Symbol) :
  Relation.ReflTransGen g.Rewrites (before ++ xs ++ after) (before ++ ys ++ after)
  := h.lift (fun zs => before ++ zs ++ after) fun _ _ hstep => hstep.append before after

/-- A term is rewritten to each of its right sides. -/
theorem rewrites_of_hasRule (hr : g.HasRule t items) (before after : List Symbol) :
  g.Rewrites (before ++ .term t :: after) (before ++ items ++ after)
  := ⟨t, items, before, after, hr, rfl, rfl⟩

/-- What is rewritten by fewer rules is rewritten by more. -/
theorem Rewrites.of_hasRule {g' : Grammar} (hrules : ∀ t items, g'.HasRule t items → g.HasRule t items)
    (h : g'.Rewrites xs ys) :
  g.Rewrites xs ys
  := by
  obtain ⟨t, items, before, after, hr, rfl, rfl⟩ := h
  apply rewrites_of_hasRule (hrules t items hr)

/-- What a sequence is rewritten to derives nothing that the sequence does not derive. -/
theorem derives_of_rewrites (h : g.Rewrites xs ys) (hw : Derives g.rules ys w) :
  Derives g.rules xs w
  := by
  obtain ⟨t, items, before, after, hr, rfl, rfl⟩ := h
  rw [List.append_assoc, derives_append] at hw
  obtain ⟨u, _, rfl, hu, hrest⟩ := hw
  obtain ⟨v, w, rfl, hv, hw⟩ := derives_append.mp hrest
  have ht : Derives g.rules [.term t] v := derived_of_hasRule hr (derives_iff_reads.mp hv)
  have hback : Derives g.rules ([.term t] ++ after) (v ++ w) :=
    derives_append.mpr ⟨v, w, rfl, ht, hw⟩
  apply derives_append.mpr
  use u, v ++ w, rfl, hu
  apply hback

/-- Members are rewritten to members. -/
theorem WellFormed.contains_of_rewrites (hg : g.WellFormed) (h : g.Rewrites xs ys)
    (hxs : ∀ s ∈ xs, g.contains s) :
  ∀ s ∈ ys, g.contains s
  := by
  obtain ⟨t, items, before, after, hr, rfl, rfl⟩ := h
  intro s hs
  simp only [List.mem_append] at hs
  rcases hs with (hs | hs) | hs
  · apply hxs s (by simp [hs])
  · apply hg.contains_items hr hs
  · apply hxs s (by simp [hs])

/-- Nothing is left of prompts when they are left out. -/
theorem filter_isBasic_prompts {prompts : List Symbol} (hp : ∀ s ∈ prompts, s.isPrompt) :
  prompts.filter Symbol.isBasic = []
  := by
  rw [List.filter_eq_nil_iff]
  intro s hs
  simpa [Symbol.isBasic, Symbol.isPrompt] using hp s hs

/-- What derives the empty sequence can be rewritten until there are only prompts. -/
theorem exists_prompts_of_derives (h : Derives g.rules items w) (hw : w = []) :
  ∃ prompts, (∀ s ∈ prompts, s.isPrompt) ∧ Relation.ReflTransGen g.Rewrites items prompts
  := by
  induction h with
  | nil =>
    use [], by simp
  | @prompt p items w _ ih =>
    obtain ⟨prompts, hp, hmany⟩ := ih hw
    use .prompt p :: prompts
    constructor
    · simpa [Symbol.isPrompt] using hp
    · simpa using rewritesMany_append hmany [.prompt p] []
  | token _ _ => cases hw
  | @term r items v w hr _ _ ihv ihw =>
    obtain ⟨rfl, rfl⟩ := List.append_eq_nil_iff.mp hw
    obtain ⟨front, hf, hfront⟩ := ihv rfl
    obtain ⟨back, hb, hback⟩ := ihw rfl
    use front ++ back
    constructor
    · intro s hs
      rcases List.mem_append.mp hs with hs | hs
      · apply hf s hs
      · apply hb s hs
    · have hstep := rewrites_of_hasRule (hasRule_of_mem hr) [] items
      have hfront := rewritesMany_append hfront [] items
      have hback := rewritesMany_append hback front []
      simp only [List.nil_append, List.append_nil] at hstep hfront hback
      apply Relation.ReflTransGen.head hstep (hfront.trans hback)

/-- A sequence that begins with a term is rewritten to one that begins with a term that it leads
to. -/
theorem exists_rewrites_of_leads (hb : BeginsWith items t) (h : g.Leads t u) :
  ∃ items', Relation.TransGen g.Rewrites items items' ∧ BeginsWith items' u
  := by
  obtain ⟨prompts, rest, hp, rfl⟩ := hb
  obtain ⟨right, hr, before, after, rfl, hbefore⟩ := h
  obtain ⟨front, hf, hmany⟩ := exists_prompts_of_derives hbefore rfl
  have hmany := rewritesMany_append hmany prompts (.term u :: after ++ rest)
  refine ⟨prompts ++ front ++ (.term u :: after ++ rest), ?_, prompts ++ front, after ++ rest, ?_, rfl⟩
  · apply Relation.TransGen.head' (rewrites_of_hasRule hr prompts rest)
    simpa using hmany
  · intro s hs
    rcases List.mem_append.mp hs with hs | hs
    · apply hp s hs
    · apply hf s hs

/-- If a sequence is rewritten to one that can be led by a term from which `u` is reached, then it
can itself be led by such a term. -/
theorem exists_canLead_of_rewrites (h : g.Rewrites xs ys)
    (hys : ∃ t, g.CanLead ys t ∧ Relation.ReflTransGen g.Leads t u) :
  ∃ t, g.CanLead xs t ∧ Relation.ReflTransGen g.Leads t u
  := by
  obtain ⟨t, items, before, after, hr, rfl, rfl⟩ := h
  obtain ⟨v, hv, hvu⟩ := hys
  rw [List.append_assoc, canLead_append, canLead_append] at hv
  simp only [canLead_append, canLead_term]
  rcases hv with hv | ⟨hbefore, hv | ⟨hitems, hv⟩⟩
  · exact ⟨v, .inl hv, hvu⟩
  · exact ⟨t, .inr ⟨hbefore, .inl rfl⟩, hvu.head ⟨items, hr, hv⟩⟩
  · have ht : derived g.rules t [] := derived_of_hasRule hr (derives_iff_reads.mp hitems)
    exact ⟨v, .inr ⟨hbefore, .inr ⟨ht, hv⟩⟩, hvu⟩

theorem exists_canLead_of_rewritesMany (h : Relation.ReflTransGen g.Rewrites xs ys)
    (hys : BeginsWith ys u) :
  ∃ t, g.CanLead xs t ∧ Relation.ReflTransGen g.Leads t u
  := by
  induction h using Relation.ReflTransGen.head_induction_on with
  | refl => exact ⟨u, canLead_of_beginsWith hys, .refl⟩
  | head hstep _ ih => apply exists_canLead_of_rewrites hstep ih

/-- A term that is rewritten alone is replaced by one of its right sides. -/
theorem rewrites_singleton_iff :
  g.Rewrites [.term t] items ↔ g.HasRule t items
  := by
  constructor
  · rintro ⟨t', right, before, after, hr, he, rfl⟩
    obtain ⟨rfl, he⟩ | ⟨rfl, he⟩ := List.append_eq_singleton_iff.mp he.symm
    · obtain ⟨ht, rfl⟩ := List.cons.inj he
      obtain rfl : t = t' := by simpa using ht
      simpa using hr
    · simp at he
  · intro hr
    simpa using rewrites_of_hasRule hr [] []

/-- The terms that begin what a term is rewritten to are those that it leads to. -/
theorem exists_rewrites_beginsWith_iff :
  (∃ items, Relation.TransGen g.Rewrites [.term t] items ∧ BeginsWith items u) ↔
    Relation.TransGen g.Leads t u
  := by
  constructor
  · rintro ⟨items, hmany, hb⟩
    obtain ⟨right, hstep, hmany⟩ := Relation.TransGen.head'_iff.mp hmany
    obtain ⟨v, hv, hvu⟩ := exists_canLead_of_rewritesMany hmany hb
    apply Relation.TransGen.head' ⟨right, rewrites_singleton_iff.mp hstep, hv⟩ hvu
  · intro h
    induction h with
    | single h => apply exists_rewrites_of_leads ⟨[], [], by simp, rfl⟩ h
    | tail _ h ih =>
      obtain ⟨items, hmany, hb⟩ := ih
      obtain ⟨items', hmany', hb'⟩ := exists_rewrites_of_leads hb h
      use items', hmany.trans hmany'

/-- A term is left recursive exactly if it leads to itself in one step or more. -/
theorem leftRecursive_iff :
  g.LeftRecursive t ↔ Relation.TransGen g.Leads t t
  := exists_rewrites_beginsWith_iff

end Grammar

end CanonicalLR
