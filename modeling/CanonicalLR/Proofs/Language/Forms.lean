import CanonicalLR.Proofs.Language.Openings
import CanonicalLR.Proofs.Language.Rewriting

/-!
# Sentential forms

The *forms* of a sequence of symbols are the sequences that it can be rewritten to, prompts left out
(`Grammar.HasForm`).  A sequence has the empty form exactly if it derives the empty sequence
(`hasForm_nil_iff`), and the tokens that begin its forms are those that open it
(`exists_hasForm_token_iff`).
-/

namespace CanonicalLR.Grammar

variable {g : Grammar} {xs ys items form : List Symbol} {n : TokenId}

/-- The symbols can be rewritten, in any number of steps, to a sequence that is `form` without its
prompts. -/
def HasForm (g : Grammar) (items form : List Symbol) : Prop :=
  ∃ items', Relation.ReflTransGen g.Rewrites items items' ∧ items'.filter Symbol.isBasic = form

/-- What a sequence is rewritten to has no forms that the sequence does not have. -/
theorem HasForm.of_rewrites (h : g.HasForm ys form) (hmany : Relation.ReflTransGen g.Rewrites xs ys) :
  g.HasForm xs form
  := by
  obtain ⟨items, hitems, hform⟩ := h
  use items, hmany.trans hitems

/-- What is rewritten behind prompts has the same forms. -/
theorem HasForm.prompts_append (h : g.HasForm items form) {prompts : List Symbol}
    (hp : ∀ s ∈ prompts, s.isPrompt) :
  g.HasForm (prompts ++ items) form
  := by
  obtain ⟨items', hmany, rfl⟩ := h
  use prompts ++ items'
  constructor
  · simpa using rewritesMany_append hmany prompts []
  · rw [List.filter_append, filter_isBasic_prompts hp, List.nil_append]

/-- The forms of a sequence go on with what is behind it. -/
theorem HasForm.append (h : g.HasForm items form) (after : List Symbol) :
  g.HasForm (items ++ after) (form ++ after.filter Symbol.isBasic)
  := by
  obtain ⟨items', hmany, rfl⟩ := h
  use items' ++ after
  constructor
  · simpa using rewritesMany_append hmany [] after
  · apply List.filter_append

/-- A sequence has the empty form exactly if it derives the empty sequence. -/
theorem hasForm_nil_iff :
  g.HasForm items [] ↔ Derives g.rules items []
  := by
  constructor
  · rintro ⟨items', hmany, hform⟩
    induction hmany using Relation.ReflTransGen.head_induction_on with
    | refl =>
      rw [← derives_filter_isBasic, hform]
      exact .nil
    | head hstep _ ih => apply derives_of_rewrites hstep ih
  · intro h
    obtain ⟨prompts, hp, hmany⟩ := exists_prompts_of_derives h rfl
    use prompts, hmany
    apply filter_isBasic_prompts hp

/-- What opens the sequence that another one is rewritten to opens that one. -/
theorem opens_of_rewrites (h : g.Rewrites xs ys) (hn : Opens g.rules n ys) :
  Opens g.rules n xs
  := by
  obtain ⟨t, items, before, after, ⟨r, hr, rfl, rfl⟩, rfl, rfl⟩ := h
  rw [List.append_assoc, opens_append, opens_append] at hn
  rw [opens_append]
  apply hn.imp_right
  rintro ⟨hbefore, hn | ⟨hnil, hn⟩⟩
  · use hbefore, .term hr hn
  · use hbefore, .skip hr hnil hn

/-- The tokens that begin the forms of a sequence are those that open it. -/
theorem exists_hasForm_token_iff :
  (∃ rest, g.HasForm items (.token n :: rest)) ↔ Opens g.rules n items
  := by
  constructor
  · rintro ⟨rest, items', hmany, hform⟩
    induction hmany using Relation.ReflTransGen.head_induction_on with
    | refl =>
      rw [← opens_filter, hform]
      exact .token
    | head hstep _ ih => apply opens_of_rewrites hstep ih
  · intro h
    induction h with
    | @prompt p items _ ih =>
      obtain ⟨rest, hrest⟩ := ih
      have hp : ∀ s ∈ [Symbol.prompt p], s.isPrompt := by simp [Symbol.isPrompt]
      use rest
      apply hrest.prompts_append hp
    | @token items => exact ⟨items.filter Symbol.isBasic, .token n :: items, .refl, rfl⟩
    | @term r items hr _ ih =>
      obtain ⟨rest, hrest⟩ := ih
      use rest ++ items.filter Symbol.isBasic
      apply (hrest.append items).of_rewrites (.single _)
      simpa using rewrites_of_hasRule (hasRule_of_mem hr) [] items
    | @skip r items hr hnil _ ih =>
      obtain ⟨rest, hrest⟩ := ih
      obtain ⟨prompts, hp, hmany⟩ := exists_prompts_of_derives hnil rfl
      use rest
      apply (hrest.prompts_append hp).of_rewrites
      have hstep := rewrites_of_hasRule (hasRule_of_mem hr) [] items
      have hmany := rewritesMany_append hmany [] items
      exact .head hstep hmany

end CanonicalLR.Grammar
