import CanonicalLR.Proofs.Language.Derivation

/-!
# Openings

A token *opens* a sequence of symbols (`Opens`) if the sequence can be rewritten to one that begins
with the token.  Other than for a derivation, what comes behind the token need not derive anything; if
it always does, then a sequence of tokens that begins with the token is derived
(`Opens.exists_derives`).
-/

namespace CanonicalLR

/-- By the rules of the list, the symbols can be rewritten to a sequence that begins with the token
`n`, prompts apart. -/
inductive Opens (rules : List Rule) (n : TokenId) : List Symbol → Prop where
  | prompt {p : PromptId} {items : List Symbol} :
      Opens rules n items → Opens rules n (.prompt p :: items)
  | token {items : List Symbol} : Opens rules n (.token n :: items)
  | term {r : Rule} {items : List Symbol} :
      r ∈ rules → Opens rules n r.items → Opens rules n (.term r.owner :: items)
  | skip {r : Rule} {items : List Symbol} :
      r ∈ rules → Derives rules r.items [] → Opens rules n items →
      Opens rules n (.term r.owner :: items)

variable {rules : List Rule} {n m : TokenId} {t : TermId} {items before : List Symbol}
  {w : List TokenId}

@[simp]
theorem not_opens_nil :
  ¬ Opens rules n []
  := nofun

@[simp]
theorem opens_prompt {p : PromptId} :
  Opens rules n (.prompt p :: items) ↔ Opens rules n items
  := by
  constructor
  · rintro ⟨⟩
    assumption
  · apply Opens.prompt

@[simp]
theorem opens_token :
  Opens rules n (.token m :: items) ↔ m = n
  := by
  constructor
  · rintro ⟨⟩
    rfl
  · rintro rfl
    exact .token

/-- A sequence with a term in front is opened by what opens one of the right sides of the term, and
by what opens the rest if the term derives the empty sequence. -/
theorem opens_term :
  Opens rules n (.term t :: items) ↔
    (∃ r ∈ rules, r.owner = t ∧ Opens rules n r.items) ∨ derived rules t [] ∧ Opens rules n items
  := by
  constructor
  · rintro (_ | _ | ⟨hr, h⟩ | ⟨hr, hnil, h⟩)
    · exact .inl ⟨_, hr, rfl, h⟩
    · exact .inr ⟨derived_iff.mpr ⟨_, hr, rfl, hnil⟩, h⟩
  · rintro (⟨r, hr, rfl, h⟩ | ⟨ht, h⟩)
    · exact .term hr h
    · obtain ⟨r, hr, rfl, hnil⟩ := derived_iff.mp ht
      exact .skip hr hnil h

theorem opens_singleton :
  Opens rules n [.term t] ↔ ∃ r ∈ rules, r.owner = t ∧ Opens rules n r.items
  := by
  simp [opens_term]

/-- What opens a sequence opens it also behind what derives the empty sequence. -/
theorem Opens.append (h : Opens rules n items) (hbefore : Derives rules before w) (hw : w = []) :
  Opens rules n (before ++ items)
  := by
  induction hbefore with
  | nil => apply h
  | prompt _ ih => exact .prompt (ih hw)
  | token _ _ => cases hw
  | term hr hv _ _ ih =>
    obtain ⟨rfl, rfl⟩ := List.append_eq_nil_iff.mp hw
    exact .skip hr hv (ih rfl)

/-- What opens a sequence opens it also in front of other symbols. -/
theorem Opens.append_right (h : Opens rules n items) (after : List Symbol) :
  Opens rules n (items ++ after)
  := by
  induction h with
  | prompt _ ih => exact .prompt ih
  | token => exact .token
  | term hr h _ => exact .term hr h
  | skip hr hnil _ ih => exact .skip hr hnil ih

/-- Two sequences side by side are opened by what opens the first, and by what opens the second if the
first derives the empty sequence. -/
theorem opens_append {after : List Symbol} :
  Opens rules n (items ++ after) ↔
    Opens rules n items ∨ Derives rules items [] ∧ Opens rules n after
  := by
  constructor
  · intro h
    induction items with
    | nil => exact .inr ⟨.nil, h⟩
    | cons s items ih =>
      cases h with
      | prompt h => exact (ih h).imp .prompt fun ⟨hnil, h⟩ => ⟨.prompt hnil, h⟩
      | token => exact .inl .token
      | term hr h => exact .inl (.term hr h)
      | skip hr hr' h => exact (ih h).imp (.skip hr hr') fun ⟨hnil, h⟩ => ⟨.term hr hr' hnil, h⟩
  · rintro (h | ⟨hnil, h⟩)
    · apply h.append_right
    · apply h.append hnil rfl

/-- There is no token among symbols that derive the empty sequence. -/
theorem token_not_mem_of_derives_nil (h : Derives rules items w) (hw : w = []) :
  .token n ∉ items
  := by
  induction h with
  | nil => apply List.not_mem_nil
  | prompt _ ih =>
    rw [List.mem_cons, not_or]
    use nofun, ih hw
  | token _ _ => cases hw
  | term _ _ _ _ ih =>
    rw [List.mem_cons, not_or]
    use nofun, ih (List.append_eq_nil_iff.mp hw).2

/-- Prompts do not matter to what opens a sequence. -/
theorem opens_filter :
  Opens rules n (items.filter Symbol.isBasic) ↔ Opens rules n items
  := by
  induction items with
  | nil => rfl
  | cons s items ih =>
    match s with
    | .prompt p => rw [opens_prompt, ← ih, List.filter_cons_of_neg (by simp [Symbol.isBasic])]
    | .token m => rw [List.filter_cons_of_pos rfl, opens_token, opens_token]
    | .term t => rw [List.filter_cons_of_pos rfl, opens_term, opens_term, ih]

/-! ### Sequences that begin with a token -/

/-- Symbols derive something if the terms among them do. -/
theorem exists_derives (h : ∀ t, .term t ∈ items → ∃ w, derived rules t w) :
  ∃ w, Derives rules items w
  := by
  induction items with
  | nil => use [], .nil
  | cons s items ih =>
    obtain ⟨w, hw⟩ := ih fun t ht => h t (List.mem_cons_of_mem _ ht)
    match s with
    | .prompt _ => use w, .prompt hw
    | .token n => use n :: w, .token hw
    | .term t =>
      obtain ⟨v, hv⟩ := h t List.mem_cons_self
      obtain ⟨r, hr, rfl, hitems⟩ := derived_iff.mp hv
      use v ++ w, .term hr hitems hw

/-- If all terms derive something, then what a token opens derives a sequence that begins with it. -/
theorem Opens.exists_derives (h : Opens rules n items)
    (hrules : ∀ r ∈ rules, ∀ t, .term t ∈ r.items → ∃ w, derived rules t w)
    (hitems : ∀ t, .term t ∈ items → ∃ w, derived rules t w) :
  ∃ w, Derives rules items (n :: w)
  := by
  induction h with
  | prompt _ ih =>
    obtain ⟨w, hw⟩ := ih fun t ht => hitems t (List.mem_cons_of_mem _ ht)
    use w, .prompt hw
  | token =>
    obtain ⟨w, hw⟩ := CanonicalLR.exists_derives fun t ht => hitems t (List.mem_cons_of_mem _ ht)
    use w, .token hw
  | term hr _ ih =>
    obtain ⟨v, hv⟩ := ih (hrules _ hr)
    obtain ⟨w, hw⟩ := CanonicalLR.exists_derives fun t ht => hitems t (List.mem_cons_of_mem _ ht)
    use v ++ w, .term hr hv hw
  | skip hr hnil _ ih =>
    obtain ⟨w, hw⟩ := ih fun t ht => hitems t (List.mem_cons_of_mem _ ht)
    use w, .term hr hnil hw

end CanonicalLR
