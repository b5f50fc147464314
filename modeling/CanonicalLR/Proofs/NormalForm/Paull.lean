import CanonicalLR.Proofs.NormalForm.Tails

/-!
# Paull's method

A measure of the steps that are left (`stepsLeft`): two for each term that is left recursive, and one
if the head has to be split.  There is always a next step, and if every cycle goes through the first
of its terms, it leaves fewer steps (`Tailed.exists_step`).  So the elimination comes to an end
(`Tailed.exists_eliminate_eq_ok`).
-/

namespace CanonicalLR.Grammar

open Relation

variable {g₀ g g' : Grammar} {head t u : TermId} {items : List Symbol}

/-! ### Steps of the elimination -/

/-- What is untouched stays so when only the right sides of the head are changed and no term becomes
left recursive. -/
theorem Untouched.of_step (hold : Untouched g₀ g) (hhead : g.LeftRecursive head)
    (hfirst : ∀ t, g.LeftRecursive t → head ≤ t)
    (hrec : ∀ t, g'.LeftRecursive t → g.LeftRecursive t)
    (hkept : ∀ t, g'.LeftRecursive t → t ≠ head → ∀ items, g'.HasRule t items ↔ g.HasRule t items) :
  Untouched g₀ g'
  := by
  intro t u ht hu hlt items
  have hlt := Nat.lt_of_le_of_lt (hfirst u (hrec u hu)) hlt
  rw [hkept t ht (Nat.ne_of_gt hlt)]
  apply hold t head (hrec t ht) hhead hlt

theorem Untouched.tidyRules (hp : g₀.Proper) (hold : Untouched g₀ g) :
  Untouched g₀ g.tidyRules
  := by
  intro t u ht hu hlt items
  have hiff := hold t u ht.of_tidyRules hu.of_tidyRules hlt items
  rw [← hiff]
  constructor
  · apply hasRule_of_hasRule_tidyRules
  · intro hr
    apply (hasRule_tidyRules hr).resolve_right
    apply hp.not_alone t items (.single (rewrites_singleton_iff.mpr (hiff.mp hr)))

/-- Whether a right side of the head begins with the head. -/
def hasDirect (g : Grammar) (head : TermId) : Bool :=
  (g.rulesOf head).any fun r => (afterHead? head r.items).isSome

theorem hasDirect_iff :
  g.hasDirect head = true ↔ ∃ right, g.HasRule head right ∧ leading? right = some (.term head)
  := by
  simp only [hasDirect, List.any_eq_true, afterHead?_isSome_iff, mem_rulesOf, HasRule]
  constructor
  · rintro ⟨r, ⟨hr, rfl⟩, hlead⟩
    exact ⟨r.items, ⟨r, hr, rfl, rfl⟩, hlead⟩
  · rintro ⟨_, ⟨r, hr, rfl, rfl⟩, hlead⟩
    exact ⟨r, ⟨hr, rfl⟩, hlead⟩

/-- A bound for the number of steps that are left: two for each term that is left recursive, and one
if the head begins a right side of its own. -/
def stepsLeft (g₀ g : Grammar) : Nat :=
  2 * g₀.terms.ids.countP g.analyze.isLeftRecursive +
    match g.analyze.leftRecursion with
    | [] => 0
    | head :: _ => if g.hasDirect head then 1 else 0

theorem stepsLeft_le :
  stepsLeft g₀ g ≤ 2 * g₀.terms.ids.countP g.analyze.isLeftRecursive + 1
  := by
  apply Nat.add_le_add_left
  split
  · apply Nat.zero_le
  · split <;> simp

/-- Fewer values of a list have a property that is stronger and that a value does not have. -/
theorem countP_lt {α : Type} {p q : α → Bool} {as : List α} {a : α} (hle : ∀ x, q x → p x)
    (ha : a ∈ as) (hp : p a) (hq : ¬ q a) :
  as.countP q < as.countP p
  := by
  obtain ⟨before, after, rfl⟩ := List.append_of_mem ha
  have hbefore : before.countP q ≤ before.countP p := List.countP_mono_left fun x _ => hle x
  have hafter : after.countP q ≤ after.countP p := List.countP_mono_left fun x _ => hle x
  simp only [List.countP_append, List.countP_cons, hp, hq, if_true, if_false, Bool.false_eq_true]
  omega

section step

variable {path : List TermId} (hg : g₀.WellFormed) (hp : g₀.Proper) (h : Tailed g₀ g)

include hg hp h

/-- If every left recursive term was so before, and one is not any more, then there are fewer steps
left. -/
theorem Tailed.stepsLeft_lt (hg' : g'.WellFormed)
    (hrec : ∀ t, g'.LeftRecursive t → g.LeftRecursive t) (ht : g.LeftRecursive t)
    (ht' : ¬ g'.LeftRecursive t) :
  stepsLeft g₀ g' < stepsLeft g₀ g
  := by
  have hlt : g₀.terms.ids.countP g'.analyze.isLeftRecursive <
      g₀.terms.ids.countP g.analyze.isLeftRecursive := by
    apply countP_lt (a := t)
    · intro t ht
      apply (Analysis.isLeftRecursive_analyze h.keeps.wellFormed).mpr
      apply hrec t ((Analysis.isLeftRecursive_analyze hg').mp ht)
    · apply contains_iff.mp (h.contains_of_transGen hg hp (leftRecursive_iff.mp ht))
    · apply (Analysis.isLeftRecursive_analyze h.keeps.wellFormed).mpr ht
    · rwa [Analysis.isLeftRecursive_analyze hg']
  have hle : stepsLeft g₀ g' ≤ 2 * g₀.terms.ids.countP g'.analyze.isLeftRecursive + 1 :=
    stepsLeft_le
  have hge : 2 * g₀.terms.ids.countP g.analyze.isLeftRecursive ≤ stepsLeft g₀ g :=
    Nat.le_add_right _ _
  omega

/-- If the head began a right side of its own and does not any more, then there are fewer steps
left. -/
theorem Tailed.stepsLeft_lt_of_hasDirect (hg' : g'.WellFormed)
    (hrec : ∀ t, g'.LeftRecursive t → g.LeftRecursive t)
    (hhead : g.analyze.leftRecursion = head :: path) (hdirect : g.hasDirect head = true)
    (hdirect' : g'.hasDirect head = false) :
  stepsLeft g₀ g' < stepsLeft g₀ g
  := by
  obtain ⟨hhead', hfirst⟩ := Analysis.leftRecursive_of_leftRecursion_eq_cons h.keeps.wellFormed hhead
  by_cases ht : g'.LeftRecursive head
  · have hle : g₀.terms.ids.countP g'.analyze.isLeftRecursive ≤
        g₀.terms.ids.countP g.analyze.isLeftRecursive := by
      apply List.countP_mono_left
      intro t _ ht
      apply (Analysis.isLeftRecursive_analyze h.keeps.wellFormed).mpr
      apply hrec t ((Analysis.isLeftRecursive_analyze hg').mp ht)
    rw [stepsLeft, stepsLeft, hhead]
    simp only [hdirect, if_true]
    cases hnext : g'.analyze.leftRecursion with
    | nil =>
      simp only
      omega
    | cons next path' =>
      obtain ⟨hnext', hmin⟩ := Analysis.leftRecursive_of_leftRecursion_eq_cons hg' hnext
      obtain rfl : next = head := Nat.le_antisymm (hmin head ht) (hfirst next (hrec next hnext'))
      simp only [hdirect', Bool.false_eq_true, if_false]
      omega
  · apply h.stepsLeft_lt hg hp hg' hrec hhead' ht

/-- A head that begins a right side of its own can be split, and that leaves fewer steps. -/
theorem Tailed.exists_splitHead (hold : Untouched g₀ g)
    (hhead : g.analyze.leftRecursion = head :: path) (hdirect : g.hasDirect head = true) :
  ∃ g', g.splitHead head = some g' ∧ Tailed g₀ g'.tidyRules ∧ Untouched g₀ g'.tidyRules ∧
    stepsLeft g₀ g'.tidyRules < stepsLeft g₀ g
  := by
  obtain ⟨hhead', hfirst⟩ := Analysis.leftRecursive_of_leftRecursion_eq_cons h.keeps.wellFormed hhead
  have hmem := h.contains_of_transGen hg hp (leftRecursive_iff.mp hhead')
  obtain ⟨v, hv⟩ := hp.productive head hmem
  obtain ⟨g', hstep⟩ := Option.isSome_iff_exists.mp
    (isSome_splitHead ((h.keeps.derived_iff head hmem v).mpr hv))
  have h' := h.splitHead hg hp hmem hstep
  have hrec (t : TermId) (ht : g'.LeftRecursive t) : g.LeftRecursive t :=
    h.leftRecursive_of_splitHead hg hp hmem hstep ht
  refine ⟨g', hstep, h'.tidyRules, ?_, ?_⟩
  · apply Untouched.tidyRules hp
    apply hold.of_step hhead' hfirst hrec
    intro t ht hne items
    have ht₀ := h'.contains_of_transGen hg hp (leftRecursive_iff.mp ht)
    apply h.hasRule_splitHead_iff hstep ht₀ hne
  · apply h.stepsLeft_lt_of_hasDirect hg hp h'.tidyRules.keeps.wellFormed
      (fun t ht => hrec t ht.of_tidyRules) hhead hdirect
    rw [← Bool.not_eq_true, hasDirect_iff]
    rintro ⟨right, hr, hlead⟩
    apply h.leading?_ne_of_splitHead hg hp hmem hstep (hasRule_of_hasRule_tidyRules hr) hlead

/-- Any other head can be expanded, and that leaves fewer steps if the cycles go through their first
terms. -/
theorem Tailed.tidyRules_expandHead (hold : Untouched g₀ g)
    (hhead : g.analyze.leftRecursion = head :: path) (hdirect : ¬ g.hasDirect head = true) :
  Tailed g₀ (g.expandHead g.analyze head).tidyRules ∧
    Untouched g₀ (g.expandHead g.analyze head).tidyRules ∧
    (g₀.CyclesMeetFirst →
      stepsLeft g₀ (g.expandHead g.analyze head).tidyRules < stepsLeft g₀ g)
  := by
  obtain ⟨hhead', hfirst⟩ := Analysis.leftRecursive_of_leftRecursion_eq_cons h.keeps.wellFormed hhead
  have hindirect : ∀ right, g.HasRule head right → leading? right ≠ some (.term head) := by
    rw [hasDirect_iff] at hdirect
    exact fun right hr hlead => hdirect ⟨right, hr, hlead⟩
  have h' := h.expandHead hg hp hold hhead' hfirst hindirect
  have hrec (t : TermId) (ht : (g.expandHead g.analyze head).LeftRecursive t) : g.LeftRecursive t :=
    h.leftRecursive_of_expandHead hg hp hold hhead' hfirst hindirect ht
  refine ⟨h'.tidyRules, ?_, fun hmeet => ?_⟩
  · apply Untouched.tidyRules hp
    apply hold.of_step hhead' hfirst hrec
    intro t _ hne items
    simp [Grammar.hasRule_expandHead, hne]
  · obtain ⟨x, hx, hx'⟩ :=
      h.exists_not_leftRecursive_expandHead hg hp hold hhead' hfirst hindirect hmeet
    apply h.stepsLeft_lt hg hp h'.tidyRules.keeps.wellFormed (fun t ht => hrec t ht.of_tidyRules) hx
    exact fun ht => hx' ht.of_tidyRules

/-- There is a next step, and it leaves fewer if the cycles go through their first terms. -/
theorem Tailed.exists_step (hold : Untouched g₀ g)
    (hhead : g.analyze.leftRecursion = head :: path) :
  ∃ g', g.eliminationStep g.analyze head = some g' ∧ Tailed g₀ g'.tidyRules ∧
    Untouched g₀ g'.tidyRules ∧ (g₀.CyclesMeetFirst → stepsLeft g₀ g'.tidyRules < stepsLeft g₀ g)
  := by
  by_cases hdirect : g.hasDirect head = true
  · obtain ⟨g', hstep, h', hold', hlt⟩ := h.exists_splitHead hg hp hold hhead hdirect
    exact ⟨g', (if_pos hdirect).trans hstep, h', hold', fun _ => hlt⟩
  · obtain ⟨h', hold', hlt⟩ := h.tidyRules_expandHead hg hp hold hhead hdirect
    exact ⟨_, if_neg hdirect, h', hold', hlt⟩

/-- If the cycles go through their first terms, then the elimination comes to an end after no more
steps than there are left. -/
theorem Tailed.exists_eliminate_eq_ok (hold : Untouched g₀ g) (hmeet : g₀.CyclesMeetFirst)
    {steps : Nat} (hsteps : stepsLeft g₀ g ≤ steps) :
  ∃ n, g.eliminate steps = .ok n
  := by
  induction steps generalizing g with
  | zero =>
    unfold eliminate
    simp only
    split
    · exact ⟨g, rfl⟩
    · next hhead =>
      obtain ⟨_, -, -, -, hlt⟩ := h.exists_step hg hp hold hhead
      have := hlt hmeet
      omega
  | succ steps ih =>
    unfold eliminate
    simp only
    split
    · exact ⟨g, rfl⟩
    · next hhead =>
      obtain ⟨g', hstep, h', hold', hlt⟩ := h.exists_step hg hp hold hhead
      have := hlt hmeet
      rw [hstep]
      apply ih h' hold'
      omega

end step

end CanonicalLR.Grammar
