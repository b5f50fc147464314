import CanonicalLR.Analysis.Fixpoint
import CanonicalLR.Proofs.Grammar.WellFormed

/-!
# Growing facts

While the rules of a term are walked over, facts are only added, and nothing but what is known
about that term matters to the others: the facts *extend* those from before
(`Analysis.Extends`).  Either nothing changes at all, or there is less left that could be found out
about the term (`Analysis.weight`).
-/

namespace CanonicalLR

namespace IndexSet

/-! ### Missing members -/

/-- How many of the numbers are not members. -/
def missing (ns : List Nat) (s : IndexSet) : Nat :=
  ns.countP fun n => n ∉ s

theorem missing_le_length (ns : List Nat) (s : IndexSet) :
  s.missing ns ≤ ns.length
  := List.countP_le_length

/-- No more are missing from a larger set. -/
theorem missing_mono {ns : List Nat} {s s' : IndexSet} (h : ∀ n, n ∈ s → n ∈ s') :
  s'.missing ns ≤ s.missing ns
  := by
  apply List.countP_mono_left
  intro n _ hn
  rw [decide_eq_true_eq] at hn ⊢
  intro hs
  apply hn (h n hs)

/-- Fewer are missing from a set with one more of them. -/
theorem missing_lt {ns : List Nat} {s s' : IndexSet} (h : ∀ n, n ∈ s → n ∈ s') {n : Nat}
    (hn : n ∈ ns) (hs : ¬ n ∈ s) (hs' : n ∈ s') :
  s'.missing ns < s.missing ns
  := by
  obtain ⟨before, after, rfl⟩ := List.append_of_mem hn
  have hbefore : s'.missing before ≤ s.missing before := missing_mono h
  have hafter : s'.missing after ≤ s.missing after := missing_mono h
  simp only [missing, List.countP_append, List.countP_cons, hs, hs', not_true_eq_false,
    not_false_eq_true, decide_true, decide_false, if_true] at hbefore hafter ⊢
  simp only [Bool.false_eq_true, if_false]
  omega

end IndexSet

namespace Analysis

variable {g : Grammar} {a a' a'' : Analysis} {t u p c : TermId} {tokens : IndexSet}

theorem of_unknown (n : Nat) (t : TermId) :
  (⟨.replicate n .unknown⟩ : Analysis).of t = .unknown
  := by
  simp only [of, Array.getElem?_replicate]
  split <;> rfl

/-! ### Single changes -/

theorem of_modify {change : TermFacts → TermFacts} :
  (a.modify t change).of u = if t = u ∧ t < a.facts.size then change (a.of u) else a.of u
  := by
  simp only [of, modify, Array.getElem?_modify]
  by_cases htu : t = u
  · subst htu
    by_cases ht : t < a.facts.size
    · simp [ht]
    · simp [ht]
  · simp [htu]

/-- What is known once tokens were added to the firsts of a term. -/
theorem of_addFirsts (ht : t < a.facts.size) :
  (a.addFirsts t tokens).of u =
    if t = u then { a.of u with firsts := (a.of u).firsts ∪ tokens } else a.of u
  := by
  unfold addFirsts
  split
  · next h =>
    split
    · next htu =>
      subst htu
      rw [IndexSet.includes, decide_eq_true_eq] at h
      rw [h]
    · rfl
  · simp [of_modify, ht]

/-- What is known once a term is known to be nullable. -/
theorem of_setNullable (ht : t < a.facts.size) :
  (a.setNullable t).of u = if t = u then { a.of u with nullable := true } else a.of u
  := by
  simp [setNullable, of_modify, ht]

/-- What is known once a child was linked to a term. -/
theorem of_link :
  (a.link p c).of u =
    if c ∈ (a.of p).children ∨ ¬ u < a.facts.size then a.of u
    else { a.of u with
      children := if u = p then (a.of u).children.insert c else (a.of u).children
      dependents :=
        if u ∈ (a.of p).ancestors.insert p then
          (a.of u).dependents ∪ (a.of c).dependents.insert c
        else (a.of u).dependents
      ancestors :=
        if u ∈ (a.of c).dependents.insert c then
          (a.of u).ancestors ∪ (a.of p).ancestors.insert p
        else (a.of u).ancestors }
  := by
  unfold link
  by_cases hc : c ∈ (a.of p).children
  · simp [hc]
  · by_cases hu : u < a.facts.size
    · simp only [hc, hu, not_true_eq_false, or_self, if_false]
      simp only [of, Array.getElem?_mapIdx, Array.getElem?_eq_getElem hu, Option.map_some,
        Option.getD_some]
      rfl
    · rw [if_neg hc, if_pos (.inr hu)]
      simp [of, hu]

section link

variable {x : TermId}

theorem nullable_link :
  ((a.link p c).of u).nullable = (a.of u).nullable
  := by
  rw [of_link]
  split <;> rfl

theorem firsts_link :
  ((a.link p c).of u).firsts = (a.of u).firsts
  := by
  rw [of_link]
  split <;> rfl

theorem mem_children_link (hp : p < a.facts.size) :
  x ∈ ((a.link p c).of u).children ↔ x ∈ (a.of u).children ∨ u = p ∧ x = c
  := by
  rw [of_link]
  split
  · next h =>
    constructor
    · apply Or.inl
    · rintro (hx | ⟨rfl, rfl⟩)
      · apply hx
      · apply h.resolve_right (not_not.mpr hp)
  · simp only
    split
    · next hu => simp [hu, or_comm]
    · next hu => simp [hu]

/-- The ancestors that come from a link are the term and its ancestors. -/
theorem mem_ancestors_link (hx : x ∈ ((a.link p c).of u).ancestors) :
  x ∈ (a.of u).ancestors ∨ x = p ∨ x ∈ (a.of p).ancestors
  := by
  rw [of_link] at hx
  split at hx
  · apply Or.inl hx
  · simp only at hx
    split at hx
    · simpa using hx
    · apply Or.inl hx

theorem ancestors_link_mono (hx : x ∈ (a.of u).ancestors) :
  x ∈ ((a.link p c).of u).ancestors
  := by
  rw [of_link]
  split
  · apply hx
  · simp only
    split
    · apply IndexSet.mem_union.mpr (.inl hx)
    · apply hx

/-- The term is an ancestor of the new child. -/
theorem mem_ancestors_link_child (hc : c < a.facts.size) (hnew : ¬ c ∈ (a.of p).children) :
  p ∈ ((a.link p c).of c).ancestors
  := by
  rw [of_link, if_neg (by simp [hnew, hc])]
  simp

end link

/-- Facts are the same if they are the same about every term. -/
theorem ext_of (hsize : a.facts.size = a'.facts.size) (h : ∀ u, a.of u = a'.of u) :
  a = a'
  := by
  obtain ⟨facts⟩ := a
  obtain ⟨facts'⟩ := a'
  congr 1
  apply Array.ext hsize
  intro u hu hu'
  have h := h u
  simpa [of, hu, hu'] using h

theorem size_link :
  (a.link p c).facts.size = a.facts.size
  := by
  unfold link
  split <;> simp

theorem size_addFirsts :
  (a.addFirsts t tokens).facts.size = a.facts.size
  := by
  unfold addFirsts
  split <;> simp [modify]

theorem size_setNullable :
  (a.setNullable t).facts.size = a.facts.size
  := by
  simp [setNullable, modify]

/-! ### Known facts -/

/-- The facts are about the members of the grammar, and a term is an ancestor of its children. -/
structure Known (g : Grammar) (a : Analysis) : Prop where
  size_eq : a.facts.size = g.terms.next
  firsts_mem : ∀ t n, n ∈ (a.of t).firsts → n ∈ g.tokens.ids
  children_mem : ∀ t c, c ∈ (a.of t).children → c ∈ g.terms.ids
  ancestors_mem : ∀ t s, s ∈ (a.of t).ancestors → s ∈ g.terms.ids
  ancestor_of_child : ∀ t c, c ∈ (a.of t).children → t ∈ (a.of c).ancestors

/-- How much could still be found out about a term. -/
def weight (g : Grammar) (a : Analysis) (t : TermId) : Nat :=
  (if (a.of t).nullable then 0 else 1) + (a.of t).firsts.missing g.tokens.ids +
    (a.of t).children.missing g.terms.ids

/-- The facts `a'` are known and have been found from the facts `a` by looking at rules of the term
`t`: about other terms nothing was found that tells something about sequences, and either nothing
was found or less is left to be found out. -/
structure Extends (g : Grammar) (t : TermId) (a a' : Analysis) : Prop where
  known : Known g a'
  frame : ∀ u, u ≠ t → (a'.of u).nullable = (a.of u).nullable ∧
    (a'.of u).firsts = (a.of u).firsts ∧ (a'.of u).children = (a.of u).children
  nullable_mono : (a.of t).nullable → (a'.of t).nullable
  firsts_mono : ∀ n, n ∈ (a.of t).firsts → n ∈ (a'.of t).firsts
  children_mono : ∀ c, c ∈ (a.of t).children → c ∈ (a'.of t).children
  eq_or_lt : a' = a ∨ weight g a' t < weight g a t

namespace Extends

theorem refl (h : Known g a) :
  Extends g t a a
  := ⟨h, fun _ _ => ⟨rfl, rfl, rfl⟩, id, fun _ => id, fun _ => id, .inl rfl⟩

theorem trans (h : Extends g t a a') (h' : Extends g t a' a'') :
  Extends g t a a''
  := by
  constructor
  · apply h'.known
  · intro u hu
    obtain ⟨hn, hf, hc⟩ := h.frame u hu
    obtain ⟨hn', hf', hc'⟩ := h'.frame u hu
    use hn'.trans hn, hf'.trans hf, hc'.trans hc
  · apply h'.nullable_mono ∘ h.nullable_mono
  · apply fun n hn => h'.firsts_mono n (h.firsts_mono n hn)
  · apply fun c hc => h'.children_mono c (h.children_mono c hc)
  · obtain rfl | hlt := h.eq_or_lt
    · apply h'.eq_or_lt
    · obtain rfl | hlt' := h'.eq_or_lt
      · apply Or.inr hlt
      · apply Or.inr (Nat.lt_trans hlt' hlt)

/-- What is known to begin a derivation stays known. -/
theorem firsts_subset (h : Extends g t a a') (u : TermId) {n : TokenId}
    (hn : n ∈ (a.of u).firsts) :
  n ∈ (a'.of u).firsts
  := by
  by_cases hu : u = t
  · subst hu
    apply h.firsts_mono n hn
  · rwa [(h.frame u hu).2.1]

/-- A child stays a child. -/
theorem child_mono (h : Extends g t a a') {u c : TermId} (hc : c ∈ (a.of u).children) :
  c ∈ (a'.of u).children
  := by
  by_cases hu : u = t
  · subst hu
    apply h.children_mono c hc
  · rwa [(h.frame u hu).2.2]

end Extends

/-- What is known stays within the grammar if only tokens of the grammar are learned to begin
derivations, and nothing about children and ancestors. -/
theorem Known.of_eq (h : Known g a) (hsize : a'.facts.size = a.facts.size)
    (hfirsts : ∀ u n, n ∈ (a'.of u).firsts → n ∈ g.tokens.ids)
    (hchildren : ∀ u, (a'.of u).children = (a.of u).children)
    (hancestors : ∀ u, (a'.of u).ancestors = (a.of u).ancestors) :
  Known g a'
  := by
  constructor
  · rw [hsize, h.size_eq]
  · apply hfirsts
  · intro u c hc
    rw [hchildren] at hc
    apply h.children_mem u c hc
  · intro u c hc
    rw [hancestors] at hc
    apply h.ancestors_mem u c hc
  · intro u c hc
    rw [hchildren] at hc
    rw [hancestors]
    apply h.ancestor_of_child u c hc

/-! ### The changes extend the facts -/

section changes

variable (hg : g.WellFormed) (h : Known g a) (ht : t ∈ g.terms.ids)

include hg h ht

theorem lt_size :
  t < a.facts.size
  := by
  rw [h.size_eq]
  apply (hg.proper .term).ids_old t ht

theorem known_addFirsts (htokens : ∀ n, n ∈ tokens → n ∈ g.tokens.ids) :
  Known g (a.addFirsts t tokens)
  := by
  have hof := fun u => @of_addFirsts a t u tokens (lt_size hg h ht)
  apply h.of_eq size_addFirsts
  · intro u n hn
    rw [hof] at hn
    split at hn
    · rcases IndexSet.mem_union.mp hn with hn | hn
      · apply h.firsts_mem u n hn
      · apply htokens n hn
    · apply h.firsts_mem u n hn
  · intro u
    rw [hof]
    split <;> rfl
  · intro u
    rw [hof]
    split <;> rfl

theorem known_setNullable :
  Known g (a.setNullable t)
  := by
  have hof (u : TermId) := of_setNullable (u := u) (lt_size hg h ht)
  apply h.of_eq size_setNullable
  · intro u n hn
    rw [hof] at hn
    split at hn <;> apply h.firsts_mem u n hn
  · intro u
    rw [hof]
    split <;> rfl
  · intro u
    rw [hof]
    split <;> rfl

theorem extends_addFirsts (htokens : ∀ n, n ∈ tokens → n ∈ g.tokens.ids) :
  Extends g t a (a.addFirsts t tokens)
  := by
  have hof := fun u => @of_addFirsts a t u tokens (lt_size hg h ht)
  constructor
  · apply known_addFirsts hg h ht htokens
  · intro u hu
    rw [hof, if_neg (Ne.symm hu)]
    use rfl, rfl
  · rw [hof, if_pos rfl]
    apply id
  · intro n hn
    rw [hof, if_pos rfl]
    apply IndexSet.mem_union.mpr (.inl hn)
  · intro c hc
    rw [hof, if_pos rfl]
    apply hc
  · by_cases hi : (a.of t).firsts.includes tokens
    · left
      rw [addFirsts, if_pos hi]
    · right
      rw [Bool.not_eq_true, ← Bool.not_eq_true, IndexSet.includes_iff] at hi
      push Not at hi
      obtain ⟨n, hn, hnew⟩ := hi
      simp only [weight, hof, if_pos]
      have hlt : ((a.of t).firsts ∪ tokens).missing g.tokens.ids <
          (a.of t).firsts.missing g.tokens.ids :=
        IndexSet.missing_lt (fun m hm => IndexSet.mem_union.mpr (.inl hm)) (htokens n hn) hnew
          (IndexSet.mem_union.mpr (.inr hn))
      omega

theorem extends_setNullable :
  Extends g t a (a.setNullable t)
  := by
  have hof (u : TermId) := of_setNullable (u := u) (lt_size hg h ht)
  constructor
  · apply known_setNullable hg h ht
  · intro u hu
    rw [hof, if_neg (Ne.symm hu)]
    use rfl, rfl
  · intro _
    rw [hof, if_pos rfl]
  · intro n hn
    rw [hof, if_pos rfl]
    apply hn
  · intro c hc
    rw [hof, if_pos rfl]
    apply hc
  · by_cases hn : (a.of t).nullable
    · left
      apply ext_of size_setNullable
      intro u
      rw [hof]
      split
      · next htu =>
        subst htu
        rw [← hn]
      · rfl
    · right
      simp [weight, hof, hn]

theorem known_link (hc : c ∈ g.terms.ids) :
  Known g (a.link t c)
  := by
  have hsize := lt_size hg h ht
  constructor
  · rw [size_link, h.size_eq]
  · intro u n hn
    rw [firsts_link] at hn
    apply h.firsts_mem u n hn
  · intro u x hx
    rcases (mem_children_link hsize).mp hx with hx | ⟨-, rfl⟩
    · apply h.children_mem u x hx
    · apply hc
  · intro u x hx
    rcases mem_ancestors_link hx with hx | rfl | hx
    · apply h.ancestors_mem u x hx
    · apply ht
    · apply h.ancestors_mem t x hx
  · intro u x hx
    by_cases hold : x ∈ (a.of u).children
    · apply ancestors_link_mono (h.ancestor_of_child u x hold)
    · obtain ⟨rfl, rfl⟩ := ((mem_children_link hsize).mp hx).resolve_left hold
      apply mem_ancestors_link_child (lt_size hg h hc) hold

theorem extends_link (hc : c ∈ g.terms.ids) :
  Extends g t a (a.link t c) ∧ c ∈ ((a.link t c).of t).children
  := by
  have hsize := lt_size hg h ht
  have hnew : c ∈ ((a.link t c).of t).children := (mem_children_link hsize).mpr (.inr ⟨rfl, rfl⟩)
  use ⟨known_link hg h ht hc, ?_, ?_, ?_, ?_, ?_⟩
  · intro u hu
    use nullable_link, firsts_link
    apply IndexSet.ext_mem
    intro x
    rw [mem_children_link hsize]
    constructor
    · rintro (hx | ⟨rfl, -⟩)
      · apply hx
      · apply absurd rfl hu
    · apply Or.inl
  · rw [nullable_link]
    apply id
  · intro n hn
    rwa [firsts_link]
  · intro x hx
    apply (mem_children_link hsize).mpr (.inl hx)
  · by_cases hold : c ∈ (a.of t).children
    · left
      rw [link, if_pos hold]
    · right
      have hlt : ((a.link t c).of t).children.missing g.terms.ids <
          (a.of t).children.missing g.terms.ids :=
        IndexSet.missing_lt (fun x hx => (mem_children_link hsize).mpr (.inl hx)) hc hold hnew
      simp only [weight, nullable_link, firsts_link]
      omega

end changes

end Analysis

end CanonicalLR
