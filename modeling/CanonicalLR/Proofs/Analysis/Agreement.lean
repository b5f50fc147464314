import Mathlib.Algebra.Order.BigOperators.Group.List
import Mathlib.Algebra.Order.Ring.Nat
import Mathlib.Data.List.Perm.Subperm
import CanonicalLR.Proofs.Analysis.Facts
import CanonicalLR.Proofs.Language.Derivation
import CanonicalLR.Proofs.Queue.Records

/-!
# The analysis agrees with the rules

Facts *agree* with a rule if nothing follows from it that is not among them (`Analysis.Agrees`).
The facts that are found about a grammar agree with all of its rules (`agrees_analyze`).

While the search goes on, the facts agree with the rules of all terms that are not pending
(`Search.Sound`).  The search ends before its bound: a walk that changes nothing takes a term from
the queue, and any other leaves less to be found out (`total`).
-/

namespace CanonicalLR

namespace Analysis

variable {g : Grammar} {a a' a'' : Analysis} {t u c : TermId} {items : List Symbol}

/-! ### Agreement -/

/-- The facts agree with the rest `items` of a rule of the term `t`: whatever it may begin with is
known to begin a derivation of the term, and `done` holds if it may be empty. -/
def Agrees (a : Analysis) (t : TermId) (done : Prop) : List Symbol → Prop
  | [] => done
  | .prompt _ :: items => Agrees a t done items
  | .token n :: _ => n ∈ (a.of t).firsts
  | .term c :: items =>
    c ∈ (a.of t).children ∧ (∀ n, n ∈ (a.of c).firsts → n ∈ (a.of t).firsts) ∧
      ((a.of c).nullable → Agrees a t done items)

/-- The facts agree with the rules of the term. -/
def AgreesWith (g : Grammar) (a : Analysis) (t : TermId) : Prop :=
  ∀ r ∈ g.rulesOf t, Agrees a t ((a.of t).nullable = true) r.items

theorem Agrees.imp {done done' : Prop} (hdone : done → done') (h : Agrees a t done items) :
  Agrees a t done' items
  := by
  induction items with
  | nil => apply hdone h
  | cons s items ih =>
    match s with
    | .prompt _ => apply ih h
    | .token n => apply h
    | .term c => use h.1, h.2.1, fun hn => ih (h.2.2 hn)

/-- Facts that agree with the rest of a rule still do when something is found out about a term,
unless that term is a child. -/
theorem Extends.agrees_or {done done' : Prop} (h : Extends g t a a') (hdone : done → done')
    (ha : Agrees a u done items) :
  Agrees a' u done' items ∨ t ∈ (a'.of u).children
  := by
  induction items with
  | nil => apply Or.inl (hdone ha)
  | cons s items ih =>
    match s with
    | .prompt _ => apply ih ha
    | .token n =>
      left
      apply h.firsts_subset u ha
    | .term c =>
      obtain ⟨hc, hfirsts, hrest⟩ := ha
      by_cases hct : c = t
      · subst hct
        apply Or.inr (h.child_mono hc)
      · obtain ⟨hnullable, hsame, -⟩ := h.frame c hct
        have hfirsts' : ∀ n, n ∈ (a'.of c).firsts → n ∈ (a'.of u).firsts := by
          rw [hsame]
          apply fun n hn => h.firsts_subset u (hfirsts n hn)
        rw [Agrees, hnullable]
        by_cases hn : (a.of c).nullable
        · rcases ih (hrest hn) with hitems | hchild
          · exact .inl ⟨h.child_mono hc, hfirsts', fun _ => hitems⟩
          · apply Or.inr hchild
        · exact .inl ⟨h.child_mono hc, hfirsts', fun hn' => absurd hn' hn⟩

/-- If facts are extended twice and are the same in the end, then they were not changed at all. -/
theorem Extends.eq_of_eq (h : Extends g t a a') (h' : Extends g t a' a'') (he : a'' = a) :
  a' = a
  := by
  subst he
  rcases h.eq_or_lt with he | hlt
  · apply he
  · rcases h'.eq_or_lt with he | hlt'
    · apply he.symm
    · apply absurd hlt (Nat.lt_asymm hlt')

/-! ### Walks -/

section walk

variable (hg : g.WellFormed) (ht : t ∈ g.terms.ids)

include hg ht

/-- Once a child was met, it is among the children, and its firsts are among those of the term, now
and after the facts were extended further. -/
theorem extends_child (h : Known g a) (hc : c ∈ g.terms.ids) :
  Extends g t a ((a.link t c).addFirsts t (a.firstSet c)) ∧
    (∀ u, (((a.link t c).addFirsts t (a.firstSet c)).of u).nullable = (a.of u).nullable) ∧
    c ∈ (((a.link t c).addFirsts t (a.firstSet c)).of t).children ∧
    ∀ {b : Analysis}, Extends g t ((a.link t c).addFirsts t (a.firstSet c)) b →
      ∀ n, n ∈ (b.of c).firsts → n ∈ (b.of t).firsts
  := by
  obtain ⟨hlink, hchild⟩ := extends_link hg h ht hc
  have hsize := lt_size hg hlink.known ht
  have hadd := extends_addFirsts hg hlink.known ht (h.firsts_mem c)
  have hboth := hlink.trans hadd
  refine ⟨hboth, fun u => ?_, hadd.children_mono c hchild, fun {b} hb n hn => ?_⟩
  · rw [of_addFirsts hsize]
    split <;> apply nullable_link
  · by_cases hct : c = t
    · rwa [← hct]
    · rw [((hboth.trans hb).frame c hct).2.1] at hn
      apply hb.firsts_mono n
      rw [of_addFirsts hsize, if_pos rfl]
      apply IndexSet.mem_union.mpr (.inr hn)

/-- After a walk over the rest of a rule, the facts agree with it, but for the end. -/
theorem extends_walk (h : Known g a) (hitems : ∀ s ∈ items, g.contains s) :
  Extends g t a (walk t items a).1 ∧
    (∀ u, ((walk t items a).1.of u).nullable = (a.of u).nullable) ∧
    Agrees (walk t items a).1 t ((walk t items a).2 = true) items
  := by
  induction items generalizing a with
  | nil => exact ⟨.refl h, fun _ => rfl, rfl⟩
  | cons s items ih =>
    have hrest : ∀ s ∈ items, g.contains s := fun s hs => hitems s (List.mem_cons_of_mem _ hs)
    match s with
    | .prompt _ =>
      rw [walk]
      apply ih h hrest
    | .token n =>
      rw [walk]
      have hn : n ∈ g.tokens.ids := Grammar.contains_iff.mp (hitems (.token n) List.mem_cons_self)
      have hsize := lt_size hg h ht
      have htokens : ∀ m, m ∈ IndexSet.singleton n → m ∈ g.tokens.ids := by simpa using hn
      refine ⟨extends_addFirsts hg h ht htokens, ?_, ?_⟩
      · intro u
        rw [of_addFirsts hsize]
        split <;> rfl
      · rw [Agrees, of_addFirsts hsize, if_pos rfl]
        simp
    | .term c =>
      have hc : c ∈ g.terms.ids := Grammar.contains_iff.mp (hitems (.term c) List.mem_cons_self)
      obtain ⟨hchild, hnullable, hmem, hcontained⟩ := extends_child hg ht h hc
      rw [walk]
      by_cases hn : ((a.link t c).addFirsts t (a.firstSet c)).nullable c
      · simp only [hn, if_true]
        obtain ⟨hwalk, hsame, hagrees⟩ := ih hchild.known hrest
        refine ⟨hchild.trans hwalk, fun u => (hsame u).trans (hnullable u), ?_⟩
        use hwalk.children_mono c hmem, hcontained hwalk, fun _ => hagrees
      · simp only [hn, Bool.false_eq_true, if_false]
        refine ⟨hchild, hnullable, ?_⟩
        use hmem, hcontained (.refl hchild.known), fun hn' => absurd hn' hn

/-- After a rule was learned, the facts agree with it, unless its owner is a child of itself; and if
they did not change, they agree with it anyway. -/
theorem extends_learn (h : Known g a) {r : Rule} (hr : r ∈ g.rulesOf t) :
  Extends g t a (learn a r) ∧
    (learn a r = a → Agrees a t ((a.of t).nullable = true) r.items) ∧
    (Agrees (learn a r) t (((learn a r).of t).nullable = true) r.items ∨
      t ∈ ((learn a r).of t).children)
  := by
  obtain ⟨hmem, rfl⟩ := Grammar.mem_rulesOf.mp hr
  obtain ⟨hwalk, -, hagrees⟩ := extends_walk hg ht h (hg.items_mem r hmem)
  rw [learn]
  generalize walk r.owner r.items a = answer at hwalk hagrees
  obtain ⟨a₁, done⟩ := answer
  cases done with
  | false =>
    have hagrees' (nullable : Prop) : Agrees a₁ r.owner nullable r.items :=
      hagrees.imp (by simp)
    use hwalk
    constructor
    · rintro rfl
      apply hagrees'
    · left
      apply hagrees'
  | true =>
    have hset := extends_setNullable hg hwalk.known ht
    have hnullable : ((a₁.setNullable r.owner).of r.owner).nullable = true := by
      rw [of_setNullable (lt_size hg hwalk.known ht), if_pos rfl]
    use hwalk.trans hset
    constructor
    · intro he
      obtain rfl := hwalk.eq_of_eq hset he
      simp only at he
      rw [he] at hnullable
      apply hagrees.imp fun _ => hnullable
    · apply hset.agrees_or (fun _ => hnullable) hagrees

/-- After some rules of a term were learned, the facts agree with them, unless the term is a child
of itself; and if they did not change, they agree with them anyway. -/
theorem extends_learnAll (h : Known g a) {rules : List Rule} (hr : ∀ r ∈ rules, r ∈ g.rulesOf t) :
  Extends g t a (rules.foldl learn a) ∧
    (rules.foldl learn a = a → ∀ r ∈ rules, Agrees a t ((a.of t).nullable = true) r.items) ∧
    ∀ r ∈ rules,
      Agrees (rules.foldl learn a) t (((rules.foldl learn a).of t).nullable = true) r.items ∨
        t ∈ ((rules.foldl learn a).of t).children
  := by
  induction rules generalizing a with
  | nil => use .refl h, by simp, by simp
  | cons r rules ih =>
    obtain ⟨hlearn, hsame, hagrees⟩ := extends_learn hg ht h (hr r List.mem_cons_self)
    obtain ⟨hrest, hsame', hagrees'⟩ := ih hlearn.known fun r hr' => hr r (List.mem_cons_of_mem _ hr')
    rw [List.foldl_cons]
    use hlearn.trans hrest
    constructor
    · intro he
      have he₁ := hlearn.eq_of_eq hrest he
      rw [he₁] at hsame' he
      intro r' hr'
      rcases List.mem_cons.mp hr' with rfl | hr'
      · apply hsame he₁
      · apply hsame' he r' hr'
    · intro r' hr'
      rcases List.mem_cons.mp hr' with rfl | hr'
      · rcases hagrees with hagrees | hchild
        · apply hrest.agrees_or hrest.nullable_mono hagrees
        · apply Or.inr (hrest.children_mono t hchild)
      · apply hagrees' r' hr'

/-- If the facts agree with the rules of all terms but the dirty ones, then they still do after the
rules of a term were learned, where that term is not dirty any more, but its ancestors are if something
was found out about it: these are all the terms whose rules may not agree any more. -/
theorem agreesWith_learnAll (h : Known g a) {dirty : TermId → Prop}
    (hagrees : ∀ u ∈ g.terms.ids, ¬ dirty u → AgreesWith g a u) (hu : u ∈ g.terms.ids)
    (hdirty : u = t ∨ ¬ dirty u)
    (hchanged : ((g.rulesOf t).foldl learn a).of t = a.of t ∨
      ¬ u ∈ (((g.rulesOf t).foldl learn a).of t).ancestors) :
  AgreesWith g ((g.rulesOf t).foldl learn a) u
  := by
  obtain ⟨hextends, hsame, hlearned⟩ := extends_learnAll hg ht h fun _ hr => hr
  rcases hextends.eq_or_lt with heq | hlt
  · rw [heq]
    rcases hdirty with rfl | hdirty
    · apply hsame heq
    · apply hagrees u hu hdirty
  · have hancestor : ¬ u ∈ (((g.rulesOf t).foldl learn a).of t).ancestors := by
      apply hchanged.resolve_left
      intro heq
      rw [weight, weight, heq] at hlt
      apply Nat.lt_irrefl _ hlt
    have hchild : ¬ t ∈ (((g.rulesOf t).foldl learn a).of u).children :=
      fun hc => hancestor (hextends.known.ancestor_of_child u t hc)
    intro r hr
    by_cases hut : u = t
    · subst hut
      apply (hlearned r hr).resolve_right hchild
    · have hnullable := (hextends.frame u hut).1
      apply (hextends.agrees_or _ (hagrees u hu (hdirty.resolve_left hut) r hr)).resolve_right hchild
      rw [hnullable]
      apply id

end walk

/-! ### The search -/

/-- The facts are known, and they agree with the rules of all terms that are not pending. -/
structure Search.Sound (g : Grammar) (s : Search) : Prop where
  known : Known g s.analysis
  pending_mem : ∀ t ∈ s.pending.toList, t ∈ g.terms.ids
  agrees : ∀ t ∈ g.terms.ids, t ∉ s.pending.toList → AgreesWith g s.analysis t

/-- How much could still be found out about all terms. -/
def total (g : Grammar) (a : Analysis) : Nat :=
  (g.terms.ids.map (weight g a)).sum

/-- A bound for the number of walks that are still to be made. -/
def remaining (g : Grammar) (s : Search) : Nat :=
  total g s.analysis * g.terms.size + s.pending.toList.length

section search

variable {s next : Search}

theorem total_lt (ht : t ∈ g.terms.ids) (h : Extends g t a a') (hlt : weight g a' t < weight g a t) :
  total g a' < total g a
  := by
  apply List.sum_lt_sum
  · intro u _
    by_cases hu : u = t
    · subst hu
      apply Nat.le_of_lt hlt
    · obtain ⟨hn, hf, hc⟩ := h.frame u hu
      rw [weight, weight, hn, hf, hc]
  · use t, ht

/-- There is no more to be found out than whether a term is nullable, its firsts and its children. -/
theorem total_le (g : Grammar) (a : Analysis) :
  total g a ≤ g.terms.size * (1 + g.tokens.size + g.terms.size)
  := by
  have hweight : ∀ n ∈ g.terms.ids.map (weight g a), n ≤ 1 + g.tokens.size + g.terms.size := by
    intro n hn
    obtain ⟨t, -, rfl⟩ := List.mem_map.mp hn
    have hfirsts := IndexSet.missing_le_length g.tokens.ids (a.of t).firsts
    have hchildren := IndexSet.missing_le_length g.terms.ids (a.of t).children
    simp only [SymbolTable.ids, List.length_map] at hfirsts hchildren
    simp only [weight, SymbolTable.size, SymbolTable.ids]
    split <;> omega
  have h := List.sum_le_card_nsmul _ _ hweight
  simpa [total, SymbolTable.ids, SymbolTable.size] using h

/-- What a step does: it learns the rules of the oldest pending term, and if something was found out
about that term, then its ancestors are pending. -/
theorem exists_of_step_eq_some (h : s.Sound g) (hstep : step g s = some next) :
  ∃ t pending, s.pending.toList = t :: pending.toList ∧ t ∈ g.terms.ids ∧
    next.analysis = (g.rulesOf t).foldl learn s.analysis ∧
    next.pending = if next.analysis.of t = s.analysis.of t then pending
      else pending.pushAll (next.analysis.of t).ancestors.toList
  := by
  obtain ⟨⟨t, pending⟩, hpop, rfl⟩ := Option.map_eq_some_iff.mp hstep
  have hpending := Queue.toList_of_pop? hpop
  use t, pending, hpending, h.pending_mem t (by simp [hpending])

/-- The search keeps its invariant. -/
theorem sound_step (hg : g.WellFormed) (h : s.Sound g) (hstep : step g s = some next) :
  next.Sound g
  := by
  obtain ⟨t, pending, hpending, ht, hlearn, hnext⟩ := exists_of_step_eq_some h hstep
  have hknown : Known g next.analysis := by
    rw [hlearn]
    apply (extends_learnAll hg ht h.known fun _ hr => hr).1.known
  have hmem (u : TermId) : u ∈ next.pending.toList ↔ u ∈ pending.toList ∨
      next.analysis.of t ≠ s.analysis.of t ∧ u ∈ (next.analysis.of t).ancestors := by
    rw [hnext]
    split
    · next hsame => simp [hsame]
    · next hchanged => simp [hchanged, Queue.mem_pushAll]
  use hknown
  · intro u hu
    rcases (hmem u).mp hu with hu | ⟨-, hu⟩
    · apply h.pending_mem u
      rw [hpending]
      apply List.mem_cons_of_mem _ hu
    · apply hknown.ancestors_mem t u hu
  · intro u hu hn
    rw [hmem, not_or, not_and_or, not_not] at hn
    rw [hlearn] at hn ⊢
    apply agreesWith_learnAll hg ht h.known h.agrees hu _ hn.2
    rw [hpending, List.mem_cons, not_or]
    apply (eq_or_ne u t).imp_right
    exact fun hut => ⟨hut, hn.1⟩

theorem length_pending_le (h : s.Sound g) :
  s.pending.toList.length ≤ g.terms.size
  := by
  have hsub := List.subperm_of_subset s.pending.nodup h.pending_mem
  have := hsub.length_le
  rwa [SymbolTable.ids, List.length_map] at this

theorem remaining_step (hg : g.WellFormed) (h : s.Sound g) (hstep : step g s = some next) :
  remaining g next < remaining g s
  := by
  obtain ⟨t, pending, hpending, ht, hlearn, hnext⟩ := exists_of_step_eq_some h hstep
  have hlength := length_pending_le (sound_step hg h hstep)
  have hextends := (extends_learnAll hg ht h.known fun _ hr => hr).1
  rw [← hlearn] at hextends
  rcases hextends.eq_or_lt with heq | hlt
  · rw [heq, if_pos rfl] at hnext
    simp [remaining, heq, hnext, hpending]
  · have hmul := Nat.mul_le_mul_right g.terms.size (total_lt ht hextends hlt)
    rw [Nat.succ_mul] at hmul
    simp only [remaining, hpending, List.length_cons]
    omega

theorem sound_initial (g : Grammar) :
  (initial g).Sound g
  := by
  have hof : ∀ t, (initial g).analysis.of t = .unknown := of_unknown g.terms.next
  constructor
  · constructor
    · simp [initial]
    all_goals
      intro t
      rw [hof]
      simp [TermFacts.unknown]
  · intro t ht
    apply Queue.mem_ofList.mp ht
  · intro t ht hn
    apply absurd (Queue.mem_ofList.mpr ht) hn

end search

/-- The facts that are found about a grammar are about its members, and they agree with its
rules. -/
theorem agrees_analyze (hg : g.WellFormed) :
  Known g g.analyze ∧ ∀ t ∈ g.terms.ids, AgreesWith g g.analyze t
  := by
  have hkeep : ∀ s next : Search, s.Sound g → step g s = some next → next.Sound g :=
    fun _ _ h hstep => sound_step hg h hstep
  have hinitial := sound_initial g
  have hbound : remaining g (initial g) ≤ walks g := by
    have htotal := Nat.mul_le_mul_right g.terms.size (total_le g (initial g).analysis)
    have hpending := length_pending_le hinitial
    simp only [remaining, walks]
    rw [Nat.mul_comm g.terms.size (g.terms.size * _)]
    omega
  have hsound := exhaust_induction hkeep (walks g) hinitial
  have hstuck := stuck_exhaust_of_keep hkeep (remaining g)
    (fun _ _ h hstep => remaining_step hg h hstep) hinitial hbound
  have hdone : (exhaust (step g) (walks g) (initial g)).pending.toList = [] := by
    rw [Stuck, step, Option.map_eq_none_iff] at hstuck
    generalize (exhaust (step g) (walks g) (initial g)).pending = pending at hstuck
    obtain ⟨_ | ⟨t, ts⟩, hnodup⟩ := pending
    · rfl
    · cases hstuck
  use hsound.known
  intro t ht
  apply hsound.agrees t ht
  rw [hdone]
  apply List.not_mem_nil

end Analysis

end CanonicalLR
