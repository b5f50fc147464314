import CanonicalLR.Proofs.Analysis.Firsts
import CanonicalLR.Proofs.Language.Openings
import CanonicalLR.Proofs.Language.Rewriting

/-!
# The analysis is exact

The facts that are found about a grammar are no more than what holds of it: a term is known to be
nullable exactly if the empty sequence is derived from it (`nullable_analyze`), its firsts are the
tokens that open it (`firsts_analyze`), its children are the terms that it leads to (`child_analyze`),
and it depends on the terms that it leads to in one step or more (`dependsOn_analyze`).  So the firsts
of a sequence are the tokens that open it, and those of the fallback if it derives the empty sequence
(`mem_firstsOf_analyze`).

At any time of the search the dependents are the transitive closure of the children, and the
ancestors its inverse (`Analysis.Closed`): with a new child, those that reach the parent come to
reach what is reached from the child, and no others (`transGen_or_edge`).
-/

namespace CanonicalLR

/-- With one more edge, what is reached is reached without it, or by way of it. -/
theorem transGen_or_edge {α : Type} {r : α → α → Prop} {p c u x : α} :
  Relation.TransGen (fun u x => r u x ∨ u = p ∧ x = c) u x ↔
    Relation.TransGen r u x ∨ Relation.ReflTransGen r u p ∧ Relation.ReflTransGen r c x
  := by
  constructor
  · intro h
    induction h with
    | single h =>
      rcases h with h | ⟨rfl, rfl⟩
      · exact .inl (.single h)
      · exact .inr ⟨.refl, .refl⟩
    | tail _ h ih =>
      rcases ih with ih | ⟨hp, hc⟩ <;> rcases h with h | ⟨rfl, rfl⟩
      · exact .inl (ih.tail h)
      · exact .inr ⟨ih.to_reflTransGen, .refl⟩
      · exact .inr ⟨hp, hc.tail h⟩
      · exact .inr ⟨hp, .refl⟩
  · have hmono : ∀ u x, r u x → r u x ∨ u = p ∧ x = c := fun _ _ => .inl
    rintro (h | ⟨hp, hc⟩)
    · apply Relation.TransGen.mono hmono _ _ h
    · apply Relation.TransGen.trans_right (Relation.ReflTransGen.mono hmono _ _ hp)
      apply Relation.TransGen.trans_left (.single (.inr ⟨rfl, rfl⟩))
      apply Relation.ReflTransGen.mono hmono _ _ hc

namespace Analysis

variable {g : Grammar} {a a' : Analysis} {t u p c : TermId} {n : TokenId} {tokens : IndexSet}
  {before items : List Symbol}

/-! ### Dependents -/

/-- The term `c` is known as a child of the term `t`. -/
def Child (a : Analysis) (t c : TermId) : Prop :=
  c ∈ (a.of t).children

/-- The dependents of a term are what is reached from it by going from child to child, and its
ancestors are the terms from which it is reached. -/
structure Closed (a : Analysis) : Prop where
  child_lt : ∀ t c, a.Child t c → c < a.facts.size
  mem_dependents : ∀ t u, u ∈ (a.of t).dependents ↔ Relation.TransGen a.Child t u
  mem_ancestors : ∀ t u, u ∈ (a.of t).ancestors ↔ Relation.TransGen a.Child u t

/-- Only terms that facts are kept about have children. -/
theorem Child.lt (h : a.Child t c) :
  t < a.facts.size
  := by
  by_contra ht
  have hof : a.of t = .unknown := by simp [of, ht]
  rw [Child, hof] at h
  apply IndexSet.not_mem_empty c h

/-- Facts that say the same about children, dependents and ancestors are closed with those that
they come from. -/
theorem Closed.of_eq (h : a.Closed) (hsize : a'.facts.size = a.facts.size)
    (heq : ∀ t, (a'.of t).children = (a.of t).children ∧
      (a'.of t).dependents = (a.of t).dependents ∧ (a'.of t).ancestors = (a.of t).ancestors) :
  a'.Closed
  := by
  have hchild : a'.Child = a.Child := by
    funext t c
    rw [Child, Child, (heq t).1]
  constructor
  · rw [hchild, hsize]
    apply h.child_lt
  · intro t u
    rw [hchild, (heq t).2.1]
    apply h.mem_dependents
  · intro t u
    rw [hchild, (heq t).2.2]
    apply h.mem_ancestors

/-- A new child is the only one that comes from a link. -/
theorem child_link (hp : p < a.facts.size) :
  (a.link p c).Child = fun u x => a.Child u x ∨ u = p ∧ x = c
  := by
  funext u x
  apply propext (mem_children_link hp)

theorem not_child_unknown {n : Nat} :
  ¬ (⟨.replicate n .unknown⟩ : Analysis).Child t c
  := by
  rw [Child, of_unknown]
  apply IndexSet.not_mem_empty

/-- As long as nothing is known, nothing is reached. -/
theorem closed_unknown (n : Nat) :
  Closed ⟨.replicate n .unknown⟩
  := by
  have hreach (t u : TermId) :
      ¬ Relation.TransGen (⟨.replicate n .unknown⟩ : Analysis).Child t u := by
    intro h
    obtain ⟨x, hx, -⟩ := Relation.TransGen.head'_iff.mp h
    apply not_child_unknown hx
  constructor
  · exact fun t c h => absurd h not_child_unknown
  · intro t u
    rw [of_unknown]
    exact iff_of_false (IndexSet.not_mem_empty u) (hreach t u)
  · intro t u
    rw [of_unknown]
    exact iff_of_false (IndexSet.not_mem_empty u) (hreach u t)

theorem Closed.link (h : a.Closed) (hp : p < a.facts.size) (hc : c < a.facts.size) :
  (a.link p c).Closed
  := by
  have hsources (u : TermId) :
      u ∈ (a.of p).ancestors.insert p ↔ Relation.ReflTransGen a.Child u p := by
    rw [IndexSet.mem_insert, h.mem_ancestors, Relation.reflTransGen_iff_eq_or_transGen, eq_comm]
  have htargets (u : TermId) :
      u ∈ (a.of c).dependents.insert c ↔ Relation.ReflTransGen a.Child c u := by
    rw [IndexSet.mem_insert, h.mem_dependents, Relation.reflTransGen_iff_eq_or_transGen]
  by_cases hold : c ∈ (a.of p).children
  · rwa [Analysis.link, if_pos hold]
  have hfacts {t : TermId} (ht : t < a.facts.size) :
      ¬ (c ∈ (a.of p).children ∨ ¬ t < a.facts.size) := by simp [hold, ht]
  constructor
  · intro t x hx
    rw [child_link hp] at hx
    rw [size_link]
    rcases hx with hx | ⟨-, rfl⟩
    · apply h.child_lt t x hx
    · apply hc
  · intro t u
    rw [child_link hp, transGen_or_edge, ← h.mem_dependents, ← hsources, ← htargets]
    by_cases ht : t < a.facts.size
    · rw [of_link, if_neg (hfacts ht)]
      simp only
      split <;> simp_all
    · have hnot : ¬ t ∈ (a.of p).ancestors.insert p := by
        rw [hsources]
        intro hreach
        rcases hreach.cases_head with rfl | ⟨x, hx, -⟩
        · apply ht hp
        · apply ht hx.lt
      rw [of_link, if_pos (.inr ht)]
      simp [hnot]
  · intro t u
    rw [child_link hp, transGen_or_edge, ← h.mem_ancestors, ← hsources, ← htargets]
    by_cases ht : t < a.facts.size
    · rw [of_link, if_neg (hfacts ht)]
      simp only
      split <;> simp_all
    · have hnot : ¬ t ∈ (a.of c).dependents.insert c := by
        rw [htargets]
        intro hreach
        rcases hreach.cases_tail with rfl | ⟨x, -, hx⟩
        · apply ht hc
        · apply ht (h.child_lt x _ hx)
      rw [of_link, if_pos (.inr ht)]
      simp [hnot]

theorem Closed.addFirsts (h : a.Closed) (ht : t < a.facts.size) :
  (a.addFirsts t tokens).Closed
  := by
  apply h.of_eq size_addFirsts
  intro u
  rw [of_addFirsts ht]
  split <;> exact ⟨rfl, rfl, rfl⟩

theorem Closed.setNullable (h : a.Closed) (ht : t < a.facts.size) :
  (a.setNullable t).Closed
  := by
  apply h.of_eq size_setNullable
  intro u
  rw [of_setNullable ht]
  split <;> exact ⟨rfl, rfl, rfl⟩

/-! ### Justified facts -/

/-- What is known holds of the grammar. -/
structure Justified (g : Grammar) (a : Analysis) : Prop where
  known : Known g a
  closed : a.Closed
  derived_nil : ∀ t, (a.of t).nullable → derived g.rules t []
  opens : ∀ t n, n ∈ (a.of t).firsts → Opens g.rules n [.term t]
  leads : ∀ t c, a.Child t c → g.Leads t c

section walk

variable (hg : g.WellFormed) (ht : t ∈ g.terms.ids)

include hg ht

theorem Justified.addFirsts (h : Justified g a) (htokens : ∀ n, n ∈ tokens → n ∈ g.tokens.ids)
    (hopens : ∀ n, n ∈ tokens → Opens g.rules n [.term t]) :
  Justified g (a.addFirsts t tokens)
  := by
  have hlt := lt_size hg h.known ht
  use known_addFirsts hg h.known ht htokens, h.closed.addFirsts hlt
  · intro u
    rw [of_addFirsts hlt]
    split <;> apply h.derived_nil
  · intro u n hn
    rw [of_addFirsts hlt] at hn
    split at hn
    · next htu =>
      rcases IndexSet.mem_union.mp hn with hn | hn
      · apply h.opens u n hn
      · rw [← htu]
        apply hopens n hn
    · apply h.opens u n hn
  · intro u c
    rw [Child, of_addFirsts hlt]
    split <;> apply h.leads

theorem Justified.setNullable (h : Justified g a) (hnil : derived g.rules t []) :
  Justified g (a.setNullable t)
  := by
  have hlt := lt_size hg h.known ht
  use known_setNullable hg h.known ht, h.closed.setNullable hlt
  · intro u
    rw [of_setNullable hlt]
    split
    · next htu => exact fun _ => htu ▸ hnil
    · apply h.derived_nil
  · intro u n
    rw [of_setNullable hlt]
    split <;> apply h.opens
  · intro u c
    rw [Child, of_setNullable hlt]
    split <;> apply h.leads

theorem Justified.link (h : Justified g a) (hc : c ∈ g.terms.ids) (hleads : g.Leads t c) :
  Justified g (a.link t c)
  := by
  have hlt := lt_size hg h.known ht
  use known_link hg h.known ht hc, h.closed.link hlt (lt_size hg h.known hc)
  · intro u
    rw [nullable_link]
    apply h.derived_nil
  · intro u n
    rw [firsts_link]
    apply h.opens
  · intro u x hx
    rcases (mem_children_link hlt).mp hx with hx | ⟨rfl, rfl⟩
    · apply h.leads u x hx
    · apply hleads

/-- What a walk over the rest of a rule adds to the facts holds of the grammar, if nothing needs to
be read for what comes before; and nothing needs to be read for the whole rule if the end is
reached. -/
theorem justified_walk (h : Justified g a) (hr : g.HasRule t (before ++ items))
    (hbefore : Derives g.rules before []) :
  Justified g (walk t items a).1 ∧ ((walk t items a).2 = true → derived g.rules t [])
  := by
  have hmember {s : Symbol} (hs : s ∈ items) : g.contains s :=
    hg.contains_items hr (List.mem_append_right _ hs)
  have hopens {n : TokenId} (hn : Opens g.rules n items) : Opens g.rules n [.term t] := by
    obtain ⟨r, hr, howner, hitems⟩ := hr
    apply opens_singleton.mpr
    use r, hr, howner
    rw [hitems]
    apply hn.append hbefore rfl
  induction items generalizing a before with
  | nil =>
    use h
    intro _
    rw [List.append_nil] at hr
    apply Grammar.derived_of_hasRule hr (derives_iff_reads.mp hbefore)
  | cons s items ih =>
    have hsplit : before ++ s :: items = (before ++ [s]) ++ items := by simp
    have hrest {s' : Symbol} (hs : s' ∈ items) := hmember (List.mem_cons_of_mem s hs)
    match s with
    | .prompt p =>
      rw [walk]
      rw [hsplit] at hr
      apply ih h hr _ hrest fun hn => hopens (.prompt hn)
      apply derives_append.mpr
      use [], [], rfl, hbefore, .prompt .nil
    | .token n =>
      rw [walk]
      have hn : n ∈ g.tokens.ids := Grammar.contains_iff.mp (hmember List.mem_cons_self)
      have hfirst : ∀ m, m ∈ IndexSet.singleton n → Opens g.rules m [.term t] := by
        intro m hm
        rw [IndexSet.mem_singleton.mp hm]
        apply hopens .token
      use h.addFirsts hg ht (by simpa using hn) hfirst
      simp
    | .term c =>
      have hc : c ∈ g.terms.ids := Grammar.contains_iff.mp (hmember List.mem_cons_self)
      have hleads : g.Leads t c := ⟨_, hr, before, items, rfl, hbefore⟩
      have hfirst : ∀ n, n ∈ a.firstSet c → Opens g.rules n [.term t] := by
        intro n hn
        apply hopens (opens_term.mpr (.inl (opens_singleton.mp (h.opens c n hn))))
      have hlink := (h.link hg ht hc hleads).addFirsts hg ht (h.known.firsts_mem c) hfirst
      rw [walk]
      by_cases hn : ((a.link t c).addFirsts t (a.firstSet c)).nullable c
      · simp only [hn, if_true]
        rw [hsplit] at hr
        have hnil := hlink.derived_nil c hn
        apply ih hlink hr _ hrest fun hn => hopens (opens_term.mpr (.inr ⟨hnil, hn⟩))
        apply derives_append.mpr
        use [], [], rfl, hbefore, hnil
      · simp only [hn, Bool.false_eq_true, if_false]
        use hlink
        simp

theorem justified_learnAll (h : Justified g a) {rules : List Rule}
    (hr : ∀ r ∈ rules, r ∈ g.rulesOf t) :
  Justified g (rules.foldl learn a)
  := by
  induction rules generalizing a with
  | nil => apply h
  | cons r rules ih =>
    apply ih _ fun r hr' => hr r (List.mem_cons_of_mem _ hr')
    obtain ⟨hmem, rfl⟩ := Grammar.mem_rulesOf.mp (hr r List.mem_cons_self)
    have hrule : g.HasRule r.owner ([] ++ r.items) := Grammar.hasRule_of_mem hmem
    obtain ⟨hwalk, hend⟩ := justified_walk hg ht h hrule .nil
    rw [learn]
    generalize walk r.owner r.items a = answer at hwalk hend
    obtain ⟨a₁, done⟩ := answer
    cases done with
    | false => apply hwalk
    | true => apply hwalk.setNullable hg ht (hend rfl)

end walk

/-- What the search finds holds of the grammar. -/
theorem justified_step {s next : Search} (hg : g.WellFormed) (hs : s.Sound g)
    (h : Justified g s.analysis) (hstep : step g s = some next) :
  Justified g next.analysis
  := by
  obtain ⟨⟨t, pending⟩, hpop, rfl⟩ := Option.map_eq_some_iff.mp hstep
  have ht : t ∈ g.terms.ids := hs.pending_mem t (by simp [Queue.toList_of_pop? hpop])
  apply justified_learnAll hg ht h fun _ hr => hr

theorem justified_initial :
  Justified g (initial g).analysis
  := by
  have hof : ∀ u, (initial g).analysis.of u = .unknown := of_unknown g.terms.next
  constructor
  · apply (sound_initial g).known
  · apply closed_unknown
  · intro t
    rw [hof]
    simp [TermFacts.unknown]
  · intro t n
    rw [hof]
    exact fun hn => absurd hn (IndexSet.not_mem_empty n)
  · exact fun t c h => absurd h not_child_unknown

/-- What is found about a grammar holds of it. -/
theorem justified_analyze (hg : g.WellFormed) :
  Justified g g.analyze
  := by
  let motive (s : Search) : Prop := s.Sound g ∧ Justified g s.analysis
  refine (exhaust_induction (motive := motive) ?_ (walks g) ⟨sound_initial g, justified_initial⟩).2
  rintro s next ⟨hs, h⟩ hstep
  exact ⟨sound_step hg hs hstep, justified_step hg hs h hstep⟩

/-! ### What is known is what holds -/

/-- The facts hold of the grammar, and they agree with all of its rules. -/
structure Exact (g : Grammar) (a : Analysis) : Prop where
  justified : Justified g a
  agrees : ∀ t ∈ g.terms.ids, AgreesWith g a t

theorem exact_analyze (hg : g.WellFormed) :
  Exact g g.analyze
  := ⟨justified_analyze hg, (agrees_analyze hg).2⟩

/-- If the facts agree with the rules of all terms, and with the rest of a rule, then the tokens that
open it are known as firsts. -/
theorem firsts_of_agrees {done : Prop} (hnullable : ∀ c, derived g.rules c [] → (a.of c).nullable)
    (hrules : ∀ r ∈ g.rules, Agrees a r.owner ((a.of r.owner).nullable = true) r.items)
    (h : Agrees a t done items) (hn : Opens g.rules n items) :
  n ∈ (a.of t).firsts
  := by
  induction hn generalizing t done with
  | prompt _ ih => apply ih h
  | token => apply h
  | term hr _ ih => apply h.2.1 n (ih (hrules _ hr))
  | skip hr hnil _ ih => apply ih (h.2.2 (hnullable _ (derived_iff.mpr ⟨_, hr, rfl, hnil⟩)))

/-- If the facts agree with the rest of a rule, then the terms that can lead it are known as
children. -/
theorem child_of_agrees {done : Prop} (hnullable : ∀ c, derived g.rules c [] → (a.of c).nullable)
    (h : Agrees a t done items) (hlead : g.CanLead items u) :
  a.Child t u
  := by
  induction items with
  | nil => simp at hlead
  | cons s items ih =>
    match s with
    | .prompt _ => apply ih h (by simpa using hlead)
    | .token _ => simp at hlead
    | .term c =>
      obtain ⟨hc, -, hrest⟩ := h
      obtain rfl | ⟨hnil, hlead⟩ := Grammar.canLead_term.mp hlead
      · apply hc
      · apply ih (hrest (hnullable c hnil)) hlead

namespace Exact

variable (hg : g.WellFormed) (h : Exact g a)

include hg h

/-- A term is known to be nullable exactly if it derives the empty sequence. -/
theorem nullable_iff :
  a.nullable t = true ↔ derived g.rules t []
  := ⟨h.justified.derived_nil t, fun hnil => (begins_of_agreesWith hg h.agrees hnil).1 rfl⟩

theorem agrees_rule {r : Rule} (hr : r ∈ g.rules) :
  Agrees a r.owner ((a.of r.owner).nullable = true) r.items
  := h.agrees r.owner (Grammar.contains_iff.mp (hg.owner_mem r hr)) r
    (Grammar.mem_rulesOf.mpr ⟨hr, rfl⟩)

/-- The firsts of a term are the tokens that open it. -/
theorem firsts_iff :
  n ∈ a.firstSet t ↔ Opens g.rules n [.term t]
  := by
  constructor
  · apply h.justified.opens t n
  · intro hn
    obtain ⟨r, hr, rfl, hopens⟩ := opens_singleton.mp hn
    apply firsts_of_agrees (fun c hc => (h.nullable_iff hg).mpr hc) (fun r hr => h.agrees_rule hg hr)
      (h.agrees_rule hg hr) hopens

/-- The children of a term are the terms that it leads to. -/
theorem child_iff :
  a.Child t c ↔ g.Leads t c
  := by
  constructor
  · apply h.justified.leads t c
  · rintro ⟨_, ⟨r, hr, rfl, rfl⟩, hlead⟩
    apply child_of_agrees (fun c hc => (h.nullable_iff hg).mpr hc) (h.agrees_rule hg hr) hlead

theorem child_eq :
  a.Child = g.Leads
  := by
  funext t c
  apply propext (h.child_iff hg)

/-- A term depends on the terms that it leads to in one step or more. -/
theorem dependsOn_iff :
  a.dependsOn t u = true ↔ Relation.TransGen g.Leads t u
  := by
  rw [dependsOn, decide_eq_true_eq, h.justified.closed.mem_dependents, h.child_eq hg]

/-- There is but one analysis that is exact. -/
theorem unique (h' : Exact g a') :
  a = a'
  := by
  have hchild : a.Child = a'.Child := (h.child_eq hg).trans (h'.child_eq hg).symm
  apply ext_of
  · rw [h.justified.known.size_eq, h'.justified.known.size_eq]
  · intro t
    have hnullable : (a.of t).nullable = (a'.of t).nullable := by
      apply Bool.eq_iff_iff.mpr
      exact (h.nullable_iff hg).trans (h'.nullable_iff hg).symm
    have hfirsts : (a.of t).firsts = (a'.of t).firsts := by
      apply IndexSet.ext_mem
      intro n
      exact (h.firsts_iff hg).trans (h'.firsts_iff hg).symm
    have hchildren : (a.of t).children = (a'.of t).children := by
      apply IndexSet.ext_mem
      intro c
      exact (h.child_iff hg).trans (h'.child_iff hg).symm
    have hdependents : (a.of t).dependents = (a'.of t).dependents := by
      apply IndexSet.ext_mem
      intro u
      rw [h.justified.closed.mem_dependents, h'.justified.closed.mem_dependents, hchild]
    have hancestors : (a.of t).ancestors = (a'.of t).ancestors := by
      apply IndexSet.ext_mem
      intro u
      rw [h.justified.closed.mem_ancestors, h'.justified.closed.mem_ancestors, hchild]
    generalize a.of t = f, a'.of t = f' at hnullable hfirsts hchildren hdependents hancestors ⊢
    cases f
    cases f'
    rw [TermFacts.mk.injEq]
    exact ⟨hnullable, hfirsts, hchildren, hdependents, hancestors⟩

end Exact

theorem nullable_analyze (hg : g.WellFormed) :
  g.analyze.nullable t = true ↔ derived g.rules t []
  := (exact_analyze hg).nullable_iff hg

theorem firsts_analyze (hg : g.WellFormed) :
  n ∈ g.analyze.firstSet t ↔ Opens g.rules n [.term t]
  := (exact_analyze hg).firsts_iff hg

theorem child_analyze (hg : g.WellFormed) :
  g.analyze.Child t c ↔ g.Leads t c
  := (exact_analyze hg).child_iff hg

theorem dependsOn_analyze (hg : g.WellFormed) :
  g.analyze.dependsOn t u = true ↔ Relation.TransGen g.Leads t u
  := (exact_analyze hg).dependsOn_iff hg

/-- The firsts of a sequence are the tokens that open it, and those of the fallback if the sequence
derives the empty one. -/
theorem mem_firstsOf_analyze (hg : g.WellFormed) :
  n ∈ g.analyze.firstsOf tokens items ↔
    Opens g.rules n items ∨ Derives g.rules items [] ∧ n ∈ tokens
  := by
  induction items with
  | nil => simp [firstsOf, Derives.nil]
  | cons s items ih =>
    obtain ⟨kind, id⟩ := s
    cases kind with
    | prompt =>
      have hnil : Derives g.rules (.prompt id :: items) [] ↔ Derives g.rules items [] := by
        constructor
        · rintro (_ | h)
          apply h
        · apply Derives.prompt
      rw [firstsOf, ih, opens_prompt, hnil]
    | token =>
      have hnil : ¬ Derives g.rules (.token id :: items) [] := by rintro ⟨⟩
      simp [firstsOf, firstsOfSymbol, nullableSymbol, hnil, eq_comm]
    | term =>
      rw [firstsOf, IndexSet.mem_union, firstsOfSymbol, firsts_analyze hg, opens_singleton, opens_term,
        Grammar.derives_term_nil, nullableSymbol]
      · by_cases hc : g.analyze.nullable id = true
        · have hnil := (nullable_analyze hg).mp hc
          simp only [hc, if_true, ih, hnil, true_and, or_assoc]
        · have hnil := (nullable_analyze hg).not.mp hc
          simp [hc, hnil]
      · rintro p ⟨⟩

end Analysis

end CanonicalLR
