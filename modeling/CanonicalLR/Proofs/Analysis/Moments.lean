import CanonicalLR.Analysis.Moments
import CanonicalLR.Proofs.Analysis.Sweeps

/-!
# What holds while the rules are walked over

Let children be linked, tokens be added and terms be found nullable, in whatever order
(`Analysis.Gathered`): the dependents are always the transitive closure of the children, and the
ancestors its inverse (`Gathered.closed`).  So this holds at every moment of the sweeps.

When a fact about a term is found while its rules are walked over, its ancestors are dirty at the
moment when the visit ends, which comes before there is no step any more (`exists_marked`).

Symbol by symbol the sweeps come to the same end as visit by visit (`reaches_swept`).
-/

namespace CanonicalLR.Analysis

variable {g : Grammar} {n : Nat} {a a' before : Analysis} {t u : TermId} {id : RuleId} {changed : Bool}
  {items rest : List Symbol} {rights : List (List Symbol)} {rules : List Rule} {s : Flagged}
  {terms : List TermId}

/-! ### Facts in any order -/

/-- Facts about the terms below `n` to which one came from no facts, by links of children, by tokens
and by terms that are nullable, in whatever order. -/
inductive Gathered (n : Nat) : Analysis → Prop
  | unknown : Gathered n ⟨.replicate n .unknown⟩
  | link {a : Analysis} {p c : TermId} : Gathered n a → p < n → c < n → Gathered n (a.link p c)
  | addFirsts {a : Analysis} {t : TermId} {tokens : IndexSet} :
      Gathered n a → t < n → Gathered n (a.addFirsts t tokens)
  | setNullable {a : Analysis} {t : TermId} : Gathered n a → t < n → Gathered n (a.setNullable t)

namespace Gathered

theorem size_eq (h : Gathered n a) :
  a.facts.size = n
  := by
  induction h with
  | unknown => apply Array.size_replicate
  | link _ _ _ ih => rw [size_link, ih]
  | addFirsts _ _ ih => rw [size_addFirsts, ih]
  | setNullable _ _ ih => rw [size_setNullable, ih]

/-- In whatever order facts are gathered, the dependents are the transitive closure of the children,
and the ancestors its inverse. -/
theorem closed (h : Gathered n a) :
  a.Closed
  := by
  induction h with
  | unknown => apply closed_unknown
  | link h hp hc ih =>
    rw [← h.size_eq] at hp hc
    apply ih.link hp hc
  | addFirsts h ht ih =>
    rw [← h.size_eq] at ht
    apply ih.addFirsts ht
  | setNullable h ht ih =>
    rw [← h.size_eq] at ht
    apply ih.setNullable ht

theorem read (h : Gathered n a) (ht : t < n) (hitems : ∀ c, .term c ∈ items → c < n) :
  Gathered n (a.read t items).1
  := by
  match items with
  | [] => exact h.setNullable ht
  | .prompt _ :: _ => exact h
  | .token _ :: _ => exact h.addFirsts ht
  | .term c :: _ => exact (h.link ht (hitems c List.mem_cons_self)).addFirsts ht

end Gathered

/-! ### Reading a symbol -/

/-- What is left to be read is all but the first symbol. -/
theorem eq_cons_of_mem_read (hrest : rest ∈ (a.read t items).2) :
  ∃ x, items = x :: rest
  := by
  match items with
  | [] => cases hrest
  | .token _ :: _ => cases hrest
  | .prompt _ :: _ =>
    cases hrest
    exact ⟨_, rfl⟩
  | .term c :: _ =>
    rw [read, Option.mem_def] at hrest
    split at hrest
    · cases hrest
      exact ⟨_, rfl⟩
    · cases hrest

/-- To read a symbol tells something about the term alone whose rule is walked over. -/
theorem extends_read (hg : g.WellFormed) (ht : t ∈ g.terms.ids) (h : Known g a)
    (hitems : ∀ x ∈ items, g.contains x) :
  Extends g t a (a.read t items).1
  := by
  match items with
  | [] => apply extends_setNullable hg h ht
  | .prompt _ :: _ => apply Extends.refl h
  | .token n :: _ =>
    have hn : n ∈ g.tokens.ids := Grammar.contains_iff.mp (hitems (.token n) List.mem_cons_self)
    apply extends_addFirsts hg h ht
    intro m hm
    rwa [IndexSet.mem_singleton.mp hm]
  | .term c :: _ =>
    have hc : c ∈ g.terms.ids := Grammar.contains_iff.mp (hitems (.term c) List.mem_cons_self)
    apply (extends_child hg ht h hc).1

/-- What is learned from a rule is what its symbols tell one after the other. -/
theorem learn_eq_read :
  learn a ⟨id, t, items⟩ = match a.read t items with
    | (a, none) => a
    | (a, some rest) => learn a ⟨id, t, rest⟩
  := by
  match items with
  | [] => rfl
  | .prompt _ :: _ => rfl
  | .token _ :: _ => rfl
  | .term c :: _ =>
    simp only [learn, walk, read]
    by_cases hc : ((a.link t c).addFirsts t (a.firstSet c)).nullable c = true
    · simp only [if_pos hc]
    · simp only [if_neg hc]

namespace Moment

variable {m m' last : Moment}

/-- The moment `m'` comes after the moment `m`, or it is the same. -/
def Reaches (g : Grammar) : Moment → Moment → Prop :=
  Relation.ReflTransGen fun m m' => m.step g = some m'

theorem Reaches.of_step (hstep : m.step g = some m') (h : Reaches g m' last) :
  Reaches g m last
  := Relation.ReflTransGen.head hstep h

theorem reaches_exhaust (bound : Nat) (m : Moment) :
  Reaches g m (exhaust (step g) bound m)
  := exhaust_induction (motive := Reaches g m) (fun _ _ h hstep => h.tail hstep) bound .refl

theorem step_read :
  (visiting s terms t changed (items :: rights)).step g =
    some (visiting ⟨(s.analysis.read t items).1, s.dirty⟩ terms t
      (changed || decide ((s.analysis.read t items).1 ≠ s.analysis))
      ((s.analysis.read t items).2.toList ++ rights))
  := rfl

/-! ### What holds at every moment -/

/-- What is still to be visited and to be read at a moment are members. -/
def Within (g : Grammar) : Moment → Prop
  | between _ terms => ∀ t ∈ terms, t ∈ g.terms.ids
  | visiting _ terms t _ rights => (∀ u ∈ terms, u ∈ g.terms.ids) ∧ t ∈ g.terms.ids ∧
      ∀ items ∈ rights, ∀ x ∈ items, g.contains x

/-- The facts were gathered, they are known, and what is still to be visited and to be read are
members. -/
structure Sound (g : Grammar) (m : Moment) : Prop where
  gathered : Gathered g.terms.next m.state.analysis
  known : Known g m.state.analysis
  within : m.Within g

theorem sound_first (g : Grammar) :
  (first g).Sound g
  := ⟨.unknown, (Analysis.sound_initial g).known, by rintro t ⟨⟩⟩

section step

variable (hg : g.WellFormed)

include hg

/-- What was still to be read at a moment is still known and gathered once it is read. -/
theorem Sound.read (h : (visiting s terms t changed (items :: rights)).Sound g) :
  Extends g t s.analysis (s.analysis.read t items).1 ∧
    ∀ dirty changed', (visiting ⟨(s.analysis.read t items).1, dirty⟩ terms t changed'
      ((s.analysis.read t items).2.toList ++ rights)).Sound g
  := by
  obtain ⟨hgathered, hknown, hterms, ht, hrights⟩ := h
  have hitems := hrights items List.mem_cons_self
  have hextends := extends_read hg ht hknown hitems
  have hold {c : TermId} (hc : c ∈ g.terms.ids) : c < g.terms.next := (hg.proper .term).ids_old c hc
  use hextends
  intro dirty changed'
  use hgathered.read (hold ht) fun c hc => hold (Grammar.contains_iff.mp (hitems _ hc)),
    hextends.known, hterms, ht
  intro items' hitems' x hx
  rcases List.mem_append.mp hitems' with hitems' | hitems'
  · obtain ⟨y, rfl⟩ := eq_cons_of_mem_read (Option.mem_toList.mp hitems')
    apply hitems x (List.mem_cons_of_mem y hx)
  · apply hrights items' (List.mem_cons_of_mem _ hitems') x hx

theorem Sound.step (h : m.Sound g) (hstep : m.step g = some m') :
  m'.Sound g
  := by
  match m with
  | between s [] =>
    rw [Moment.step] at hstep
    split at hstep
    · cases hstep
    · cases hstep
      use h.gathered, h.known
      intro t ht
      apply (Flagged.mem_pending.mp ht).1
  | between s (t :: terms) =>
    cases hstep
    have ht := h.within t List.mem_cons_self
    use h.gathered, h.known, fun u hu => h.within u (List.mem_cons_of_mem t hu), ht
    intro items hitems
    obtain ⟨r, hr, rfl⟩ := List.mem_map.mp hitems
    apply hg.items_mem r (Grammar.mem_rulesOf.mp hr).1
  | visiting s terms t changed [] =>
    cases hstep
    use h.gathered, h.known, h.within.1
  | visiting s terms t changed (items :: rights) =>
    cases hstep
    apply (h.read hg).2

/-- Every moment of the sweeps is sound. -/
theorem sound_of_reaches (hreach : Reaches g (first g) m) :
  m.Sound g
  := by
  induction hreach with
  | refl => apply sound_first
  | tail _ hstep ih => apply ih.step hg hstep

/-! ### Terms that are marked -/

/-- Only the term whose rules are walked over gets other firsts or gets nullable in a step, and it is
remembered that the facts have changed. -/
theorem exists_changed (h : m.Sound g) (hstep : m.step g = some m')
    (hfound : m'.state.analysis.nullable t ≠ m.state.analysis.nullable t ∨
      m'.state.analysis.firstSet t ≠ m.state.analysis.firstSet t) :
  ∃ s terms rights, m' = visiting s terms t true rights
  := by
  have hne : m'.state.analysis ≠ m.state.analysis := by
    intro he
    rw [he] at hfound
    exact hfound.elim (absurd rfl) (absurd rfl)
  match m with
  | between s [] =>
    rw [Moment.step] at hstep
    split at hstep
    · cases hstep
    · cases hstep
      apply absurd rfl hne
  | between s (u :: terms) =>
    cases hstep
    apply absurd rfl hne
  | visiting s terms u changed [] =>
    cases hstep
    apply absurd rfl hne
  | visiting s terms u changed (items :: rights) =>
    cases hstep
    obtain rfl : t = u := by
      by_contra htu
      obtain ⟨hnullable, hfirsts, -⟩ := (h.read hg).1.frame t htu
      exact hfound.elim (absurd hnullable) (absurd hfirsts)
    replace hne : (s.analysis.read t items).1 ≠ s.analysis := hne
    rw [decide_eq_true hne, Bool.or_true]
    exact ⟨_, terms, _, rfl⟩

/-- If the facts have changed in a visit to a term, then the visit ends before there is no step any
more, and when it ends, all terms from which the term was reached are dirty. -/
theorem exists_marked (h : (visiting s terms t true rights).Sound g)
    (hreach : Reaches g (visiting s terms t true rights) last) (hlast : Stuck (step g) last) :
  ∃ s' terms', Reaches g (visiting s terms t true rights) (between s' terms') ∧
    Reaches g (between s' terms') last ∧
    ∀ u, Relation.TransGen s.analysis.Child u t → s'.dirty u = true
  := by
  generalize hm : visiting s terms t true rights = m at h hreach ⊢
  induction hreach using Relation.ReflTransGen.head_induction_on generalizing s rights with
  | refl =>
    subst hm
    cases rights <;> cases hlast
  | head hstep hreach ih =>
    subst hm
    cases rights with
    | nil =>
      cases hstep
      refine ⟨_, terms, .single rfl, hreach, fun u hu => ?_⟩
      have hmem : u ∈ (s.analysis.of t).ancestors := (h.gathered.closed.mem_ancestors t u).mpr hu
      simp only [Bool.true_and, Bool.or_eq_true, decide_eq_true_eq]
      exact .inl hmem
    | cons items rights =>
      let s₁ : Flagged := ⟨(s.analysis.read t items).1, s.dirty⟩
      have hnext : step g (visiting s terms t true (items :: rights)) =
          some (visiting s₁ terms t true ((s.analysis.read t items).2.toList ++ rights)) := by
        rw [step_read, Bool.true_or]
      obtain rfl := Option.some.inj (hnext.symm.trans hstep)
      obtain ⟨hextends, hsound⟩ := h.read hg
      obtain ⟨s', terms', hmarked, hrest, hdirty⟩ := ih rfl (hsound _ _)
      use s', terms', .of_step hnext hmarked, hrest
      intro u hu
      apply hdirty u (Relation.TransGen.mono (fun _ _ => hextends.child_mono) _ _ hu)

/-! ### The way through a visit -/

/-- The facts `a` have been found in a visit to the term `t` that began with the facts `before`, and it
is remembered whether they are others. -/
structure Told (g : Grammar) (t : TermId) (before a : Analysis) (changed : Bool) : Prop where
  extends_before : Extends g t before a
  changed_iff : changed = true ↔ weight g a t < weight g before t

omit hg in
theorem Told.tell (h : Told g t before a changed) (h' : Extends g t a a') :
  Told g t before a' (changed || decide (a' ≠ a))
  := by
  use h.extends_before.trans h'
  rw [Bool.or_eq_true, h.changed_iff, decide_eq_true_eq]
  rcases h'.eq_or_lt with rfl | hlt
  · simp
  · have hle : weight g a t ≤ weight g before t := by
      rcases h.extends_before.eq_or_lt with rfl | hlt'
      · apply Nat.le_refl
      · apply Nat.le_of_lt hlt'
    have hne : a' ≠ a := by
      rintro rfl
      apply Nat.lt_irrefl _ hlt
    exact iff_of_true (.inr hne) (Nat.lt_of_lt_of_le hlt hle)

omit hg in
/-- It is remembered whether something was found out about the term. -/
theorem Told.changed_eq (h : Told g t before a changed) :
  changed = decide (a.of t ≠ before.of t)
  := by
  rw [Bool.eq_iff_iff, decide_eq_true_eq, h.changed_iff]
  constructor
  · intro hlt he
    rw [weight, weight, he] at hlt
    apply Nat.lt_irrefl _ hlt
  · intro hne
    apply h.extends_before.eq_or_lt.resolve_left
    rintro rfl
    apply hne rfl

/-- A rule is read to the end, or up to a symbol that is not nullable as far as known. -/
theorem reaches_learn (ht : t ∈ g.terms.ids) (hitems : ∀ x ∈ items, g.contains x)
    (htold : Told g t before s.analysis changed) (id : RuleId) :
  ∃ changed', Reaches g (visiting s terms t changed (items :: rights))
      (visiting ⟨learn s.analysis ⟨id, t, items⟩, s.dirty⟩ terms t changed' rights) ∧
    Told g t before (learn s.analysis ⟨id, t, items⟩) changed'
  := by
  induction items generalizing s changed with
  | nil =>
    have hextends := extends_setNullable hg htold.extends_before.known ht
    exact ⟨_, .single step_read, htold.tell hextends⟩
  | cons x items ih =>
    have hextends := extends_read hg ht htold.extends_before.known hitems
    have hnext := @step_read g t changed (x :: items) rights s terms
    rw [learn_eq_read]
    generalize hread : s.analysis.read t (x :: items) = told at hextends hnext
    obtain ⟨a₁, left⟩ := told
    cases left with
    | none => exact ⟨_, .single hnext, htold.tell hextends⟩
    | some rest =>
      obtain ⟨_, he⟩ := eq_cons_of_mem_read (Option.mem_def.mpr (congrArg Prod.snd hread))
      cases he
      obtain ⟨changed', hreach, htold'⟩ := ih (s := ⟨a₁, s.dirty⟩)
        (fun y hy => hitems y (List.mem_cons_of_mem x hy)) (htold.tell hextends)
      exact ⟨changed', .of_step hnext hreach, htold'⟩

/-- The rules of a term are read one after the other. -/
theorem reaches_learnAll (ht : t ∈ g.terms.ids) (hrules : ∀ r ∈ rules, r ∈ g.rulesOf t)
    (htold : Told g t before s.analysis changed) (terms : List TermId) :
  ∃ changed', Reaches g (visiting s terms t changed (rules.map (·.items)))
      (visiting ⟨rules.foldl learn s.analysis, s.dirty⟩ terms t changed' []) ∧
    Told g t before (rules.foldl learn s.analysis) changed'
  := by
  induction rules generalizing s changed with
  | nil => exact ⟨changed, .refl, htold⟩
  | cons r rules ih =>
    obtain ⟨hr, rfl⟩ := Grammar.mem_rulesOf.mp (hrules r List.mem_cons_self)
    obtain ⟨changed₁, hreach₁, htold₁⟩ := reaches_learn hg ht (hg.items_mem r hr) htold r.id
    obtain ⟨changed', hreach, htold'⟩ := ih (s := ⟨learn s.analysis r, s.dirty⟩)
      (fun r' hr' => hrules r' (List.mem_cons_of_mem r hr')) htold₁
    exact ⟨changed', hreach₁.trans hreach, htold'⟩

/-- A visit comes to its end. -/
theorem reaches_visit (ht : t ∈ g.terms.ids) (h : Known g s.analysis) :
  Reaches g (between s (t :: terms)) (between (s.visit g t) terms)
  := by
  have hbegun : Told g t s.analysis s.analysis false := ⟨.refl h, by simp⟩
  obtain ⟨changed, hreach, htold⟩ := reaches_learnAll hg
    (s := ⟨s.analysis, fun u => u != t && s.dirty u⟩) ht (fun _ hr => hr) hbegun terms
  apply Reaches.of_step rfl (hreach.trans (.single _))
  rw [step, htold.changed_eq]
  rfl

/-- The visits of a sweep come to their end, one after the other. -/
theorem reaches_foldl_visit (hterms : ∀ t ∈ terms, t ∈ g.terms.ids) (h : s.Sound g) :
  Reaches g (between s terms) (between (terms.foldl (Flagged.visit g) s) [])
  := by
  induction terms generalizing s with
  | nil => exact .refl
  | cons t terms ih =>
    have ht := hterms t List.mem_cons_self
    apply (reaches_visit hg ht h.justified.known).trans
    apply ih (fun u hu => hterms u (List.mem_cons_of_mem t hu)) (h.visit hg ht)

/-- A sweep comes to its end. -/
theorem reaches_sweep (h : s.Sound g) {next : Flagged} (hsweep : sweep g s = some next) :
  Reaches g (between s []) (between next [])
  := by
  obtain ⟨hpending, rfl⟩ := Flagged.sweep_eq_some_iff.mp hsweep
  have hbegun : step g (between s []) = some (between s (s.pending g)) := by
    rw [step]
    split
    · next hnil => exact absurd hnil hpending
    · rfl
  apply Reaches.of_step hbegun
  apply reaches_foldl_visit hg _ h
  intro t ht
  apply (Flagged.mem_pending.mp ht).1

/-- The last moment is the end of the last sweep. -/
theorem reaches_swept :
  Reaches g (first g) (between g.swept []) ∧ Stuck (step g) (between g.swept [])
  := by
  constructor
  · let motive (s : Flagged) : Prop := s.Sound g ∧ Reaches g (first g) (between s [])
    refine (exhaust_induction (motive := motive) ?_ (sweeps g) ⟨Flagged.sound_initial g, .refl⟩).2
    rintro s next ⟨h, hreach⟩ hsweep
    exact ⟨h.sweep hg hsweep, hreach.trans (reaches_sweep hg h hsweep)⟩
  · have hclean := Flagged.stuck_sweep_iff.mp (stuck_swept hg)
    rw [Stuck, step, hclean]

end step

end Moment

/-- In whatever order children are linked, tokens are added and terms are found nullable, the
dependents of each term are the transitive closure of the children known so far, and the ancestors are
its inverse; so this holds at every moment of the sweeps.  If at some moment another token is found for
a term, or it is found nullable, then before there is no step any more, there is a moment between two
visits at which every term is dirty from which that term was known to be reached, in one step or more.
And a moment without a further step comes, with the facts of the grammar. -/
theorem closed_marked (hg : g.WellFormed) :
  (∀ n a, Gathered n a → a.Closed) ∧
    (∀ m, Moment.Reaches g (.first g) m →
      Gathered g.terms.next m.state.analysis ∧ m.state.analysis.Closed) ∧
    (∀ m m' t last, Moment.Reaches g (.first g) m → m.step g = some m' →
      m'.state.analysis.nullable t ≠ m.state.analysis.nullable t ∨
        m'.state.analysis.firstSet t ≠ m.state.analysis.firstSet t →
      Moment.Reaches g m' last → Stuck (Moment.step g) last →
      ∃ s terms, Moment.Reaches g m' (.between s terms) ∧
        Moment.Reaches g (.between s terms) last ∧
        ∀ u, Relation.TransGen m'.state.analysis.Child u t → s.dirty u = true) ∧
    Moment.Reaches g (.first g) (.between g.swept []) ∧
    Stuck (Moment.step g) (.between g.swept []) ∧ g.swept.analysis = g.analyze
  := by
  obtain ⟨hend, hstuck⟩ := Moment.reaches_swept hg
  refine ⟨fun n a h => h.closed, ?_, ?_, hend, hstuck, analysis_swept hg⟩
  · intro m hreach
    have hsound := Moment.sound_of_reaches hg hreach
    exact ⟨hsound.gathered, hsound.gathered.closed⟩
  · intro m m' t last hreach hstep hfound hlast hstuck
    have hsound := Moment.sound_of_reaches hg hreach
    obtain ⟨s, terms, rights, rfl⟩ := Moment.exists_changed hg hsound hstep hfound
    apply Moment.exists_marked hg (hsound.step hg hstep) hlast hstuck

/-- The moment in the sweeps over the fading grammar at which the first rule of `B` is all read, which
has no symbols. -/
def fadingMoment : Moment :=
  exhaust (Moment.step fading) 11 (.first fading)

/-- The next moment, at which `B` is found nullable. -/
def fadingNext : Moment :=
  (fadingMoment.step fading).getD fadingMoment

/-- When `B` is found nullable, `A`, which begins with it, is not dirty, but then it gets dirty. -/
theorem closed_marked_fading :
  fading.WellFormed ∧ fadingMoment.step fading = some fadingNext ∧
    fadingMoment.state.analysis.nullable 3 = false ∧ fadingNext.state.analysis.nullable 3 = true ∧
    fadingNext.state.analysis.Child 1 3 ∧ fadingNext.state.dirty 1 = false ∧
    ∃ s terms, Moment.Reaches fading fadingNext (.between s terms) ∧ s.dirty 1 = true
  := by
  have hg : fading.WellFormed := Grammar.built_getD_ofProductions.wellFormed
  have hstep : fadingMoment.step fading = some fadingNext := by
    have hnext : (fadingMoment.step fading).isSome = true := by decide +kernel
    obtain ⟨m', hm'⟩ := Option.isSome_iff_exists.mp hnext
    rw [fadingNext, hm', Option.getD_some]
  have hbefore : fadingMoment.state.analysis.nullable 3 = false := by decide +kernel
  have hafter : fadingNext.state.analysis.nullable 3 = true := by decide +kernel
  have hchild : 3 ∈ (fadingNext.state.analysis.of 1).children := by decide +kernel
  have hclean : fadingNext.state.dirty 1 = false := by decide +kernel
  have hstuck : ((exhaust (Moment.step fading) 100 fadingNext).step fading).isNone = true := by
    decide +kernel
  obtain ⟨-, -, hmarked, -⟩ := closed_marked hg
  obtain ⟨s, terms, hreach, -, hdirty⟩ := hmarked fadingMoment fadingNext 3 _
    (Moment.reaches_exhaust 11 _) hstep (.inl (by rw [hbefore, hafter]; simp))
    (Moment.reaches_exhaust 100 fadingNext) (Option.isNone_iff_eq_none.mp hstuck)
  refine ⟨hg, hstep, hbefore, hafter, hchild, hclean, s, terms, hreach, ?_⟩
  apply hdirty 1 (.single hchild)

end CanonicalLR.Analysis
