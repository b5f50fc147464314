import CanonicalLR.Proofs.Analysis.Parents
import CanonicalLR.Proofs.Language.Cycles
import CanonicalLR.Proofs.NormalForm.Proper

/-!
# Expanding a head shortens its cycle

When the leading terms of the left recursive rules of a head are expanded, the head leads, instead of
to the terms from which it is reached, to what these lead to (`leads_expandHead_iff`).  This is so if no
left recursive rule of the head begins with a term that derives the empty sequence (`SolidHead`): the
term that such a rule begins with is then the only one that can lead it.

Each cycle through the head is thus made one term shorter, and no other cycle appears, so the cycle that
is found still begins with the head, and it is one term shorter (`length_leftRecursion_expandHead`).
-/

namespace CanonicalLR.Grammar

open Relation

variable {g : Grammar} {head t u v : TermId} {items right : List Symbol} {w : List TokenId}

/-! ### Left recursive rules -/

/-- In any number of steps, the sequence is rewritten to one that begins with the head. -/
def Returns (g : Grammar) (head : TermId) (items : List Symbol) : Prop :=
  ∃ items', ReflTransGen g.Rewrites items items' ∧ BeginsWith items' head

/-- A sequence can return to the head if it can be led by a term from which the head is reached. -/
theorem returns_iff :
  g.Returns head items ↔ ∃ u, g.CanLead items u ∧ ReflTransGen g.Leads u head
  := by
  constructor
  · rintro ⟨items', hmany, hb⟩
    apply exists_canLead_of_rewritesMany hmany hb
  · rintro ⟨u, ⟨before, after, rfl, hbefore⟩, hreach⟩
    obtain ⟨prompts, hp, hmany⟩ := exists_prompts_of_derives hbefore rfl
    have hmany := rewritesMany_append hmany [] (.term u :: after)
    induction hreach with
    | refl => exact ⟨_, hmany, prompts, after, hp, rfl⟩
    | tail _ hleads ih =>
      obtain ⟨items', hmany, hb⟩ := ih
      obtain ⟨items'', hstep, hb⟩ := exists_rewrites_of_leads hb hleads
      exact ⟨items'', hmany.trans hstep.to_reflTransGen, hb⟩

/-- The rules that are expanded are those by which the head returns to itself. -/
theorem canBeginWith_iff_returns (hg : g.WellFormed) :
  canBeginWith g.analyze head items = true ↔ g.Returns head items
  := by
  rw [canBeginWith_analyze hg, returns_iff]

/-- No rule by which the head returns to itself begins with a term that derives the empty sequence. -/
def SolidHead (g : Grammar) (head : TermId) : Prop :=
  ∀ items t, g.HasRule head items → g.Returns head items → BeginsWith items t →
    ¬ derived g.rules t []

/-- A rule by which a solid head returns to itself can be led only by the term that it begins with. -/
theorem SolidHead.exists_leading (hsolid : g.SolidHead head) (hr : g.HasRule head items)
    (h : g.Returns head items) :
  ∃ t prompts rest, (∀ s ∈ prompts, s.isPrompt) ∧ items = prompts ++ .term t :: rest ∧
    ¬ derived g.rules t [] ∧ ReflTransGen g.Leads t head ∧ ∀ u, g.CanLead items u → u = t
  := by
  obtain ⟨u, hu, hreach⟩ := returns_iff.mp h
  cases hs : leading? items with
  | none =>
    obtain ⟨before, after, rfl, -⟩ := hu
    have := leading?_eq_none_iff.mp hs (.term u) (by simp)
    simp [Symbol.isPrompt] at this
  | some s =>
    have hnil (t : TermId) (ht : s = .term t) : ¬ derived g.rules t [] :=
      hsolid items t hr h (beginsWith_iff.mpr (ht ▸ hs))
    obtain rfl := eq_of_canLead hs hnil hu
    obtain ⟨-, prompts, rest, hp, hitems⟩ := leading?_eq_some_iff.mp hs
    refine ⟨u, prompts, rest, hp, hitems, hnil u rfl, hreach, ?_⟩
    intro v hv
    simpa using (eq_of_canLead hs hnil hv).symm

/-! ### The expanded head -/

/-- A solid head keeps the rules by which it does not return to itself, and in each of the others the
term that it begins with is replaced by the right sides of this term. -/
theorem SolidHead.hasRule_expandHead_iff (hg : g.WellFormed) (hsolid : g.SolidHead head) :
  (g.expandHead g.analyze head).HasRule head items ↔
    g.HasRule head items ∧ ¬ g.Returns head items ∨
    ∃ t prompts middle rest, (∀ s ∈ prompts, s.isPrompt) ∧
      g.HasRule head (prompts ++ .term t :: rest) ∧ ReflTransGen g.Leads t head ∧
      g.HasRule t middle ∧ items = prompts ++ middle ++ rest
  := by
  simp only [hasRule_expandHead, ne_eq, not_true_eq_false, false_and, false_or, true_and]
  constructor
  · rintro ⟨right, hr, hitems⟩
    split at hitems
    · next hreturns =>
      obtain ⟨t, prompts, rest, hp, rfl, -, hreach, -⟩ :=
        hsolid.exists_leading hr ((canBeginWith_iff_returns hg).mp hreturns)
      obtain ⟨middle, hmiddle, rfl⟩ := (mem_expandLeading_prompts hp).mp hitems
      right
      use t, prompts, middle, rest
    · next hreturns =>
      obtain rfl := List.mem_singleton.mp hitems
      left
      use hr, mt (canBeginWith_iff_returns hg).mpr hreturns
  · rintro (⟨hr, hreturns⟩ | ⟨t, prompts, middle, rest, hp, hr, hreach, hmiddle, rfl⟩)
    · use items, hr
      rw [if_neg (mt (canBeginWith_iff_returns hg).mp hreturns), List.mem_singleton]
    · use prompts ++ .term t :: rest, hr
      have hlead : g.CanLead (prompts ++ .term t :: rest) t :=
        canLead_of_beginsWith ⟨prompts, rest, hp, rfl⟩
      rw [if_pos ((canBeginWith_iff_returns hg).mpr (returns_iff.mpr ⟨t, hlead, hreach⟩))]
      apply (mem_expandLeading_prompts hp).mpr ⟨middle, hmiddle, rfl⟩

/-- If a term does not lead to itself, no right side of it begins with it. -/
theorem afterHead?_eq_none (hself : ¬ g.Leads head head) (hr : g.HasRule head right) :
  afterHead? head right = none
  := by
  rw [← Option.not_isSome_iff_eq_none, afterHead?_isSome_iff, ← beginsWith_iff]
  intro hb
  apply hself (leads_of_beginsWith hr hb)

section expandHead

variable (hself : ¬ g.Leads head head)

include hself

/-- The same terms can lead a sequence after the head was expanded. -/
theorem canLead_expandHead {a : Analysis} :
  (g.expandHead a head).CanLead items u ↔ g.CanLead items u
  := by
  have hderived : derived (g.expandHead a head).rules = derived g.rules := by
    funext t w
    apply propext (derived_expand fun _ => afterHead?_eq_none hself)
  simp only [CanLead, derives_iff_reads, hderived]

/-- A solid head that does not lead to itself leads, when it is expanded, to what the terms lead to from
which it is reached, instead of to these. -/
theorem leads_expandHead_iff (hg : g.WellFormed) (hsolid : g.SolidHead head) :
  (g.expandHead g.analyze head).Leads u v ↔ Contracted g.Leads head u v
  := by
  by_cases hu : u = head
  · subst hu
    simp only [Leads, hsolid.hasRule_expandHead_iff hg, canLead_expandHead hself, Contracted, ne_eq,
      not_true_eq_false, false_and, false_or, true_and]
    constructor
    · rintro ⟨items, ⟨hr, hreturns⟩ | ⟨t, prompts, middle, rest, hp, hr, hreach, hmiddle, rfl⟩, hv⟩
      · left
        use ⟨items, hr, hv⟩
        intro hreach
        apply hreturns (returns_iff.mpr ⟨v, hv, hreach⟩)
      · right
        have hb : BeginsWith (prompts ++ .term t :: rest) t := ⟨prompts, rest, hp, rfl⟩
        refine ⟨t, leads_of_beginsWith hr hb, hreach, middle, hmiddle, ?_⟩
        rw [List.append_assoc, canLead_prompts_append hp, canLead_append] at hv
        apply hv.resolve_right
        rintro ⟨hnil, -⟩
        apply hsolid _ t hr (returns_iff.mpr ⟨t, canLead_of_beginsWith hb, hreach⟩) hb
        apply derived_of_hasRule hmiddle (derives_iff_reads.mp hnil)
    · rintro (⟨⟨items, hr, hv⟩, hnot⟩ | ⟨x, ⟨items, hr, hx⟩, hreach, middle, hmiddle, hv⟩)
      · refine ⟨items, .inl ⟨hr, fun hreturns => ?_⟩, hv⟩
        obtain ⟨t, -, -, -, -, -, hreach, honly⟩ := hsolid.exists_leading hr hreturns
        apply hnot (honly v hv ▸ hreach)
      · obtain ⟨t, prompts, rest, hp, rfl, -, -, honly⟩ :=
          hsolid.exists_leading hr (returns_iff.mpr ⟨x, hx, hreach⟩)
        obtain rfl := honly x hx
        refine ⟨_, .inr ⟨x, prompts, middle, rest, hp, hr, hreach, hmiddle, rfl⟩, ?_⟩
        rw [List.append_assoc, canLead_prompts_append hp, canLead_append]
        left
        apply hv
  · simp [Leads, hasRule_expandHead, canLead_expandHead hself, Contracted, hu]

end expandHead

/-! ### The cycle that is found -/

variable {path : List TermId}

/-- The cycle that is found goes through different terms, and none through the head is shorter. -/
theorem cycle_of_leftRecursion_eq_cons (hg : g.WellFormed)
    (h : g.analyze.leftRecursion = head :: path) :
  (∀ u ∈ path, u ≠ head) ∧ g.Cycle head path ∧
    ∀ path', g.Cycle head path' → path.length ≤ path'.length
  := by
  have hhead := (Analysis.leftRecursive_of_leftRecursion_eq_cons hg h).1
  have hclosed := (Analysis.justified_analyze hg).closed
  obtain ⟨hnodup, hcycle⟩ := Analysis.cycle_cycleThrough hg hhead
    (Analysis.first_of_leftRecursion_eq_cons hclosed h).2
  refine ⟨?_, hcycle⟩
  rintro u hu rfl
  apply (List.nodup_cons.mp hnodup).1 hu

/-- If the cycle that is found has two terms or more, then its head does not lead to itself. -/
theorem not_leads_head (hg : g.WellFormed) (h : g.analyze.leftRecursion = head :: path)
    (hlength : 2 ≤ (head :: path).length) :
  ¬ g.Leads head head
  := by
  intro hself
  have hle := (cycle_of_leftRecursion_eq_cons hg h).2.2 [] (List.isChain_pair.mpr hself)
  simp only [List.length_cons, List.length_nil] at hlength hle
  omega

/-- Let a grammar that is built have left recursion, and let the cycle that is found have two terms or
more.  If no rule by which its head returns to itself begins with a term that derives the empty sequence,
then after the head was expanded the cycle that is found begins with the same head and is one term
shorter, and no term depends on a term on which it did not depend before. -/
theorem length_leftRecursion_expandHead (hg : g.Built) (h : g.analyze.leftRecursion = head :: path)
    (hlength : 2 ≤ (head :: path).length) (hsolid : g.SolidHead head) :
  (∃ path', (g.expandHead g.analyze head).analyze.leftRecursion = head :: path' ∧
      (head :: path').length + 1 = (head :: path).length) ∧
    ∀ t u, (g.expandHead g.analyze head).analyze.dependsOn t u = true →
      g.analyze.dependsOn t u = true
  := by
  have hg := hg.wellFormed
  have hself := not_leads_head hg h hlength
  have hfirst := (Analysis.leftRecursive_of_leftRecursion_eq_cons hg h).2
  obtain ⟨hne, hcycle, hmin⟩ := cycle_of_leftRecursion_eq_cons hg h
  have hg' := (keeps_expandHead (a := g.analyze) hg fun _ => afterHead?_eq_none hself).wellFormed
  have hleads : (g.expandHead g.analyze head).Leads = Contracted g.Leads head := by
    funext u v
    apply propext (leads_expandHead_iff hself hg hsolid)
  have hback {t u : TermId} (h : TransGen (g.expandHead g.analyze head).Leads t u) :
      TransGen g.Leads t u := transGen_of_contracted (hleads ▸ h)
  constructor
  · obtain ⟨x, as, rfl⟩ := List.exists_cons_of_length_pos (Nat.lt_of_succ_lt_succ hlength)
    have hcycle' : (g.expandHead g.analyze head).Cycle head as := by
      rw [Cycle, hleads]
      apply isChain_contracted (fun u hu => hne u (List.mem_cons_of_mem _ hu)) hcycle
    have hhead' := leftRecursive_iff.mpr (transGen_of_isChain hcycle')
    cases hfound : (g.expandHead g.analyze head).analyze.leftRecursion with
    | nil => apply absurd hhead' ((Analysis.leftRecursion_eq_nil_iff hg').mp hfound head)
    | cons head' path' =>
      obtain ⟨hrec, hfirst'⟩ := Analysis.leftRecursive_of_leftRecursion_eq_cons hg' hfound
      obtain rfl : head' = head := by
        apply Nat.le_antisymm (hfirst' head hhead')
        apply hfirst head' (leftRecursive_iff.mpr (hback (leftRecursive_iff.mp hrec)))
      obtain ⟨hne', hfound', hmin'⟩ := cycle_of_leftRecursion_eq_cons hg' hfound
      rw [Cycle, hleads] at hfound'
      obtain ⟨y, hlonger⟩ := exists_isChain_of_contracted hne' hfound'
      have hle := hmin' as hcycle'
      have hge := hmin (y :: path') hlonger
      use path', rfl
      simp only [List.length_cons] at hge ⊢
      omega
  · intro t u
    rw [Analysis.dependsOn_analyze hg, Analysis.dependsOn_analyze hg']
    apply hback

/-- A grammar in which the second term returns to itself by two of its rules, on different ways that
both go behind a nullable term. -/
def roundabout : Grammar :=
  ((ofProductions "S" [⟨"S", [⟨.term, "A"⟩, ⟨.token, "s"⟩]⟩,
    ⟨"A", [⟨.prompt, "p"⟩, ⟨.term, "B"⟩, ⟨.token, "a"⟩]⟩, ⟨"A", [⟨.term, "D"⟩, ⟨.token, "e"⟩]⟩,
    ⟨"A", [⟨.token, "x"⟩]⟩, ⟨"B", [⟨.term, "N"⟩, ⟨.term, "C"⟩, ⟨.token, "b"⟩]⟩, ⟨"B", [⟨.token, "y"⟩]⟩,
    ⟨"C", [⟨.term, "A"⟩, ⟨.token, "c"⟩]⟩, ⟨"D", [⟨.term, "B"⟩, ⟨.token, "d"⟩]⟩,
    ⟨"N", []⟩]).toOption).getD .empty

/-- In the roundabout, the cycle of three terms that is found becomes one of two. -/
theorem length_leftRecursion_expandHead_roundabout :
  roundabout.Built ∧ roundabout.analyze.leftRecursion = [1, 2, 5] ∧ roundabout.SolidHead 1 ∧
    (∃ path, (roundabout.expandHead roundabout.analyze 1).analyze.leftRecursion = 1 :: path ∧
      (1 :: path).length = 2) ∧
    ∀ t u, (roundabout.expandHead roundabout.analyze 1).analyze.dependsOn t u = true →
      roundabout.analyze.dependsOn t u = true
  := by
  have hbuilt : roundabout.Built := built_getD_ofProductions
  have hfound : roundabout.analyze.leftRecursion = [1, 2, 5] := by decide +kernel
  have hleading : ∀ r ∈ roundabout.rules, r.owner = 1 → ∀ s ∈ leading? r.items, s.kind = .term →
      roundabout.analyze.nullable s.id = false := by decide +kernel
  have hsolid : roundabout.SolidHead 1 := by
    rintro _ t ⟨r, hr, howner, rfl⟩ - hb hnil
    have hfalse := hleading r hr howner _ (beginsWith_iff.mp hb) rfl
    rw [(Analysis.nullable_analyze hbuilt.wellFormed).mpr hnil] at hfalse
    cases hfalse
  obtain ⟨⟨path, hpath, hlength⟩, hdepends⟩ :=
    length_leftRecursion_expandHead hbuilt hfound (by decide) hsolid
  use hbuilt, hfound, hsolid, ⟨path, hpath, Nat.succ.inj hlength⟩, hdepends

end CanonicalLR.Grammar
