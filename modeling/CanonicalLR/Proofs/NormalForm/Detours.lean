import CanonicalLR.Proofs.NormalForm.Paull

/-!
# Detours

A cycle that does not go through the first of the terms that are reached from each other is a
*detour* (`Detour`).  The elimination only changes the rules of the first term, as long as this is
left recursive.  So a detour stays, and the first term keeps a rule that leads into it
(`Persists.step`).  Then it stays left recursive, and the elimination does not come to an end
(`Detour.eliminate_ne_ok`).

A proper grammar without detours is brought into normal form before the limit of steps is reached;
with a detour the elimination goes on without end, and the limit is what stops it.  A head can be
split whether or not there are detours (`normalize_eq_ok_iff`).
-/

namespace CanonicalLR.Grammar

open Relation

variable {g₀ g g' : Grammar} {head first t u z : TermId} {items : List Symbol}

/-! ### Detours -/

/-- The term `first` is the first of those that are reached from it and from which it is reached, `t`
is one of these, and a cycle leads from `t` to itself without going through `first`. -/
structure Detour (g : Grammar) (first t : TermId) : Prop where
  least : ∀ u, TransGen g.Leads first u → TransGen g.Leads u first → first ≤ u
  out : TransGen g.Leads first t
  back : TransGen g.Leads t first
  cycle : TransGen (Avoiding g.Leads first) t t

theorem cyclesMeetFirst_iff :
  g.CyclesMeetFirst ↔ ∀ first t, ¬ g.Detour first t
  := by
  constructor
  · rintro hmeet first t ⟨hleast, hout, hback, hcycle⟩
    apply hmeet first t hleast hout hback hcycle
  · intro hnone first t hleast hout hback hcycle
    apply hnone first t ⟨hleast, hout, hback, hcycle⟩

/-- The term `z` is reached from `first`, and `t` from `z` without going through `first`. -/
def Enters (g : Grammar) (first t z : TermId) : Prop :=
  TransGen g.Leads first z ∧ TransGen (Avoiding g.Leads first) z t

theorem Enters.ne (h : g.Enters first t z) :
  z ≠ first
  := by
  obtain ⟨_, ⟨-, hne⟩, -⟩ := TransGen.head'_iff.mp h.2
  apply hne

namespace Detour

variable (h : g.Detour first t)

include h

theorem back_of_enters (hz : g.Enters first t z) :
  TransGen g.Leads z first
  := (transGen_of_avoiding hz.2).trans h.back

/-- The first term leads to a term that enters the detour. -/
theorem exists_enters :
  ∃ z, g.Leads first z ∧ g.Enters first t z
  := by
  obtain ⟨z, hz, hmany⟩ := exists_avoiding_of_transGen h.out
  exact ⟨z, hz, .single hz, TransGen.trans_right hmany h.cycle⟩

/-- A term that enters the detour leads to another one that does. -/
theorem exists_next (hz : g.Enters first t z) :
  ∃ z', g.Leads z z' ∧ g.Enters first t z'
  := by
  obtain ⟨z', ⟨hz', -⟩, hmany⟩ := TransGen.head'_iff.mp hz.2
  exact ⟨z', hz', hz.1.tail hz', TransGen.trans_right hmany h.cycle⟩

end Detour

/-! ### Detours stay -/

/-- The terms that are reached from `first` and from which it is reached have in `g` the right sides
that they have in `g₀`, and a right side of `first` begins with a term that enters the detour. -/
structure Persists (g₀ : Grammar) (first t : TermId) (g : Grammar) : Prop where
  wellFormed : g.WellFormed
  kept : ∀ u items, u ≠ first → TransGen g₀.Leads first u → TransGen g₀.Leads u first →
    g₀.HasRule u items → g.HasRule u items
  entry : ∃ items z, g.HasRule first items ∧ leading? items = some (.term z) ∧ g₀.Enters first t z

/-- The detour stays when the right sides of a term are changed that does not come after the first,
if the first has a right side again that leads into it. -/
theorem Persists.of_step (hd : g₀.Detour first t) (h : g₀.Persists first t g)
    (hg' : g'.WellFormed) (hhead : head ≤ first)
    (hkept : ∀ u items, u ≠ head → g.HasRule u items → g'.HasRule u items)
    (hentry : head = first → ∃ items z, g'.HasRule first items ∧ leading? items = some (.term z) ∧
      g₀.Enters first t z) :
  g₀.Persists first t g'
  := by
  use hg'
  · intro u items hne hout hback hr
    apply hkept u items _ (h.kept u items hne hout hback hr)
    rintro rfl
    apply hne (Nat.le_antisymm hhead (hd.least u hout hback))
  · by_cases he : head = first
    · apply hentry he
    · obtain ⟨items, z, hr, hitems, hz⟩ := h.entry
      use items, z, hkept first items (Ne.symm he) hr

theorem Persists.tidyRules (hp : g₀.Proper) (h : g₀.Persists first t g) :
  g₀.Persists first t g.tidyRules
  := by
  use h.wellFormed.tidyRules
  · intro u items hne hout hback hr
    apply (hasRule_tidyRules (h.kept u items hne hout hback hr)).resolve_right
    apply hp.not_alone u items (.single (rewrites_singleton_iff.mpr hr))
  · obtain ⟨items, z, hr, hitems, hz⟩ := h.entry
    use items, z
    constructor
    · apply (hasRule_tidyRules hr).resolve_right
      intro he
      rw [leading?, ← List.head?_filter, he, List.head?_cons] at hitems
      obtain rfl : first = z := by simpa using hitems
      apply hz.ne rfl
    · use hitems

/-- The detour stays when the first term is split. -/
theorem Persists.splitHead (hd : g₀.Detour first t) (h : g₀.Persists first t g)
    (hhead : head ≤ first) (hstep : g.splitHead head = some g') :
  g₀.Persists first t g'
  := by
  obtain ⟨tail, -, hrules⟩ := exists_hasRule_of_splitHead h.wellFormed hstep
  apply h.of_step hd (keeps_splitHead h.wellFormed hstep).wellFormed hhead
  · exact fun u items hne hr => (hrules u items).mpr (.kept hne hr)
  · rintro rfl
    obtain ⟨items, z, hr, hitems, hz⟩ := h.entry
    have hnone : afterHead? head items = none := by
      rw [← Option.not_isSome_iff_eq_none, afterHead?_isSome_iff, hitems]
      simpa using hz.ne
    use items ++ [.term tail], z, (hrules _ _).mpr (.enter hr hnone)
    rw [leading?_append, hitems, Option.some_or]
    use rfl

section persists

variable (hg : g₀.WellFormed) (hp : g₀.Proper)

include hg hp

/-- What is reached from the first term, and from which it is reached, still reaches it. -/
theorem Persists.transGen (h : g₀.Persists first t g) (hout : TransGen g₀.Leads first u)
    (hback : TransGen g₀.Leads u first) :
  u ≠ first → TransGen g.Leads u first
  := by
  have hlead {u v : TermId} (hne : u ≠ first) (hout : TransGen g₀.Leads first u)
      (hback : TransGen g₀.Leads u first) (hstep : g₀.Leads u v) : g.Leads u v := by
    obtain ⟨items, hr, hitems, -⟩ := (Tailed.refl hg).exists_of_leads hg hp hstep
    apply leads_of_beginsWith (h.kept u items hne hout hback hr) (beginsWith_iff.mpr hitems)
  induction hback using TransGen.head_induction_on with
  | single hstep =>
    intro hne
    apply TransGen.single (hlead hne hout (.single hstep) hstep)
  | @head u v hstep hback ih =>
    intro hne
    have hfirst := hlead hne hout (.head hstep hback) hstep
    by_cases hv : v = first
    · apply TransGen.single (hv ▸ hfirst)
    · apply TransGen.head hfirst (ih (hout.tail hstep) hv)

variable (hd : g₀.Detour first t)

include hd

theorem Detour.persists :
  g₀.Persists first t g₀
  := by
  obtain ⟨z, hlead, hz⟩ := hd.exists_enters
  obtain ⟨items, hr, hitems, -⟩ := (Tailed.refl hg).exists_of_leads hg hp hlead
  use hg
  · exact fun _ _ _ _ _ => id
  · use items, z

/-- As long as the detour stays, the first term is left recursive. -/
theorem Persists.leftRecursive (h : g₀.Persists first t g) :
  g.LeftRecursive first
  := by
  obtain ⟨items, z, hr, hitems, hz⟩ := h.entry
  apply leftRecursive_iff.mpr
  apply TransGen.head (leads_of_beginsWith hr (beginsWith_iff.mpr hitems))
  apply h.transGen hg hp hz.1 (hd.back_of_enters hz) hz.ne

/-- The detour stays when the first term is expanded: the term that enters the detour is replaced by
one that it leads to. -/
theorem Persists.expandHead (h : g₀.Persists first t g) (hhead : head ≤ first)
    (hnone : ∀ right, g.HasRule head right → afterHead? head right = none) :
  g₀.Persists first t (g.expandHead g.analyze head)
  := by
  apply h.of_step hd (keeps_expandHead h.wellFormed hnone).wellFormed hhead
  · exact fun u items hne hr => hasRule_expandHead.mpr (.inl ⟨hne, hr⟩)
  · rintro rfl
    obtain ⟨items, z, hr, hitems, hz⟩ := h.entry
    have hback := h.transGen hg hp hz.1 (hd.back_of_enters hz) hz.ne
    have hbegin : canBeginWith g.analyze head items = true := by
      apply (canBeginWith_analyze h.wellFormed).mpr
      exact ⟨z, canLead_of_beginsWith (beginsWith_iff.mpr hitems), hback.to_reflTransGen⟩
    obtain ⟨z', hlead, hz'⟩ := hd.exists_next hz
    obtain ⟨middle, hmiddle, hmiddle', -⟩ := (Tailed.refl hg).exists_of_leads hg hp hlead
    obtain ⟨-, prompts, rest, hprompts, rfl⟩ := leading?_eq_some_iff.mp hitems
    use prompts ++ middle ++ rest, z'
    constructor
    · apply hasRule_expandHead.mpr
      refine .inr ⟨rfl, _, hr, ?_⟩
      rw [if_pos hbegin, mem_expandLeading_prompts hprompts]
      exact ⟨middle, h.kept z middle hz.ne hz.1 (hd.back_of_enters hz) hmiddle, rfl⟩
    · rw [List.append_assoc, leading?_prompts_append hprompts, leading?_append, hmiddle',
        Option.some_or]
      use rfl

/-- Every step of the elimination keeps the detour. -/
theorem Persists.step {path : List TermId} (h : g₀.Persists first t g)
    (hhead : g.analyze.leftRecursion = head :: path)
    (hstep : g.eliminationStep g.analyze head = some g') :
  g₀.Persists first t g'.tidyRules
  := by
  have hle := (Analysis.leftRecursive_of_leftRecursion_eq_cons h.wellFormed hhead).2 first
    (h.leftRecursive hg hp hd)
  apply Persists.tidyRules hp
  rcases eliminationStep_cases hstep with hsplit | ⟨hnone, rfl⟩
  · apply h.splitHead hd hle hsplit
  · apply h.expandHead hg hp hd hle hnone

/-- The elimination does not come to an end, in however many steps, if there is a detour. -/
theorem Detour.eliminate_ne_ok {steps : Nat} :
  g₀.eliminate steps ≠ .ok g
  := by
  intro he
  obtain ⟨h, hnil⟩ := eliminate_induction (motive := g₀.Persists first t)
    (fun h head path h' hpersists hhead hstep => hpersists.step hg hp hd hhead hstep)
    (hd.persists hg hp) he
  apply (Analysis.leftRecursion_eq_nil_iff h.wellFormed).mp hnil first (h.leftRecursive hg hp hd)

end persists

/-! ### Runs of the elimination -/

/-- The grammar `h` comes from `g` by steps of the elimination. -/
def EliminatesTo (g h : Grammar) : Prop :=
  ReflTransGen (fun h h' => ∃ head path g', h.analyze.leftRecursion = head :: path ∧
    h.eliminationStep h.analyze head = some g' ∧ g'.tidyRules = h') g h

/-- Whatever the elimination of a proper grammar comes to, the next head can be split or expanded. -/
theorem EliminatesTo.isSome_eliminationStep {h : Grammar} {path : List TermId} (hg : g.WellFormed)
    (hp : g.Proper) (hto : g.EliminatesTo h) (hhead : h.analyze.leftRecursion = head :: path) :
  (h.eliminationStep h.analyze head).isSome
  := by
  have hkeeps : Tailed g h ∧ Untouched g h := by
    clear hhead
    induction hto with
    | refl => exact ⟨.refl hg, .refl g⟩
    | tail _ hstep ih =>
      obtain ⟨head, path, g', hhead, hsome, rfl⟩ := hstep
      obtain ⟨g₁, hsome₁, htailed, huntouched, -⟩ := ih.1.exists_step hg hp ih.2 hhead
      obtain rfl := Option.some.inj (hsome₁.symm.trans hsome)
      exact ⟨htailed, huntouched⟩
  obtain ⟨g', hsome, -⟩ := hkeeps.1.exists_step hg hp hkeeps.2 hhead
  apply Option.isSome_of_eq_some hsome

/-! ### Success of the elimination -/

/-- The limit of steps is not reached if no more steps are left than the terms account for. -/
theorem stepsLeft_le_stepLimit :
  stepsLeft g g ≤ g.stepLimit
  := by
  have hle : stepsLeft g g ≤ 2 * g.terms.ids.countP g.analyze.isLeftRecursive + 1 := stepsLeft_le
  have hcount : g.terms.ids.countP g.analyze.isLeftRecursive ≤ g.terms.size := by
    apply List.countP_le_length.trans_eq
    simp [SymbolTable.ids, SymbolTable.size]
  rw [stepLimit]
  omega

/-- If the elimination of a proper grammar comes to an end, in however many steps, then its cycles go
through their first terms. -/
theorem cyclesMeetFirst_of_eliminate {steps : Nat} {n : Grammar} (hg : g.WellFormed) (hp : g.Proper)
    (he : g.eliminate steps = .ok n) :
  g.CyclesMeetFirst
  := by
  rw [cyclesMeetFirst_iff]
  intro first t hd
  apply hd.eliminate_ne_ok hg hp he

/-- A proper grammar is rid of left recursion exactly if its cycles go through their first terms. -/
theorem eliminateLeftRecursion_eq_ok_iff (hg : g.WellFormed) (hp : g.Proper) :
  (∃ n, g.eliminateLeftRecursion = .ok n) ↔ g.CyclesMeetFirst
  := by
  constructor
  · rintro ⟨n, hn⟩
    apply cyclesMeetFirst_of_eliminate hg hp hn
  · intro hmeet
    apply (Tailed.refl hg).exists_eliminate_eq_ok hg hp (.refl g) hmeet stepsLeft_le_stepLimit

/-- Tidying the rules of a proper grammar makes no difference to what leads to what. -/
theorem Proper.leads_tidyRules (hp : g.Proper) :
  g.tidyRules.Leads = g.Leads
  := by
  funext t u
  apply propext
  simp only [Leads, CanLead, hp.hasRule_tidyRules_iff, derives_iff_reads]
  have hderived : derived g.tidyRules.rules = derived g.rules := by
    funext t w
    apply propext derived_tidyRules
  rw [hderived]

/-- Tidying the rules of a proper grammar makes no difference to its detours. -/
theorem Proper.cyclesMeetFirst_tidyRules_iff (hp : g.Proper) :
  g.tidyRules.CyclesMeetFirst ↔ g.CyclesMeetFirst
  := by
  rw [CyclesMeetFirst, CyclesMeetFirst, hp.leads_tidyRules]

theorem exists_normalize_eq_ok_iff (hg : g.WellFormed) (hp : g.Proper) :
  (∃ n, g.normalize false = .ok n) ↔ g.CyclesMeetFirst
  := by
  rw [← hp.cyclesMeetFirst_tidyRules_iff,
    ← eliminateLeftRecursion_eq_ok_iff hg.tidyRules hp.tidyRules]
  constructor
  · rintro ⟨n, hn⟩
    obtain ⟨e, he, -⟩ := exists_of_map_eq_ok hn
    use e, he
  · rintro ⟨e, he⟩
    use e.removeUnreachable
    rw [normalize, mergeIf, if_neg Bool.false_ne_true, he]
    rfl

/-- A proper grammar is brought into normal form, if no merging is asked for, exactly if among the
terms that are reached from each other every cycle goes through the first; if some cycle does not,
then the elimination goes on without end, and no number of steps brings it to a grammar without left
recursion.  In either case, a head that is split is never without a right side that does not begin
with it. -/
theorem normalize_eq_ok_iff (hg : g.Built) (hp : g.Proper) :
  (∀ h, g.tidyRules.EliminatesTo h → ∀ head path, h.analyze.leftRecursion = head :: path →
      (h.eliminationStep h.analyze head).isSome) ∧
    ((∃ n, g.normalize false = .ok n) ↔ g.CyclesMeetFirst) ∧
    (¬ g.CyclesMeetFirst → ∀ steps n, g.tidyRules.eliminate steps ≠ .ok n)
  := by
  refine ⟨?_, exists_normalize_eq_ok_iff hg.wellFormed hp, ?_⟩
  · intro h hto head path hhead
    apply hto.isSome_eliminationStep hg.wellFormed.tidyRules hp.tidyRules hhead
  · intro hmeet steps n he
    apply hmeet
    rw [← hp.cyclesMeetFirst_tidyRules_iff]
    apply cyclesMeetFirst_of_eliminate hg.wellFormed.tidyRules hp.tidyRules he

/-- The cycles meet the first term of the grammar if it is one of any two terms of which one leads to
the other. -/
theorem cyclesMeetFirst_of_leads (h : ∀ t u, g.Leads t u → t = 0 ∨ u = 0) :
  g.CyclesMeetFirst
  := by
  intro first t hleast hout hback hcycle
  obtain ⟨u, ⟨hlead, hne⟩, hmany⟩ := TransGen.head'_iff.mp hcycle
  rcases h t u hlead with rfl | rfl
  · apply hne (Nat.eq_zero_of_le_zero (hleast 0 hout hback)).symm
  · have hreach := ReflTransGen.mono (fun _ _ hstep => hstep.1) _ _ hmany
    have hle := hleast 0 (hout.tail hlead) (TransGen.trans_right hreach hback)
    obtain rfl := Nat.eq_zero_of_le_zero hle
    rcases hmany.cases_head with rfl | ⟨_, ⟨-, hne'⟩, -⟩
    · apply hne rfl
    · apply hne' rfl

/-- A grammar with two cycles, both of which go through the first term. -/
def met : Grammar :=
  ((ofProductions "A" [⟨"A", [⟨.term, "A"⟩, ⟨.token, "p"⟩]⟩, ⟨"A", [⟨.term, "B"⟩, ⟨.token, "x"⟩]⟩,
    ⟨"A", [⟨.token, "a"⟩]⟩, ⟨"B", [⟨.term, "A"⟩, ⟨.token, "y"⟩]⟩,
    ⟨"B", [⟨.token, "b"⟩]⟩]).toOption).getD empty

/-- The two terms are left recursive, and the grammar is brought into normal form. -/
theorem exists_normalize_eq_ok_met :
  met.Built ∧ met.Proper ∧ met.LeftRecursive 0 ∧ met.LeftRecursive 1 ∧ met.CyclesMeetFirst ∧
    ∃ n, met.normalize false = .ok n
  := by
  have hbuilt : met.Built := built_getD_ofProductions
  have hp : met.Proper := by
    apply proper_of_substantial
    · decide +kernel
    · decide +kernel
  have hrec {t : TermId} (ht : met.analyze.isLeftRecursive t = true) : met.LeftRecursive t :=
    (Analysis.isLeftRecursive_analyze hbuilt.wellFormed).mp ht
  have hmeet : met.CyclesMeetFirst := by
    apply cyclesMeetFirst_of_leads
    intro t u hlead
    obtain ⟨_, ⟨r, hr, rfl, rfl⟩, hu, -⟩ :=
      (Tailed.refl hbuilt.wellFormed).exists_of_leads hbuilt.wellFormed hp hlead
    have hrules : ∀ r ∈ met.rules, r.owner = 0 ∨
        ∀ s ∈ leading? r.items, s.kind = .term → s.id = 0 := by decide +kernel
    apply (hrules r hr).imp_right
    intro hleading
    apply hleading _ hu rfl
  refine ⟨hbuilt, hp, hrec (by decide +kernel), hrec (by decide +kernel), hmeet, ?_⟩
  apply (normalize_eq_ok_iff hbuilt hp).2.1.mpr hmeet

/-- A grammar with a cycle that does not go through the first term. -/
def detoured : Grammar :=
  ((ofProductions "A" [⟨"A", [⟨.term, "B"⟩, ⟨.token, "x"⟩]⟩, ⟨"A", [⟨.token, "a"⟩]⟩,
    ⟨"B", [⟨.term, "B"⟩, ⟨.token, "y"⟩]⟩, ⟨"B", [⟨.term, "A"⟩, ⟨.token, "z"⟩]⟩,
    ⟨"B", [⟨.token, "b"⟩]⟩]).toOption).getD empty

/-- The grammar has a start term and is proper, but it is not brought into normal form. -/
theorem normalize_eq_error_detoured :
  detoured.Built ∧ detoured.start = some 0 ∧ detoured.Proper ∧
    ∃ path, detoured.normalize false = .error (.leftRecursion path)
  := by
  have hbuilt : detoured.Built := built_getD_ofProductions
  have hp : detoured.Proper := by
    apply proper_of_substantial
    · decide +kernel
    · decide +kernel
  have hlead {t u : TermId} (hr : ∃ r ∈ detoured.rules, r.owner = t ∧
      leading? r.items = some (.term u)) : detoured.Leads t u := by
    obtain ⟨r, hr, rfl, hu⟩ := hr
    apply leads_of_beginsWith (hasRule_of_mem hr) (beginsWith_iff.mpr hu)
  have hdetour : detoured.Detour 0 1 := by
    constructor
    · exact fun u _ _ => Nat.zero_le u
    · exact .single (hlead (by decide +kernel))
    · exact .single (hlead (by decide +kernel))
    · exact .single ⟨hlead (by decide +kernel), Nat.one_ne_zero⟩
  refine ⟨hbuilt, by decide +kernel, hp, ?_⟩
  cases hn : detoured.normalize false with
  | error e =>
    obtain ⟨path⟩ := e
    use path
  | ok n =>
    have hmeet := (exists_normalize_eq_ok_iff hbuilt.wellFormed hp).mp ⟨n, hn⟩
    apply absurd hdetour (cyclesMeetFirst_iff.mp hmeet 0 1)

end CanonicalLR.Grammar
