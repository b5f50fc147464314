import CanonicalLR.Analysis.Parents
import CanonicalLR.Proofs.Analysis.ShortestCycles
import CanonicalLR.Proofs.Grammar.Built

/-!
# Parents are not missing

A search that records parents goes in step with one that keeps the ways (`Accompanies`): a way that was
kept can be gone back from parent to parent (`Traced`), at any later time.  So no parent is ever missing,
and the same cycle is found (`tracedLeftRecursion_eq`).

Together with what the analysis knows, this tells what is found in a grammar (`leftRecursion_exact`).
-/

namespace CanonicalLR

/-- Each of the terms `head :: rest` leads to the next one, and the last one leads to the first. -/
def Grammar.Cycle (g : Grammar) (head : TermId) (rest : List TermId) : Prop :=
  (head :: (rest ++ [head])).IsChain g.Leads

namespace Analysis

variable {g : Grammar} {a : Analysis} {target t c : TermId} {back : List TermId}
  {parents more : List (TermId × TermId)} {search next : CycleSearch} {p : ParentSearch}

/-! ### Tracing -/

/-- From the term there is a way back to the term `target`, from parent to parent. -/
inductive Traced (parents : List (TermId × TermId)) (target : TermId) : TermId → List TermId → Prop where
  | start : Traced parents target target []
  | step {c parent : TermId} {back : List TermId} :
      c ≠ target → parents.lookup c = some parent → Traced parents target parent back →
        Traced parents target c (parent :: back)

/-- A way back stays one when more parents are recorded. -/
theorem Traced.append (h : Traced parents target t back) (more : List (TermId × TermId)) :
  Traced (parents ++ more) target t back
  := by
  induction h with
  | start => exact .start
  | step hne hparent _ ih =>
    apply Traced.step hne _ ih
    rw [List.lookup_append, hparent, Option.some_or]

/-- The terms on a way back, but for the last one, have parents. -/
theorem Traced.subset (h : Traced parents target t back) :
  t :: back ⊆ target :: parents.map (·.1)
  := by
  induction h with
  | start => simp
  | step _ hparent _ ih =>
    apply List.cons_subset.mpr ⟨_, ih⟩
    apply List.mem_cons_of_mem
    obtain ⟨before, after, hparents, -⟩ := List.lookup_eq_some_iff.mp hparent
    simp [hparents]

/-- A way back is found if the bound is above its length. -/
theorem wayBack_eq_of_traced (h : Traced parents target t back) {bound : Nat}
    (hbound : back.length < bound) :
  wayBack parents target bound t = some (t :: back)
  := by
  induction h generalizing bound with
  | start =>
    obtain ⟨bound, rfl⟩ := Nat.exists_eq_succ_of_ne_zero (Nat.ne_of_gt hbound)
    rw [wayBack, if_pos rfl]
  | step hne hparent _ ih =>
    obtain ⟨bound, rfl⟩ := Nat.exists_eq_succ_of_ne_zero (Nat.ne_of_gt (Nat.zero_lt_of_lt hbound))
    rw [wayBack, if_neg hne, hparent, Option.bind_some, ih (Nat.lt_of_succ_lt_succ hbound)]
    rfl

/-! ### In step -/

/-- The terms that were met in a search that records parents. -/
def ParentSearch.met (target : TermId) (p : ParentSearch) : List TermId :=
  target :: p.parents.map (·.1)

theorem ParentSearch.meet_of_mem (h : c ∈ p.met target) :
  p.meet target t c = p
  := by
  apply if_neg
  rintro ⟨hne, hnone⟩
  rcases List.mem_cons.mp h with rfl | hmem
  · apply hne rfl
  · obtain ⟨⟨_, parent⟩, hparent, rfl⟩ := List.mem_map.mp hmem
    rw [Option.isNone_iff_eq_none, List.lookup_eq_none_iff] at hnone
    simpa using hnone _ hparent

/-- A term that was not met is not the one that is searched for, and has no parent. -/
theorem ParentSearch.of_notMem_met (h : c ∉ p.met target) :
  c ≠ target ∧ p.parents.lookup c = none
  := by
  rw [met, List.mem_cons, not_or] at h
  use h.1
  rw [List.lookup_eq_none_iff]
  rintro ⟨d, parent⟩ hparent
  rw [bne_iff_ne]
  rintro rfl
  apply h.2 (List.mem_map_of_mem hparent)

theorem ParentSearch.meet_of_notMem (h : c ∉ p.met target) :
  p.meet target t c = ⟨p.parents ++ [(c, t)], p.waiting ++ [c], p.last⟩
  := by
  obtain ⟨hne, hlookup⟩ := of_notMem_met h
  apply if_pos
  use hne
  rw [hlookup, Option.isNone_none]

/-- Of different terms, those that were not met before are recorded, and wait. -/
theorem ParentSearch.foldl_meet {children : List TermId} (hnodup : children.Nodup) :
  children.foldl (meet target t) p =
    let found := children.filter fun c => !(p.met target).contains c
    ⟨p.parents ++ found.map fun c => (c, t), p.waiting ++ found, p.last⟩
  := by
  induction children generalizing p with
  | nil => simp
  | cons c children ih =>
    obtain ⟨hc, hnodup⟩ := List.nodup_cons.mp hnodup
    rw [List.foldl_cons, ih hnodup]
    by_cases hmet : c ∈ p.met target
    · rw [meet_of_mem hmet]
      simp [hmet]
    · rw [meet_of_notMem hmet]
      have hfilter : (children.filter fun d =>
            !(met target ⟨p.parents ++ [(c, t)], p.waiting ++ [c], p.last⟩).contains d) =
          children.filter fun d => !(p.met target).contains d := by
        apply List.filter_congr
        intro d hd
        have hne : d ≠ c := by
          rintro rfl
          apply hc hd
        have hmem : d ∈ met target ⟨p.parents ++ [(c, t)], p.waiting ++ [c], p.last⟩ ↔
            d ∈ p.met target := by
          simp [met, hne]
        simp only [List.contains_eq_mem, hmem]
      simp only [hfilter]
      simp [hmet]

/-- The same terms were met in both searches, and the same wait; and the ways that are kept in the
first one are traced by the parents of the second one. -/
structure Accompanies (target : TermId) (search : CycleSearch) (p : ParentSearch) : Prop where
  met : search.met = p.met target
  waiting : search.paths.map (·.1) = p.waiting
  traced : ∀ t back, (t, back) ∈ search.paths → Traced p.parents target t back
  last : search.cycle = none ∧ p.last = none ∨
    ∃ t back, search.cycle = some (t :: back).reverse ∧ p.last = some t ∧
      Traced p.parents target t back

theorem Accompanies.step (h : Accompanies target search p) :
  a.cycleStep target search = none ∧ p.step a target = none ∨
    ∃ next p', a.cycleStep target search = some next ∧ p.step a target = some p' ∧
      Accompanies target next p'
  := by
  obtain ⟨met, paths, cycle⟩ := search
  obtain ⟨parents, waiting, last⟩ := p
  obtain ⟨hmet, hwaiting, htraced, hlast⟩ := h
  dsimp only at hmet hwaiting htraced hlast
  subst hmet hwaiting
  obtain ⟨rfl, rfl⟩ | ⟨t, back, rfl, rfl, -⟩ := hlast
  · cases paths with
    | nil => exact .inl ⟨rfl, rfl⟩
    | cons path paths =>
      right
      obtain ⟨t, back⟩ := path
      have hback := htraced t back List.mem_cons_self
      by_cases hclose : target ∈ (a.of t).children
      · simp only [cycleStep, ParentSearch.step, List.map_cons, if_pos hclose]
        refine ⟨_, _, rfl, rfl, rfl, rfl, htraced, .inr ⟨t, back, rfl, rfl, hback⟩⟩
      · have hnodup : (a.of t).children.toList.Nodup :=
          (IndexSet.pairwise_toList _).imp Nat.ne_of_lt
        simp only [cycleStep, ParentSearch.step, List.map_cons, if_neg hclose,
          ParentSearch.foldl_meet hnodup]
        refine ⟨_, _, rfl, rfl, ?_, ?_, ?_, .inl ⟨rfl, rfl⟩⟩
        · simp [map_fst_extensions, ParentSearch.met, Function.comp_def]
        · simp [map_fst_extensions, ParentSearch.met]
        · intro c back' hmem
          rcases List.mem_append.mp hmem with hmem | hmem
          · apply (htraced c back' (List.mem_cons_of_mem _ hmem)).append
          · obtain ⟨⟨hchild, hnew⟩, rfl⟩ := mem_extensions.mp hmem
            obtain ⟨hne, hlookup⟩ := ParentSearch.of_notMem_met hnew
            apply Traced.step hne _ (hback.append _)
            rw [List.lookup_append, hlookup, Option.none_or]
            apply List.lookup_graph (fun _ => t)
            apply List.mem_filter.mpr
            use IndexSet.mem_toList.mpr hchild
            simpa [ParentSearch.met] using hnew
  · exact .inl ⟨rfl, rfl⟩

theorem accompanies_initial (target : TermId) :
  Accompanies target ⟨[target], [(target, [])], none⟩ (.initial target)
  := by
  constructor
  · rfl
  · rfl
  · simp only [List.mem_singleton, Prod.mk.injEq]
    rintro _ _ ⟨rfl, rfl⟩
    exact .start
  · exact .inl ⟨rfl, rfl⟩

/-- The search that records parents ends, and it ends in step with the one that keeps the ways. -/
theorem accompanies_searchParents (ha : a.Closed) (ht : target < a.facts.size) :
  Accompanies target (a.searchCycle target) (a.searchParents target) ∧
    Stuck (ParentSearch.step a target) (a.searchParents target)
  := by
  obtain ⟨haccompanies, hstuck⟩ := rel_exhaust_bound (fun _ _ h => h.step (a := a)) (a.facts.size + 1)
    (accompanies_initial target)
  use haccompanies, hstuck.mp (sound_and_stuck_searchCycle ha ht).2

/-- If a term is reached from itself by going from child to child, then the way back along the cycle
through it is not lost. -/
theorem tracedCycle_eq (ha : a.Closed) (h : Relation.TransGen a.Child target target) :
  a.tracedCycle target = some (a.cycleThrough target)
  := by
  obtain ⟨last, -, hclose⟩ := Relation.TransGen.tail'_iff.mp h
  have haccompanies := (accompanies_searchParents ha (ha.child_lt _ _ hclose)).1
  obtain ⟨t', back', hcycle', -, hnodup, -⟩ := shortestCycle_cycleThrough ha h
  obtain ⟨hnone, -⟩ | ⟨t, back, hcycle, hlast, htraced⟩ := haccompanies.last
  · rw [cycle_searchCycle ha h] at hnone
    cases hnone
  · rw [cycle_searchCycle ha h, Option.some_inj] at hcycle
    rw [← List.reverse_inj.mp (hcycle.symm.trans hcycle')] at hnodup
    have hlength := (List.subperm_of_subset hnodup htraced.subset).length_le
    simp only [List.length_cons, List.length_map] at hlength
    rw [tracedCycle, hlast]
    dsimp only
    rw [wayBack_eq_of_traced htraced (Nat.lt_of_succ_le hlength), hcycle]
    rfl

/-- The cycle that is found with parents is the one that is found with ways. -/
theorem tracedLeftRecursion_eq (ha : a.Closed) :
  a.tracedLeftRecursion = some a.leftRecursion
  := by
  rw [tracedLeftRecursion, leftRecursion]
  cases hfirst : a.firstLeftRecursive? with
  | none => rfl
  | some target => apply tracedCycle_eq ha (ha.isLeftRecursive_iff.mp (List.find?_some hfirst))

/-! ### Cycles of a grammar -/

/-- The cycle through a left recursive term goes through different terms, each of which leads to the
next one, and there is no shorter one that begins with the same term. -/
theorem cycle_cycleThrough (hg : g.WellFormed) {head : TermId} {rest : List TermId}
    (hhead : g.LeftRecursive head) (h : g.analyze.cycleThrough head = head :: rest) :
  (head :: rest).Nodup ∧ g.Cycle head rest ∧ ∀ rest', g.Cycle head rest' → rest.length ≤ rest'.length
  := by
  have hclosed := (justified_analyze hg).closed
  have hleads := (exact_analyze hg).child_eq hg
  have hself : Relation.TransGen g.analyze.Child head head := by
    rw [hleads]
    apply Grammar.leftRecursive_iff.mp hhead
  obtain ⟨t, back, hcycle, hway, hnodup, hclose, hmin⟩ := shortestCycle_cycleThrough hclosed hself
  rw [h] at hcycle
  have hlength : rest.length = back.length := by simpa using congrArg List.length hcycle
  refine ⟨?_, ?_, ?_⟩
  · rw [hcycle]
    apply List.nodup_reverse.mpr hnodup
  · have hchain := hway.isChain hclose
    rw [← hcycle, hleads] at hchain
    apply hchain
  · intro rest' hrest'
    rw [Grammar.Cycle, ← hleads] at hrest'
    obtain ⟨u, back', hway', hclose', hlength'⟩ := Way.start.exists_of_isChain hrest'
    have hle := hmin u back' hway' hclose'
    rw [List.length_nil, Nat.zero_add] at hlength'
    omega

/-- A left recursive term is a term of the grammar. -/
theorem mem_ids_of_leftRecursive (hg : g.WellFormed) (h : g.LeftRecursive t) :
  t ∈ g.terms.ids
  := by
  obtain ⟨u, ⟨_, ⟨r, hr, rfl, -⟩, -⟩, -⟩ :=
    Relation.TransGen.head'_iff.mp (Grammar.leftRecursive_iff.mp h)
  apply Grammar.contains_iff.mp (hg.owner_mem r hr)

/-- A term depends on those that begin what it is rewritten to.  The search for left recursion ends for
every term and never misses a parent.  It finds nothing exactly if no term depends on itself; otherwise
it finds different terms, first the left recursive term that comes first in the grammar, that are a
shortest cycle through this term. -/
theorem leftRecursion_exact (hg : g.Built) :
  (∀ t u, g.analyze.dependsOn t u = true ↔
      ∃ items, Relation.TransGen g.Rewrites [.term t] items ∧ BeginsWith items u) ∧
    (∀ target ∈ g.terms.ids,
      Stuck (ParentSearch.step g.analyze target) (g.analyze.searchParents target)) ∧
    g.analyze.tracedLeftRecursion = some g.analyze.leftRecursion ∧
    (g.analyze.leftRecursion = [] ↔ ∀ t, g.analyze.dependsOn t t = false) ∧
    ∀ head rest, g.analyze.leftRecursion = head :: rest →
      (head :: rest).Nodup ∧
      (∃ before after, g.terms.ids = before ++ head :: after ∧ g.analyze.dependsOn head head = true ∧
        ∀ t ∈ before, g.analyze.dependsOn t t = false) ∧
      g.Cycle head rest ∧ ∀ rest', g.Cycle head rest' → rest.length ≤ rest'.length
  := by
  have hg := hg.wellFormed
  have hclosed := (justified_analyze hg).closed
  refine ⟨?_, ?_, tracedLeftRecursion_eq hclosed, ?_, ?_⟩
  · intro t u
    rw [dependsOn_analyze hg, Grammar.exists_rewrites_beginsWith_iff]
  · intro target htarget
    have hlt : target < g.terms.next := (hg.proper .term).ids_old target htarget
    rw [← (justified_analyze hg).known.size_eq] at hlt
    apply (accompanies_searchParents hclosed hlt).2
  · simp only [leftRecursion_eq_nil_iff hg, ← isLeftRecursive_analyze hg, isLeftRecursive,
      Bool.not_eq_true]
  · intro head rest h
    obtain ⟨hhead, hfirst⟩ := leftRecursive_of_leftRecursion_eq_cons hg h
    obtain ⟨hnodup, hcycle, hmin⟩ := cycle_cycleThrough hg hhead
      (first_of_leftRecursion_eq_cons hclosed h).2
    refine ⟨hnodup, ?_, hcycle, hmin⟩
    obtain ⟨before, after, hids⟩ := List.append_of_mem (mem_ids_of_leftRecursive hg hhead)
    refine ⟨before, after, hids, (isLeftRecursive_analyze hg).mpr hhead, ?_⟩
    intro t ht
    have hincreasing := (hg.proper .term).ids_increasing
    rw [Grammar.table, hids, List.pairwise_append] at hincreasing
    have hlt := hincreasing.2.2 t ht head List.mem_cons_self
    rw [← Bool.not_eq_true]
    intro hdepends
    apply absurd (hfirst t ((isLeftRecursive_analyze hg).mp hdepends)) (Nat.not_le_of_lt hlt)

/-- A grammar whose second term begins with itself, behind a nullable term, by way of one other term or
of two. -/
def detour : Grammar :=
  ((Grammar.ofProductions "S" [⟨"S", [⟨.term, "A"⟩, ⟨.token, "s"⟩]⟩,
    ⟨"A", [⟨.term, "N"⟩, ⟨.prompt, "p"⟩, ⟨.term, "C"⟩, ⟨.token, "a"⟩]⟩, ⟨"N", []⟩,
    ⟨"C", [⟨.term, "D"⟩]⟩, ⟨"D", [⟨.term, "A"⟩]⟩, ⟨"A", [⟨.term, "N"⟩, ⟨.term, "B"⟩]⟩,
    ⟨"B", [⟨.term, "N"⟩, ⟨.term, "N"⟩, ⟨.term, "A"⟩, ⟨.token, "b"⟩]⟩]).toOption).getD .empty

/-- In the grammar with a detour, the first left recursive term is the second one, and the cycle that
is found makes no detour. -/
theorem leftRecursion_exact_detour :
  detour.Built ∧ detour.analyze.leftRecursion = [1, 5] ∧ detour.Cycle 1 [5] ∧
    ∀ rest, detour.Cycle 1 rest → 1 ≤ rest.length
  := by
  have hbuilt : detour.Built := Grammar.built_getD_ofProductions
  have hfound : detour.analyze.leftRecursion = [1, 5] := by decide +kernel
  obtain ⟨-, -, -, -, hcycle⟩ := leftRecursion_exact hbuilt
  obtain ⟨-, -, hcycle, hmin⟩ := hcycle 1 [5] hfound
  use hbuilt, hfound, hcycle, hmin

end Analysis

end CanonicalLR
