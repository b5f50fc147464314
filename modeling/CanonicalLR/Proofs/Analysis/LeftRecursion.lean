import CanonicalLR.Analysis.LeftRecursion
import CanonicalLR.Proofs.Analysis.Exactness

/-!
# Left recursion is found

The list `leftRecursion` that is found for a grammar is empty exactly if no term is left recursive
(`leftRecursion_eq_nil_iff`), and otherwise it begins with the first left recursive term
(`leftRecursive_of_leftRecursion_eq_cons`).

In the search for a cycle through a term, all children of a term that was met were met as well, and
are not the term that is searched for, unless the term still is the end of a path
(`CycleSearch.Sound`).  When no path is left, what was met is thus all that can be reached, so the
term cannot be reached from itself.
-/

namespace CanonicalLR.Analysis

variable {g : Grammar} {a : Analysis} {target t c : TermId} {back back' met : List TermId}
  {search next : CycleSearch}

/-! ### Steps of the search -/

/-- The terms that a path is extended to are the children that were not met. -/
theorem map_fst_extensions :
  (a.extensions met t back).map (·.1) =
    (a.of t).children.toList.filter fun c => !met.contains c
  := by
  rw [extensions, List.map_map]
  apply List.map_id

theorem mem_extensions :
  (c, back') ∈ a.extensions met t back ↔ (a.Child t c ∧ c ∉ met) ∧ back' = t :: back
  := by
  simp only [extensions, List.mem_map, List.mem_filter, IndexSet.mem_toList, Child, Prod.mk.injEq]
  constructor
  · rintro ⟨c, hc, rfl, rfl⟩
    use by simpa using hc
  · rintro ⟨hc, rfl⟩
    exact ⟨c, by simpa using hc, rfl, rfl⟩

/-- In a step the oldest path is either closed to a cycle or extended to what was not met. -/
theorem exists_of_cycleStep_eq_some (h : a.cycleStep target search = some next) :
  search.cycle = none ∧ ∃ t back paths, search.paths = (t, back) :: paths ∧
    (a.Child t target ∧ next = { search with cycle := some (t :: back).reverse } ∨
      ¬ a.Child t target ∧ next = ⟨search.met ++ (a.extensions search.met t back).map (·.1),
        paths ++ a.extensions search.met t back, none⟩)
  := by
  rw [cycleStep] at h
  split at h
  · next t back paths hcycle hpaths =>
    refine ⟨hcycle, t, back, paths, hpaths, ?_⟩
    split at h
    · next hchild =>
      cases h
      exact .inl ⟨hchild, rfl⟩
    · next hchild =>
      cases h
      rw [hcycle]
      exact .inr ⟨hchild, rfl⟩
  · cases h

/-- Every path begins with the term that is searched for, and so does the cycle; and the children of
a term that was met are met as well, and are not the term that is searched for, unless the term is
the end of a path. -/
structure CycleSearch.Sound (a : Analysis) (target : TermId) (search : CycleSearch) : Prop where
  met_nodup : search.met.Nodup
  met_lt : ∀ t ∈ search.met, t < a.facts.size
  target_met : target ∈ search.met
  paths_begin : ∀ t back, (t, back) ∈ search.paths → (t :: back).getLast? = some target
  cycle_begins : ∀ cycle ∈ search.cycle, cycle.head? = some target
  looked_at : ∀ t ∈ search.met, (∃ back, (t, back) ∈ search.paths) ∨
    ∀ c, a.Child t c → c ∈ search.met ∧ c ≠ target

theorem CycleSearch.Sound.step (ha : a.Closed) (h : search.Sound a target)
    (hstep : a.cycleStep target search = some next) :
  next.Sound a target
  := by
  obtain ⟨hcycle, t, back, paths, hpaths, ⟨-, rfl⟩ | ⟨hchild, rfl⟩⟩ := exists_of_cycleStep_eq_some hstep
  · refine ⟨h.met_nodup, h.met_lt, h.target_met, h.paths_begin, ?_, h.looked_at⟩
    rintro _ ⟨⟩
    rw [List.head?_reverse]
    apply h.paths_begin t back
    simp [hpaths]
  · have hmet (c : TermId) : c ∈ search.met ++ (a.extensions search.met t back).map (·.1) ↔
        c ∈ search.met ∨ a.Child t c := by
      simp only [map_fst_extensions, List.mem_append, List.mem_filter, IndexSet.mem_toList, Child]
      by_cases hc : c ∈ search.met <;> simp [hc]
    constructor
    · apply List.nodup_append.mpr
      simp only [map_fst_extensions]
      refine ⟨h.met_nodup, ?_, ?_⟩
      · apply ((IndexSet.pairwise_toList _).imp Nat.ne_of_lt).filter
      · rintro c hc _ hnew rfl
        simp [hc] at hnew
    · intro c hc
      rcases (hmet c).mp hc with hc | hc
      · apply h.met_lt c hc
      · apply ha.child_lt t c hc
    · apply (hmet target).mpr (.inl h.target_met)
    · intro c back' hc
      rcases List.mem_append.mp hc with hc | hc
      · apply h.paths_begin c back' (by simp [hpaths, hc])
      · obtain ⟨-, rfl⟩ := mem_extensions.mp hc
        rw [List.getLast?_cons_cons]
        apply h.paths_begin t back (by simp [hpaths])
    · simp
    · intro c hc
      by_cases hold : c ∈ search.met
      · rcases h.looked_at c hold with ⟨back', hpath⟩ | hlooked
        · rw [hpaths, List.mem_cons] at hpath
          rcases hpath with he | hpath
          · obtain ⟨rfl, rfl⟩ := Prod.mk.inj he
            right
            intro d hd
            use (hmet d).mpr (.inr hd)
            rintro rfl
            apply hchild hd
          · exact .inl ⟨back', List.mem_append_left _ hpath⟩
        · exact .inr fun d hd => ⟨(hmet d).mpr (.inl (hlooked d hd).1), (hlooked d hd).2⟩
      · have hc := ((hmet c).mp hc).resolve_left hold
        exact .inl ⟨t :: back, List.mem_append_right _ (mem_extensions.mpr ⟨⟨hc, hold⟩, rfl⟩)⟩

theorem CycleSearch.Sound.initial (ht : target < a.facts.size) :
  CycleSearch.Sound a target ⟨[target], [(target, [])], none⟩
  := by
  constructor <;> simp [ht]

/-- A bound for the number of steps that are still to be made. -/
def CycleSearch.remaining (a : Analysis) (search : CycleSearch) : Nat :=
  (if search.cycle.isNone then 1 else 0) + (a.facts.size - search.met.length) + search.paths.length

theorem CycleSearch.Sound.length_met_le (h : search.Sound a target) :
  search.met.length ≤ a.facts.size
  := by
  have hsub : search.met ⊆ List.range a.facts.size := by
    intro t ht
    apply List.mem_range.mpr (h.met_lt t ht)
  simpa using (List.subperm_of_subset h.met_nodup hsub).length_le

/-- A step closes the oldest path, or it replaces it by one for each of the terms that are met. -/
theorem CycleSearch.Sound.remaining_lt (ha : a.Closed) (h : search.Sound a target)
    (hstep : a.cycleStep target search = some next) :
  next.remaining a < search.remaining a
  := by
  have hle := (h.step ha hstep).length_met_le
  obtain ⟨hcycle, t, back, paths, hpaths, ⟨-, rfl⟩ | ⟨-, rfl⟩⟩ := exists_of_cycleStep_eq_some hstep
  · simp [remaining, hcycle]
  · simp only [List.length_append, List.length_map] at hle
    simp only [remaining, hcycle, hpaths, List.length_append, List.length_map, List.length_cons]
    omega

/-! ### What is found -/

/-- The state in which the search for a cycle through the term `target` ends. -/
def searchCycle (a : Analysis) (target : TermId) : CycleSearch :=
  exhaust (a.cycleStep target) (a.facts.size + 1) ⟨[target], [(target, [])], none⟩

/-- The search for a cycle comes to an end. -/
theorem sound_and_stuck_searchCycle (ha : a.Closed) (ht : target < a.facts.size) :
  (a.searchCycle target).Sound a target ∧ Stuck (a.cycleStep target) (a.searchCycle target)
  := by
  have hinitial := CycleSearch.Sound.initial ht
  have hkeep : ∀ s next : CycleSearch, s.Sound a target → a.cycleStep target s = some next →
      next.Sound a target := fun _ _ hs hstep => hs.step ha hstep
  have hbound : CycleSearch.remaining a ⟨[target], [(target, [])], none⟩ ≤ a.facts.size + 1 := by
    have hpositive := Nat.zero_lt_of_lt ht
    simp only [CycleSearch.remaining, Option.isNone_none, if_true, List.length_singleton]
    omega
  use exhaust_induction hkeep (a.facts.size + 1) hinitial
  apply stuck_exhaust_of_keep hkeep (CycleSearch.remaining a)
    (fun _ _ hs hstep => hs.remaining_lt ha hstep) hinitial hbound

/-- If a term is reached from itself by going from child to child, then a cycle is found. -/
theorem isSome_cycle (ha : a.Closed) (h : Relation.TransGen a.Child target target) :
  (a.searchCycle target).cycle.isSome
  := by
  obtain ⟨last, hlast, hclose⟩ := Relation.TransGen.tail'_iff.mp h
  obtain ⟨hsound, hstuck⟩ := sound_and_stuck_searchCycle ha (ha.child_lt _ _ hclose)
  rw [Option.isSome_iff_ne_none]
  intro hcycle
  have hpaths : (a.searchCycle target).paths = [] := by
    rw [Stuck, cycleStep, hcycle] at hstuck
    cases hpaths : (a.searchCycle target).paths with
    | nil => rfl
    | cons path paths =>
      simp only [hpaths] at hstuck
      split at hstuck <;> cases hstuck
  have hlooked (t : TermId) (ht : t ∈ (a.searchCycle target).met) (c : TermId) (hc : a.Child t c) :
      c ∈ (a.searchCycle target).met ∧ c ≠ target := by
    apply (hsound.looked_at t ht).resolve_left _ c hc
    simp [hpaths]
  have hmet : last ∈ (a.searchCycle target).met := by
    clear hclose
    induction hlast with
    | refl => apply hsound.target_met
    | tail _ hchild ih => apply (hlooked _ ih _ hchild).1
  apply absurd rfl (hlooked last hmet target hclose).2

/-- If a term is reached from itself by going from child to child, then the cycle through it is the one
that is found. -/
theorem cycle_searchCycle (ha : a.Closed) (h : Relation.TransGen a.Child target target) :
  (a.searchCycle target).cycle = some (a.cycleThrough target)
  := by
  obtain ⟨cycle, hcycle⟩ := Option.isSome_iff_exists.mp (isSome_cycle ha h)
  change _ = some ((a.searchCycle target).cycle.getD [])
  rw [hcycle, Option.getD_some]

/-- If a term is reached from itself by going from child to child, then a cycle is found that
begins with it. -/
theorem head?_cycleThrough (ha : a.Closed) (h : Relation.TransGen a.Child target target) :
  (a.cycleThrough target).head? = some target
  := by
  obtain ⟨last, -, hclose⟩ := Relation.TransGen.tail'_iff.mp h
  have hsound := (sound_and_stuck_searchCycle ha (ha.child_lt _ _ hclose)).1
  apply hsound.cycle_begins _ (cycle_searchCycle ha h)

/-- A term is known to be left recursive if it is reached from itself by going from child to child. -/
theorem Closed.isLeftRecursive_iff (ha : a.Closed) :
  a.isLeftRecursive t = true ↔ Relation.TransGen a.Child t t
  := by
  rw [isLeftRecursive, dependsOn, decide_eq_true_eq, ha.mem_dependents]

/-- The terms that are known to be left recursive are those that are. -/
theorem isLeftRecursive_analyze (hg : g.WellFormed) :
  g.analyze.isLeftRecursive t = true ↔ g.LeftRecursive t
  := by
  rw [isLeftRecursive, dependsOn_analyze hg, Grammar.leftRecursive_iff]

/-- The cycle that is found goes through the first left recursive term. -/
theorem first_of_leftRecursion_eq_cons (ha : a.Closed) {head : TermId} {path : List TermId}
    (h : a.leftRecursion = head :: path) :
  a.firstLeftRecursive? = some head ∧ a.cycleThrough head = head :: path
  := by
  rw [leftRecursion] at h
  split at h
  · cases h
  · next target hfirst =>
    have htarget := ha.isLeftRecursive_iff.mp (List.find?_some hfirst)
    obtain rfl : target = head := by
      simpa [h] using (head?_cycleThrough ha htarget).symm
    use hfirst, h

/-- If left recursion is found in a grammar, then it is at the first left recursive term. -/
theorem leftRecursive_of_leftRecursion_eq_cons (hg : g.WellFormed) {head : TermId}
    {path : List TermId} (h : g.analyze.leftRecursion = head :: path) :
  g.LeftRecursive head ∧ ∀ t, g.LeftRecursive t → head ≤ t
  := by
  have hfirst := (first_of_leftRecursion_eq_cons (justified_analyze hg).closed h).1
  rw [firstLeftRecursive?, List.find?_range_eq_some] at hfirst
  obtain ⟨hhead, -, hearlier⟩ := hfirst
  use (isLeftRecursive_analyze hg).mp hhead
  intro t ht
  by_contra hlt
  have := hearlier t (Nat.lt_of_not_le hlt)
  simp [(isLeftRecursive_analyze hg).mpr ht] at this

/-- No left recursion is found in a grammar exactly if no term is left recursive. -/
theorem leftRecursion_eq_nil_iff (hg : g.WellFormed) :
  g.analyze.leftRecursion = [] ↔ ∀ t, ¬ g.LeftRecursive t
  := by
  have hclosed := (justified_analyze hg).closed
  constructor
  · intro h t ht
    have hrec := (isLeftRecursive_analyze hg).mpr ht
    rw [leftRecursion] at h
    split at h
    · next hnone =>
      have hlt : t < g.analyze.facts.size := by
        rw [Grammar.leftRecursive_iff] at ht
        obtain ⟨u, hu, -⟩ := Relation.TransGen.head'_iff.mp ht
        apply ((child_analyze hg).mpr hu).lt
      rw [firstLeftRecursive?, List.find?_range_eq_none] at hnone
      have := hnone t hlt
      simp [hrec] at this
    · next target hfirst =>
      have := head?_cycleThrough hclosed (hclosed.isLeftRecursive_iff.mp (List.find?_some hfirst))
      rw [h] at this
      cases this
  · intro h
    cases hrec : g.analyze.leftRecursion with
    | nil => rfl
    | cons head path =>
      apply absurd (leftRecursive_of_leftRecursion_eq_cons hg hrec).1 (h head)

end CanonicalLR.Analysis
