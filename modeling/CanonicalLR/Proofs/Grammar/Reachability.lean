import CanonicalLR.Grammar.Reachable
import CanonicalLR.Proofs.Grammar.Editing

/-!
# Reachable symbols are found

The search for the symbols that are reachable from a term finds all of them and no others
(`mem_reachable_iff`).  It keeps an invariant (`Search.Sound`): what was found is reachable, and
so is what occurs in the rules of a term that was found and is not pending any more.  The search
ends before its bound, as each step looks at the rules of one pending term, and a term becomes
pending only when one of the occurrences of symbols is seen for the first time (`weight`).
-/

namespace CanonicalLR

namespace Reachable

variable {g : Grammar} {start : TermId}

/-! ### Touching symbols -/

namespace Search

variable {search : Search} {s x : Symbol} {t : TermId}

theorem mem_touched_touch :
  x ∈ (search.touch s).touched ↔ x ∈ search.touched ∨ x = s
  := by
  unfold touch
  split
  · next hs =>
    constructor
    · exact .inl
    · rintro (hx | rfl)
      · apply hx
      · apply hs
  · rw [List.mem_cons, or_comm]

theorem mem_pending_touch :
  t ∈ (search.touch s).pending ↔ t ∈ search.pending ∨ .term t = s ∧ s ∉ search.touched
  := by
  unfold touch
  split
  · next hs => simp [hs]
  · next hs =>
    obtain ⟨k, id⟩ := s
    cases k
    · simp [hs, or_comm]
    · simp
    · simp

theorem mem_touched_foldl {symbols : List Symbol} :
  x ∈ (symbols.foldl touch search).touched ↔ x ∈ search.touched ∨ x ∈ symbols
  := by
  induction symbols generalizing search with
  | nil => simp
  | cons s symbols ih => rw [List.foldl_cons, ih, mem_touched_touch, List.mem_cons, or_assoc]

theorem mem_pending_foldl {symbols : List Symbol} :
  t ∈ (symbols.foldl touch search).pending ↔
    t ∈ search.pending ∨ .term t ∈ symbols ∧ .term t ∉ search.touched
  := by
  induction symbols generalizing search with
  | nil => simp
  | cons s symbols ih =>
    rw [List.foldl_cons, ih, mem_pending_touch, mem_touched_touch, List.mem_cons]
    constructor
    · rintro ((h | ⟨rfl, h⟩) | ⟨h, hn⟩)
      · exact .inl h
      · exact .inr ⟨.inl rfl, h⟩
      · exact .inr ⟨.inr h, fun ht => hn (.inl ht)⟩
    · rintro (h | ⟨h, hn⟩)
      · exact .inl (.inl h)
      · by_cases he : .term t = s
        · exact .inl (.inr ⟨he, he ▸ hn⟩)
        · exact .inr ⟨h.resolve_left he, fun ht => ht.elim hn he⟩

end Search

/-! ### The search ends -/

/-- The number of pending terms and of occurrences of symbols that were not found yet. -/
def weight (g : Grammar) (search : Search) : Nat :=
  search.pending.length +
    ((g.rules.flatMap Rule.items).filter fun s => s ∉ search.touched).length

/-- When a symbol that occurs is touched, the weight does not grow: either the symbol was found
before, or its occurrence does not count any more. -/
theorem weight_touch {search : Search} {s : Symbol} (hs : s ∈ g.rules.flatMap Rule.items) :
  weight g (search.touch s) ≤ weight g search
  := by
  unfold Search.touch
  split
  · apply Nat.le_refl _
  · next hn =>
    have hsub : ((g.rules.flatMap Rule.items).filter fun x => x ∉ s :: search.touched).Sublist
        (((g.rules.flatMap Rule.items).filter fun x => x ∉ search.touched).filter (· ≠ s)) := by
      rw [List.filter_filter]
      simp
    have hmem : s ∈ (g.rules.flatMap Rule.items).filter fun x => x ∉ search.touched :=
      List.mem_filter.mpr ⟨hs, by simpa using hn⟩
    have hlt : (((g.rules.flatMap Rule.items).filter fun x => x ∉ search.touched).filter
        (· ≠ s)).length < _ := List.length_filter_lt_length_iff_exists.mpr ⟨s, hmem, by simp⟩
    have hle := hsub.length_le
    obtain ⟨k, id⟩ := s
    cases k <;> simp only [weight, List.length_cons] <;> omega

theorem weight_foldl {search : Search} {symbols : List Symbol}
    (hs : ∀ s ∈ symbols, s ∈ g.rules.flatMap Rule.items) :
  weight g (symbols.foldl Search.touch search) ≤ weight g search
  := by
  induction symbols generalizing search with
  | nil => apply Nat.le_refl _
  | cons s symbols ih =>
    apply Nat.le_trans (ih fun x hx => hs x (List.mem_cons_of_mem _ hx))
    apply weight_touch (hs s List.mem_cons_self)

/-- The symbols in the rules of a term occur in the rules of the grammar. -/
theorem mem_occurrences {t : TermId} {s : Symbol} (hs : s ∈ (g.rulesOf t).flatMap Rule.items) :
  s ∈ g.rules.flatMap Rule.items
  := by
  obtain ⟨r, hr, hs⟩ := List.mem_flatMap.mp hs
  apply List.mem_flatMap.mpr ⟨r, (Grammar.mem_rulesOf.mp hr).1, hs⟩

theorem weight_step {search next : Search} (h : step g search = some next) :
  weight g next < weight g search
  := by
  rw [step] at h
  split at h
  · cases h
  · next t pending hp =>
    cases h
    apply Nat.lt_of_le_of_lt (weight_foldl fun s => mem_occurrences)
    simp [weight, hp]

/-- When the search is over, no term is pending. -/
theorem pending_exhaust (g : Grammar) (start : TermId) :
  (exhaust (step g) (occurrences g + 2) ⟨[.term start], [start]⟩).pending = []
  := by
  have hbound : weight g ⟨[.term start], [start]⟩ < occurrences g + 2 := by
    have := List.length_filter_le (fun s => s ∉ [Symbol.term start]) (g.rules.flatMap Rule.items)
    simp only [weight, occurrences, List.length_singleton]
    omega
  have h := stuck_exhaust (weight g) (fun _ _ => weight_step) hbound
  rw [Stuck, step] at h
  split at h
  · assumption
  · cases h

/-! ### What the search finds -/

/-- What was found is reachable, and the rules of the terms that were found hold nothing else,
unless they are still to be looked at. -/
structure Search.Sound (g : Grammar) (start : TermId) (search : Search) : Prop where
  start_touched : .term start ∈ search.touched
  reaches : ∀ s ∈ search.touched, Reaches g start s
  pending_touched : ∀ t ∈ search.pending, .term t ∈ search.touched
  looked_at : ∀ t, .term t ∈ search.touched → t ∈ search.pending ∨
    ∀ r ∈ g.rulesOf t, ∀ s ∈ r.items, s ∈ search.touched

theorem sound_step {search next : Search} (h : search.Sound g start)
    (hstep : step g search = some next) :
  next.Sound g start
  := by
  rw [step] at hstep
  split at hstep
  · cases hstep
  · next t pending hp =>
    have ht : .term t ∈ search.touched := h.pending_touched t (by simp [hp])
    cases hstep
    constructor
    · exact Search.mem_touched_foldl.mpr (.inl h.start_touched)
    · intro s hs
      rcases Search.mem_touched_foldl.mp hs with hs | hs
      · apply h.reaches s hs
      · obtain ⟨r, hr, hs⟩ := List.mem_flatMap.mp hs
        exact .step (h.reaches _ ht) hr hs
    · intro t' ht'
      rw [Search.mem_touched_foldl]
      rcases Search.mem_pending_foldl.mp ht' with ht' | ⟨ht', -⟩
      · exact .inl (h.pending_touched t' (by simp [hp, ht']))
      · exact .inr ht'
    · intro t' ht'
      simp only [Search.mem_touched_foldl, Search.mem_pending_foldl] at ht' ⊢
      by_cases hold : .term t' ∈ search.touched
      · rcases h.looked_at t' hold with hpend | hlooked
        · rw [hp, List.mem_cons] at hpend
          rcases hpend with rfl | hpend
          · exact .inr fun r hr s hs => .inr (List.mem_flatMap.mpr ⟨r, hr, hs⟩)
          · exact .inl (.inl hpend)
        · exact .inr fun r hr s hs => .inl (hlooked r hr s hs)
      · exact .inl (.inr ⟨ht'.resolve_left hold, hold⟩)

theorem sound_initial :
  Search.Sound g start ⟨[.term start], [start]⟩
  := by
  constructor
  · simp
  · intro s hs
    rw [List.mem_singleton.mp hs]
    exact .start
  · simp
  · intro t ht
    exact .inl (by simpa using ht)

end Reachable

/-- The symbols that are found are those that are reachable. -/
theorem mem_reachable_iff {g : Grammar} {start : TermId} {s : Symbol} :
  s ∈ g.reachable start ↔ Reaches g start s
  := by
  have hsound := exhaust_induction (motive := Reachable.Search.Sound g start)
    (fun _ _ => Reachable.sound_step) (Reachable.occurrences g + 2) Reachable.sound_initial
  constructor
  · apply hsound.reaches s
  · intro h
    induction h with
    | start => apply hsound.start_touched
    | step _ hr hs ih =>
      rcases hsound.looked_at _ ih with hp | hlooked
      · rw [Reachable.pending_exhaust] at hp
        cases hp
      · apply hlooked _ hr _ hs

end CanonicalLR
