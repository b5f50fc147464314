import CanonicalLR.NormalForm.Elimination
import CanonicalLR.Proofs.NormalForm.Tidying

/-!
# Elimination of left recursion keeps the language

Each step of the elimination keeps what the grammar says.  For a head that is split, the tail stands
for what can be put behind anything that the head derives (`derived_of_derived_split`), and what the
head and the tail derive together is closed under the recursive rules (`derived_split_of_derived`).
For a head whose leading terms are expanded (`derived_expand`), the expanded rules read what the
rules of the leading term read.

Neither argument uses the facts from which the elimination chooses its steps, so any sequence of
steps keeps the language (`keeps_eliminate`).
-/

namespace CanonicalLR.Grammar

variable {g g' : Grammar} {head tail t : TermId} {items : List Symbol} {w : List TokenId}

/-! ### Leading prompts -/

/-- Prompts in front make no difference to what is read. -/
theorem reads_prompts_append {L : Reading} {prompts : List Symbol}
    (hp : ∀ s ∈ prompts, s.isPrompt) :
  Reads L (prompts ++ items) w ↔ Reads L items w
  := by
  simp [reads_append, reads_prompts hp]

theorem isPrompt_of_mem_takeWhile {s : Symbol} (hs : s ∈ items.takeWhile Symbol.isPrompt) :
  s.isPrompt
  := by
  have := List.all_takeWhile (p := Symbol.isPrompt) (l := items)
  apply List.all_eq_true.mp this s hs

/-- If a right side begins with the head, then it is the head between prompts and what follows. -/
theorem exists_of_afterHead?_eq_some {rest : List Symbol} (h : afterHead? head items = some rest) :
  ∃ prompts after, (∀ s ∈ prompts, s.isPrompt) ∧ items = prompts ++ .term head :: after ∧
    rest = prompts ++ after
  := by
  rw [afterHead?] at h
  split at h
  · cases h
  · next s after hdrop =>
    split at h
    · next hs =>
      cases h
      refine ⟨items.takeWhile Symbol.isPrompt, after, fun s => isPrompt_of_mem_takeWhile, ?_, rfl⟩
      rw [← hs, ← hdrop, List.takeWhile_append_dropWhile]
    · cases h

/-- What follows the head holds no other symbols than the right side. -/
theorem mem_of_afterHead?_eq_some {rest : List Symbol} (h : afterHead? head items = some rest)
    {s : Symbol} (hs : s ∈ rest) :
  s ∈ items
  := by
  obtain ⟨prompts, after, -, rfl, rfl⟩ := exists_of_afterHead?_eq_some h
  simp only [List.mem_append, List.mem_cons] at hs ⊢
  apply hs.imp_right .inr

/-! ### Splitting -/

/-- The right sides of the terms of `g` once the term `head` was split. -/
inductive SplitRule (g : Grammar) (head tail : TermId) : TermId → List Symbol → Prop where
  /-- The other terms have the right sides that they had. -/
  | kept {t : TermId} {items : List Symbol} :
      t ≠ head → g.HasRule t items → SplitRule g head tail t items
  /-- A right side that does not begin with the head is followed by the tail. -/
  | enter {items : List Symbol} :
      g.HasRule head items → afterHead? head items = none →
      SplitRule g head tail head (items ++ [.term tail])
  /-- The tail can go on with what follows the head in a recursive rule. -/
  | again {items rest : List Symbol} :
      g.HasRule head items → afterHead? head items = some rest →
      SplitRule g head tail tail (rest ++ [.term tail])
  /-- The tail can end. -/
  | leave : SplitRule g head tail tail []

theorem id_ne_of_contains (hs : g.contains (.term t) = true)
    (hs' : g.contains (.term tail) = false) :
  t ≠ tail
  := fun h => ne_of_contains hs hs' (congrArg Symbol.term h)

/-- The right sides of a head that was split into `head` and `tail`. -/
def headRights (g : Grammar) (head tail : TermId) : List (List Symbol) :=
  (((g.rulesOf head).map (·.items)).filter fun items => (afterHead? head items).isNone).map
    fun items => items ++ [.term tail]

/-- The right sides of the tail of a head that was split into `head` and `tail`. -/
def tailRights (g : Grammar) (head tail : TermId) : List (List Symbol) :=
  (((g.rulesOf head).map (·.items)).filterMap (afterHead? head)).map
    (fun items => items ++ [.term tail]) ++ [[]]

theorem mem_headRights :
  items ∈ g.headRights head tail ↔
    ∃ right, g.HasRule head right ∧ afterHead? head right = none ∧ items = right ++ [.term tail]
  := by
  simp only [headRights, List.mem_map (l := List.filter _ _), List.mem_filter,
    ← hasRule_iff_mem_rulesOf, Option.isNone_iff_eq_none, and_assoc, eq_comm (a := items)]

theorem mem_tailRights :
  items ∈ g.tailRights head tail ↔
    (∃ right rest, g.HasRule head right ∧ afterHead? head right = some rest ∧
      items = rest ++ [.term tail]) ∨ items = []
  := by
  simp only [tailRights, List.mem_append, List.mem_singleton]
  apply or_congr_left
  constructor
  · intro h
    obtain ⟨rest, hrest, rfl⟩ := List.mem_map.mp h
    obtain ⟨right, hright, hrest⟩ := List.mem_filterMap.mp hrest
    use right, rest, hasRule_iff_mem_rulesOf.mpr hright
  · rintro ⟨right, rest, hright, hrest, rfl⟩
    apply List.mem_map_of_mem
    apply List.mem_filterMap.mpr
    use right, hasRule_iff_mem_rulesOf.mp hright

/-- The right sides of the split terms hold members and the tail. -/
theorem WellFormed.contains_or_eq_of_split (hg : g.WellFormed)
    (hitems : items ∈ g.headRights head tail ∨ items ∈ g.tailRights head tail) {s : Symbol}
    (hs : s ∈ items) :
  g.contains s = true ∨ s = .term tail
  := by
  rcases hitems with hitems | hitems
  · obtain ⟨right, hr, -, rfl⟩ := mem_headRights.mp hitems
    apply (List.mem_append.mp hs).imp (hg.contains_items hr) List.mem_singleton.mp
  · rcases mem_tailRights.mp hitems with ⟨right, rest, hr, hrest, rfl⟩ | rfl
    · apply (List.mem_append.mp hs).imp _ List.mem_singleton.mp
      intro hs
      apply hg.contains_items hr (mem_of_afterHead?_eq_some hrest hs)
    · cases hs

/-- A head that is split has a rule, and it and its tail are given the rules of the split. -/
theorem exists_of_splitHead_eq_some (h : g.splitHead head = some g') :
  (∃ right, g.HasRule head right) ∧ ∃ tail, tail = (g.freshTail head).1 ∧
    g' = ((g.freshTail head).2.replaceRules tail (g.tailRights head tail)).replaceRules head
      (g.headRights head tail)
  := by
  simp only [splitHead] at h
  split at h
  · cases h
  · next hothers =>
    constructor
    · simp only [List.isEmpty_iff, List.filter_eq_nil_iff, not_forall] at hothers
      obtain ⟨right, hright, -⟩ := hothers
      use right
      apply hasRule_iff_mem_rulesOf.mpr hright
    · cases h
      use (g.freshTail head).1, rfl
      rfl

section splitHead

variable (hg : g.WellFormed) (hhead : g.contains (.term head) = true)
  (htail : tail = (g.freshTail head).1)

include hg hhead htail

/-- The grammar is well formed after a head was split. -/
theorem WellFormed.split :
  (((g.freshTail head).2.replaceRules tail (g.tailRights head tail)).replaceRules head
    (g.headRights head tail)).WellFormed
  := by
  have hmember {items : List Symbol}
      (hitems : items ∈ g.headRights head tail ∨ items ∈ g.tailRights head tail) {s : Symbol}
      (hs : s ∈ items) : (g.freshTail head).2.contains s := by
    apply (contains_freshTail hg).mpr
    apply htail ▸ hg.contains_or_eq_of_split hitems hs
  apply WellFormed.replaceRules
  · apply (hg.freshTail hhead).replaceRules
    intro items hitems
    use (contains_freshTail hg).mpr (.inr (htail ▸ rfl))
    intro s hs
    apply hmember (.inr hitems) hs
  · intro items hitems
    simp only [contains_replaceRules]
    use (contains_freshTail hg).mpr (.inl hhead)
    intro s hs
    apply hmember (.inl hitems) hs

/-- The right sides after a head was split. -/
theorem hasRule_split :
  (((g.freshTail head).2.replaceRules tail (g.tailRights head tail)).replaceRules head
    (g.headRights head tail)).HasRule t items ↔ SplitRule g head tail t items
  := by
  have hfresh : g.contains (.term tail) = false := htail ▸ not_contains_freshTail hg head
  have hne {t : TermId} (ht : g.contains (.term t)) : t ≠ tail := id_ne_of_contains ht hfresh
  have hrules : (g.freshTail head).2.HasRule t items ↔ g.HasRule t items := by
    simp [HasRule, freshTail]
  rw [hasRule_replaceRules, hasRule_replaceRules, hrules, mem_headRights, mem_tailRights]
  constructor
  · rintro (⟨hnehead, ⟨-, hr⟩ | ⟨rfl, ⟨right, rest, hr, hrest, rfl⟩ | rfl⟩⟩ |
      ⟨rfl, right, hr, hnone, rfl⟩)
    · apply SplitRule.kept hnehead hr
    · apply SplitRule.again hr hrest
    · apply SplitRule.leave
    · apply SplitRule.enter hr hnone
  · intro h
    cases h with
    | kept hnehead hr =>
      left
      use hnehead
      left
      use hne (hg.contains_owner hr)
    | @enter right hr hnone =>
      right
      use rfl, right
    | @again right rest hr hrest =>
      left
      use (hne hhead).symm
      right
      use rfl
      left
      use right, rest
    | leave =>
      left
      use (hne hhead).symm
      right
      use rfl
      right
      rfl

end splitHead

/-- The reading by which the tail reads what can be put behind everything that the head derives, and
the other terms read what they derive. -/
def behindHead (g : Grammar) (head tail : TermId) : Reading := fun t w =>
  if t = tail then ∀ v, derived g.rules head v → derived g.rules head (v ++ w)
  else derived g.rules t w

theorem behindHead_of_ne (ht : t ≠ tail) :
  g.behindHead head tail t w ↔ derived g.rules t w
  := iff_of_eq (if_neg ht)

theorem behindHead_tail :
  g.behindHead head tail tail w ↔ ∀ v, derived g.rules head v → derived g.rules head (v ++ w)
  := iff_of_eq (if_pos rfl)

/-- The reading by which terms read what they derive, and the tail only what it still derives with
`v` put behind. -/
def extensibleBy (g : Grammar) (tail : TermId) (v : List TokenId) : Reading := fun t w =>
  derived g.rules t w ∧ (t = tail → derived g.rules t (w ++ v))

section split

variable (hrules : ∀ t items, g'.HasRule t items ↔ SplitRule g head tail t items)
  {right rest : List Symbol} {u v : List TokenId}

include hrules

/-- What the head reads by the split rules, it derived before, and the tail reads what can be put
behind everything that the head derives. -/
theorem derived_of_derived_split (hg : g.WellFormed) (htail : g.contains (.term tail) = false)
    (ht : g.contains (.term t)) (hw : derived g'.rules t w) :
  derived g.rules t w
  := by
  have hne {t : TermId} {items : List Symbol} (hr : g.HasRule t items) : t ≠ tail :=
    id_ne_of_contains (hg.contains_owner hr) htail
  have hold {t : TermId} {items rest : List Symbol} (hr : g.HasRule t items)
      (hrest : ∀ s ∈ rest, s ∈ items) {w : List TokenId}
      (hw : Reads (g.behindHead head tail) rest w) : Reads (derived g.rules) rest w := by
    apply hw.mono
    intro t' ht' u hu
    apply (behindHead_of_ne (id_ne_of_contains (hg.contains_items hr (hrest _ ht')) htail)).mp hu
  apply (behindHead_of_ne (id_ne_of_contains ht htail)).mp
  apply reading_of_derived (L := g.behindHead head tail) _ hw
  intro t items hr' w hw
  cases (hrules t items).mp hr' with
  | kept _ hr =>
    apply (behindHead_of_ne (hne hr)).mpr
    apply derived_of_hasRule hr (hold hr (fun _ => id) hw)
  | enter hr _ =>
    obtain ⟨u, v, rfl, hu, hv⟩ := reads_append.mp hw
    rw [reads_singleton, ReadsSymbol, behindHead_tail] at hv
    apply (behindHead_of_ne (hne hr)).mpr
    apply hv u (derived_of_hasRule hr (hold hr (fun _ => id) hu))
  | again hr hrest =>
    obtain ⟨u, v, rfl, hu, hv⟩ := reads_append.mp hw
    rw [reads_singleton, ReadsSymbol, behindHead_tail] at hv
    have hu := hold hr (fun s => mem_of_afterHead?_eq_some hrest) hu
    obtain ⟨prompts, after, hp, rfl, rfl⟩ := exists_of_afterHead?_eq_some hrest
    rw [behindHead_tail]
    intro x hx
    rw [← List.append_assoc]
    apply hv
    apply derived_of_hasRule hr
    rw [reads_prompts_append hp] at hu ⊢
    use x, u, rfl, hx, hu
  | leave =>
    obtain rfl := hw
    rw [behindHead_tail]
    intro v hv
    rwa [List.append_nil]

theorem derived_tail_nil :
  derived g'.rules tail []
  := derived_of_hasRule ((hrules _ _).mpr .leave) rfl

/-- The tail derives what follows the head in a recursive rule, and then what it derives itself. -/
theorem derived_tail_of_again (hr : g.HasRule head right) (hrest : afterHead? head right = some rest)
    (hu : Reads (derived g'.rules) rest u) (hv : derived g'.rules tail v) :
  derived g'.rules tail (u ++ v)
  := by
  apply derived_of_hasRule ((hrules _ _).mpr (.again hr hrest))
  apply reads_append.mpr
  use u, v, rfl, hu
  rw [reads_singleton]
  apply hv

/-- The head derives what is read by a rule that is not recursive, and then what the tail derives. -/
theorem derived_head_of_enter (hr : g.HasRule head right) (hnone : afterHead? head right = none)
    (hu : Reads (derived g'.rules) right u) (hv : derived g'.rules tail v) :
  derived g'.rules head (u ++ v)
  := by
  apply derived_of_hasRule ((hrules _ _).mpr (.enter hr hnone))
  apply reads_append.mpr
  use u, v, rfl, hu
  rw [reads_singleton]
  apply hv

/-- What follows the head in a recursive rule can be put behind what the tail derives. -/
theorem derived_tail_append (hne : tail ≠ head) (hnew : g.contains (.term tail) = false)
    (hg : g.WellFormed) (hr : g.HasRule head right) (hrest : afterHead? head right = some rest)
    (hu : derived g'.rules tail u) (hv : Reads (derived g'.rules) rest v) :
  derived g'.rules tail (u ++ v)
  := by
  suffices g'.extensibleBy tail v tail u from this.2 rfl
  apply reading_of_derived (L := g'.extensibleBy tail v) _ hu
  intro t items hr' w hw
  use derived_of_hasRule hr' (hw.mono fun t _ u hu => hu.1)
  rintro rfl
  cases (hrules _ _).mp hr' with
  | kept _ hr => apply absurd rfl (id_ne_of_contains (hg.contains_owner hr) hnew)
  | enter _ _ => apply absurd rfl hne
  | again hr hrest =>
    obtain ⟨x, y, rfl, hx, hy⟩ := reads_append.mp hw
    rw [reads_singleton] at hy
    rw [List.append_assoc]
    apply derived_tail_of_again hrules hr hrest (hx.mono fun t _ u hu => hu.1) (hy.2 rfl)
  | leave =>
    obtain rfl := hw
    rw [List.nil_append, ← List.append_nil v]
    apply derived_tail_of_again hrules hr hrest hv (derived_tail_nil hrules)

/-- What follows the head in a recursive rule can be put behind what the head derives, because that
ends with what the tail derives. -/
theorem derived_head_append (hne : tail ≠ head) (hnew : g.contains (.term tail) = false)
    (hg : g.WellFormed) (hr : g.HasRule head right) (hrest : afterHead? head right = some rest)
    (hu : derived g'.rules head u) (hv : Reads (derived g'.rules) rest v) :
  derived g'.rules head (u ++ v)
  := by
  obtain ⟨items, hitems, hu⟩ := exists_hasRule_of_derived hu
  cases (hrules _ _).mp hitems with
  | kept hne' _ => apply absurd rfl hne'
  | enter hother hnone =>
    obtain ⟨x, y, rfl, hx, hy⟩ := reads_append.mp hu
    rw [reads_singleton] at hy
    have hyv := derived_tail_append hrules hne hnew hg hr hrest hy hv
    rw [List.append_assoc]
    apply derived_head_of_enter hrules hother hnone hx hyv
  | again _ _ => apply absurd rfl hne
  | leave => apply absurd rfl hne

/-- The terms derive what they did before the head was split. -/
theorem derived_split_of_derived (hg : g.WellFormed) (hhead : g.contains (.term head) = true)
    (htail : g.contains (.term tail) = false) (hw : derived g.rules t w) :
  derived g'.rules t w
  := by
  have hne : tail ≠ head := (id_ne_of_contains hhead htail).symm
  apply reading_of_derived _ hw
  intro t items hr w hw
  by_cases ht : t = head
  · subst ht
    cases hrest : afterHead? t items with
    | none =>
      rw [← List.append_nil w]
      apply derived_head_of_enter hrules hr hrest hw (derived_tail_nil hrules)
    | some rest =>
      obtain ⟨prompts, after, hp, rfl, rfl⟩ := exists_of_afterHead?_eq_some hrest
      rw [reads_prompts_append hp] at hw
      obtain ⟨u, v, rfl, hu, hv⟩ := hw
      apply derived_head_append hrules hne htail hg hr hrest hu ((reads_prompts_append hp).mpr hv)
  · apply derived_of_hasRule ((hrules _ _).mpr (.kept ht hr)) hw

end split

/-- A grammar keeps what it says when a head is split. -/
theorem keeps_splitHead (hg : g.WellFormed) (h : g.splitHead head = some g') :
  Keeps g g'
  := by
  obtain ⟨⟨right, hright⟩, tail, htail, rfl⟩ := exists_of_splitHead_eq_some h
  have hhead := hg.contains_owner hright
  have hfresh : g.contains (.term tail) = false := htail ▸ not_contains_freshTail hg head
  constructor
  · apply hg.split hhead htail
  · intro k
    rw [table_replaceRules, table_replaceRules, freshTail]
    apply entries_subset_intern hg
  · apply (table_replaceRules .token _).trans (table_replaceRules .token _)
  · rw [start_replaceRules, start_replaceRules]
    apply start_intern
  · intro t ht w
    constructor
    · apply derived_of_derived_split (fun _ _ => hasRule_split hg hhead htail) hg hfresh ht
    · apply derived_split_of_derived (fun _ _ => hasRule_split hg hhead htail) hg hhead hfresh

/-! ### Expanding -/

/-- A right side that begins with a term, possibly after prompts, is expanded by the right sides
of that term; any other stays as it is. -/
theorem expandLeading_cases (g : Grammar) (items : List Symbol) :
  (∃ prompts leading rest, (∀ s ∈ prompts, s.isPrompt) ∧ items = prompts ++ .term leading :: rest ∧
      (afterHead? leading items).isSome ∧
      ∀ items', items' ∈ g.expandLeading items ↔
        ∃ right, g.HasRule leading right ∧ items' = prompts ++ right ++ rest) ∨
    g.expandLeading items = [items]
  := by
  rw [expandLeading]
  split
  · next leading rest hdrop =>
    left
    refine ⟨items.takeWhile Symbol.isPrompt, leading, rest, fun s => isPrompt_of_mem_takeWhile,
      ?_, ?_, fun items' => ?_⟩
    · rw [← hdrop, List.takeWhile_append_dropWhile]
    · simp [afterHead?, hdrop]
    · simp only [List.mem_map, HasRule, mem_rulesOf]
      constructor
      · rintro ⟨r, ⟨hr, rfl⟩, rfl⟩
        exact ⟨r.items, ⟨r, hr, rfl, rfl⟩, rfl⟩
      · rintro ⟨_, ⟨r, hr, rfl, rfl⟩, rfl⟩
        exact ⟨r, ⟨hr, rfl⟩, rfl⟩
  · exact .inr rfl

section expand

variable {a : Analysis}

/-- The right sides after a head was expanded. -/
theorem hasRule_expandHead :
  (g.expandHead a head).HasRule t items ↔
    (t ≠ head ∧ g.HasRule t items) ∨ t = head ∧ ∃ right, g.HasRule head right ∧
      items ∈ if canBeginWith a head right then g.expandLeading right else [right]
  := by
  rw [expandHead, hasRule_replaceRules, List.mem_flatMap]
  simp only [HasRule, mem_rulesOf]
  constructor
  · rintro (h | ⟨rfl, r, ⟨hr, rfl⟩, hitems⟩)
    · exact .inl h
    · exact .inr ⟨rfl, r.items, ⟨r, hr, rfl, rfl⟩, hitems⟩
  · rintro (h | ⟨rfl, _, ⟨r, hr, rfl, rfl⟩, hitems⟩)
    · exact .inl h
    · exact .inr ⟨rfl, r, ⟨hr, rfl⟩, hitems⟩

/-- A right side that is not expanded stays, and from one that is expanded come those in which the
leading term is replaced. -/
theorem mem_expanded_cases (hnone : ∀ right, g.HasRule head right → afterHead? head right = none)
    {right : List Symbol} (hr : g.HasRule head right) :
  (∀ items, (items ∈ if canBeginWith a head right then g.expandLeading right else [right]) ↔
      items = right) ∨
    ∃ prompts leading rest, (∀ s ∈ prompts, s.isPrompt) ∧ right = prompts ++ .term leading :: rest ∧
      leading ≠ head ∧
      ∀ items, (items ∈ if canBeginWith a head right then g.expandLeading right else [right]) ↔
        ∃ middle, g.HasRule leading middle ∧ items = prompts ++ middle ++ rest
  := by
  split
  · rcases g.expandLeading_cases right with ⟨prompts, leading, rest, hp, hright, hsome, hmem⟩ | he
    · refine .inr ⟨prompts, leading, rest, hp, hright, ?_, hmem⟩
      rintro rfl
      rw [hnone right hr] at hsome
      cases hsome
    · exact .inl fun items => by rw [he, List.mem_singleton]
  · exact .inl fun items => List.mem_singleton

/-- The terms derive the same after a head was expanded that no right side of it begins with. -/
theorem derived_expand (hnone : ∀ right, g.HasRule head right → afterHead? head right = none) :
  derived (g.expandHead a head).rules t w ↔ derived g.rules t w
  := by
  constructor
  · apply reading_of_derived
    intro t items hr w hw
    rcases hasRule_expandHead.mp hr with ⟨-, hr⟩ | ⟨rfl, right, hr, hitems⟩
    · apply derived_of_hasRule hr hw
    · apply derived_of_hasRule hr
      rcases mem_expanded_cases (a := a) hnone hr with hmem | ⟨prompts, leading, rest, hp, rfl, -, hmem⟩
      · rwa [← (hmem items).mp hitems]
      · obtain ⟨middle, hmiddle, rfl⟩ := (hmem items).mp hitems
        rw [List.append_assoc, reads_prompts_append hp, reads_append] at hw
        obtain ⟨u, v, rfl, hu, hv⟩ := hw
        rw [reads_prompts_append hp]
        use u, v, rfl, derived_of_hasRule hmiddle hu, hv
  · apply reading_of_derived
    intro t right hr w hw
    by_cases ht : t = head
    · subst ht
      have hnew {items : List Symbol}
          (hitems : items ∈ if canBeginWith a t right then g.expandLeading right else [right]) :
          (g.expandHead a t).HasRule t items :=
        hasRule_expandHead.mpr (.inr ⟨rfl, right, hr, hitems⟩)
      rcases mem_expanded_cases (a := a) hnone hr with hmem | ⟨prompts, leading, rest, hp, rfl, hne, hmem⟩
      · apply derived_of_hasRule (hnew ((hmem right).mpr rfl)) hw
      · rw [reads_prompts_append hp] at hw
        obtain ⟨u, v, rfl, hu, hv⟩ := hw
        obtain ⟨middle, hmiddle, hu⟩ := exists_hasRule_of_derived hu
        rcases hasRule_expandHead.mp hmiddle with ⟨-, hmiddle⟩ | ⟨rfl, -⟩
        · apply derived_of_hasRule (hnew ((hmem _).mpr ⟨middle, hmiddle, rfl⟩))
          rw [List.append_assoc, reads_prompts_append hp, reads_append]
          use u, v, rfl, hu, hv
        · apply absurd rfl hne
    · apply derived_of_hasRule (hasRule_expandHead.mpr (.inl ⟨ht, hr⟩)) hw

/-- A grammar keeps what it says when a head is expanded that no right side of it begins with. -/
theorem keeps_expandHead (hg : g.WellFormed)
    (hnone : ∀ right, g.HasRule head right → afterHead? head right = none) :
  Keeps g (g.expandHead a head)
  := by
  refine ⟨?_, fun k => ?_, ?_, start_replaceRules _, fun t _ w => derived_expand hnone⟩
  · apply hg.replaceRules
    intro items hitems
    have hnew : (g.expandHead a head).HasRule head items :=
      hasRule_replaceRules.mpr (.inr ⟨rfl, hitems⟩)
    obtain ⟨hne, -⟩ | ⟨-, right, hr, hitems⟩ := hasRule_expandHead.mp hnew
    · apply absurd rfl hne
    refine ⟨hg.contains_owner hr, fun s hs => ?_⟩
    rcases mem_expanded_cases (a := a) hnone hr with hmem | ⟨prompts, leading, rest, -, rfl, -, hmem⟩
    · rw [(hmem items).mp hitems] at hs
      apply hg.contains_items hr hs
    · obtain ⟨middle, hmiddle, rfl⟩ := (hmem items).mp hitems
      simp only [List.mem_append] at hs
      rcases hs with (hs | hs) | hs
      · apply hg.contains_items hr (by simp [hs])
      · apply hg.contains_items hmiddle hs
      · apply hg.contains_items hr (by simp [hs])
  · rw [expandHead, table_replaceRules]
    apply List.Subset.refl _
  · apply table_replaceRules .token _

end expand

/-! ### Elimination -/

/-- A step splits the head, or it expands it if no right side of the head begins with it. -/
theorem eliminationStep_cases {a : Analysis} (h : g.eliminationStep a head = some g') :
  g.splitHead head = some g' ∨
    (∀ right, g.HasRule head right → afterHead? head right = none) ∧ g.expandHead a head = g'
  := by
  rw [eliminationStep] at h
  split at h
  · exact .inl h
  · next hdirect =>
    refine .inr ⟨?_, Option.some.inj h⟩
    rintro _ ⟨r, hr, rfl, rfl⟩
    simp only [List.any_eq_true, mem_rulesOf, not_exists, not_and, Bool.not_eq_true,
      Option.isSome_eq_false_iff, Option.isNone_iff_eq_none] at hdirect
    apply hdirect r ⟨hr, rfl⟩

/-- A grammar keeps what it says when a step is made, at whatever head. -/
theorem keeps_eliminationStep {a : Analysis} (hg : g.WellFormed)
    (h : g.eliminationStep a head = some g') :
  Keeps g g'
  := by
  rcases eliminationStep_cases h with hsplit | ⟨hnone, rfl⟩
  · apply keeps_splitHead hg hsplit
  · apply keeps_expandHead hg hnone

/-- What holds of a grammar and is kept by every step of the elimination holds of the grammar that it
ends with, in which no left recursion is found. -/
theorem eliminate_induction {motive : Grammar → Prop}
    (keep : ∀ h head path h', motive h → h.analyze.leftRecursion = head :: path →
      h.eliminationStep h.analyze head = some h' → motive h'.tidyRules)
    {steps : Nat} (hg : motive g) (h : g.eliminate steps = .ok g') :
  motive g' ∧ g'.analyze.leftRecursion = []
  := by
  induction steps generalizing g with
  | zero =>
    unfold eliminate at h
    simp only at h
    split at h
    · next hnil =>
      cases h
      use hg
    · cases h
  | succ steps ih =>
    unfold eliminate at h
    simp only at h
    split at h
    · next hnil =>
      cases h
      use hg
    · next head path hhead =>
      split at h
      · cases h
      · next g₁ hstep => apply ih (keep g head path g₁ hg hhead hstep) h

/-- A grammar keeps what it says when left recursion is eliminated, in however many steps. -/
theorem keeps_eliminate {steps : Nat} (hg : g.WellFormed) (h : g.eliminate steps = .ok g') :
  Keeps g g'
  := by
  refine (eliminate_induction (motive := Keeps g) ?_ (.refl hg) h).1
  intro h head path h' hkeeps _ hstep
  have hkeeps' := keeps_eliminationStep hkeeps.wellFormed hstep
  apply (hkeeps.trans hkeeps').trans (keeps_tidyRules hkeeps'.wellFormed)

end CanonicalLR.Grammar
