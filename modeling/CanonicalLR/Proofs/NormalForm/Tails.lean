import CanonicalLR.Proofs.Language.Cycles
import CanonicalLR.Proofs.NormalForm.Proper

/-!
# Grammars with tails

The elimination leaves a grammar with *tails* (`Tailed`): a right side of an old term is something
that the term was rewritten to, with tails behind it, so it begins with an old symbol
(`Tailed.exists_leading?_old`).  Only old terms become left recursive
(`Tailed.contains_of_transGen`).

Both kinds of steps keep this (`Tailed.splitHead`, `Tailed.expandHead`), as they leave the left
recursive terms behind the head as they were (`Untouched`).  If every cycle goes through the first
of its terms (`CyclesMeetFirst`), then expanding the head leaves one term less left recursive
(`Tailed.exists_not_leftRecursive_expandHead`).
-/

namespace CanonicalLR.Grammar

open Relation

variable {g₀ g g' : Grammar} {head tail t u : TermId} {items right prompts rest w : List Symbol}

/-! ### Rules with tails -/

/-- The grammar `g` keeps what `g₀` says.  The right sides of the terms of `g₀` come from right sides
by rewriting, and have tails behind; those of the tails are empty, or begin with a symbol of `g₀`. -/
structure Tailed (g₀ g : Grammar) : Prop where
  keeps : Keeps g₀ g
  old : ∀ t items, g₀.contains (.term t) = true → g.HasRule t items →
    ∃ w tails, items = w ++ tails ∧ TransGen g₀.Rewrites [.term t] w
  new : ∀ t items, g₀.contains (.term t) = false → g.HasRule t items →
    items = [] ∨ ∃ s, leading? items = some s ∧ g₀.contains s

namespace Tailed

theorem refl (hg : g.WellFormed) :
  Tailed g g
  := by
  use .refl hg
  · intro t items _ hr
    use items, [], (List.append_nil items).symm, .single (rewrites_singleton_iff.mpr hr)
  · intro t items ht hr
    rw [hg.contains_owner hr] at ht
    cases ht

theorem tidyRules (h : Tailed g₀ g) :
  Tailed g₀ g.tidyRules
  := by
  use h.keeps.trans (keeps_tidyRules h.keeps.wellFormed)
  · exact fun t items ht hr => h.old t items ht (hasRule_of_hasRule_tidyRules hr)
  · exact fun t items ht hr => h.new t items ht (hasRule_of_hasRule_tidyRules hr)

section leads

variable (hg : g₀.WellFormed) (hp : g₀.Proper) (h : Tailed g₀ g)

include hg hp h

/-- A right side of an old term begins like what the term is rewritten to. -/
theorem exists_leading?_old (ht : g₀.contains (.term t) = true) (hr : g.HasRule t items) :
  ∃ w tails s, items = w ++ tails ∧ TransGen g₀.Rewrites [.term t] w ∧ leading? w = some s ∧
    leading? items = some s ∧ g₀.contains s = true
  := by
  obtain ⟨w, tails, rfl, hw⟩ := h.old t items ht hr
  obtain ⟨s, hs, hmem⟩ := hp.exists_leading? hg ht hw
  use w, tails, s, rfl, hw, hs
  rw [leading?_append, hs, Option.some_or]
  use rfl

/-- A right side is empty or begins with an old symbol. -/
theorem eq_nil_or_leading? (hr : g.HasRule t items) :
  items = [] ∨ ∃ s, leading? items = some s ∧ g₀.contains s
  := by
  cases ht : g₀.contains (.term t) with
  | true =>
    obtain ⟨_, _, s, -, -, -, hs, hmem⟩ := h.exists_leading?_old hg hp ht hr
    exact .inr ⟨s, hs, hmem⟩
  | false => apply h.new t items ht hr

/-- A right side can be led by the term that it begins with only, and this is old. -/
theorem leading?_of_canLead (hr : g.HasRule t items) (hlead : g.CanLead items u) :
  leading? items = some (.term u) ∧ g₀.contains (.term u) = true
  := by
  rcases h.eq_nil_or_leading? hg hp hr with rfl | ⟨s, hs, hmem⟩
  · simp at hlead
  · obtain rfl : s = .term u := by
      apply eq_of_canLead hs _ hlead
      rintro t rfl
      rw [h.keeps.derived_iff t hmem]
      apply hp.not_nullable t hmem
    use hs, hmem

/-- A term leads to the terms that its right sides begin with, and these are old. -/
theorem exists_of_leads (hlead : g.Leads t u) :
  ∃ items, g.HasRule t items ∧ leading? items = some (.term u) ∧ g₀.contains (.term u) = true
  := by
  obtain ⟨items, hr, hlead⟩ := hlead
  exact ⟨items, hr, h.leading?_of_canLead hg hp hr hlead⟩

/-- What an old term leads to was reached from it before. -/
theorem transGen_of_leads (ht : g₀.contains (.term t) = true) (hlead : g.Leads t u) :
  TransGen g₀.Leads t u
  := by
  obtain ⟨items, hr, hu, -⟩ := h.exists_of_leads hg hp hlead
  obtain ⟨w, _, s, -, hw, hs, hs', -⟩ := h.exists_leading?_old hg hp ht hr
  rw [hu] at hs'
  obtain rfl := Option.some.inj hs'
  apply exists_rewrites_beginsWith_iff.mp
  exact ⟨w, hw, beginsWith_iff.mpr hs⟩

/-- Only old terms are left recursive. -/
theorem contains_of_transGen (hmany : TransGen g.Leads t u) :
  g₀.contains (.term u) = true
  := by
  obtain ⟨v, -, hlead⟩ := TransGen.tail'_iff.mp hmany
  obtain ⟨_, -, -, hmem⟩ := h.exists_of_leads hg hp hlead
  apply hmem

/-- A cycle is a cycle of another grammar in which what an old term leads to can be reached. -/
theorem leftRecursive_of_leads
    (hstep : ∀ u v, g₀.contains (.term u) = true → g.Leads u v → TransGen g'.Leads u v)
    (ht : g.LeftRecursive t) :
  g'.LeftRecursive t
  := by
  rw [leftRecursive_iff] at ht ⊢
  have hcycle := transGen_on_cycle ht .refl
  apply TransGen.closed _ _ _ hcycle
  rintro u v ⟨hlead, hu⟩
  apply hstep u v (h.contains_of_transGen hg hp hu) hlead

/-- Whether a right side can begin with the head is whether the head is reached from the term that it
begins with. -/
theorem canBeginWith_iff (hr : g.HasRule t right) :
  canBeginWith g.analyze head right = true ↔
    ∃ x, leading? right = some (.term x) ∧ ReflTransGen g.Leads x head
  := by
  rw [canBeginWith_analyze h.keeps.wellFormed]
  constructor
  · rintro ⟨x, hlead, hreach⟩
    use x, (h.leading?_of_canLead hg hp hr hlead).1
  · rintro ⟨x, hx, hreach⟩
    exact ⟨x, canLead_of_beginsWith (beginsWith_iff.mpr hx), hreach⟩

end leads

end Tailed

/-! ### Cycles that meet the first term -/

/-- Among the terms that are reached from each other by what leads to what, every cycle goes through
the first of them. -/
def CyclesMeetFirst (g : Grammar) : Prop :=
  ∀ first t, (∀ u, TransGen g.Leads first u → TransGen g.Leads u first → first ≤ u) →
    TransGen g.Leads first t → TransGen g.Leads t first → ¬ TransGen (Avoiding g.Leads first) t t

/-- All left recursive terms but the first have the right sides that they have in `g₀`. -/
def Untouched (g₀ g : Grammar) : Prop :=
  ∀ t u, g.LeftRecursive t → g.LeftRecursive u → u < t → ∀ items, g.HasRule t items ↔ g₀.HasRule t items

theorem Untouched.refl (g : Grammar) :
  Untouched g g
  := fun _ _ _ _ _ _ => Iff.rfl

section head

variable (hg : g₀.WellFormed) (hp : g₀.Proper) (h : Tailed g₀ g) (hold : Untouched g₀ g)
  (hhead : g.LeftRecursive head) (hfirst : ∀ t, g.LeftRecursive t → head ≤ t)

include hg hp h

theorem Tailed.transGen_of_transGen (ht : g₀.contains (.term t) = true)
    (hmany : TransGen g.Leads t u) :
  TransGen g₀.Leads t u
  := by
  induction hmany with
  | single hlead => apply h.transGen_of_leads hg hp ht hlead
  | tail hmany hlead ih =>
    apply ih.trans (h.transGen_of_leads hg hp (h.contains_of_transGen hg hp hmany) hlead)

include hold hhead hfirst

/-- The left recursive terms but the head lead to what they led to before. -/
theorem Untouched.leads (ht : g.LeftRecursive t) (hne : t ≠ head) (hlead : g.Leads t u) :
  g₀.Leads t u
  := by
  obtain ⟨items, hr, hu, -⟩ := h.exists_of_leads hg hp hlead
  have hlt : head < t := Nat.lt_of_le_of_ne (hfirst t ht) (Ne.symm hne)
  apply leads_of_beginsWith ((hold t head ht hhead hlt items).mp hr) (beginsWith_iff.mpr hu)

/-- If every cycle of `g₀` goes through the first term of its kind, then every cycle of `g` that is
reached from the head and reaches it goes through the head. -/
theorem Untouched.not_avoiding (hmeet : g₀.CyclesMeetFirst) (hx : TransGen g.Leads head u)
    (hx' : TransGen g.Leads u head) :
  ¬ TransGen (Avoiding g.Leads head) u u
  := by
  classical
  intro hcycle
  have hmem := h.contains_of_transGen hg hp hx
  have hmem' := h.contains_of_transGen hg hp hx'
  have hself := h.transGen_of_transGen hg hp hmem (transGen_of_avoiding hcycle)
  have hex : ∃ first, TransGen g₀.Leads u first ∧ TransGen g₀.Leads first u := ⟨u, hself, hself⟩
  obtain ⟨hout, hback⟩ := Nat.find_spec hex
  have hmin : ∀ v, TransGen g₀.Leads u v → TransGen g₀.Leads v u → Nat.find hex ≤ v :=
    fun v hv hv' => Nat.find_min' hex ⟨hv, hv'⟩
  generalize Nat.find hex = first at hout hback hmin
  have hle : first ≤ head := by
    apply hmin head (h.transGen_of_transGen hg hp hmem hx')
    apply h.transGen_of_transGen hg hp hmem' hx
  apply hmeet first u (fun v hv hv' => hmin v (hout.trans hv) (hv'.trans hback)) hback hout
  -- All terms on the cycle are left recursive and come after the head, so they lead to what they led
  -- to before, and none of them is the first.
  apply TransGen.mono _ _ _ (transGen_on_cycle hcycle .refl)
  rintro v v' ⟨⟨hlead, hne⟩, hv⟩
  have hrec : g.LeftRecursive v := leftRecursive_iff.mpr (transGen_of_avoiding hv)
  use hold.leads hg hp h hhead hfirst hrec hne hlead
  rintro rfl
  apply hne (Nat.le_antisymm hle (hfirst v hrec))

end head

/-! ### Splitting the head -/

/-- The right sides after the head was split. -/
theorem exists_hasRule_of_splitHead (hg : g.WellFormed) (hstep : g.splitHead head = some g') :
  ∃ tail, g.contains (.term tail) = false ∧
    ∀ t items, g'.HasRule t items ↔ SplitRule g head tail t items
  := by
  obtain ⟨⟨right, hright⟩, tail, htail, rfl⟩ := exists_of_splitHead_eq_some hstep
  use tail, htail ▸ not_contains_freshTail hg head
  exact fun t items => hasRule_split hg (hg.contains_owner hright) htail

/-- A head that derives something can be split. -/
theorem isSome_splitHead {v : List TokenId} (hv : derived g.rules head v) :
  (g.splitHead head).isSome
  := by
  rw [Option.isSome_iff_ne_none]
  intro hnone
  have hall : ∀ right, g.HasRule head right → (afterHead? head right).isSome := by
    intro right hr
    simp only [splitHead] at hnone
    split at hnone
    · next hothers =>
      simp only [List.isEmpty_iff, List.filter_eq_nil_iff] at hothers
      have := hothers right (hasRule_iff_mem_rulesOf.mp hr)
      rwa [Option.isNone_iff_eq_none, ← ne_eq, ← Option.isSome_iff_ne_none] at this
    · cases hnone
  suffices head ≠ head from this rfl
  apply reading_of_derived (L := fun t _ => t ≠ head) _ hv
  rintro t items hr w hw rfl
  obtain ⟨after, hafter⟩ := Option.isSome_iff_exists.mp (hall items hr)
  obtain ⟨prompts, rest, hprompts, rfl, -⟩ := exists_of_afterHead?_eq_some hafter
  obtain ⟨_, _, -, hhead, -⟩ := (reads_prompts_append hprompts).mp hw
  apply hhead rfl

/-- Once the head was split, an old term has right sides that it had, and if it is the head, then
these did not begin with it, and a tail stands behind them. -/
theorem Tailed.exists_of_splitHead (h : Tailed g₀ g) (hstep : g.splitHead head = some g')
    (ht : g₀.contains (.term t) = true) (hr : g'.HasRule t items) :
  ∃ right, g.HasRule t right ∧ (t ≠ head ∧ items = right ∨
    t = head ∧ afterHead? head right = none ∧ ∃ tail, items = right ++ [.term tail])
  := by
  obtain ⟨tail, htail, hrules⟩ := exists_hasRule_of_splitHead h.keeps.wellFormed hstep
  have htail₀ : t ≠ tail := id_ne_of_contains (h.keeps.contains ht) htail
  cases (hrules t items).mp hr with
  | kept hne hright => exact ⟨items, hright, .inl ⟨hne, rfl⟩⟩
  | @enter right hright hnone => exact ⟨right, hright, .inr ⟨rfl, hnone, tail, rfl⟩⟩
  | again _ _ => apply absurd rfl htail₀
  | leave => apply absurd rfl htail₀

/-- The old terms other than the head keep their right sides when the head is split. -/
theorem Tailed.hasRule_splitHead_iff (h : Tailed g₀ g) (hstep : g.splitHead head = some g')
    (ht : g₀.contains (.term t) = true) (hne : t ≠ head) :
  g'.HasRule t items ↔ g.HasRule t items
  := by
  constructor
  · intro hr
    obtain ⟨right, hright, ⟨-, rfl⟩ | ⟨rfl, -⟩⟩ := h.exists_of_splitHead hstep ht hr
    · apply hright
    · apply absurd rfl hne
  · obtain ⟨tail, -, hrules⟩ := exists_hasRule_of_splitHead h.keeps.wellFormed hstep
    exact fun hr => (hrules t items).mpr (.kept hne hr)

section split

variable (hg : g₀.WellFormed) (hp : g₀.Proper) (h : Tailed g₀ g)
  (hhead : g₀.contains (.term head) = true)

include hg hp h hhead

/-- What follows the head in a right side of its own begins with an old symbol, as the head is not
rewritten to itself alone. -/
theorem Tailed.exists_leading?_afterHead (hr : g.HasRule head right)
    (hrest : afterHead? head right = some rest) :
  ∃ s, leading? rest = some s ∧ g₀.contains s = true
  := by
  have hlead := afterHead?_isSome_iff.mp (Option.isSome_of_eq_some hrest)
  obtain ⟨w, tails, s, rfl, hw, hs, hs', -⟩ := h.exists_leading?_old hg hp hhead hr
  rw [hlead] at hs'
  obtain rfl := Option.some.inj hs'
  obtain ⟨-, prompts, after, hprompts, rfl⟩ := leading?_eq_some_iff.mp hs
  rw [List.append_assoc, List.cons_append, afterHead?_prompts hprompts] at hrest
  obtain rfl := Option.some.inj hrest
  cases hafter : leading? after with
  | none =>
    exfalso
    apply hp.not_alone head _ hw
    simp [filter_isBasic_prompts hprompts,
      filter_isBasic_prompts (leading?_eq_none_iff.mp hafter), Symbol.isBasic]
  | some s =>
    use s
    simp only [leading?_prompts_append hprompts, leading?_append, hafter, Option.some_or, true_and]
    apply hg.contains_of_rewritten hhead hw
    simp [List.mem_of_find?_eq_some hafter]

variable (hstep : g.splitHead head = some g')

include hstep

theorem Tailed.splitHead :
  Tailed g₀ g'
  := by
  use h.keeps.trans (keeps_splitHead h.keeps.wellFormed hstep)
  · intro t items ht hr
    obtain ⟨right, hright, ⟨-, rfl⟩ | ⟨rfl, -, tail, rfl⟩⟩ := h.exists_of_splitHead hstep ht hr
    · apply h.old t items ht hright
    · obtain ⟨w, tails, rfl, hw⟩ := h.old t right ht hright
      use w, tails ++ [.term tail], List.append_assoc _ _ _
  · obtain ⟨tail, -, hrules⟩ := exists_hasRule_of_splitHead h.keeps.wellFormed hstep
    intro t items ht hr
    cases (hrules t items).mp hr with
    | kept _ hold => apply h.new t items ht hold
    | enter _ _ =>
      rw [hhead] at ht
      cases ht
    | again hright hrest =>
      obtain ⟨s, hs, hmem⟩ := h.exists_leading?_afterHead hg hp hhead hright hrest
      right
      use s
      rw [leading?_append, hs, Option.some_or]
      use rfl
    | leave => exact .inl rfl

/-- Once the head was split, the right sides of the old terms begin like right sides that they had,
which did not begin with the head if they are its own. -/
theorem Tailed.exists_leading?_splitHead (ht : g₀.contains (.term t) = true)
    (hr : g'.HasRule t items) :
  ∃ right, g.HasRule t right ∧ leading? items = leading? right ∧
    (t = head → afterHead? head right = none)
  := by
  obtain ⟨right, hright, ⟨hne, rfl⟩ | ⟨rfl, hnone, tail, rfl⟩⟩ := h.exists_of_splitHead hstep ht hr
  · exact ⟨items, hright, rfl, fun he => absurd he hne⟩
  · obtain ⟨_, _, s, -, -, -, hs, -⟩ := h.exists_leading?_old hg hp ht hright
    use right, hright
    rw [leading?_append, hs, Option.some_or]
    exact ⟨rfl, fun _ => hnone⟩

/-- What an old term leads to once the head was split, it led to before. -/
theorem Tailed.leads_of_splitHead (ht : g₀.contains (.term t) = true) (hlead : g'.Leads t u) :
  g.Leads t u
  := by
  obtain ⟨items, hr, hu, -⟩ := (h.splitHead hg hp hhead hstep).exists_of_leads hg hp hlead
  obtain ⟨right, hright, he, -⟩ := h.exists_leading?_splitHead hg hp hhead hstep ht hr
  apply leads_of_beginsWith hright (beginsWith_iff.mpr (he.symm.trans hu))

/-- No term becomes left recursive when the head is split. -/
theorem Tailed.leftRecursive_of_splitHead (ht : g'.LeftRecursive t) :
  g.LeftRecursive t
  := by
  apply (h.splitHead hg hp hhead hstep).leftRecursive_of_leads hg hp _ ht
  exact fun u v hu hlead => .single (h.leads_of_splitHead hg hp hhead hstep hu hlead)

/-- Once the head was split, none of its right sides begins with it. -/
theorem Tailed.leading?_ne_of_splitHead (hr : g'.HasRule head items) :
  leading? items ≠ some (.term head)
  := by
  obtain ⟨right, -, he, hnone⟩ := h.exists_leading?_splitHead hg hp hhead hstep hhead hr
  rw [he, ne_eq, ← afterHead?_isSome_iff, hnone rfl]
  simp

end split

/-! ### Expanding the head -/

/-- A sequence has one leading symbol, and prompts come before it. -/
theorem prompts_unique {prompts' rest' : List Symbol} {s' : Symbol} (hp : ∀ s ∈ prompts, s.isPrompt)
    (hp' : ∀ s ∈ prompts', s.isPrompt) (hs : s.isPrompt = false) (hs' : s'.isPrompt = false)
    (he : prompts ++ s :: rest = prompts' ++ s' :: rest') :
  prompts = prompts' ∧ s = s' ∧ rest = rest'
  := by
  have htake := congrArg (List.takeWhile Symbol.isPrompt) he
  have hdrop := congrArg (List.dropWhile Symbol.isPrompt) he
  simp only [List.takeWhile_append_of_pos hp, List.takeWhile_append_of_pos hp',
    List.dropWhile_append_of_pos hp, List.dropWhile_append_of_pos hp', List.takeWhile_cons, hs, hs',
    List.dropWhile_cons, Bool.false_eq_true, if_false, List.append_nil, List.cons.injEq] at htake hdrop
  exact ⟨htake, hdrop⟩

/-- A term that the head begins with and from which the head is reached is left recursive, and it is
another term if no right side of the head begins with the head. -/
theorem leftRecursive_of_leading? {x : TermId}
    (hindirect : ∀ right, g.HasRule head right → leading? right ≠ some (.term head))
    (hr : g.HasRule head right) (hx : leading? right = some (.term x))
    (hreach : ReflTransGen g.Leads x head) :
  g.LeftRecursive x ∧ x ≠ head
  := by
  have hlead := leads_of_beginsWith hr (beginsWith_iff.mpr hx)
  use leftRecursive_iff.mpr (TransGen.tail' hreach hlead)
  rintro rfl
  apply hindirect right hr hx

section expand

variable (hg : g₀.WellFormed) (hp : g₀.Proper) (h : Tailed g₀ g)

include hg hp h

/-- The right sides of a head after it was expanded: those from which the head is not reached stay,
and in the others the leading term is replaced by each of its right sides. -/
theorem Tailed.hasRule_expandHead :
  (g.expandHead g.analyze head).HasRule head items ↔ ∃ right, g.HasRule head right ∧
    ((items = right ∧ ∀ x, leading? right = some (.term x) → ¬ ReflTransGen g.Leads x head) ∨
      ∃ prompts x rest middle, (∀ s ∈ prompts, s.isPrompt) ∧ right = prompts ++ .term x :: rest ∧
        ReflTransGen g.Leads x head ∧ g.HasRule x middle ∧ items = prompts ++ middle ++ rest)
  := by
  rw [Grammar.hasRule_expandHead]
  simp only [ne_eq, not_true_eq_false, false_and, true_and, false_or]
  apply exists_congr
  intro right
  apply and_congr_right
  intro hr
  split
  · next hbegin =>
    obtain ⟨x, hx, hreach⟩ := (h.canBeginWith_iff hg hp hr).mp hbegin
    obtain ⟨-, prompts, rest, hprompts, rfl⟩ := leading?_eq_some_iff.mp hx
    rw [mem_expandLeading_prompts hprompts]
    constructor
    · rintro ⟨middle, hmiddle, rfl⟩
      exact .inr ⟨prompts, x, rest, middle, hprompts, rfl, hreach, hmiddle, rfl⟩
    · rintro (⟨-, hnot⟩ | ⟨prompts', x', rest', middle, hprompts', he, -, hmiddle, rfl⟩)
      · apply absurd hreach (hnot x hx)
      · obtain ⟨rfl, hx, rfl⟩ := prompts_unique hprompts hprompts' (by simp [Symbol.isPrompt])
          (by simp [Symbol.isPrompt]) he
        obtain rfl : x = x' := by simpa using hx
        use middle, hmiddle
  · next hbegin =>
    rw [h.canBeginWith_iff hg hp hr] at hbegin
    rw [List.mem_singleton]
    constructor
    · rintro rfl
      exact .inl ⟨rfl, fun x hx hreach => hbegin ⟨x, hx, hreach⟩⟩
    · rintro (⟨rfl, -⟩ | ⟨prompts, x, rest, middle, hprompts, rfl, hreach, -, -⟩)
      · rfl
      · apply absurd _ hbegin
        use x
        rw [leading?_prompts_append hprompts]
        use rfl

variable (hold : Untouched g₀ g) (hhead : g.LeftRecursive head)
  (hfirst : ∀ t, g.LeftRecursive t → head ≤ t)
  (hindirect : ∀ right, g.HasRule head right → leading? right ≠ some (.term head))

include hold hhead hfirst hindirect

theorem Tailed.expandHead :
  Tailed g₀ (g.expandHead g.analyze head)
  := by
  constructor
  · apply h.keeps.trans (keeps_expandHead h.keeps.wellFormed _)
    intro right hr
    rw [← Option.not_isSome_iff_eq_none, afterHead?_isSome_iff]
    apply hindirect right hr
  · intro t items ht hr
    by_cases hne : t = head
    · subst hne
      obtain ⟨right, hright,
        ⟨rfl, -⟩ | ⟨prompts, x, rest, middle, hprompts, rfl, hreach, hmiddle, rfl⟩⟩ :=
        (h.hasRule_expandHead hg hp).mp hr
      · apply h.old t items ht hright
      · obtain ⟨w, tails, s, he, hw, hs, hs', -⟩ := h.exists_leading?_old hg hp ht hright
        have hx : leading? (prompts ++ .term x :: rest) = some (.term x) := by
          rw [leading?_prompts_append hprompts]
          rfl
        obtain rfl := Option.some.inj (hs'.symm.trans hx)
        obtain ⟨-, prompts', rest', hprompts', rfl⟩ := leading?_eq_some_iff.mp hs
        rw [List.append_assoc, List.cons_append] at he
        obtain ⟨rfl, -, rfl⟩ := prompts_unique hprompts hprompts' (by simp [Symbol.isPrompt])
          (by simp [Symbol.isPrompt]) he
        obtain ⟨hrec, hne⟩ := leftRecursive_of_leading? hindirect hright hx hreach
        have hlt := Nat.lt_of_le_of_ne (hfirst x hrec) (Ne.symm hne)
        have hmiddle := (hold x t hrec hhead hlt middle).mp hmiddle
        use prompts ++ middle ++ rest', tails, by simp
        apply hw.tail (rewrites_of_hasRule hmiddle prompts rest')
    · rcases Grammar.hasRule_expandHead.mp hr with ⟨-, hr⟩ | ⟨he, -⟩
      · apply h.old t items ht hr
      · apply absurd he hne
  · intro t items ht hr
    rcases Grammar.hasRule_expandHead.mp hr with ⟨-, hr⟩ | ⟨rfl, -⟩
    · apply h.new t items ht hr
    · rw [h.contains_of_transGen hg hp (leftRecursive_iff.mp hhead)] at ht
      cases ht

/-- What a term other than the head leads to once the head was expanded, it led to before. -/
theorem Tailed.leads_of_expandHead (ht : t ≠ head) (hlead : (g.expandHead g.analyze head).Leads t u) :
  g.Leads t u
  := by
  obtain ⟨items, hr, hu, -⟩ :=
    (h.expandHead hg hp hold hhead hfirst hindirect).exists_of_leads hg hp hlead
  rcases Grammar.hasRule_expandHead.mp hr with ⟨-, hr⟩ | ⟨he, -⟩
  · apply leads_of_beginsWith hr (beginsWith_iff.mpr hu)
  · apply absurd he ht

/-- What the head leads to once it was expanded, it led to before without reaching the head from
there, or it led to a term from which the head is reached and which leads to it. -/
theorem Tailed.leads_head_of_expandHead (hlead : (g.expandHead g.analyze head).Leads head u) :
  (g.Leads head u ∧ ¬ ReflTransGen g.Leads u head) ∨
    ∃ x, g.Leads head x ∧ ReflTransGen g.Leads x head ∧ x ≠ head ∧ g.Leads x u
  := by
  obtain ⟨items, hr, hu, -⟩ :=
    (h.expandHead hg hp hold hhead hfirst hindirect).exists_of_leads hg hp hlead
  obtain ⟨right, hright,
    ⟨rfl, hnot⟩ | ⟨prompts, x, rest, middle, hprompts, rfl, hreach, hmiddle, rfl⟩⟩ :=
    (h.hasRule_expandHead hg hp).mp hr
  · exact .inl ⟨leads_of_beginsWith hright (beginsWith_iff.mpr hu), hnot u hu⟩
  · right
    have hx : leading? (prompts ++ .term x :: rest) = some (.term x) := by
      rw [leading?_prompts_append hprompts]
      rfl
    obtain ⟨hrec, hne⟩ := leftRecursive_of_leading? hindirect hright hx hreach
    have hmem := h.contains_of_transGen hg hp (leftRecursive_iff.mp hrec)
    obtain ⟨_, _, s, -, -, -, hs, -⟩ := h.exists_leading?_old hg hp hmem hmiddle
    rw [List.append_assoc, leading?_prompts_append hprompts, leading?_append, hs, Option.some_or,
      ← hs] at hu
    exact ⟨x, leads_of_beginsWith hright (beginsWith_iff.mpr hx), hreach, hne,
      leads_of_beginsWith hmiddle (beginsWith_iff.mpr hu)⟩

/-- No term becomes left recursive when the head is expanded. -/
theorem Tailed.leftRecursive_of_expandHead (ht : (g.expandHead g.analyze head).LeftRecursive t) :
  g.LeftRecursive t
  := by
  apply (h.expandHead hg hp hold hhead hfirst hindirect).leftRecursive_of_leads hg hp _ ht
  intro u v _ hlead
  by_cases hu : u = head
  · subst hu
    rcases h.leads_head_of_expandHead hg hp hold hhead hfirst hindirect hlead with
      ⟨hlead, -⟩ | ⟨x, hx, -, -, hxv⟩
    · exact .single hlead
    · exact .tail (.single hx) hxv
  · exact .single (h.leads_of_expandHead hg hp hold hhead hfirst hindirect hu hlead)

/-- If the cycles go through the head, then expanding it leaves some term that was left recursive not
left recursive. -/
theorem Tailed.exists_not_leftRecursive_expandHead (hmeet : g₀.CyclesMeetFirst) :
  ∃ x, g.LeftRecursive x ∧ ¬ (g.expandHead g.analyze head).LeftRecursive x
  := by
  -- The terms that the head leads to and from which it is reached; of these, one is not reached from
  -- the others unless by way of the head.
  let S : Set TermId := fun x => g.Leads head x ∧ ReflTransGen g.Leads x head
  have hne {x : TermId} (hx : x ∈ S) : x ≠ head := by
    rintro rfl
    obtain ⟨right, hr, hx, -⟩ := h.exists_of_leads hg hp hx.1
    apply hindirect right hr hx
  have hback {x : TermId} (hx : x ∈ S) : TransGen g.Leads x head :=
    (reflTransGen_iff_eq_or_transGen.mp hx.2).resolve_left fun he => hne hx he.symm
  have hfinite : S.Finite := by
    apply (List.finite_toSet g₀.terms.ids).subset
    intro x hx
    obtain ⟨_, -, -, hmem⟩ := h.exists_of_leads hg hp hx.1
    apply contains_iff.mp hmem
  have hnonempty : S.Nonempty := TransGen.head'_iff.mp (leftRecursive_iff.mp hhead)
  have hnocycle : ∀ x, TransGen g.Leads head x → TransGen g.Leads x head →
      ¬ TransGen (Avoiding g.Leads head) x x := fun x hx hx' =>
    hold.not_avoiding hg hp h hhead hfirst hmeet hx hx'
  obtain ⟨x, hx, hunreached⟩ := exists_unreached hfinite hnonempty fun x hx =>
    hnocycle x (.single hx.1) (hback hx)
  use x, leftRecursive_iff.mpr ((hback hx).trans (.single hx.1))
  intro hrec
  have hlift : ∀ u v, Avoiding (g.expandHead g.analyze head).Leads head u v →
      Avoiding g.Leads head u v := fun u v hstep =>
    ⟨h.leads_of_expandHead hg hp hold hhead hfirst hindirect hstep.2 hstep.1, hstep.2⟩
  rcases avoiding_or_reaches (leftRecursive_iff.mp hrec) head with hcycle | hreach
  · apply hnocycle x (.single hx.1) (hback hx)
    apply TransGen.mono hlift _ _ hcycle
  · obtain ⟨z, hz, hmany⟩ := exists_avoiding_of_transGen hreach
    have hmany : ReflTransGen (Avoiding g.Leads head) z x := ReflTransGen.mono hlift _ _ hmany
    rcases h.leads_head_of_expandHead hg hp hold hhead hfirst hindirect hz with
      ⟨-, hnot⟩ | ⟨y, hy, hreach, hyne, hyz⟩
    · apply hnot
      apply (ReflTransGen.mono (fun _ _ hstep => hstep.1) _ _ hmany).trans hx.2
    · apply hunreached y ⟨hy, hreach⟩
      apply TransGen.head' ⟨hyz, hyne⟩ hmany

end expand

end CanonicalLR.Grammar
