import CanonicalLR.Proofs.Analysis.Counterparts
import CanonicalLR.Proofs.Automaton.Collection

/-!
# The automata of grammars that are written alike

Dotted rules, item sets, transitions and states of two grammars are *counterparts* if they consist of
counterparts.  Each step of the construction keeps this.  The closures of counterparts are
counterparts (`ItemSet.Counterpart.closure`): as a closure is the least closed item set, what is in
the one of them is in the other one, and the order of the cores is that of the positions of their
rules.  A kernel has at most one counterpart (`ItemSet.biUnique_counterpart`), so the kernels get the
same numbers.

Hence the automata of augmented grammars that are written alike have as many states, and states with
the same number are counterparts (`Automaton.counterpart_build`).
-/

namespace CanonicalLR

/-! ### Related lists -/

section related

variable {α β : Type} {R : α → β → Prop} {as : List α} {bs : List β} {a : α} {b : β}

/-- If there is an answer, then there is a related one. -/
theorem exists_eq_some_of_rel {o : Option α} {o' : Option β} (h : Option.Rel R o o') (ho : o = some a) :
  ∃ b, o' = some b ∧ R a b
  := by
  subst ho
  cases h with
  | @some _ b hab => use b

/-- Of values that are related uniquely, the one is an answer if the other is. -/
theorem eq_some_iff_of_rel {o : Option α} {o' : Option β} (hR : Relator.BiUnique R)
    (h : Option.Rel R o o') (hab : R a b) :
  o = some a ↔ o' = some b
  := by
  cases h with
  | none => simp
  | some hrel =>
    rw [Option.some.injEq, Option.some.injEq]
    apply Relator.rel_eq hR hrel hab

/-- A value of a list is related to one of a related list. -/
theorem exists_mem_of_rel (h : List.Forall₂ R as bs) (ha : a ∈ as) :
  ∃ b ∈ bs, R a b
  := by
  induction h with
  | nil => cases ha
  | @cons a' b' as bs hab _ ih =>
    rcases List.mem_cons.mp ha with rfl | ha
    · use b', List.mem_cons_self
    · obtain ⟨b, hb, hab⟩ := ih ha
      use b, List.mem_cons_of_mem _ hb

/-- In related lists the same places have related values. -/
theorem rel_getElem? (h : List.Forall₂ R as bs) (i : Nat) :
  Option.Rel R as[i]? bs[i]?
  := by
  induction h generalizing i with
  | nil => exact .none
  | cons hab _ ih =>
    cases i with
    | zero => exact .some hab
    | succ i => apply ih i

/-- Values that are related uniquely have the same place in related lists. -/
theorem idxOf_eq_of_rel [DecidableEq α] [DecidableEq β] (hR : Relator.BiUnique R)
    (h : List.Forall₂ R as bs) (hab : R a b) :
  as.idxOf a = bs.idxOf b
  := by
  induction h with
  | nil => rfl
  | @cons a' b' as bs hab' _ ih =>
    by_cases heq : a' = a
    · obtain rfl := heq
      rw [hR.2 hab' hab, List.idxOf_cons_self, List.idxOf_cons_self]
    · have hne : b' ≠ b := by
        rintro rfl
        apply heq (hR.1 hab' hab)
      rw [List.idxOf_cons_ne _ heq, List.idxOf_cons_ne _ hne, ih]

/-- The first occurrences in related lists are related. -/
theorem rel_eraseDups [DecidableEq α] [DecidableEq β] (hR : Relator.BiUnique R) {as : List α}
    {bs : List β} (h : List.Forall₂ R as bs) :
  List.Forall₂ R as.eraseDups bs.eraseDups
  := by
  induction hn : as.length using Nat.strong_induction_on generalizing as bs with
  | h n ih =>
    cases h with
    | nil => exact .nil
    | @cons a b as bs hab h =>
      rw [List.eraseDups_cons, List.eraseDups_cons]
      apply List.Forall₂.cons hab
      apply ih _ _ _ rfl
      · rw [← hn]
        apply Nat.lt_succ_of_le (List.length_filter_le _ _)
      · apply List.rel_filter _ h
        intro a' b' hab'
        simp [Relator.rel_eq hR hab' hab]

/-- Lists are related if they are in increasing order, each value of the one is related to a value of
the other, and the relation keeps the order. -/
theorem forall₂_of_increasing {lt : α → α → Prop} {lt' : β → β → Prop} (hR : Relator.RightUnique R)
    (hmono : ∀ {a a' b b'}, R a b → R a' b' → lt a a' → lt' b b')
    (hasymm : ∀ {b b'}, lt' b b' → ¬ lt' b' b) (has : as.Pairwise lt) (hbs : bs.Pairwise lt')
    (hleft : ∀ a ∈ as, ∃ b ∈ bs, R a b) (hright : ∀ b ∈ bs, ∃ a ∈ as, R a b) :
  List.Forall₂ R as bs
  := by
  induction as generalizing bs with
  | nil =>
    cases bs with
    | nil => exact .nil
    | cons b bs =>
      obtain ⟨a, ha, -⟩ := hright b List.mem_cons_self
      cases ha
  | cons a as ih =>
    cases bs with
    | nil =>
      obtain ⟨b, hb, -⟩ := hleft a List.mem_cons_self
      cases hb
    | cons b bs =>
      rw [List.pairwise_cons] at has hbs
      have hab : R a b := by
        obtain ⟨b', hb', hab'⟩ := hleft a List.mem_cons_self
        obtain ⟨a', ha', hab⟩ := hright b List.mem_cons_self
        rcases List.mem_cons.mp ha' with rfl | ha'
        · apply hab
        rcases List.mem_cons.mp hb' with rfl | hb'
        · apply hab'
        apply absurd (hbs.1 b' hb') (hasymm (hmono hab' hab (has.1 a' ha')))
      apply List.Forall₂.cons hab
      apply ih has.2 hbs.2
      · intro a' ha'
        obtain ⟨b', hb', hab'⟩ := hleft a' (List.mem_cons_of_mem _ ha')
        rcases List.mem_cons.mp hb' with rfl | hb'
        · have hlt := hmono hab hab' (has.1 a' ha')
          apply absurd hlt (hasymm hlt)
        · use b'
      · intro b' hb'
        obtain ⟨a', ha', hab'⟩ := hright b' (List.mem_cons_of_mem _ hb')
        rcases List.mem_cons.mp ha' with rfl | ha'
        · have hlt := hbs.1 b' hb'
          rw [hR hab hab'] at hlt
          apply absurd hlt (hasymm hlt)
        · use a'

end related

variable {g g' : Grammar}

/-! ### Dotted rules -/

/-- The rules are at the same position, and so is the dot in them. -/
structure DottedRule.Counterpart (g g' : Grammar) (d d' : DottedRule) : Prop where
  rule : Rule.Counterpart g g' d.rule d'.rule
  dot_eq : d.dot = d'.dot

namespace DottedRule

variable {d d' d'' e e' : DottedRule}

namespace Counterpart

theorem symm (h : Counterpart g g' d d') :
  Counterpart g' g d' d
  := ⟨h.rule.symm, h.dot_eq.symm⟩

theorem unique (hg : g.Alike g') (h : Counterpart g g' d d') (h' : Counterpart g g' d d'') :
  d' = d''
  := by
  obtain ⟨r', dot'⟩ := d'
  obtain ⟨r'', dot''⟩ := d''
  obtain rfl : r' = r'' := h.rule.unique hg.left h'.rule
  obtain rfl : dot' = dot'' := h.dot_eq.symm.trans h'.dot_eq
  rfl

theorem initial {r r' : Rule} (h : Rule.Counterpart g g' r r') :
  Counterpart g g' (.initial r) (.initial r')
  := ⟨h, rfl⟩

theorem advance (h : Counterpart g g' d d') :
  Counterpart g g' d.advance d'.advance
  := ⟨h.rule, congrArg Nat.succ h.dot_eq⟩

/-- Of two dotted rules, the counterparts are in the same order. -/
theorem order_lt (hg : g.Alike g') (hd : Counterpart g g' d d') (he : Counterpart g g' e e')
    (hlt : d.order e = .lt) :
  d'.order e' = .lt
  := by
  rw [order_eq_lt_iff] at hlt ⊢
  rcases hlt with hlt | ⟨hid, hlt⟩
  · exact .inl (hd.rule.id_lt hg he.rule hlt)
  · have hrule := hg.left.eq_of_id_eq hd.rule.mem he.rule.mem hid
    have hrule' := hd.rule.unique hg.left (hrule ▸ he.rule)
    rw [hd.dot_eq, he.dot_eq] at hlt
    exact .inr ⟨congrArg Rule.id hrule', hlt⟩

/-- What is behind the dots consists of counterparts. -/
theorem rest (hg : g.Alike g') (h : Counterpart g g' d d') :
  List.Forall₂ (Symbol.Counterpart g g') d.rest d'.rest
  := by
  rw [DottedRule.rest, DottedRule.rest, h.dot_eq]
  apply List.forall₂_drop _ (h.rule.basicItems hg)

theorem next? (hg : g.Alike g') (h : Counterpart g g' d d') :
  Option.Rel (Symbol.Counterpart g g') d.next? d'.next?
  := by
  rw [DottedRule.next?, DottedRule.next?, List.head?_eq_getElem?, List.head?_eq_getElem?]
  apply rel_getElem? (h.rest hg)

theorem isComplete_eq (hg : g.Alike g') (h : Counterpart g g' d d') :
  d.isComplete = d'.isComplete
  := by
  rw [Bool.eq_iff_iff, DottedRule.isComplete, DottedRule.isComplete, List.isEmpty_iff_length_eq_zero,
    List.isEmpty_iff_length_eq_zero, (h.rest hg).length_eq]

end Counterpart

end DottedRule

/-! ### Item sets -/

namespace ItemSet

/-- The cores are counterparts, and so are the lookaheads. -/
structure Entry.Counterpart (g g' : Grammar) (e e' : Entry) : Prop where
  core : DottedRule.Counterpart g g' e.core e'.core
  lookahead : IndexSet.Counterpart g g' e.lookahead e'.lookahead

/-- The item sets consist of counterparts. -/
def Counterpart (g g' : Grammar) (s s' : ItemSet) : Prop :=
  List.Forall₂ (Entry.Counterpart g g') s.entries s'.entries

/-- The dotted rule has a counterpart in the item set, and the tokens are included in its lookahead. -/
def Meets (g g' : Grammar) (s' : ItemSet) (d : DottedRule) (tokens : IndexSet) : Prop :=
  ∃ d' lookahead', DottedRule.Counterpart g g' d d' ∧ s'.lookahead? d' = some lookahead' ∧
    IndexSet.Included g g' tokens lookahead'

/-- Each core of the one item set has a counterpart in the other one, with a lookahead that its own
one is included in. -/
def Included (g g' : Grammar) (s s' : ItemSet) : Prop :=
  ∀ d lookahead, s.lookahead? d = some lookahead → Meets g g' s' d lookahead

variable {s s' kernel kernel' : ItemSet} {x x' : Symbol}

theorem Entry.Counterpart.symm {e e' : Entry} (h : Entry.Counterpart g g' e e') :
  Entry.Counterpart g' g e' e
  := ⟨h.core.symm, h.lookahead.symm⟩

theorem Entry.Counterpart.unique (hg : g.Alike g') {e e' e'' : Entry}
    (h : Entry.Counterpart g g' e e') (h' : Entry.Counterpart g g' e e'') :
  e' = e''
  := by
  obtain ⟨d', lookahead'⟩ := e'
  obtain ⟨d'', lookahead''⟩ := e''
  obtain rfl : d' = d'' := h.core.unique hg h'.core
  obtain rfl : lookahead' = lookahead'' := h.lookahead.unique hg h'.lookahead
  rfl

theorem Entry.biUnique_counterpart (h : g.Alike g') :
  Relator.BiUnique (Entry.Counterpart g g')
  := ⟨fun _ _ _ h₁ h₂ => h₁.symm.unique h.symm h₂.symm, fun _ _ _ h₁ h₂ => h₁.unique h h₂⟩

theorem biUnique_counterpart (h : g.Alike g') :
  Relator.BiUnique (Counterpart g g')
  := by
  have hentries := (Entry.biUnique_counterpart h).forall₂
  constructor
  · rintro ⟨entries₁⟩ ⟨entries₂⟩ s' h₁ h₂
    apply congrArg ItemSet.mk (hentries.1 h₁ h₂)
  · rintro s ⟨entries₁⟩ ⟨entries₂⟩ h₁ h₂
    apply congrArg ItemSet.mk (hentries.2 h₁ h₂)

theorem Counterpart.symm (h : Counterpart g g' s s') :
  Counterpart g' g s' s
  := by
  apply List.Forall₂.flip
  apply List.Forall₂.imp _ h
  intro e e' he
  apply he.symm

/-- Item sets are included in their counterparts. -/
theorem Counterpart.included (hs : s.Proper g) (hs' : s'.Proper g') (h : Counterpart g g' s s') :
  Included g g' s s'
  := by
  intro d lookahead hl
  obtain ⟨⟨d', lookahead'⟩, he', he⟩ := exists_mem_of_rel h (hs.lookahead?_eq_some_iff.mp hl)
  exact ⟨d', lookahead', he.core, hs'.lookahead?_eq_some_iff.mpr he', he.lookahead.1⟩

theorem exists_entry_of_included (hg : g.Alike g') (hs : s.Proper g) (hs' : s'.Proper g')
    (h : Included g g' s s') (h' : Included g' g s' s) {e : Entry} (he : e ∈ s.entries) :
  ∃ e' ∈ s'.entries, Entry.Counterpart g g' e e'
  := by
  obtain ⟨d, lookahead⟩ := e
  obtain ⟨d', lookahead', hd, hl', hsub⟩ := h d lookahead (hs.lookahead?_eq_some_iff.mpr he)
  obtain ⟨d'', lookahead'', hd', hl, hsub'⟩ := h' d' lookahead' hl'
  obtain rfl := hd.symm.unique hg.symm hd'
  obtain rfl : lookahead = lookahead'' :=
    Option.some.inj ((hs.lookahead?_eq_some_iff.mpr he).symm.trans hl)
  exact ⟨⟨d', lookahead'⟩, hs'.lookahead?_eq_some_iff.mp hl', hd, hsub, hsub'⟩

/-- Item sets are counterparts if each of them is included in the other one. -/
theorem counterpart_of_included (hg : g.Alike g') (hs : s.Proper g) (hs' : s'.Proper g')
    (h : Included g g' s s') (h' : Included g' g s' s) :
  Counterpart g g' s s'
  := by
  apply forall₂_of_increasing (Entry.biUnique_counterpart hg).2 _ _ hs.increasing hs'.increasing
  · intro e he
    apply exists_entry_of_included hg hs hs' h h' he
  · intro e' he'
    obtain ⟨e, he, heq⟩ := exists_entry_of_included hg.symm hs' hs h' h he'
    exact ⟨e, he, heq.symm⟩
  · intro e f e' f' he hf hlt
    apply he.core.order_lt hg hf.core hlt
  · intro e' f' hlt hgt
    apply DottedRule.order_lt_irrefl (DottedRule.order_lt_trans hlt hgt)

/-- If an item set is included in another one, then so are the closures. -/
theorem Included.closure (hg : g.Alike g') (hs : kernel.Proper g) (hs' : kernel'.Proper g')
    (h : Included g g' kernel kernel') :
  Included g g' (kernel.closure g g.analyze) (kernel'.closure g' g'.analyze)
  := by
  have hknown := (Analysis.agrees_analyze hg.left).1
  have hknown' := (Analysis.agrees_analyze hg.right).1
  intro d lookahead hl
  refine closure_induction hg.left hknown hs ?_ ?_ ?_ hl
  · intro d lookahead hl
    obtain ⟨d', lookahead', hd, hl', hsub⟩ := h d lookahead hl
    obtain ⟨lookahead'', hl'', hle⟩ :=
      covers_iff.mp (within_closure hg.right hknown' hs' d' lookahead' hl')
    exact ⟨d', lookahead'', hd, hl'', hsub.mono hle⟩
  · -- What a core predicts, its counterpart predicts as well, and the closure there is closed.
    rintro d lookahead y after r - ⟨d', lookahead', hd, hl', hsub⟩ hrest hr
    have hbehind := hd.rest hg
    rw [hrest] at hbehind
    obtain ⟨y', after', hy, hafter, hrest'⟩ := List.forall₂_cons_left_iff.mp hbehind
    obtain ⟨hmem, rfl⟩ := Grammar.mem_rulesOf.mp hr
    obtain ⟨r', hr', rfl⟩ := Rule.exists_counterpart_of_owner hg hmem hy
    obtain ⟨lookahead'', hl'', hle⟩ := covers_iff.mp (closed_closure hg.right hknown' hs' d' lookahead'
      r'.owner after' hl' hrest' r' (Grammar.mem_rulesOf.mpr ⟨hr'.symm.mem, rfl⟩))
    exact ⟨.initial r', lookahead'', .initial hr', hl'', (hsub.firstsOf hg hafter).mono hle⟩
  · rintro r lookahead tokens ⟨d', lookahead', hd, hl', hsub⟩ ⟨d'', lookahead'', hd', hl'', hsub'⟩
    obtain rfl := hd.unique hg hd'
    obtain rfl : lookahead' = lookahead'' := Option.some.inj (hl'.symm.trans hl'')
    exact ⟨d', lookahead', hd, hl', hsub.union hsub'⟩

/-- Closures of counterparts are counterparts. -/
theorem Counterpart.closure (hg : g.Alike g') (hs : kernel.Proper g) (hs' : kernel'.Proper g')
    (h : Counterpart g g' kernel kernel') :
  Counterpart g g' (kernel.closure g g.analyze) (kernel'.closure g' g'.analyze)
  := by
  have hknown := (Analysis.agrees_analyze hg.left).1
  have hknown' := (Analysis.agrees_analyze hg.right).1
  apply counterpart_of_included hg (hs.closure hg.left hknown) (hs'.closure hg.right hknown')
  · apply (h.included hs hs').closure hg hs hs'
  · apply (h.symm.included hs' hs).closure hg.symm hs' hs

/-- The symbols behind the dots are counterparts. -/
theorem Counterpart.nextSymbols (hg : g.Alike g') (h : Counterpart g g' s s') :
  List.Forall₂ (Symbol.Counterpart g g') s.nextSymbols s'.nextSymbols
  := by
  have hcores : List.Forall₂ (DottedRule.Counterpart g g') s.cores s'.cores :=
    List.rel_map (fun _ _ he => he.core) h
  apply rel_eraseDups (Symbol.biUnique_counterpart hg)
  apply List.rel_filterMap _ hcores
  intro d d' hd
  apply hd.next? hg

/-- Counterparts advanced over counterparts are counterparts. -/
theorem Counterpart.advance (hg : g.Alike g') (h : Counterpart g g' s s')
    (hx : Symbol.Counterpart g g' x x') :
  Counterpart g g' (s.advance x) (s'.advance x')
  := by
  apply List.rel_map _ (List.rel_filter _ h)
  · intro e e' he
    exact ⟨he.core.advance, he.lookahead⟩
  · intro e e' he
    simp only [decide_eq_true_eq]
    apply eq_some_iff_of_rel (Symbol.biUnique_counterpart hg) (he.core.next? hg) hx

end ItemSet

/-! ### States -/

/-- The symbols are counterparts, and the transitions lead to the same state. -/
structure Transition.Counterpart (g g' : Grammar) (t t' : Transition) : Prop where
  symbol : Symbol.Counterpart g g' t.symbol t'.symbol
  target_eq : t.target = t'.target

/-- The states consist of counterparts. -/
structure State.Counterpart (g g' : Grammar) (s s' : State) : Prop where
  items : ItemSet.Counterpart g g' s.items s'.items
  transitions : List.Forall₂ (Transition.Counterpart g g') s.transitions s'.transitions
  accepts_eq : s.accepts = s'.accepts

namespace Automaton

variable {kernels kernels' : List ItemSet} {s s' : ItemSet} {symbols symbols' : List Symbol}

/-- Counterparts get the same number. -/
theorem number_counterpart (h : g.Alike g')
    (hkernels : List.Forall₂ (ItemSet.Counterpart g g') kernels kernels')
    (hs : ItemSet.Counterpart g g' s s') :
  (number kernels s).1 = (number kernels' s').1 ∧
    List.Forall₂ (ItemSet.Counterpart g g') (number kernels s).2 (number kernels' s').2
  := by
  have hmem : s ∈ kernels ↔ s' ∈ kernels' := List.rel_mem (ItemSet.biUnique_counterpart h) hs hkernels
  rw [number, number]
  by_cases hold : s ∈ kernels
  · rw [if_pos hold, if_pos (hmem.mp hold)]
    use idxOf_eq_of_rel (ItemSet.biUnique_counterpart h) hkernels hs
  · rw [if_neg hold, if_neg (mt hmem.mpr hold)]
    use hkernels.length_eq
    apply List.rel_append hkernels (.cons hs .nil)

/-- Counterparts are connected to the same states. -/
theorem connect_counterpart (h : g.Alike g') (hs : ItemSet.Counterpart g g' s s')
    (hkernels : List.Forall₂ (ItemSet.Counterpart g g') kernels kernels')
    (hsymbols : List.Forall₂ (Symbol.Counterpart g g') symbols symbols') :
  List.Forall₂ (Transition.Counterpart g g') (connect s symbols kernels).1
      (connect s' symbols' kernels').1 ∧
    List.Forall₂ (ItemSet.Counterpart g g') (connect s symbols kernels).2
      (connect s' symbols' kernels').2
  := by
  induction hsymbols generalizing kernels kernels' with
  | nil => exact ⟨.nil, hkernels⟩
  | cons hx _ ih =>
    obtain ⟨hnumber, hkernels⟩ := number_counterpart h hkernels (hs.advance h hx)
    obtain ⟨htransitions, hkernels⟩ := ih hkernels
    exact ⟨.cons ⟨hx, hnumber⟩ htransitions, hkernels⟩

end Automaton

/-! ### Augmented grammars -/

/-- The augmented grammars are well formed, and their rules are the same if they are written with
names. -/
structure AugmentedGrammar.Alike (g g' : AugmentedGrammar) : Prop where
  left : g.WellFormed
  right : g'.WellFormed
  map_production : g.grammar.rules.map g.grammar.production = g'.grammar.rules.map g'.grammar.production

namespace AugmentedGrammar.Alike

variable {g g' : AugmentedGrammar}

theorem grammar (h : g.Alike g') :
  g.grammar.Alike g'.grammar
  := ⟨h.left.grammar, h.right.grammar, h.map_production⟩

/-- The tokens for the end of the input are counterparts. -/
theorem eof (h : g.Alike g') :
  Symbol.Counterpart g.grammar g'.grammar (.token g.eof) (.token g'.eof)
  := by
  use h.left.contains_eof, h.right.contains_eof
  apply congrArg (Label.mk .token)
  apply h.left.tokenName_eof.trans h.right.tokenName_eof.symm

/-- The start rules are counterparts: they are the rules with the token for the end of the input. -/
theorem startRule (h : g.Alike g') :
  Rule.Counterpart g.grammar g'.grammar g.startRule g'.startRule
  := by
  obtain ⟨r', hr'⟩ := Rule.exists_counterpart h.grammar h.left.startRule_mem
  obtain ⟨start, hitems⟩ := h.left.items_startRule
  have heof : Symbol.token g.eof ∈ g.startRule.items := by simp [hitems]
  obtain ⟨s', hs', hs⟩ := exists_mem_of_rel (hr'.items h.grammar) heof
  obtain rfl := hs.unique h.right.grammar h.eof
  by_cases hne : r' = g'.startRule
  · rw [← hne]
    apply hr'
  · apply absurd hs' (h.right.eof_not_mem r' hr'.symm.mem hne)

end AugmentedGrammar.Alike

/-! ### The automaton -/

namespace Automaton

variable {g g' : AugmentedGrammar} {b b' : Building}

/-- The constructions have come to the same point. -/
structure Building.Counterpart (g g' : AugmentedGrammar) (b b' : Building) : Prop where
  left : b.Sound g
  right : b'.Sound g'
  kernels : List.Forall₂ (ItemSet.Counterpart g.grammar g'.grammar) b.kernels b'.kernels
  states : List.Forall₂ (State.Counterpart g.grammar g'.grammar) b.states b'.states

theorem counterpart_initial (h : g.Alike g') :
  Building.Counterpart g g' ⟨[initialKernel g], []⟩ ⟨[initialKernel g'], []⟩
  := by
  constructor
  · apply Building.sound_initial h.left
  · apply Building.sound_initial h.right
  · have hentry : ItemSet.Entry.Counterpart g.grammar g'.grammar
        ⟨.initial g.startRule, .singleton g.eof⟩ ⟨.initial g'.startRule, .singleton g'.eof⟩ :=
      ⟨.initial h.startRule, .singleton h.eof⟩
    exact .cons (.cons hentry .nil) .nil
  · exact .nil

/-- The constructions go in step. -/
theorem Building.Counterpart.step (h : g.Alike g') (hb : Building.Counterpart g g' b b') :
  buildStep g g.grammar.analyze b = none ∧ buildStep g' g'.grammar.analyze b' = none ∨
    ∃ next next', buildStep g g.grammar.analyze b = some next ∧
      buildStep g' g'.grammar.analyze b' = some next' ∧ Building.Counterpart g g' next next'
  := by
  have hrel := rel_getElem? hb.kernels b.states.length
  rw [buildStep, buildStep, ← hb.states.length_eq]
  generalize hk : b.kernels[b.states.length]? = o at hrel
  generalize hk' : b'.kernels[b.states.length]? = o' at hrel
  cases hrel with
  | none => exact .inl ⟨rfl, rfl⟩
  | @some kernel kernel' hkernel =>
    have hitems := hkernel.closure h.grammar (hb.left.proper kernel (List.mem_of_getElem? hk))
      (hb.right.proper kernel' (List.mem_of_getElem? hk'))
    have hsymbols := hitems.nextSymbols h.grammar
    have hordinary : List.Forall₂ (Symbol.Counterpart g.grammar g'.grammar)
        ((kernel.closure g.grammar g.grammar.analyze).nextSymbols.filter fun x => x ≠ .token g.eof)
        ((kernel'.closure g'.grammar g'.grammar.analyze).nextSymbols.filter
          fun x => x ≠ .token g'.eof) := by
      apply List.rel_filter _ hsymbols
      intro x x' hx
      simp only [decide_eq_true_eq]
      apply not_congr (Relator.rel_eq (Symbol.biUnique_counterpart h.grammar) hx h.eof)
    obtain ⟨htransitions, hkernels⟩ := connect_counterpart h.grammar hitems hb.kernels hordinary
    refine .inr ⟨_, _, rfl, rfl, ?_, ?_, hkernels, ?_⟩
    · apply (hb.left.step h.left _).1
      rw [buildStep, hk]
      rfl
    · apply (hb.right.step h.right _).1
      rw [buildStep, ← hb.states.length_eq, hk']
      rfl
    · apply List.rel_append hb.states (.cons ⟨hitems, htransitions, _⟩ .nil)
      rw [Bool.eq_iff_iff, List.contains_iff_mem, List.contains_iff_mem]
      apply List.rel_mem (Symbol.biUnique_counterpart h.grammar) h.eof hsymbols

/-- The automata of augmented grammars that are written alike have counterparts as their states. -/
theorem counterpart_build (h : g.Alike g') :
  List.Forall₂ (State.Counterpart g.grammar g'.grammar) (build g).states (build g').states
  := by
  obtain ⟨-, hstuck⟩ := Building.sound_and_stuck h.left
  obtain ⟨-, hstuck'⟩ := Building.sound_and_stuck h.right
  have hend := rel_exhaust (fun _ _ hb => hb.step h) (counterpart_initial h) hstuck hstuck'
  apply hend.states

end Automaton

end CanonicalLR
