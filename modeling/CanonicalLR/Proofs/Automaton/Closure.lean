import Mathlib.Algebra.GroupWithZero.Action.Defs
import Mathlib.Algebra.Order.BigOperators.Group.List
import Mathlib.Algebra.Order.Ring.Nat
import Mathlib.Logic.Relation
import CanonicalLR.Automaton.Closure
import CanonicalLR.Proofs.Analysis.Firsts
import CanonicalLR.Proofs.Automaton.ItemSets

/-!
# The closure of an item set

The closure of a proper item set `s` is proper (`Proper.closure`) and closed (`closed_closure`), and
`s` is within it (`within_closure`).  All that it adds are cores with the dot in front, and tokens
in the lookaheads of such cores (`mem_cores_closure`).

The search for the closure keeps an invariant (`Closing.Partial`): a core of which the predictions
may be missing is pending.  One step after the other, its `Closing.weight` falls, the number of
pending cores together with the room that is left in the lookaheads of the predicted cores.  All this
is so whichever of the pending cores is processed next (`Closing.Processes`), and for lookaheads of
whatever tokens, if only these are among finitely many.
-/

namespace CanonicalLR.ItemSet

variable {g : Grammar} {a : Analysis} {s s' s'' kernel : ItemSet} {d : DottedRule}
  {tokens : IndexSet} {r : Rule} {rules : List Rule} {ids : List TokenId}

/-! ### Larger item sets -/

/-- Each core of `s` is a core of `s'`, with all of its lookahead. -/
def Within (s s' : ItemSet) : Prop :=
  ∀ d lookahead, s.lookahead? d = some lookahead → s'.covers d lookahead = true

theorem Within.refl (s : ItemSet) :
  s.Within s
  := by
  intro d lookahead hl
  apply covers_iff.mpr
  use lookahead, hl
  simp

/-- What is covered is covered by a larger item set. -/
theorem Within.covers (h : s.Within s') (hc : s.covers d tokens) :
  s'.covers d tokens = true
  := by
  obtain ⟨lookahead, hl, ht⟩ := covers_iff.mp hc
  obtain ⟨lookahead', hl', ht'⟩ := covers_iff.mp (h d lookahead hl)
  apply covers_iff.mpr
  use lookahead', hl'
  intro n hn
  apply ht' n (ht n hn)

theorem Within.trans (h : s.Within s') (h' : s'.Within s'') :
  s.Within s''
  := by
  intro d lookahead hl
  apply h'.covers (h d lookahead hl)

theorem Within.mem_cores (h : s.Within s') (hd : d ∈ s.cores) :
  d ∈ s'.cores
  := by
  obtain ⟨lookahead, hl⟩ := mem_cores_iff.mp hd
  obtain ⟨lookahead', hl', -⟩ := covers_iff.mp (h d lookahead hl)
  apply mem_cores_iff.mpr
  use lookahead'

/-- An item set is within the one in which tokens have been added to a lookahead. -/
theorem Ordered.within_add (hg : g.WellFormed) (h : s.Ordered g) (hd : d.rule ∈ g.rules) :
  s.Within (s.add d tokens)
  := by
  intro e lookahead hl
  apply covers_iff.mpr
  rw [h.lookahead?_add hg hd]
  split
  · next he =>
    use (s.lookahead? d).getD ∅ ∪ tokens, rfl
    intro n hn
    rw [← he, hl]
    apply IndexSet.mem_union.mpr (.inl hn)
  · use lookahead, hl
    simp

/-- Tokens that have been added to a lookahead are covered. -/
theorem Ordered.covers_add (hg : g.WellFormed) (h : s.Ordered g) (hd : d.rule ∈ g.rules) :
  (s.add d tokens).covers d tokens = true
  := by
  apply covers_iff.mpr
  use (s.lookahead? d).getD ∅ ∪ tokens
  rw [h.lookahead?_add hg hd, if_pos rfl]
  use rfl
  intro n hn
  apply IndexSet.mem_union.mpr (.inr hn)

/-! ### Closed item sets -/

/-- What may come after the core is predicted: the rules of the term behind the dot, with what may
follow that term as lookahead. -/
def Predicts (g : Grammar) (a : Analysis) (s : ItemSet) (d : DottedRule) : Prop :=
  ∀ lookahead y after, s.lookahead? d = some lookahead → d.rest = .term y :: after →
    ∀ r ∈ g.rulesOf y, s.covers (.initial r) (a.firstsOf lookahead after) = true

/-- What may come after any core is predicted. -/
def Closed (g : Grammar) (a : Analysis) (s : ItemSet) : Prop :=
  ∀ d, s.Predicts g a d

/-- The predictions of a core are still there in a larger item set with the same lookahead of that
core. -/
theorem Predicts.mono (h : s.Predicts g a d) (hs : s.Within s')
    (hd : s'.lookahead? d = s.lookahead? d) :
  s'.Predicts g a d
  := by
  intro lookahead y after hl hy r hr
  rw [hd] at hl
  apply hs.covers (h lookahead y after hl hy r hr)

/-- What may follow the symbol behind the dot are tokens of the grammar, or of the lookahead. -/
theorem Among.mem_ids_of_mem_firstsOf (hg : g.WellFormed) (ha : Analysis.Known g a)
    (hids : g.tokens.ids ⊆ ids) (h : s.Among g ids) {lookahead : IndexSet}
    (hl : s.lookahead? d = some lookahead) {x : Symbol} {after : List Symbol}
    (hx : d.rest = x :: after) {n : TokenId} (hn : n ∈ a.firstsOf lookahead after) :
  n ∈ ids
  := by
  apply Analysis.mem_ids_of_mem_firstsOf ha hids _ _ hn
  · intro y hy
    apply hg.items_mem d.rule (h.rule_mem_of_lookahead? hl)
    apply DottedRule.mem_items_of_mem_rest
    rw [hx]
    apply List.mem_cons_of_mem _ hy
  · intro m hm
    apply h.mem_ids_of_lookahead? hl hm

/-! ### What a prediction changes -/

/-- How many of the tokens `ids` the lookahead of a rule with the dot in front may still grow by, and one
more if that is no core yet. -/
def room (ids : List TokenId) (s : ItemSet) (r : Rule) : Nat :=
  match s.lookahead? (.initial r) with
  | none => ids.length + 1
  | some lookahead => lookahead.missing ids

/-- The number of cores that are pending or may still become so. -/
def Closing.weight (g : Grammar) (ids : List TokenId) (c : Closing) : Nat :=
  (g.rules.map (room ids c.items)).sum + c.pending.toList.length

theorem room_le (ids : List TokenId) (s : ItemSet) (r : Rule) :
  s.room ids r ≤ ids.length + 1
  := by
  rw [room]
  split
  · apply Nat.le_refl
  · apply Nat.le_succ_of_le
    apply IndexSet.missing_le_length

/-- There is no more room in a larger item set. -/
theorem Within.room_le (h : s.Within s') :
  s'.room ids r ≤ s.room ids r
  := by
  cases hl : s.lookahead? (.initial r) with
  | none =>
    rw [room.eq_def ids s, hl]
    apply ItemSet.room_le
  | some lookahead =>
    obtain ⟨lookahead', hl', ht⟩ := covers_iff.mp (h _ lookahead hl)
    rw [room, room, hl, hl']
    apply IndexSet.missing_mono ht

/-- There is less room once a rule is covered that was not. -/
theorem Within.room_lt (h : s.Within s') (htokens : ∀ n, n ∈ tokens → n ∈ ids)
    (hs : ¬ s.covers (.initial r) tokens) (hs' : s'.covers (.initial r) tokens) :
  s'.room ids r < s.room ids r
  := by
  obtain ⟨lookahead', hl', ht'⟩ := covers_iff.mp hs'
  rw [room, room, hl']
  cases hl : s.lookahead? (.initial r) with
  | none =>
    apply Nat.lt_succ_of_le
    apply IndexSet.missing_le_length
  | some lookahead =>
    rw [covers_iff] at hs
    push Not at hs
    obtain ⟨n, hn, hnl⟩ := hs lookahead hl
    obtain ⟨lookahead'', hl'', hle⟩ := covers_iff.mp (h _ lookahead hl)
    obtain rfl := Option.some.inj (hl'.symm.trans hl'')
    apply IndexSet.missing_lt hle (htokens n hn) hnl (ht' n hn)

namespace Closing

variable {c c' c'' : Closing}

/-- What predictions change: cores are added with the dot in front, and tokens to the lookaheads of
such cores, and then they are pending. -/
structure Grows (g : Grammar) (ids : List TokenId) (c c' : Closing) : Prop where
  among : c'.items.Among g ids
  within : c.items.Within c'.items
  mem_cores : ∀ d ∈ c'.items.cores, d ∈ c.items.cores ∨ d.dot = 0
  mem_pending : ∀ d ∈ c.pending.toList, d ∈ c'.pending.toList
  of_mem_pending : ∀ d ∈ c'.pending.toList, d ∈ c.pending.toList ∨ d ∈ c'.items.cores
  lookahead?_eq : ∀ d ∉ c'.pending.toList, c'.items.lookahead? d = c.items.lookahead? d
  weight_le : c'.weight g ids ≤ c.weight g ids

namespace Grows

theorem refl (h : c.items.Among g ids) :
  c.Grows g ids c
  := by
  use h, .refl c.items
  · intro d
    apply Or.inl
  · intro d hd
    apply hd
  · intro d
    apply Or.inl
  · simp

theorem trans (h : c.Grows g ids c') (h' : c'.Grows g ids c'') :
  c.Grows g ids c''
  := by
  use h'.among, h.within.trans h'.within
  · intro d hd
    rcases h'.mem_cores d hd with hd | hd
    · apply h.mem_cores d hd
    · right
      apply hd
  · intro d hd
    apply h'.mem_pending d (h.mem_pending d hd)
  · intro d hd
    rcases h'.of_mem_pending d hd with hd | hd
    · apply (h.of_mem_pending d hd).imp_right
      apply h'.within.mem_cores
    · right
      apply hd
  · intro d hd
    rw [h'.lookahead?_eq d hd]
    apply h.lookahead?_eq d
    intro hd'
    apply hd (h'.mem_pending d hd')
  · apply Nat.le_trans h'.weight_le h.weight_le

/-- There is less weight once a rule is covered that was not, even if it is pending then. -/
theorem weight_le_of_covers {items : ItemSet} (hwithin : c.items.Within items) (hr : r ∈ g.rules)
    (htokens : ∀ n, n ∈ tokens → n ∈ ids) (hc : ¬ c.items.covers (.initial r) tokens)
    (hcovers : items.covers (.initial r) tokens) :
  weight g ids ⟨items, c.pending.push (.initial r)⟩ ≤ c.weight g ids
  := by
  have hsum : (g.rules.map (room ids items)).sum < (g.rules.map (room ids c.items)).sum := by
    apply List.sum_lt_sum
    · intro r' _
      apply hwithin.room_le
    · use r, hr
      apply hwithin.room_lt htokens hc hcovers
  have hlength : (c.pending.push (.initial r)).toList.length ≤ c.pending.toList.length + 1 := by
    rw [Queue.toList_push]
    split <;> simp
  simp only [weight]
  omega

/-- A prediction is covered afterwards, and it changes nothing else than predictions do. -/
theorem predict (hg : g.WellFormed) (h : c.items.Among g ids) (hr : r ∈ g.rules)
    (htokens : ∀ n, n ∈ tokens → n ∈ ids) :
  c.Grows g ids (c.predict tokens r) ∧ (c.predict tokens r).items.covers (.initial r) tokens = true
  := by
  rw [Closing.predict]
  split
  · next hc => use .refl h, hc
  · next hc =>
    have hcovers : (c.items.add (.initial r) tokens).covers (.initial r) tokens = true :=
      h.covers_add hg hr
    have hwithin : c.items.Within (c.items.add (.initial r) tokens) := h.within_add hg hr
    have hadd : ∀ d, (c.items.add (.initial r) tokens).lookahead? d = if d = .initial r then
        some ((c.items.lookahead? (.initial r)).getD ∅ ∪ tokens) else c.items.lookahead? d :=
      fun d => h.lookahead?_add hg hr
    constructor
    · constructor
      · apply h.add hr htokens
      · apply hwithin
      · intro d hd
        obtain ⟨lookahead, hl⟩ := mem_cores_iff.mp hd
        rw [hadd] at hl
        split at hl
        · next hd =>
          right
          rw [hd]
          rfl
        · left
          apply mem_cores_iff.mpr
          use lookahead
      · intro d hd
        apply Queue.mem_push.mpr (.inl hd)
      · intro d hd
        apply (Queue.mem_push.mp hd).imp_right
        rintro rfl
        apply mem_cores_of_covers hcovers
      · intro d hd
        rw [hadd, if_neg]
        rintro rfl
        apply hd (Queue.mem_push.mpr (.inr rfl))
      · apply weight_le_of_covers hwithin hr htokens hc hcovers
    · apply hcovers

/-- All predictions for the rules of a list are covered afterwards. -/
theorem foldl_predict (hg : g.WellFormed) (h : c.items.Among g ids) (hrules : ∀ r ∈ rules, r ∈ g.rules)
    (htokens : ∀ n, n ∈ tokens → n ∈ ids) :
  c.Grows g ids (rules.foldl (Closing.predict tokens) c) ∧
    ∀ r ∈ rules, (rules.foldl (Closing.predict tokens) c).items.covers (.initial r) tokens = true
  := by
  induction rules generalizing c with
  | nil =>
    use .refl h
    simp
  | cons r rules ih =>
    obtain ⟨hfirst, hcovers⟩ := predict hg h (hrules r List.mem_cons_self) htokens
    obtain ⟨hrest, hall⟩ := ih hfirst.among fun r hr => hrules r (List.mem_cons_of_mem _ hr)
    use hfirst.trans hrest
    intro r' hr'
    rcases List.mem_cons.mp hr' with rfl | hr'
    · apply hrest.within.covers hcovers
    · apply hall r' hr'

end Grows

/-! ### The search -/

/-- The state with the predictions of the core `d` added. -/
def process (g : Grammar) (a : Analysis) (d : DottedRule) (c : Closing) : Closing :=
  match d.rest with
  | .term y :: after =>
    (g.rulesOf y).foldl (Closing.predict (a.firstsOf ((c.items.lookahead? d).getD ∅) after)) c
  | _ => c

/-- One of the pending cores, whichever, is no longer pending, and its predictions are added. -/
def Processes (g : Grammar) (a : Analysis) (c c' : Closing) : Prop :=
  ∃ d pending, c.pending.toList.Perm (d :: pending.toList) ∧ c' = process g a d ⟨c.items, pending⟩

/-- The state is reached when cores are processed in some order, while in the beginning all cores of
`kernel` are pending. -/
def Reached (g : Grammar) (a : Analysis) (kernel : ItemSet) (c : Closing) : Prop :=
  Relation.ReflTransGen (Processes g a) ⟨kernel, .ofList kernel.cores⟩ c

/-- A step processes the oldest pending core. -/
theorem processes_of_closureStep (h : closureStep g a c = some c') :
  c.Processes g a c'
  := by
  obtain ⟨⟨d, pending⟩, hpop, rfl⟩ := Option.map_eq_some_iff.mp h
  use d, pending
  rw [Queue.toList_of_pop? hpop]
  use .refl _
  rfl

/-- The state of a search for the closure of `kernel`: the predictions of every core that is not
pending are there. -/
structure Partial (g : Grammar) (ids : List TokenId) (a : Analysis) (kernel : ItemSet) (c : Closing) :
    Prop where
  among : c.items.Among g ids
  within : kernel.Within c.items
  mem_cores : ∀ d ∈ c.items.cores, d ∈ kernel.cores ∨ d.dot = 0
  pending_mem : ∀ d ∈ c.pending.toList, d ∈ c.items.cores
  predicts : ∀ d ∉ c.pending.toList, c.items.Predicts g a d

section search

variable (hg : g.WellFormed) (ha : Analysis.Known g a) (hids : g.tokens.ids ⊆ ids)

include hg ha hids

/-- What a step does: it takes a core from the queue and adds its predictions. -/
theorem grows_of_processes (h : c.Partial g ids a kernel) (hstep : c.Processes g a c') :
  ∃ d pending, c.pending.toList.Perm (d :: pending.toList) ∧ Grows g ids ⟨c.items, pending⟩ c' ∧
    ∀ lookahead y after, c.items.lookahead? d = some lookahead → d.rest = .term y :: after →
      ∀ r ∈ g.rulesOf y, c'.items.covers (.initial r) (a.firstsOf lookahead after) = true
  := by
  obtain ⟨d, pending, hperm, rfl⟩ := hstep
  use d, pending, hperm
  have hd : d ∈ c.items.cores := by
    apply h.pending_mem
    apply hperm.mem_iff.mpr List.mem_cons_self
  obtain ⟨lookahead, hl⟩ := mem_cores_iff.mp hd
  simp only [process, hl, Option.getD_some]
  split
  · next y after hy =>
    obtain ⟨hgrows, hcovers⟩ := Grows.foldl_predict (c := ⟨c.items, pending⟩) hg h.among
      (fun r hr => (Grammar.mem_rulesOf.mp hr).1)
      (fun n => h.among.mem_ids_of_mem_firstsOf hg ha hids hl hy)
    use hgrows
    rintro _ y' after' ⟨⟩ hy'
    obtain ⟨⟨⟩, rfl⟩ := List.cons.inj (hy.symm.trans hy')
    apply hcovers
  · next hrest =>
    use .refl h.among
    intro _ y after _ hy
    apply absurd hy (hrest y after)

/-- The search keeps its invariant. -/
theorem Partial.processes (h : c.Partial g ids a kernel) (hstep : c.Processes g a c') :
  c'.Partial g ids a kernel
  := by
  obtain ⟨d, pending, hperm, hgrows, hcovers⟩ := grows_of_processes hg ha hids h hstep
  constructor
  · apply hgrows.among
  · apply h.within.trans hgrows.within
  · intro e he
    rcases hgrows.mem_cores e he with he | he
    · apply h.mem_cores e he
    · right
      apply he
  · intro e he
    rcases hgrows.of_mem_pending e he with he | he
    · apply hgrows.within.mem_cores (h.pending_mem e _)
      apply hperm.mem_iff.mpr (List.mem_cons_of_mem _ he)
    · apply he
  · intro e he
    have hl := hgrows.lookahead?_eq e he
    by_cases hed : e = d
    · subst hed
      intro lookahead y after hlookahead hy
      apply hcovers lookahead y after (hl ▸ hlookahead) hy
    · apply (h.predicts e _).mono hgrows.within hl
      rw [hperm.mem_iff, List.mem_cons, not_or]
      use hed
      intro he'
      apply he (hgrows.mem_pending e he')

/-- The weight falls with every step. -/
theorem weight_lt_of_processes (h : c.Partial g ids a kernel) (hstep : c.Processes g a c') :
  c'.weight g ids < c.weight g ids
  := by
  obtain ⟨d, pending, hperm, hgrows, -⟩ := grows_of_processes hg ha hids h hstep
  apply Nat.lt_of_le_of_lt hgrows.weight_le
  rw [weight, weight, hperm.length_eq]
  simp

end search

/-- In the beginning all cores are pending. -/
theorem partial_initial (h : kernel.Among g ids) :
  Partial g ids a kernel ⟨kernel, .ofList kernel.cores⟩
  := by
  constructor
  · apply h
  · apply Within.refl
  · intro d
    apply Or.inl
  · intro d hd
    apply Queue.mem_ofList.mp hd
  · intro d hd lookahead y after hl
    apply absurd (Queue.mem_ofList.mpr _) hd
    apply mem_cores_iff.mpr
    use lookahead

/-- The invariant holds whatever was processed from the beginning. -/
theorem Reached.isPartial (hc : c.Reached g a kernel) (hg : g.WellFormed) (ha : Analysis.Known g a)
    (hids : g.tokens.ids ⊆ ids) (h : kernel.Among g ids) :
  c.Partial g ids a kernel
  := by
  induction hc with
  | refl => apply partial_initial h
  | tail _ hstep ih => apply ih.processes hg ha hids hstep

/-- On the way from a proper item set to its closure there are proper item sets only. -/
theorem Reached.proper (hc : c.Reached g a kernel) (hg : g.WellFormed) (ha : Analysis.Known g a)
    (h : kernel.Proper g) :
  c.items.Proper g
  := by
  have hpartial := hc.isPartial hg ha (List.Subset.refl _) h.among
  refine ⟨hpartial.among.rule_mem, ?_, hpartial.among.tokens_mem, hpartial.among.increasing⟩
  intro e he
  rcases hpartial.mem_cores e.core (List.mem_map_of_mem he) with hcore | hdot
  · obtain ⟨f, hf, hcore⟩ := List.mem_map.mp hcore
    rw [← hcore]
    apply h.dot_le f hf
  · rw [hdot]
    apply Nat.zero_le

/-- In the search, the oldest core is always processed first. -/
theorem reached_exhaust (bound : Nat) :
  Reached g a kernel (exhaust (closureStep g a) bound ⟨kernel, .ofList kernel.cores⟩)
  := by
  apply exhaust_induction _ bound .refl
  intro c c' hmany hstep
  apply hmany.tail (processes_of_closureStep hstep)

/-- There is a further step while cores are pending. -/
theorem pending_eq_empty (h : Stuck (closureStep g a) c) :
  c.pending = .empty
  := by
  obtain ⟨items, ⟨_ | _, hnodup⟩⟩ := c
  · rfl
  · cases h

/-- The search comes to an end if it is not given up too early. -/
theorem stuck_exhaust_closureStep (hg : g.WellFormed) (ha : Analysis.Known g a)
    (hids : g.tokens.ids ⊆ ids) (h : kernel.Among g ids) {bound : Nat}
    (hbound : weight g ids ⟨kernel, .ofList kernel.cores⟩ ≤ bound) :
  Stuck (closureStep g a) (exhaust (closureStep g a) bound ⟨kernel, .ofList kernel.cores⟩)
  := by
  apply stuck_exhaust_of_keep (motive := Partial g ids a kernel) _ (weight g ids) _
    (partial_initial h) hbound
  · intro c c' hc hstep
    apply hc.processes hg ha hids (processes_of_closureStep hstep)
  · intro c c' hc hstep
    apply weight_lt_of_processes hg ha hids hc (processes_of_closureStep hstep)

theorem weight_initial_le (kernel : ItemSet) :
  weight g g.tokens.ids ⟨kernel, .ofList kernel.cores⟩ ≤ closureBound g kernel
  := by
  have hpending : (Queue.ofList kernel.cores).toList.length ≤ kernel.entries.length := by
    have hsub : (Queue.ofList kernel.cores).toList.Subperm kernel.cores := by
      apply (Queue.nodup _).subperm
      intro d
      apply Queue.mem_ofList.mp
    have hle := hsub.length_le
    rwa [cores, List.length_map] at hle
  have hsum : (g.rules.map (room g.tokens.ids kernel)).sum ≤ g.rules.length * (g.tokens.size + 1) := by
    have hle := List.sum_le_card_nsmul (g.rules.map (room g.tokens.ids kernel))
      (g.tokens.ids.length + 1) (by simp [room_le])
    rwa [List.length_map, smul_eq_mul, SymbolTable.ids, List.length_map, ← SymbolTable.size] at hle
  simp only [weight, closureBound]
  omega

end Closing

/-! ### The closure -/

section closure

variable (hg : g.WellFormed) (ha : Analysis.Known g a)

include hg ha

/-- The closure is what there is when all cores have been processed, the oldest first. -/
theorem reached_closure (h : kernel.Among g g.tokens.ids) :
  Closing.Reached g a kernel ⟨kernel.closure g a, .empty⟩
  := by
  have hreached : Closing.Reached g a kernel _ := Closing.reached_exhaust (closureBound g kernel)
  have hstuck := Closing.stuck_exhaust_closureStep hg ha (List.Subset.refl _) h
    (Closing.weight_initial_le kernel)
  rw [closure, ← Closing.pending_eq_empty hstuck]
  apply hreached

/-- The search ends with nothing pending. -/
theorem partial_closure (h : kernel.Among g g.tokens.ids) :
  Closing.Partial g g.tokens.ids a kernel ⟨kernel.closure g a, .empty⟩
  := (reached_closure hg ha h).isPartial hg ha (List.Subset.refl _) h

/-- The closure of a proper item set is proper. -/
theorem Proper.closure (h : kernel.Proper g) :
  (kernel.closure g a).Proper g
  := (reached_closure hg ha h.among).proper hg ha h

/-- An item set is within its closure. -/
theorem within_closure (h : kernel.Proper g) :
  kernel.Within (kernel.closure g a)
  := (partial_closure hg ha h.among).within

/-- The cores of the closure are those of the item set and rules with the dot in front. -/
theorem mem_cores_closure (h : kernel.Proper g) (hd : d ∈ (kernel.closure g a).cores) :
  d ∈ kernel.cores ∨ d.dot = 0
  := (partial_closure hg ha h.among).mem_cores d hd

/-- The closure of a proper item set is closed. -/
theorem closed_closure (h : kernel.Proper g) :
  (kernel.closure g a).Closed g a
  := by
  intro d
  apply (partial_closure hg ha h.among).predicts d List.not_mem_nil

end closure

end CanonicalLR.ItemSet
