import CanonicalLR.Proofs.Automaton.Closure

/-!
# The closure is the least closed item set

What holds of the entries of an item set, and is handed on from a core to the rules of the term behind
its dot, holds of all entries of the closure (`closure_induction`).  So the closure is within every
closed item set that the item set is within (`isClosureOf_closure`), and it does not change the
lookahead of a core with the dot behind a symbol (`lookahead?_closure`).

The same is true of what there is when no core is pending any more, in whatever order the cores were
processed (`Closing.Reached.isClosureOf`).
-/

namespace CanonicalLR.ItemSet

variable {g : Grammar} {a : Analysis} {s kernel : ItemSet} {d : DottedRule}
  {tokens lookahead : IndexSet} {r : Rule} {rules : List Rule} {ids : List TokenId}
  {C : DottedRule → IndexSet → Prop}

/-! ### What holds of all entries -/

namespace Closing

variable {c c' : Closing}

/-- Every core has the property together with its lookahead. -/
def Holds (C : DottedRule → IndexSet → Prop) (c : Closing) : Prop :=
  ∀ d lookahead, c.items.lookahead? d = some lookahead → C d lookahead

section union

variable (hg : g.WellFormed)
  (hunion : ∀ r lookahead tokens, C (.initial r) lookahead → C (.initial r) tokens →
    C (.initial r) (lookahead ∪ tokens))

include hg hunion

theorem Holds.predict (hc : c.items.Among g ids) (h : c.Holds C) (hr : r ∈ g.rules)
    (htokens : C (.initial r) tokens) :
  (c.predict tokens r).Holds C
  := by
  rw [Closing.predict]
  split
  · apply h
  · intro d lookahead hl
    rw [hc.lookahead?_add hg hr] at hl
    split at hl
    · next hd =>
      cases hl
      rw [hd]
      cases hprior : c.items.lookahead? (.initial r) with
      | none =>
        rw [Option.getD_none, IndexSet.empty_union]
        apply htokens
      | some prior => apply hunion r prior tokens (h _ _ hprior) htokens
    · apply h d lookahead hl

theorem Holds.foldl_predict (hc : c.items.Among g ids) (h : c.Holds C)
    (hrules : ∀ r ∈ rules, r ∈ g.rules ∧ C (.initial r) tokens)
    (hids : ∀ n, n ∈ tokens → n ∈ ids) :
  (rules.foldl (Closing.predict tokens) c).Holds C
  := by
  induction rules generalizing c with
  | nil => apply h
  | cons r rules ih =>
    obtain ⟨hr, htokens⟩ := hrules r List.mem_cons_self
    apply ih
    · apply (Grows.predict hg hc hr hids).1.among
    · apply h.predict hg hunion hc hr htokens
    · intro r' hr'
      apply hrules r' (List.mem_cons_of_mem _ hr')

variable (ha : Analysis.Known g a) (hids : g.tokens.ids ⊆ ids)
  (hpredict : ∀ d lookahead y after r, C d lookahead → d.rest = .term y :: after →
    r ∈ g.rulesOf y → C (.initial r) (a.firstsOf lookahead after))

include ha hids hpredict

/-- What is handed on by the predictions of a core holds after a step. -/
theorem Holds.processes (hc : c.Partial g ids a kernel) (h : c.Holds C)
    (hstep : c.Processes g a c') :
  c'.Holds C
  := by
  obtain ⟨d, pending, hperm, rfl⟩ := hstep
  have hd : d ∈ c.items.cores := by
    apply hc.pending_mem
    apply hperm.mem_iff.mpr List.mem_cons_self
  obtain ⟨lookahead, hl⟩ := mem_cores_iff.mp hd
  simp only [process, hl, Option.getD_some]
  split
  · next y after hy =>
    apply Holds.foldl_predict (c := ⟨c.items, pending⟩) hg hunion hc.among h
    · intro r hr
      use (Grammar.mem_rulesOf.mp hr).1
      apply hpredict d lookahead y after r (h d lookahead hl) hy hr
    · intro n
      apply hc.among.mem_ids_of_mem_firstsOf hg ha hids hl hy
  · apply h

/-- What holds of the entries of the item set, and is handed on by predictions, holds whatever was
processed from the beginning. -/
theorem Reached.holds (hc : c.Reached g a kernel) (h : kernel.Among g ids)
    (hkernel : ∀ d lookahead, kernel.lookahead? d = some lookahead → C d lookahead) :
  c.Holds C
  := by
  induction hc with
  | refl => apply hkernel
  | tail hmany hstep ih =>
    have hpartial := Reached.isPartial hmany hg ha hids h
    apply ih.processes hg hunion ha hids hpredict hpartial hstep

end union

end Closing

/-- What holds of the entries of the item set, and is handed on from a core of the closure to the rules
of the term behind its dot, holds of all entries of the closure. -/
theorem closure_induction (hg : g.WellFormed) (ha : Analysis.Known g a) (h : kernel.Proper g)
    (hkernel : ∀ d lookahead, kernel.lookahead? d = some lookahead → C d lookahead)
    (hpredict : ∀ d lookahead y after r, d ∈ (kernel.closure g a).cores → C d lookahead →
      d.rest = .term y :: after → r ∈ g.rulesOf y → C (.initial r) (a.firstsOf lookahead after))
    (hunion : ∀ r lookahead tokens, C (.initial r) lookahead → C (.initial r) tokens →
      C (.initial r) (lookahead ∪ tokens))
    (hd : (kernel.closure g a).lookahead? d = some lookahead) :
  C d lookahead
  := by
  -- The cores met on the way are cores of the closure, as that is closed.
  let C' (d : DottedRule) (lookahead : IndexSet) : Prop :=
    d ∈ (kernel.closure g a).cores ∧ C d lookahead
  have hkernel' : ∀ d lookahead, kernel.lookahead? d = some lookahead → C' d lookahead := by
    intro d lookahead hl
    use (within_closure hg ha h).mem_cores (mem_cores_iff.mpr ⟨lookahead, hl⟩), hkernel d lookahead hl
  have hpredict' : ∀ d lookahead y after r, C' d lookahead → d.rest = .term y :: after →
      r ∈ g.rulesOf y → C' (.initial r) (a.firstsOf lookahead after) := by
    rintro d lookahead y after r ⟨hd, hC⟩ hy hr
    constructor
    · obtain ⟨lookahead', hl⟩ := mem_cores_iff.mp hd
      apply mem_cores_of_covers (closed_closure hg ha h d lookahead' y after hl hy r hr)
    · apply hpredict d lookahead y after r hd hC hy hr
  have hunion' : ∀ r lookahead tokens, C' (.initial r) lookahead → C' (.initial r) tokens →
      C' (.initial r) (lookahead ∪ tokens) := by
    rintro r lookahead tokens ⟨hr, hC⟩ ⟨-, htokens⟩
    use hr, hunion r lookahead tokens hC htokens
  have hholds := (reached_closure hg ha h.among).holds hg hunion' ha (List.Subset.refl _) hpredict'
    h.among hkernel'
  apply (hholds d lookahead hd).2

/-! ### Leastness -/

/-- The item set `s` is the least closed one that the item set `kernel` is within. -/
structure IsClosureOf (g : Grammar) (a : Analysis) (kernel s : ItemSet) : Prop where
  within : kernel.Within s
  closed : s.Closed g a
  least : ∀ s', kernel.Within s' → s'.Closed g a → s.Within s'

/-- When no core is pending any more, there is the least closed item set that the first one is within. -/
theorem Closing.Reached.isClosureOf {items : ItemSet} (hc : Reached g a kernel ⟨items, .empty⟩)
    (hg : g.WellFormed) (ha : Analysis.Known g a) (hids : g.tokens.ids ⊆ ids) (h : kernel.Among g ids) :
  IsClosureOf g a kernel items
  := by
  have hpartial := hc.isPartial hg ha hids h
  use hpartial.within, fun d => hpartial.predicts d List.not_mem_nil
  intro s hwithin hclosed
  apply hc.holds (C := fun d lookahead => s.covers d lookahead = true) hg _ ha hids _ h hwithin
  · intro r lookahead tokens hcovers hcovers'
    obtain ⟨lookahead', hl', hle⟩ := covers_iff.mp hcovers
    obtain ⟨lookahead'', hl'', hle'⟩ := covers_iff.mp hcovers'
    obtain rfl := Option.some.inj (hl'.symm.trans hl'')
    apply covers_iff.mpr
    use lookahead', hl'
    intro n hn
    rcases IndexSet.mem_union.mp hn with hn | hn
    · apply hle n hn
    · apply hle' n hn
  · intro d lookahead y after r hcovers hy hr
    obtain ⟨lookahead', hl', hle⟩ := covers_iff.mp hcovers
    obtain ⟨lookahead'', hl'', hle'⟩ := covers_iff.mp (hclosed d lookahead' y after hl' hy r hr)
    apply covers_iff.mpr
    use lookahead'', hl''
    intro n hn
    apply hle' n (Analysis.firstsOf_mono hle hn)

/-- The closure is the least closed item set that the item set is within. -/
theorem isClosureOf_closure (hg : g.WellFormed) (ha : Analysis.Known g a) (h : kernel.Proper g) :
  IsClosureOf g a kernel (kernel.closure g a)
  := (reached_closure hg ha h.among).isClosureOf hg ha (List.Subset.refl _) h.among

/-- A core with the dot behind a symbol has the lookahead in the closure that it had before. -/
theorem lookahead?_closure (hg : g.WellFormed) (ha : Analysis.Known g a) (h : kernel.Proper g)
    (hdot : d.dot ≠ 0) :
  (kernel.closure g a).lookahead? d = kernel.lookahead? d
  := by
  have hsame : ∀ lookahead, (kernel.closure g a).lookahead? d = some lookahead →
      kernel.lookahead? d = some lookahead := by
    intro lookahead hl
    have hcases : d.dot = 0 ∨ kernel.lookahead? d = some lookahead := by
      apply closure_induction (C := fun d lookahead => d.dot = 0 ∨ kernel.lookahead? d = some lookahead)
        hg ha h _ _ _ hl
      · intro d lookahead
        apply Or.inr
      · intro d lookahead y after r _ _ _ _
        left
        rfl
      · intro r lookahead tokens _ _
        left
        rfl
    apply hcases.resolve_left hdot
  cases hl : (kernel.closure g a).lookahead? d with
  | some lookahead => rw [hsame lookahead hl]
  | none =>
    rw [eq_comm, Option.eq_none_iff_forall_ne_some]
    intro lookahead hl'
    obtain ⟨lookahead', hl'', -⟩ := covers_iff.mp (within_closure hg ha h d lookahead hl')
    rw [hl] at hl''
    cases hl''

end CanonicalLR.ItemSet
