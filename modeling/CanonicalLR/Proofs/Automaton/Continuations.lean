import CanonicalLR.Proofs.Analysis.Exactness
import CanonicalLR.Proofs.Automaton.LeastClosure
import CanonicalLR.Proofs.Automaton.Predictions

/-!
# What comes behind a dotted rule

A walk through the automaton spells the symbols of its transitions (`Walk`).  At the end of a walk a
dotted rule is *continued* by the symbols that come behind it once the rule has been read to its end
(`Continues`): the start rule is continued by the end of the input, and a rule of the term behind the
dot is continued by what is left of the rule that it begins in, and by what that is continued by.

The states know this exactly.  The cores of the last state of a walk are the dotted rules that are
continued there, and the lookahead of a core has the tokens that open what it is continued by, and no
others (`Continues.exists_lookahead`, `Walk.exists_continues`).  A continuation is a way to complete
what has been read to an input (`Continues.derives`).
-/

namespace CanonicalLR.Automaton

open ItemSet

/-- The states are those on a walk through the automaton that begins in the first state, and the
symbols are those of its transitions, the last of them in front. -/
inductive Walk (m : Automaton) : List StateId → List Symbol → Prop where
  | start : Walk m [0] []
  | step {s target : StateId} {states : List StateId} {symbols : List Symbol} {state : State}
      {x : Symbol} :
      Walk m (s :: states) symbols → m.states[s]? = some state → ⟨x, target⟩ ∈ state.transitions →
      Walk m (target :: s :: states) (x :: symbols)

/-- At the end of a walk through the automaton, the last symbols of which are those before the dot, the
symbols `follow` come behind the dotted rule. -/
inductive Continues (g : AugmentedGrammar) :
    List StateId → List Symbol → DottedRule → List Symbol → Prop where
  | start : Continues g [0] [] (.initial g.startRule) [.token g.eof]
  | predict {states : List StateId} {symbols : List Symbol} {d : DottedRule}
      {follow after : List Symbol} {y : TermId} {r : Rule} :
      Continues g states symbols d follow → d.rest = .term y :: after → r ∈ g.grammar.rulesOf y →
      Continues g states symbols (.initial r) (after ++ follow)
  | advance {s target : StateId} {states : List StateId} {symbols : List Symbol} {d : DottedRule}
      {follow : List Symbol} {state : State} {x : Symbol} :
      Continues g (s :: states) symbols d follow → (build g).states[s]? = some state →
      ⟨x, target⟩ ∈ state.transitions → d.next? = some x →
      Continues g (target :: s :: states) (x :: symbols) d.advance follow

variable {g : AugmentedGrammar} {s target : StateId} {states : List StateId} {symbols : List Symbol}
  {state : State} {d : DottedRule} {lookahead : IndexSet} {follow after : List Symbol} {n : TokenId}
  {x : Symbol} {r : Rule}

/-! ### What is continued is known to the state -/

/-- A dotted rule that is continued is a core of the state on top, and the tokens that open what it is
continued by are in its lookahead. -/
theorem Continues.exists_lookahead (hg : g.WellFormed) (h : Continues g states symbols d follow) :
  ∃ s below state lookahead, states = s :: below ∧ (build g).states[s]? = some state ∧
    state.items.lookahead? d = some lookahead ∧
    ∀ n, Opens g.grammar.rules n follow → n ∈ lookahead
  := by
  induction h with
  | start =>
    obtain ⟨first, hfirst, hitems⟩ := exists_first hg
    have hkernel : (initialKernel g).lookahead? (.initial g.startRule) =
        some (.singleton g.eof) := by simp [initialKernel, lookahead?]
    have hcovers := within_closure hg.grammar (known_analyze hg) (proper_initialKernel hg) _ _ hkernel
    rw [← hitems] at hcovers
    obtain ⟨lookahead, hl, hle⟩ := covers_iff.mp hcovers
    use 0, [], first, lookahead, rfl, hfirst, hl
    intro n hn
    apply hle n
    rw [IndexSet.mem_singleton, opens_token.mp hn]
  | @predict _ _ d follow after y r _ hy hr ih =>
    obtain ⟨s, below, state, lookahead, hstates, hs, hl, hle⟩ := ih
    have hclosed := closed_items hg (List.mem_of_getElem? hs)
    obtain ⟨lookahead', hl', hle'⟩ := covers_iff.mp (hclosed d lookahead y after hl hy r hr)
    use s, below, state, lookahead', hstates, hs, hl'
    intro n hn
    apply hle' n
    apply (Analysis.mem_firstsOf_analyze hg.grammar).mpr
    apply (opens_append.mp hn).imp_right
    rintro ⟨hnil, hn⟩
    use hnil, hle n hn
  | @advance s target states _ d _ state x _ hs ht hx ih =>
    obtain ⟨s', below, state', lookahead, hstates, hs', hl, hle⟩ := ih
    cases hstates
    obtain rfl := Option.some.inj (hs.symm.trans hs')
    have hmem := List.mem_of_getElem? hs
    have hproper := proper_items hg hmem
    obtain ⟨next, hnext, hitems⟩ := exists_target hg hmem ht
    have hadvance : (state.items.advance x).lookahead? d.advance = some lookahead :=
      hproper.lookahead?_advance_eq_some_iff.mpr ⟨d, hx, rfl, hl⟩
    have hcovers := within_closure hg.grammar (known_analyze hg) hproper.advance _ _ hadvance
    rw [← hitems] at hcovers
    obtain ⟨lookahead', hl', hle'⟩ := covers_iff.mp hcovers
    use target, s :: states, next, lookahead', rfl, hnext, hl'
    intro n hn
    apply hle' n (hle n hn)

/-! ### What the state knows is continued -/

/-- The dotted rule is continued, and every token of the lookahead opens something that it is continued
by. -/
def Continued (g : AugmentedGrammar) (states : List StateId) (symbols : List Symbol) (d : DottedRule)
    (lookahead : IndexSet) : Prop :=
  (∃ follow, Continues g states symbols d follow) ∧
    ∀ n, n ∈ lookahead →
      ∃ follow, Continues g states symbols d follow ∧ Opens g.grammar.rules n follow

/-- If the cores of an item set are continued, then so are those of its closure. -/
theorem continued_closure (hg : g.WellFormed) {kernel : ItemSet} (hproper : kernel.Proper g.grammar)
    (hkernel : ∀ d lookahead, kernel.lookahead? d = some lookahead →
      Continued g states symbols d lookahead)
    (hl : (kernel.closure g.grammar g.grammar.analyze).lookahead? d = some lookahead) :
  Continued g states symbols d lookahead
  := by
  apply closure_induction hg.grammar (known_analyze hg) hproper hkernel _ _ hl
  · rintro d lookahead y after r - ⟨⟨follow, hd⟩, hlookahead⟩ hy hr
    use ⟨after ++ follow, hd.predict hy hr⟩
    intro n hn
    rcases (Analysis.mem_firstsOf_analyze hg.grammar).mp hn with hn | ⟨hnil, hn⟩
    · use after ++ follow, hd.predict hy hr, hn.append_right follow
    · obtain ⟨follow', hd', hn⟩ := hlookahead n hn
      use after ++ follow', hd'.predict hy hr, hn.append hnil rfl
  · rintro r lookahead tokens ⟨hr, hlookahead⟩ ⟨-, htokens⟩
    use hr
    intro n hn
    rcases IndexSet.mem_union.mp hn with hn | hn
    · apply hlookahead n hn
    · apply htokens n hn

/-- The cores of the state at the end of a walk are continued. -/
theorem Walk.continued (hg : g.WellFormed) (h : (build g).Walk states symbols)
    (hs : states.head? = some s) (hstate : (build g).states[s]? = some state)
    (hl : state.items.lookahead? d = some lookahead) :
  Continued g states symbols d lookahead
  := by
  induction h generalizing s state d lookahead with
  | start =>
    cases hs
    obtain ⟨first, hfirst, hitems⟩ := exists_first hg
    obtain rfl := Option.some.inj (hstate.symm.trans hfirst)
    rw [hitems] at hl
    apply continued_closure hg (proper_initialKernel hg) _ hl
    intro d lookahead hl
    have he := exists_entry_of_lookahead? hl
    rw [initialKernel, List.mem_singleton] at he
    obtain ⟨rfl, rfl⟩ := Entry.mk.inj he
    use ⟨_, .start⟩
    intro n hn
    use [.token g.eof], .start
    rw [IndexSet.mem_singleton.mp hn]
    exact .token
  | step _ hprior ht ih =>
    cases hs
    have hmem := List.mem_of_getElem? hprior
    have hproper := proper_items hg hmem
    obtain ⟨next, hnext, hitems⟩ := exists_target hg hmem ht
    obtain rfl := Option.some.inj (hstate.symm.trans hnext)
    rw [hitems] at hl
    apply continued_closure hg hproper.advance _ hl
    intro d lookahead hl
    obtain ⟨e, hx, rfl, he⟩ := hproper.lookahead?_advance_eq_some_iff.mp hl
    obtain ⟨⟨follow, hfollow⟩, hlookahead⟩ := ih rfl hprior he
    use ⟨follow, hfollow.advance hprior ht hx⟩
    intro n hn
    obtain ⟨follow', hfollow', hn⟩ := hlookahead n hn
    use follow', hfollow'.advance hprior ht hx

/-- A token that may come at the end of a walk, be it that it opens what is behind the dot or that it is
in the lookahead, opens what is left of the rule together with what comes behind it. -/
theorem Walk.exists_continues (hg : g.WellFormed) (h : (build g).Walk states symbols)
    (hs : states.head? = some s) (hstate : (build g).states[s]? = some state)
    (hl : state.items.lookahead? d = some lookahead)
    (hn : Opens g.grammar.rules n d.rest ∨ Derives g.grammar.rules d.rest [] ∧ n ∈ lookahead) :
  ∃ follow, Continues g states symbols d follow ∧ Opens g.grammar.rules n (d.rest ++ follow)
  := by
  obtain ⟨⟨follow, hfollow⟩, hlookahead⟩ := h.continued hg hs hstate hl
  rcases hn with hn | ⟨hnil, hn⟩
  · use follow, hfollow, hn.append_right follow
  · obtain ⟨follow', hfollow', hn⟩ := hlookahead n hn
    use follow', hfollow', hn.append hnil rfl

/-! ### Continuations complete an input -/

/-- A sequence that derives what another one does still does so in the middle of other symbols. -/
theorem derives_append_mono {rules : List Rule} {xs after : List Symbol} {w : List TokenId}
    (before ys : List Symbol) (hxy : ∀ v, Derives rules xs v → Derives rules ys v)
    (h : Derives rules (before ++ (xs ++ after)) w) :
  Derives rules (before ++ (ys ++ after)) w
  := by
  obtain ⟨u, _, rfl, hu, hrest⟩ := derives_append.mp h
  obtain ⟨v, w, rfl, hv, hw⟩ := derives_append.mp hrest
  apply derives_append.mpr
  use u, v ++ w, rfl, hu
  apply derives_append.mpr
  use v, w, rfl, hxy v hv

/-- What is continued is a rule of the grammar, and it is continued by members. -/
theorem Continues.contains (hg : g.WellFormed) (h : Continues g states symbols d follow) :
  d.rule ∈ g.grammar.rules ∧ ∀ x ∈ d.rest ++ follow, g.grammar.contains x = true
  := by
  have hmembers {d : DottedRule} {follow : List Symbol} (hd : d.rule ∈ g.grammar.rules)
      (hfollow : ∀ x ∈ follow, g.grammar.contains x = true) :
      d.rule ∈ g.grammar.rules ∧ ∀ x ∈ d.rest ++ follow, g.grammar.contains x = true := by
    use hd
    rw [List.forall_mem_append]
    use fun x hx => hg.grammar.items_mem _ hd x (DottedRule.mem_items_of_mem_rest hx)
  induction h with
  | start =>
    apply hmembers hg.startRule_mem
    rw [List.forall_mem_singleton]
    apply hg.contains_eof
  | predict _ hy hr ih =>
    apply hmembers (Grammar.mem_rulesOf.mp hr).1
    rw [hy, List.cons_append, List.forall_mem_cons] at ih
    apply ih.2.2
  | @advance _ _ _ _ d _ _ _ _ _ _ _ ih =>
    apply hmembers (d := d.advance) ih.1 (List.forall_mem_append.mp ih.2).2

/-- What has been read, what is left of the rule and what comes behind it derive together nothing but
what the start rule derives, with the end of the input behind it. -/
theorem Continues.derives (h : Continues g states symbols d follow) {w : List TokenId}
    (hw : Derives g.grammar.rules (symbols.reverse ++ (d.rest ++ follow)) w) :
  Derives g.grammar.rules (g.startRule.items ++ [.token g.eof]) w
  := by
  induction h with
  | start =>
    apply derives_append_mono [] g.startRule.items _ hw
    intro v
    apply derives_filter_isBasic.mp
  | @predict _ symbols d follow after y r _ hy hr ih =>
    apply ih
    rw [hy]
    obtain ⟨hmem, rfl⟩ := Grammar.mem_rulesOf.mp hr
    apply derives_append_mono symbols.reverse [.term r.owner] _ hw
    intro v hv
    apply derived_iff.mpr
    use r, hmem, rfl, derives_filter_isBasic.mp hv
  | @advance _ _ _ symbols d follow _ x _ _ _ hx ih =>
    apply ih
    obtain ⟨rest, hrest⟩ := List.head?_eq_some_iff.mp hx
    rw [(DottedRule.next?_and_rest_advance hrest).2, List.reverse_cons, List.append_assoc] at hw
    rw [hrest]
    apply hw

end CanonicalLR.Automaton
