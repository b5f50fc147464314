import CanonicalLR.Proofs.Analysis.Exactness
import CanonicalLR.Proofs.Automaton.States
import CanonicalLR.Proofs.Automaton.LeastClosure
import CanonicalLR.Proofs.Grammar.Built

/-!
# The order of processing does not matter

An item set *foretells* (`ItemSet.Foretells`) if it holds every rule of a term behind a dot, with all
tokens in its lookahead that can come after that term.  The least such item set (`ItemSet.IsLeast`) is
told by its cores and lookaheads alone.

To find it, pending cores may be processed in any order.  Whatever the order, processing comes to an end
(`Closing.Partial.acc`), and then there is the least item set (`exists_isLeast_processed`).  So it does not
matter that the search takes the oldest pending core each time.
-/

namespace CanonicalLR.ItemSet

open Relation

variable {g : Grammar} {a : Analysis} {s t s' t' kernel : ItemSet} {ids : List TokenId}

/-! ### The least item set that foretells -/

/-- The tokens that can come after what is in front of the symbols `after`, if those of the lookahead can
come after all of it. -/
def ComesNext (g : Grammar) (after : List Symbol) (lookahead : IndexSet) (n : TokenId) : Prop :=
  Opens g.rules n after ∨ Derives g.rules after [] ∧ n ∈ lookahead

/-- Where a term is behind the dot of a core, all its rules are cores, with the dot in front, and the
tokens that can come after the term are in their lookaheads. -/
def Foretells (g : Grammar) (s : ItemSet) : Prop :=
  ∀ d lookahead y after, s.lookahead? d = some lookahead → d.rest = .term y :: after →
    ∀ r ∈ g.rulesOf y, ∃ lookahead', s.lookahead? (.initial r) = some lookahead' ∧
      ∀ n, ComesNext g after lookahead n → n ∈ lookahead'

/-- The item set `t` is the least one that `s` is within and that foretells. -/
structure IsLeast (g : Grammar) (s t : ItemSet) : Prop where
  within : s.Within t
  foretells : t.Foretells g
  least : ∀ t', s.Within t' → t'.Foretells g → t.Within t'

/-- To be closed is to foretell. -/
theorem closed_analyze_iff (hg : g.WellFormed) :
  s.Closed g g.analyze ↔ s.Foretells g
  := by
  simp only [Closed, Predicts, Foretells, covers_iff, Analysis.mem_firstsOf_analyze hg, ComesNext]

/-- The least closed item set is the least one that foretells. -/
theorem IsClosureOf.isLeast (hg : g.WellFormed) (h : IsClosureOf g g.analyze s t) :
  IsLeast g s t
  := by
  use h.within, (closed_analyze_iff hg).mp h.closed
  intro t' hwithin hforetells
  apply h.least t' hwithin ((closed_analyze_iff hg).mpr hforetells)

/-- Ordered item sets that are within each other are the same. -/
theorem Ordered.eq_of_within (h : s.Ordered g) (h' : s'.Ordered g) (hs : s.Within s')
    (hs' : s'.Within s) :
  s = s'
  := by
  have hsub {s s' : ItemSet} (hs : s.Within s') (hs' : s'.Within s) (d : DottedRule)
      (lookahead : IndexSet) (hl : s.lookahead? d = some lookahead) :
      s'.lookahead? d = some lookahead := by
    obtain ⟨lookahead', hl', hle⟩ := covers_iff.mp (hs d lookahead hl)
    obtain ⟨lookahead'', hl'', hle'⟩ := covers_iff.mp (hs' d lookahead' hl')
    obtain rfl := Option.some.inj (hl.symm.trans hl'')
    rw [hl', IndexSet.ext_mem fun n => ⟨hle' n, hle n⟩]
  apply h.ext h'
  intro d
  apply Option.ext
  intro lookahead
  exact ⟨hsub hs hs' d lookahead, hsub hs' hs d lookahead⟩

theorem IsLeast.unique (h : IsLeast g s t) (h' : IsLeast g s t') (ht : t.Ordered g)
    (ht' : t'.Ordered g) :
  t = t'
  := by
  apply ht.eq_of_within ht'
  · apply h.least t' h'.within h'.foretells
  · apply h'.least t h.within h.foretells

/-! ### Any order -/

namespace Closing

variable {c : Closing}

/-- There is no order in which processing goes on forever. -/
theorem Partial.acc (hg : g.WellFormed) (ha : Analysis.Known g a) (hids : g.tokens.ids ⊆ ids)
    (h : c.Partial g ids a kernel) :
  Acc (fun c' c => Processes g a c c') c
  := by
  induction hweight : c.weight g ids using Nat.strong_induction_on generalizing c with
  | h weight ih =>
    constructor
    intro c' hstep
    apply ih _ _ (h.processes hg ha hids hstep) rfl
    rw [← hweight]
    apply weight_lt_of_processes hg ha hids h hstep

/-- Processing goes on while cores are pending. -/
theorem pending_eq_empty_of_end (h : ∀ c', ¬ c.Processes g a c') :
  c.pending = .empty
  := by
  obtain ⟨items, ⟨pending, hnodup⟩⟩ := c
  cases pending with
  | nil => rfl
  | cons d pending =>
    apply absurd _ (h (process g a d ⟨items, ⟨pending, (List.nodup_cons.mp hnodup).2⟩⟩))
    exact ⟨d, _, .refl _, rfl⟩

end Closing

/-- The lookaheads of an ordered item set are among the tokens of the grammar and those that they hold. -/
theorem Ordered.among (h : s.Ordered g) :
  s.Among g (g.tokens.ids ++ s.entries.flatMap fun e => e.lookahead.toList)
  := by
  use h
  intro e he n hn
  apply List.mem_append_right
  apply List.mem_flatMap.mpr ⟨e, he, IndexSet.mem_toList.mpr hn⟩

/-- The search ends, with nothing pending. -/
theorem Among.exists_exhaust_eq (h : s.Among g ids) (hg : g.WellFormed) (ha : Analysis.Known g a)
    (hids : g.tokens.ids ⊆ ids) :
  ∃ t bound, exhaust (closureStep g a) bound ⟨s, .ofList s.cores⟩ = ⟨t, .empty⟩
  := by
  have hstuck := Closing.stuck_exhaust_closureStep hg ha hids h (Nat.le_refl _)
  rw [← Closing.pending_eq_empty hstuck]
  exact ⟨_, _, rfl⟩

/-- Let the grammar be augmented, and let an item set assign sets of whatever tokens to dotted rules of
it, with the dots at whatever places.  Then there is a least item set that it is within and that foretells.
In every order of processing its cores and what becomes pending there is an end, and at every end there is
this least item set; in particular when the oldest pending core is always the next one.  If the tokens
are those of the grammar, it is the closure. -/
theorem exists_isLeast_processed {h : Grammar} {g : AugmentedGrammar} (hh : h.Built)
    (ha : h.augment = .ok g) (hs : s.Ordered g.grammar) :
  ∃ t : ItemSet, t.Ordered g.grammar ∧ IsLeast g.grammar s t ∧
    Acc (fun c' c => Closing.Processes g.grammar g.grammar.analyze c c') ⟨s, .ofList s.cores⟩ ∧
    (∀ c, Closing.Reached g.grammar g.grammar.analyze s c →
      (∀ c', ¬ c.Processes g.grammar g.grammar.analyze c') → c = ⟨t, .empty⟩) ∧
    (∃ bound, exhaust (closureStep g.grammar g.grammar.analyze) bound ⟨s, .ofList s.cores⟩ =
      ⟨t, .empty⟩) ∧
    ((∀ e ∈ s.entries, ∀ n, n ∈ e.lookahead → n ∈ g.grammar.tokens.ids) →
      s.closure g.grammar g.grammar.analyze = t)
  := by
  have hg : g.WellFormed := (hh.wellFormed.augment ha).1
  have ha := Automaton.known_analyze hg
  have hids : g.grammar.tokens.ids ⊆ g.grammar.tokens.ids ++ s.entries.flatMap fun e =>
    e.lookahead.toList := List.subset_append_left _ _
  have hend {t : ItemSet} (ht : Closing.Reached g.grammar g.grammar.analyze s ⟨t, .empty⟩) :
      t.Ordered g.grammar ∧ IsLeast g.grammar s t := by
    use (ht.isPartial hg.grammar ha hids hs.among).among.toOrdered
    apply (ht.isClosureOf hg.grammar ha hids hs.among).isLeast hg.grammar
  obtain ⟨t, bound, hbound⟩ := hs.among.exists_exhaust_eq hg.grammar ha hids
  obtain ⟨hordered, hleast⟩ := hend (hbound ▸ Closing.reached_exhaust bound)
  have hunique {t' : ItemSet} (ht' : Closing.Reached g.grammar g.grammar.analyze s ⟨t', .empty⟩) :
      t' = t := (hend ht').2.unique hleast (hend ht').1 hordered
  refine ⟨t, hordered, hleast, ?_, ?_, ⟨bound, hbound⟩, ?_⟩
  · apply (Closing.partial_initial hs.among).acc hg.grammar ha hids
  · rintro ⟨items, pending⟩ hreached hstop
    obtain rfl : pending = .empty := Closing.pending_eq_empty_of_end hstop
    rw [hunique hreached]
  · intro htokens
    apply hunique (reached_closure hg.grammar ha ⟨hs, htokens⟩)

/-- A grammar in which a term predicts itself, with and without a nullable term behind it. -/
def sequels : Grammar :=
  ((Grammar.ofProductions "S" [⟨"S", [⟨.term, "A"⟩, ⟨.term, "S"⟩, ⟨.term, "B"⟩]⟩,
    ⟨"S", [⟨.prompt, "p"⟩]⟩, ⟨"A", [⟨.term, "A"⟩, ⟨.token, "a"⟩]⟩, ⟨"A", [⟨.token, "a"⟩]⟩,
    ⟨"B", [⟨.term, "B"⟩, ⟨.token, "b"⟩]⟩, ⟨"B", [⟨.prompt, "q"⟩]⟩]).toOption).getD .empty

/-- The rules of a grammar with the dot at the second place, and with the token `n`. -/
def seed (g : Grammar) (n : TokenId) : ItemSet :=
  ⟨g.rules.map fun r => ⟨⟨r, 1⟩, .singleton n⟩⟩

/-- From the rules of the sequels, with a token that is foreign to them, the least item set is found in
every order. -/
theorem exists_isLeast_processed_sequels :
  ∃ a, sequels.augment = .ok a ∧ 9 ∉ a.grammar.tokens.ids ∧ (seed a.grammar 9).Ordered a.grammar ∧
    ∃ t, IsLeast a.grammar (seed a.grammar 9) t ∧
      ∀ c, Closing.Reached a.grammar a.grammar.analyze (seed a.grammar 9) c →
        (∀ c', ¬ c.Processes a.grammar a.grammar.analyze c') → c = ⟨t, .empty⟩
  := by
  have hsome : (sequels.augment.toOption.filter fun a => 9 ∉ a.grammar.tokens.ids).isSome = true := by
    decide +kernel
  obtain ⟨a, ha⟩ := Option.isSome_iff_exists.mp hsome
  obtain ⟨ha, hnine⟩ := Option.filter_eq_some_iff.mp ha
  have ha := Grammar.eq_ok_of_toOption_eq_some ha
  have hbuilt : sequels.Built := Grammar.built_getD_ofProductions
  have hseed : (seed a.grammar 9).Ordered a.grammar := by
    constructor
    · rintro _ he
      obtain ⟨r, hr, rfl⟩ := List.mem_map.mp he
      apply hr
    · apply List.pairwise_map.mpr
      apply (hbuilt.wellFormed.augment ha).1.grammar.rules_increasing.imp
      exact fun hlt => DottedRule.order_eq_lt_iff.mpr (.inl hlt)
  obtain ⟨t, -, hleast, -, hend, -⟩ := exists_isLeast_processed hbuilt ha hseed
  exact ⟨a, ha, of_decide_eq_true hnine, hseed, t, hleast, hend⟩

end CanonicalLR.ItemSet
