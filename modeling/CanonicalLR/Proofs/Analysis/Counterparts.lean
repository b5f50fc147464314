import Mathlib.Data.List.Forall2
import CanonicalLR.Proofs.Analysis.Exactness

/-!
# Grammars that are written alike

Two grammars are *written alike* (`Grammar.Alike`) if their rules, in their order, are the same once
they are written with names.  Their symbols and their rules may have different numbers.  A symbol of
the one grammar has as its *counterpart* the symbol of the other one with the same kind and the same
name, a rule has the rule at the same position, and a set of tokens is the counterpart of another one
if each token of the one has a counterpart in the other one.

The analysis of a grammar depends on the names and on the rules only: the tokens that sequences of
counterparts can begin with are counterparts (`IndexSet.Included.firstsOf`).  As the facts about a
term are the least ones, it is enough that derivations by the one grammar can be repeated by the other.
-/

namespace CanonicalLR

/-- The symbols have the same kind, and the same name in the one grammar as in the other. -/
structure Symbol.Counterpart (g g' : Grammar) (s s' : Symbol) : Prop where
  left : g.contains s = true
  right : g'.contains s' = true
  label_eq : g.label s = g'.label s'

/-- The rules are at the same position. -/
def Rule.Counterpart (g g' : Grammar) (r r' : Rule) : Prop :=
  ∃ i : Nat, g.rules[i]? = some r ∧ g'.rules[i]? = some r'

/-- The grammars are well formed, and their rules are the same if they are written with names. -/
structure Grammar.Alike (g g' : Grammar) : Prop where
  left : g.WellFormed
  right : g'.WellFormed
  map_production : g.rules.map g.production = g'.rules.map g'.production

variable {g g' : Grammar} {s s' s'' : Symbol} {r r' r'' : Rule} {symbols symbols' : List Symbol}
  {w : List TokenId} {n : TokenId} {tokens tokens' tokens'' : IndexSet}

/-! ### Symbols -/

namespace Symbol.Counterpart

theorem symm (h : Counterpart g g' s s') :
  Counterpart g' g s' s
  := ⟨h.right, h.left, h.label_eq.symm⟩

theorem kind_eq (h : Counterpart g g' s s') :
  s.kind = s'.kind
  := congrArg Label.kind h.label_eq

theorem unique (hg : g'.WellFormed) (h : Counterpart g g' s s') (h' : Counterpart g g' s s'') :
  s' = s''
  := hg.eq_of_label_eq h.right h'.right (h.label_eq.symm.trans h'.label_eq)

end Symbol.Counterpart

theorem Grammar.Alike.symm (h : g.Alike g') :
  g'.Alike g
  := ⟨h.right, h.left, h.map_production.symm⟩

theorem Symbol.biUnique_counterpart (h : g.Alike g') :
  Relator.BiUnique (Symbol.Counterpart g g')
  := ⟨fun _ _ _ h₁ h₂ => h₁.symm.unique h.left h₂.symm, fun _ _ _ h₁ h₂ => h₁.unique h.right h₂⟩

/-! ### Rules -/

/-- No rule occurs twice. -/
theorem Grammar.WellFormed.nodup_rules (hg : g.WellFormed) :
  g.rules.Nodup
  := by
  apply hg.rules_increasing.imp
  intro r r' hlt heq
  rw [heq] at hlt
  apply Nat.lt_irrefl _ hlt

namespace Rule.Counterpart

theorem symm (h : Counterpart g g' r r') :
  Counterpart g' g r' r
  := by
  obtain ⟨i, hr, hr'⟩ := h
  use i

theorem mem (h : Counterpart g g' r r') :
  r ∈ g.rules
  := by
  obtain ⟨i, hr, -⟩ := h
  apply List.mem_of_getElem? hr

theorem unique (hg : g.WellFormed) (h : Counterpart g g' r r') (h' : Counterpart g g' r r'') :
  r' = r''
  := by
  obtain ⟨i, hr, hr'⟩ := h
  obtain ⟨j, hj, hj'⟩ := h'
  obtain rfl := (List.getElem?_inj (List.getElem?_eq_some_iff.mp hr).1 hg.nodup_rules).mp
    (hr.trans hj.symm)
  apply Option.some.inj (hr'.symm.trans hj')

/-- Of two rules, the counterparts are in the same order. -/
theorem id_lt (h : g.Alike g') {q q' : Rule} (hr : Counterpart g g' r r')
    (hq : Counterpart g g' q q') (hlt : r.id < q.id) :
  r'.id < q'.id
  := by
  obtain ⟨i, hi, hi'⟩ := hr
  obtain ⟨j, hj, hj'⟩ := hq
  obtain ⟨hli, rfl⟩ := List.getElem?_eq_some_iff.mp hi
  obtain ⟨hlj, rfl⟩ := List.getElem?_eq_some_iff.mp hj
  obtain ⟨hli', rfl⟩ := List.getElem?_eq_some_iff.mp hi'
  obtain ⟨hlj', rfl⟩ := List.getElem?_eq_some_iff.mp hj'
  rcases Nat.lt_trichotomy i j with hij | rfl | hji
  · apply List.pairwise_iff_getElem.mp h.right.rules_increasing i j hli' hlj' hij
  · apply absurd hlt (Nat.lt_irrefl _)
  · have hgt := List.pairwise_iff_getElem.mp h.left.rules_increasing j i hlj hli hji
    apply absurd hlt (Nat.lt_asymm hgt)

/-- The rules are written the same. -/
theorem production_eq (h : g.Alike g') (hr : Counterpart g g' r r') :
  g.production r = g'.production r'
  := by
  obtain ⟨i, hr, hr'⟩ := hr
  have heq := congrArg (fun productions => productions[i]?) h.map_production
  simpa [hr, hr'] using heq

/-- The owners are counterparts. -/
theorem owner (h : g.Alike g') (hr : Counterpart g g' r r') :
  Symbol.Counterpart g g' (.term r.owner) (.term r'.owner)
  := by
  use h.left.owner_mem r hr.mem, h.right.owner_mem r' hr.symm.mem
  rw [Grammar.label, Grammar.label, Label.mk.injEq]
  use rfl
  apply congrArg Production.left (hr.production_eq h)

/-- The right sides consist of counterparts. -/
theorem items (h : g.Alike g') (hr : Counterpart g g' r r') :
  List.Forall₂ (Symbol.Counterpart g g') r.items r'.items
  := by
  have hlabels : r.items.map g.label = r'.items.map g'.label :=
    congrArg Production.right (hr.production_eq h)
  have hmem := h.left.items_mem r hr.mem
  have hmem' := h.right.items_mem r' hr.symm.mem
  rw [← List.forall₂_eq_eq_eq, List.forall₂_map_left_iff, List.forall₂_map_right_iff] at hlabels
  rw [List.forall₂_iff_zip] at hlabels ⊢
  use hlabels.1
  intro s s' hs
  obtain ⟨hleft, hright⟩ := List.of_mem_zip hs
  exact ⟨hmem s hleft, hmem' s' hright, hlabels.2 hs⟩

/-- The right sides consist of counterparts also without their prompts. -/
theorem basicItems (h : g.Alike g') (hr : Counterpart g g' r r') :
  List.Forall₂ (Symbol.Counterpart g g') r.basicItems r'.basicItems
  := by
  apply List.rel_filter _ (hr.items h)
  intro s s' hs
  simp [Symbol.isBasic, hs.kind_eq]

theorem arity_eq (h : g.Alike g') (hr : Counterpart g g' r r') :
  r.arity = r'.arity
  := (hr.basicItems h).length_eq

end Rule.Counterpart

/-- The grammars have the same number of rules. -/
theorem Grammar.Alike.length_eq (h : g.Alike g') :
  g.rules.length = g'.rules.length
  := by
  simpa using congrArg List.length h.map_production

/-- Each rule has a counterpart. -/
theorem Rule.exists_counterpart (h : g.Alike g') (hr : r ∈ g.rules) :
  ∃ r', Rule.Counterpart g g' r r'
  := by
  obtain ⟨i, hi⟩ := List.mem_iff_getElem?.mp hr
  have hlt : i < g'.rules.length := h.length_eq ▸ (List.getElem?_eq_some_iff.mp hi).1
  use g'.rules[i], i, hi
  apply List.getElem?_eq_getElem hlt

/-- A rule of a term has as its counterpart a rule of the counterpart of the term. -/
theorem Rule.exists_counterpart_of_owner (h : g.Alike g') (hr : r ∈ g.rules)
    (hs : Symbol.Counterpart g g' (.term r.owner) s) :
  ∃ r', Rule.Counterpart g g' r r' ∧ s = .term r'.owner
  := by
  obtain ⟨r', hr'⟩ := Rule.exists_counterpart h hr
  use r', hr', hs.unique h.right (hr'.owner h)

/-! ### Derivations -/

/-- If a sequence derives the empty one, then so does its counterpart. -/
theorem Derives.counterpart (h : g.Alike g') (hd : Derives g.rules symbols w) (hw : w = [])
    (hsymbols : List.Forall₂ (Symbol.Counterpart g g') symbols symbols') :
  Derives g'.rules symbols' []
  := by
  induction hd generalizing symbols' with
  | nil =>
    rw [List.forall₂_nil_left_iff] at hsymbols
    rw [hsymbols]
    exact .nil
  | prompt _ ih =>
    obtain ⟨⟨kind, id⟩, rest, hs, hrest, rfl⟩ := List.forall₂_cons_left_iff.mp hsymbols
    obtain rfl : Kind.prompt = kind := hs.kind_eq
    exact .prompt (ih hw hrest)
  | token => cases hw
  | term hr _ _ ihright ih =>
    obtain ⟨s', rest, hs, hrest, rfl⟩ := List.forall₂_cons_left_iff.mp hsymbols
    obtain ⟨r', hr', rfl⟩ := Rule.exists_counterpart_of_owner h hr hs
    obtain ⟨hv, hw⟩ := List.append_eq_nil_iff.mp hw
    exact .term hr'.symm.mem (ihright hv (hr'.items h)) (ih hw hrest)

/-- If a token opens a sequence, then its counterpart opens the counterpart of the sequence. -/
theorem Opens.counterpart (h : g.Alike g') (ho : Opens g.rules n symbols)
    (hsymbols : List.Forall₂ (Symbol.Counterpart g g') symbols symbols') :
  ∃ n', Symbol.Counterpart g g' (.token n) (.token n') ∧ Opens g'.rules n' symbols'
  := by
  induction ho generalizing symbols' with
  | prompt _ ih =>
    obtain ⟨⟨kind, id⟩, rest, hs, hrest, rfl⟩ := List.forall₂_cons_left_iff.mp hsymbols
    obtain rfl : Kind.prompt = kind := hs.kind_eq
    obtain ⟨n', hn, ho⟩ := ih hrest
    use n', hn, .prompt ho
  | token =>
    obtain ⟨⟨kind, id⟩, rest, hs, -, rfl⟩ := List.forall₂_cons_left_iff.mp hsymbols
    obtain rfl : Kind.token = kind := hs.kind_eq
    use id, hs, .token
  | term hr _ ih =>
    obtain ⟨s', rest, hs, -, rfl⟩ := List.forall₂_cons_left_iff.mp hsymbols
    obtain ⟨r', hr', rfl⟩ := Rule.exists_counterpart_of_owner h hr hs
    obtain ⟨n', hn, ho⟩ := ih (hr'.items h)
    use n', hn, .term hr'.symm.mem ho
  | skip hr hnil _ ih =>
    obtain ⟨s', rest, hs, hrest, rfl⟩ := List.forall₂_cons_left_iff.mp hsymbols
    obtain ⟨r', hr', rfl⟩ := Rule.exists_counterpart_of_owner h hr hs
    obtain ⟨n', hn, ho⟩ := ih hrest
    use n', hn, .skip hr'.symm.mem (hnil.counterpart h rfl (hr'.items h)) ho

/-! ### Sets of tokens -/

namespace IndexSet

/-- Each token of the one set has a counterpart in the other one. -/
def Included (g g' : Grammar) (tokens tokens' : IndexSet) : Prop :=
  ∀ n, n ∈ tokens → ∃ n', n' ∈ tokens' ∧ Symbol.Counterpart g g' (.token n) (.token n')

/-- The sets consist of counterparts. -/
def Counterpart (g g' : Grammar) (tokens tokens' : IndexSet) : Prop :=
  Included g g' tokens tokens' ∧ Included g' g tokens' tokens

theorem Included.mono (h : Included g g' tokens tokens') (hsub : ∀ n, n ∈ tokens' → n ∈ tokens'') :
  Included g g' tokens tokens''
  := by
  intro n hn
  obtain ⟨n', hn', hs⟩ := h n hn
  use n', hsub n' hn'

theorem Included.union (h : Included g g' tokens tokens'') (h' : Included g g' tokens' tokens'') :
  Included g g' (tokens ∪ tokens') tokens''
  := by
  intro n hn
  rcases mem_union.mp hn with hn | hn
  · apply h n hn
  · apply h' n hn

/-- The tokens that a sequence can begin with are included in those of its counterpart. -/
theorem Included.firstsOf (h : g.Alike g') (ht : Included g g' tokens tokens')
    (hsymbols : List.Forall₂ (Symbol.Counterpart g g') symbols symbols') :
  Included g g' (g.analyze.firstsOf tokens symbols) (g'.analyze.firstsOf tokens' symbols')
  := by
  intro n hn
  rcases (Analysis.mem_firstsOf_analyze h.left).mp hn with ho | ⟨hnil, hn⟩
  · obtain ⟨n', hs, ho'⟩ := ho.counterpart h hsymbols
    exact ⟨n', (Analysis.mem_firstsOf_analyze h.right).mpr (.inl ho'), hs⟩
  · obtain ⟨n', hn', hs⟩ := ht n hn
    have hnil' := hnil.counterpart h rfl hsymbols
    exact ⟨n', (Analysis.mem_firstsOf_analyze h.right).mpr (.inr ⟨hnil', hn'⟩), hs⟩

namespace Counterpart

theorem symm (h : Counterpart g g' tokens tokens') :
  Counterpart g' g tokens' tokens
  := ⟨h.2, h.1⟩

theorem singleton {n' : TokenId} (h : Symbol.Counterpart g g' (.token n) (.token n')) :
  Counterpart g g' (.singleton n) (.singleton n')
  := by
  constructor
  · intro m hm
    rw [mem_singleton.mp hm]
    exact ⟨n', mem_singleton.mpr rfl, h⟩
  · intro m hm
    rw [mem_singleton.mp hm]
    exact ⟨n, mem_singleton.mpr rfl, h.symm⟩

theorem mem_iff (hg : g.Alike g') (h : Counterpart g g' tokens tokens') {n' : TokenId}
    (hn : Symbol.Counterpart g g' (.token n) (.token n')) :
  n ∈ tokens ↔ n' ∈ tokens'
  := by
  constructor
  · intro hmem
    obtain ⟨m, hm, hs⟩ := h.1 n hmem
    cases hs.unique hg.right hn
    apply hm
  · intro hmem
    obtain ⟨m, hm, hs⟩ := h.2 n' hmem
    cases hs.unique hg.left hn.symm
    apply hm

theorem unique (hg : g.Alike g') (h : Counterpart g g' tokens tokens')
    (h' : Counterpart g g' tokens tokens'') :
  tokens' = tokens''
  := by
  apply ext_mem
  intro n
  constructor
  · intro hn
    obtain ⟨m, hm, hs⟩ := h.2 n hn
    apply (h'.mem_iff hg hs.symm).mp hm
  · intro hn
    obtain ⟨m, hm, hs⟩ := h'.2 n hn
    apply (h.mem_iff hg hs.symm).mp hm

end Counterpart

end IndexSet

end CanonicalLR
