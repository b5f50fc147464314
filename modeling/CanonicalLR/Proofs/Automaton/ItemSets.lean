import Mathlib.Tactic.Use
import CanonicalLR.Automaton.ItemSet
import CanonicalLR.Proofs.Grammar.WellFormed

/-!
# Proper item sets

An item set is *ordered* (`ItemSet.Ordered`) if its entries are in the order of their cores, no two of
them with the same core, and are about rules of the grammar.  Then its lookahead function tells all about
it (`Ordered.lookahead?_eq_some_iff`), and there is one lemma for each operation that says how that
function changes (`Ordered.lookahead?_add`, `Proper.lookahead?_advance_eq_some_iff`).

An item set is *proper* (`ItemSet.Proper`) if moreover no dot is behind the end of its rule, and all
lookaheads are sets of tokens of the grammar.
-/

namespace CanonicalLR

namespace IndexSet

@[simp]
theorem empty_union (s : IndexSet) :
  ∅ ∪ s = s
  := by
  apply ext_mem
  simp

end IndexSet

namespace DottedRule

variable {d e f : DottedRule}

theorem order_eq_lt_iff :
  d.order e = .lt ↔ d.rule.id < e.rule.id ∨ d.rule.id = e.rule.id ∧ d.dot < e.dot
  := by
  simp [order, Ordering.then_eq_lt, Nat.compare_eq_lt]

theorem order_eq_eq_iff :
  d.order e = .eq ↔ d.rule.id = e.rule.id ∧ d.dot = e.dot
  := by
  simp [order, Ordering.then_eq_eq]

theorem order_eq_gt_iff :
  d.order e = .gt ↔ e.order d = .lt
  := by
  simp only [order, Ordering.then_eq_gt, Ordering.then_eq_lt, Nat.compare_eq_lt, Nat.compare_eq_gt,
    Nat.compare_eq_eq]
  rw [eq_comm (a := d.rule.id)]

theorem order_lt_trans (hde : d.order e = .lt) (hef : e.order f = .lt) :
  d.order f = .lt
  := by
  rw [order_eq_lt_iff] at hde hef ⊢
  rcases hde with hde | ⟨hde, hde'⟩
  · left
    rcases hef with hef | ⟨hef, -⟩
    · apply Nat.lt_trans hde hef
    · rw [← hef]
      apply hde
  · rw [hde]
    apply hef.imp_right
    rintro ⟨hef, hef'⟩
    use hef
    apply Nat.lt_trans hde' hef'

theorem order_lt_irrefl :
  d.order d ≠ .lt
  := by
  rw [ne_eq, order_eq_lt_iff, not_or]
  use Nat.lt_irrefl _
  rintro ⟨-, h⟩
  apply Nat.lt_irrefl _ h

/-- Dotted rules of a grammar are the same if neither comes before the other. -/
theorem eq_of_order_eq {g : Grammar} (hg : g.WellFormed) (hd : d.rule ∈ g.rules)
    (he : e.rule ∈ g.rules) (h : d.order e = .eq) :
  d = e
  := by
  obtain ⟨hid, hdot⟩ := order_eq_eq_iff.mp h
  obtain ⟨r, dot⟩ := d
  obtain ⟨r', dot'⟩ := e
  rw [mk.injEq]
  use hg.eq_of_id_eq hd he hid

/-- There is a symbol after the dot exactly if the dot is not at the end. -/
theorem next?_isSome_iff :
  d.next?.isSome ↔ d.dot < d.rule.arity
  := by
  rw [next?, rest, List.isSome_head?, Rule.arity, ne_eq, List.drop_eq_nil_iff, Nat.not_le]

/-- The first symbol after the dot is the next one, and the others are after the dot once it is
behind that symbol. -/
theorem next?_and_rest_advance {x : Symbol} {rest : List Symbol} (h : d.rest = x :: rest) :
  d.next? = some x ∧ d.advance.rest = rest
  := by
  constructor
  · rw [next?, h, List.head?_cons]
  · have htail := congrArg List.tail h
    rw [DottedRule.rest, List.tail_drop, List.tail_cons] at htail
    apply htail

/-- What is after the dot belongs to the rule. -/
theorem mem_items_of_mem_rest {x : Symbol} (h : x ∈ d.rest) :
  x ∈ d.rule.items
  := by
  apply List.mem_of_mem_filter (p := Symbol.isBasic)
  apply List.mem_of_mem_drop h

end DottedRule

namespace ItemSet

variable {g : Grammar} {s : ItemSet} {d d' : DottedRule} {tokens lookahead : IndexSet} {x : Symbol}

/-- The entries are in the order of their cores, and they are about rules of the grammar. -/
structure Ordered (g : Grammar) (s : ItemSet) : Prop where
  rule_mem : ∀ e ∈ s.entries, e.core.rule ∈ g.rules
  increasing : s.entries.Pairwise fun e f => e.core.order f.core = .lt

/-- The entries are ordered, and the lookaheads hold no other tokens than `ids`. -/
structure Among (g : Grammar) (ids : List TokenId) (s : ItemSet) : Prop extends Ordered g s where
  tokens_mem : ∀ e ∈ s.entries, ∀ n, n ∈ e.lookahead → n ∈ ids

/-- The entries are in order, and they are about rules and tokens of the grammar. -/
structure Proper (g : Grammar) (s : ItemSet) : Prop where
  rule_mem : ∀ e ∈ s.entries, e.core.rule ∈ g.rules
  dot_le : ∀ e ∈ s.entries, e.core.dot ≤ e.core.rule.arity
  tokens_mem : ∀ e ∈ s.entries, ∀ n, n ∈ e.lookahead → n ∈ g.tokens.ids
  increasing : s.entries.Pairwise fun e f => e.core.order f.core = .lt

theorem mem_cores_iff :
  d ∈ s.cores ↔ ∃ lookahead, s.lookahead? d = some lookahead
  := by
  rw [← Option.isSome_iff_exists, lookahead?, Option.isSome_map, List.find?_isSome]
  simp [cores]

theorem exists_entry_of_lookahead? (h : s.lookahead? d = some lookahead) :
  ⟨d, lookahead⟩ ∈ s.entries
  := by
  obtain ⟨⟨core, _⟩, he, rfl⟩ := Option.map_eq_some_iff.mp h
  obtain rfl : core = d := by simpa using List.find?_some he
  apply List.mem_of_find?_eq_some he

/-- A core is covered exactly if its lookahead includes the tokens. -/
theorem covers_iff :
  s.covers d tokens = true ↔
    ∃ lookahead, s.lookahead? d = some lookahead ∧ ∀ n, n ∈ tokens → n ∈ lookahead
  := by
  rw [covers]
  split
  · next h => simp [h]
  · next lookahead h => simp [h, IndexSet.includes_iff]

theorem mem_cores_of_covers (h : s.covers d tokens) :
  d ∈ s.cores
  := by
  obtain ⟨lookahead, hl, -⟩ := covers_iff.mp h
  apply mem_cores_iff.mpr
  use lookahead

namespace Ordered

/-- Each entry is that of its core. -/
theorem lookahead?_eq_some_iff (h : s.Ordered g) :
  s.lookahead? d = some lookahead ↔ ⟨d, lookahead⟩ ∈ s.entries
  := by
  use exists_entry_of_lookahead?
  intro hm
  obtain ⟨lookahead', hl⟩ := mem_cores_iff.mp (List.mem_map_of_mem hm)
  have hdistinct : (s.entries.map (·.core)).Nodup := by
    apply List.pairwise_map.mpr (h.increasing.imp _)
    intro e f hef he
    rw [he] at hef
    apply DottedRule.order_lt_irrefl hef
  have heq := List.inj_on_of_nodup_map hdistinct (exists_entry_of_lookahead? hl) hm rfl
  rw [hl, (Entry.mk.inj heq).2]

/-- Ordered item sets with the same lookaheads are the same. -/
theorem ext {s' : ItemSet} (h : s.Ordered g) (h' : s'.Ordered g)
    (hl : ∀ d, s.lookahead? d = s'.lookahead? d) :
  s = s'
  := by
  have hnodup : ∀ {s : ItemSet}, s.Ordered g → s.entries.Nodup := by
    intro s h
    apply h.increasing.imp
    rintro e f hef rfl
    apply DottedRule.order_lt_irrefl hef
  have hperm : s.entries.Perm s'.entries := by
    apply (List.perm_ext_iff_of_nodup (hnodup h) (hnodup h')).mpr
    rintro ⟨d, lookahead⟩
    rw [← h.lookahead?_eq_some_iff, ← h'.lookahead?_eq_some_iff, hl]
  obtain ⟨entries⟩ := s
  obtain ⟨entries'⟩ := s'
  congr 1
  apply hperm.eq_of_pairwise _ h.increasing h'.increasing
  intro e f _ _ hef hfe
  apply absurd (DottedRule.order_lt_trans hef hfe) DottedRule.order_lt_irrefl

theorem rule_mem_of_lookahead? (h : s.Ordered g) (hl : s.lookahead? d = some lookahead) :
  d.rule ∈ g.rules
  := h.rule_mem _ (exists_entry_of_lookahead? hl)

theorem tail {e : Entry} {entries : List Entry} (h : Ordered g ⟨e :: entries⟩) :
  Ordered g ⟨entries⟩
  := by
  constructor
  · intro f hf
    apply h.rule_mem f (List.mem_cons_of_mem _ hf)
  · apply (List.pairwise_cons.mp h.increasing).2

/-- A dotted rule that comes before the first core is no core. -/
theorem lookahead?_eq_none_of_lt {e : Entry} {entries : List Entry} (h : Ordered g ⟨e :: entries⟩)
    (hd : d.order e.core = .lt) :
  lookahead? ⟨e :: entries⟩ d = none
  := by
  rw [Option.eq_none_iff_forall_ne_some]
  intro lookahead hl
  rcases List.mem_cons.mp (exists_entry_of_lookahead? hl) with he | he
  · rw [← he] at hd
    apply DottedRule.order_lt_irrefl hd
  · have hlt := (List.pairwise_cons.mp h.increasing).1 _ he
    apply DottedRule.order_lt_irrefl (DottedRule.order_lt_trans hd hlt)

end Ordered

theorem Among.mem_ids_of_lookahead? {ids : List TokenId} (h : s.Among g ids)
    (hl : s.lookahead? d = some lookahead) {n : TokenId} (hn : n ∈ lookahead) :
  n ∈ ids
  := h.tokens_mem _ (exists_entry_of_lookahead? hl) n hn

namespace Proper

theorem among (h : s.Proper g) :
  s.Among g g.tokens.ids
  := ⟨⟨h.rule_mem, h.increasing⟩, h.tokens_mem⟩

theorem lookahead?_eq_some_iff (h : s.Proper g) :
  s.lookahead? d = some lookahead ↔ ⟨d, lookahead⟩ ∈ s.entries
  := h.among.lookahead?_eq_some_iff

/-- Proper item sets with the same lookaheads are the same. -/
theorem ext {s' : ItemSet} (h : s.Proper g) (h' : s'.Proper g)
    (hl : ∀ d, s.lookahead? d = s'.lookahead? d) :
  s = s'
  := h.among.ext h'.among.toOrdered hl

theorem rule_mem_of_lookahead? (h : s.Proper g) (hl : s.lookahead? d = some lookahead) :
  d.rule ∈ g.rules
  := h.among.rule_mem_of_lookahead? hl

theorem dot_le_of_lookahead? (h : s.Proper g) (hl : s.lookahead? d = some lookahead) :
  d.dot ≤ d.rule.arity
  := h.dot_le _ (exists_entry_of_lookahead? hl)

end Proper

/-! ### Adding to lookaheads -/

theorem lookahead?_cons {e : Entry} {entries : List Entry} :
  lookahead? ⟨e :: entries⟩ d =
    if d = e.core then some e.lookahead else lookahead? ⟨entries⟩ d
  := by
  simp only [lookahead?, List.find?_cons]
  split
  · next h => simp [of_decide_eq_true h]
  · next h => simp [Ne.symm (of_decide_eq_false h)]

/-- An entry is one of those from before, or the tokens have been added to its lookahead. -/
theorem mem_addEntry {e : Entry} {entries : List Entry} (he : e ∈ addEntry d tokens entries) :
  e ∈ entries ∨ e = ⟨d, tokens⟩ ∨ ∃ f ∈ entries, e = ⟨f.core, f.lookahead ∪ tokens⟩
  := by
  induction entries with
  | nil =>
    rw [addEntry, List.mem_singleton] at he
    simp [he]
  | cons f entries ih =>
    rw [addEntry] at he
    split at he
    · rw [List.mem_cons] at he
      apply he.symm.imp_right
      apply Or.inl
    · rcases List.mem_cons.mp he with rfl | he
      · right
        right
        use f, List.mem_cons_self
      · left
        apply List.mem_cons_of_mem _ he
    · rcases List.mem_cons.mp he with rfl | he
      · left
        apply List.mem_cons_self
      · apply (ih he).imp (List.mem_cons_of_mem _) _
        apply Or.imp_right
        rintro ⟨f', hf', rfl⟩
        use f', List.mem_cons_of_mem _ hf'

theorem increasing_addEntry {entries : List Entry}
    (h : entries.Pairwise fun e f => e.core.order f.core = .lt) :
  (addEntry d tokens entries).Pairwise fun e f => e.core.order f.core = .lt
  := by
  induction entries with
  | nil => apply List.pairwise_singleton
  | cons e entries ih =>
    obtain ⟨he, hentries⟩ := List.pairwise_cons.mp h
    rw [addEntry]
    split
    · next hlt =>
      apply List.pairwise_cons.mpr ⟨_, h⟩
      intro f hf
      rcases List.mem_cons.mp hf with rfl | hf
      · apply hlt
      · apply DottedRule.order_lt_trans hlt (he f hf)
    · apply List.pairwise_cons.mpr
      use he
    · next hgt =>
      apply List.pairwise_cons.mpr ⟨_, ih hentries⟩
      intro f hf
      rcases mem_addEntry hf with hf | rfl | ⟨f', hf', rfl⟩
      · apply he f hf
      · apply DottedRule.order_eq_gt_iff.mp hgt
      · apply he f' hf'

/-- The lookaheads once tokens have been added to that of one core. -/
theorem Ordered.lookahead?_add (hg : g.WellFormed) (h : s.Ordered g) (hd : d.rule ∈ g.rules) :
  (s.add d tokens).lookahead? d' =
    if d' = d then some ((s.lookahead? d).getD ∅ ∪ tokens) else s.lookahead? d'
  := by
  obtain ⟨entries⟩ := s
  rw [add]
  induction entries with
  | nil =>
    rw [addEntry, lookahead?_cons]
    simp [lookahead?]
  | cons e entries ih =>
    rw [addEntry]
    split
    · next hlt =>
      rw [h.lookahead?_eq_none_of_lt hlt, lookahead?_cons]
      simp
    · next heq =>
      obtain rfl := DottedRule.eq_of_order_eq hg hd (h.rule_mem e List.mem_cons_self) heq
      simp only [lookahead?_cons, if_true, Option.getD_some]
      split <;> rfl
    · next hgt =>
      have hne : d ≠ e.core := by
        rintro rfl
        apply DottedRule.order_lt_irrefl (DottedRule.order_eq_gt_iff.mp hgt)
      rw [lookahead?_cons, ih h.tail, lookahead?_cons, lookahead?_cons, if_neg hne]
      by_cases he : d' = e.core
      · rw [if_pos he, if_pos he, if_neg (he.trans_ne hne.symm)]
      · rw [if_neg he, if_neg he]

/-- The lookaheads stay among the tokens `ids` when some of these are added to that of one of the rules of
the grammar. -/
theorem Among.add {ids : List TokenId} (h : s.Among g ids) (hd : d.rule ∈ g.rules)
    (htokens : ∀ n, n ∈ tokens → n ∈ ids) :
  (s.add d tokens).Among g ids
  := by
  refine ⟨⟨?_, increasing_addEntry h.increasing⟩, ?_⟩
  · intro e he
    rcases mem_addEntry he with he | rfl | ⟨f, hf, rfl⟩
    · apply h.rule_mem e he
    · apply hd
    · apply h.rule_mem f hf
  · intro e he n hn
    rcases mem_addEntry he with he | rfl | ⟨f, hf, rfl⟩
    · apply h.tokens_mem e he n hn
    · apply htokens n hn
    · rcases IndexSet.mem_union.mp hn with hn | hn
      · apply h.tokens_mem f hf n hn
      · apply htokens n hn

/-! ### Advancing -/

namespace Proper

/-- The entry of an advanced item set comes from the entry with the dot one place before. -/
theorem mem_advance {e : Entry} :
  e ∈ (s.advance x).entries ↔
    ∃ d, d.next? = some x ∧ e.core = d.advance ∧ ⟨d, e.lookahead⟩ ∈ s.entries
  := by
  simp only [ItemSet.advance, List.mem_map, List.mem_filter, decide_eq_true_eq]
  constructor
  · rintro ⟨f, ⟨hf, hx⟩, rfl⟩
    use f.core, hx
  · rintro ⟨d, hx, he, hm⟩
    use ⟨d, e.lookahead⟩, ⟨hm, hx⟩
    rw [← he]

/-- A proper item set stays so when it is advanced. -/
theorem advance (h : s.Proper g) :
  (s.advance x).Proper g
  := by
  constructor
  · intro e he
    obtain ⟨d, -, hd, hm⟩ := mem_advance.mp he
    rw [hd]
    apply h.rule_mem _ hm
  · intro e he
    obtain ⟨d, hx, hd, -⟩ := mem_advance.mp he
    rw [hd]
    apply DottedRule.next?_isSome_iff.mp
    rw [hx]
    rfl
  · intro e he
    obtain ⟨d, -, -, hm⟩ := mem_advance.mp he
    apply h.tokens_mem _ hm
  · apply List.pairwise_map.mpr
    apply (h.increasing.sublist List.filter_sublist).imp
    intro e f hef
    rw [DottedRule.order_eq_lt_iff] at hef ⊢
    apply hef.imp_right
    rintro ⟨hrule, hdot⟩
    use hrule
    apply Nat.succ_lt_succ hdot

/-- The lookaheads of an advanced item set are those of the cores with the dot one place before. -/
theorem lookahead?_advance_eq_some_iff (h : s.Proper g) :
  (s.advance x).lookahead? d' = some lookahead ↔
    ∃ d, d.next? = some x ∧ d' = d.advance ∧ s.lookahead? d = some lookahead
  := by
  rw [h.advance.lookahead?_eq_some_iff, mem_advance]
  simp only [h.lookahead?_eq_some_iff]

end Proper

end ItemSet

end CanonicalLR
