import CanonicalLR.Proofs.Grammar.Reachability
import CanonicalLR.Proofs.Language.Derivation

/-!
# Tidying keeps the language

A grammar *keeps* what another one says (`Grammar.Keeps`) if it has the same symbols under the same
names, and possibly more, and those of the other one derive the same sequences as before.  A
grammar keeps what it says when its rules are tidied (`keeps_tidyRules`).

When unreachable symbols are removed, the others are left with their names
(`contains_term_removeUnreachable`, `nameOf_removeUnreachable`), and the terms among them derive the
same sequences as before (`derived_removeUnreachable`).
-/

namespace CanonicalLR

/-- Prompts make no difference to what is read. -/
theorem reads_filter_isBasic {L : Reading} {items : List Symbol} {w : List TokenId} :
  Reads L (items.filter Symbol.isBasic) w ↔ Reads L items w
  := by
  induction items generalizing w with
  | nil => rfl
  | cons s items ih =>
    obtain ⟨k, id⟩ := s
    cases k <;> simp [Symbol.isBasic, Reads, ReadsSymbol, ← ih]

/-- Prompts do not matter to what is derived. -/
theorem derives_filter_isBasic {rules : List Rule} {items : List Symbol} {w : List TokenId} :
  Derives rules (items.filter Symbol.isBasic) w ↔ Derives rules items w
  := by
  rw [derives_iff_reads, reads_filter_isBasic, derives_iff_reads]

namespace Grammar

variable {g g' : Grammar} {t : TermId} {items : List Symbol} {w : List TokenId}

/-! ### Readings of right sides -/

/-- A term derives what its right sides derive. -/
theorem derived_of_hasRule (hr : g.HasRule t items) (hw : Reads (derived g.rules) items w) :
  derived g.rules t w
  := by
  obtain ⟨r, hr, rfl, rfl⟩ := hr
  apply closedUnder_derived hr w hw

/-- What a term derives is derived from one of its right sides. -/
theorem exists_hasRule_of_derived (hw : derived g.rules t w) :
  ∃ items, g.HasRule t items ∧ Reads (derived g.rules) items w
  := by
  obtain ⟨r, hr, rfl, hitems⟩ := derived_iff.mp hw
  use r.items, hasRule_of_mem hr, derives_iff_reads.mp hitems

/-- A reading that is closed under the rules contains what is derived. -/
theorem reading_of_derived {L : Reading}
    (hL : ∀ t items, g.HasRule t items → ∀ w, Reads L items w → L t w)
    (hw : derived g.rules t w) :
  L t w
  := by
  have := Derives.reads (fun r hr => hL r.owner r.items (hasRule_of_mem hr)) hw
  rwa [reads_singleton] at this

/-- Only members occur in what is derived from members. -/
theorem WellFormed.contains_of_derives (h : g.WellFormed) (hd : Derives g.rules items w)
    (hitems : ∀ s ∈ items, g.contains s) :
  ∀ n ∈ w, g.contains (.token n)
  := by
  induction hd with
  | nil => simp
  | prompt _ ih => apply ih fun s hs => hitems s (List.mem_cons_of_mem _ hs)
  | token _ ih =>
    intro n hn
    rcases List.mem_cons.mp hn with rfl | hn
    · apply hitems _ List.mem_cons_self
    · apply ih (fun s hs => hitems s (List.mem_cons_of_mem _ hs)) n hn
  | term hr _ _ ihv ihw =>
    intro n hn
    rcases List.mem_append.mp hn with hn | hn
    · apply ihv (h.items_mem _ hr) n hn
    · apply ihw (fun s hs => hitems s (List.mem_cons_of_mem _ hs)) n hn

/-- A term generates the names of the sequences that it derives. -/
theorem generates_iff {names : List String} :
  g.Generates t names ↔ ∃ w, derived g.rules t w ∧ w.map g.tokenName = names
  := Iff.rfl

/-! ### Keeping what is said -/

/-- The grammar `g'` has the symbols of `g` and possibly more, the same start term and the same
tokens, and what the terms of `g` derive is the same in both. -/
structure Keeps (g g' : Grammar) : Prop where
  wellFormed : g'.WellFormed
  entries_subset : ∀ k, (g.table k).entries ⊆ (g'.table k).entries
  tokens_eq : g'.tokens = g.tokens
  start_eq : g'.start = g.start
  derived_iff : ∀ t, g.contains (.term t) → ∀ w, derived g'.rules t w ↔ derived g.rules t w

namespace Keeps

/-- A member stays a member. -/
theorem contains (h : Keeps g g') {s : Symbol} (hs : g.contains s) :
  g'.contains s
  := by
  obtain ⟨name, hm⟩ := SymbolTable.mem_ids_iff.mp (contains_iff.mp hs)
  apply contains_iff.mpr (SymbolTable.mem_ids_iff.mpr ⟨name, h.entries_subset _ hm⟩)

/-- A member keeps its name. -/
theorem nameOf_eq (h : Keeps g g') (hg : g.WellFormed) {s : Symbol} (hs : g.contains s) :
  g'.nameOf s = g.nameOf s
  := h.wellFormed.nameOf_eq (h.entries_subset _ (hg.entry_mem hs))

theorem refl (hg : g.WellFormed) :
  Keeps g g
  := ⟨hg, fun _ => List.Subset.refl _, rfl, rfl, fun _ _ _ => Iff.rfl⟩

theorem trans {g'' : Grammar} (h : Keeps g g') (h' : Keeps g' g'') :
  Keeps g g''
  := by
  constructor
  · apply h'.wellFormed
  · exact fun k => List.Subset.trans (h.entries_subset k) (h'.entries_subset k)
  · apply h'.tokens_eq.trans h.tokens_eq
  · apply h'.start_eq.trans h.start_eq
  · intro t ht w
    apply (h'.derived_iff t (h.contains ht) w).trans (h.derived_iff t ht w)

end Keeps

/-! ### Tidy rules -/

/-- Every right side is left when the rules are tidied, but for those that hold nothing but their
term. -/
theorem hasRule_tidyRules (hr : g.HasRule t items) :
  g.tidyRules.HasRule t items ∨ items.filter Symbol.isBasic = [.term t]
  := by
  obtain ⟨r, hr, rfl, rfl⟩ := hr
  by_cases hn : r.isNonproductive
  · exact .inr (of_decide_eq_true hn)
  · have hleft : r ∈ g.removeNonproductiveRules.rules :=
      List.mem_filter.mpr ⟨hr, by simpa using hn⟩
    obtain ⟨r', hr', howner, hitems⟩ := exists_same_of_mem hleft
    exact .inl ⟨r', hr', howner, hitems⟩

/-- The terms derive what they did before the rules were tidied. -/
theorem derived_tidyRules :
  derived g.tidyRules.rules t w ↔ derived g.rules t w
  := by
  constructor
  · apply reading_of_derived
    rintro _ _ ⟨r, hr, rfl, rfl⟩ w hw
    apply derived_of_hasRule (hasRule_of_mem (g.tidyRules_sublist.subset hr)) hw
  · apply reading_of_derived
    intro t items hr w hw
    rcases hasRule_tidyRules hr with hr | hbasic
    · apply derived_of_hasRule hr hw
    · rw [← reads_filter_isBasic, hbasic, reads_singleton] at hw
      apply hw

/-- A grammar keeps what it says when its rules are tidied. -/
theorem keeps_tidyRules (hg : g.WellFormed) :
  Keeps g g.tidyRules
  := by
  refine ⟨hg.tidyRules, fun k => ?_, rfl, rfl, fun t _ w => derived_tidyRules⟩
  cases k <;> apply List.Subset.refl _

/-! ### Unreachable symbols -/

section removeUnreachable

variable {start : TermId} {s : Symbol}

/-- The symbols of a kind are the members of that kind. -/
theorem mem_symbols_iff {k : Kind} :
  s ∈ g.symbols k ↔ s.kind = k ∧ g.contains s = true
  := by
  obtain ⟨k', id⟩ := s
  simp only [symbols, List.mem_map, Symbol.mk.injEq, contains_iff]
  constructor
  · rintro ⟨id, hid, rfl, rfl⟩
    use rfl, hid
  · rintro ⟨rfl, hid⟩
    exact ⟨id, hid, rfl, rfl⟩

theorem mem_unreachable_iff :
  s ∈ g.unreachable start ↔
    g.contains s = true ∧ g.isErrorToken s = false ∧ ¬ Reaches g start s
  := by
  rw [unreachable, List.mem_filter, List.mem_append, List.mem_append, mem_symbols_iff,
    mem_symbols_iff, mem_symbols_iff, ← mem_reachable_iff]
  obtain ⟨k, id⟩ := s
  cases k <;> simp

/-- A term is left exactly if it is a reachable member. -/
theorem contains_term_removeUnreachable (hs : g.start = some start) :
  g.removeUnreachable.contains (.term t) = true ↔
    g.contains (.term t) = true ∧ Reaches g start (.term t)
  := by
  rw [removeUnreachable, hs, contains_removeSymbols, mem_unreachable_iff]
  simp only [isErrorToken, true_and, not_and, not_not]
  apply and_congr_right fun h => ⟨fun hr => hr h, fun hr _ => hr⟩

/-- The rules that are left are those of the reachable terms. -/
theorem mem_rules_removeUnreachable (hg : g.WellFormed) (hs : g.start = some start) {r : Rule} :
  r ∈ g.removeUnreachable.rules ↔ r ∈ g.rules ∧ Reaches g start (.term r.owner)
  := by
  rw [removeUnreachable, hs, mem_rules_removeSymbols, mem_unreachable_iff]
  simp only [isErrorToken, true_and, not_and, not_not]
  apply and_congr_right fun hr => ⟨fun h => h (hg.owner_mem r hr), fun h _ => h⟩

/-- What occurs in a rule of a reachable term is reachable. -/
theorem reaches_of_mem {r : Rule} (hr : r ∈ g.rules) (hreach : Reaches g start (.term r.owner))
    (hs : s ∈ r.items) :
  Reaches g start s
  := .step hreach (mem_rulesOf.mpr ⟨hr, rfl⟩) hs

theorem WellFormed.removeUnreachable (hg : g.WellFormed) :
  g.removeUnreachable.WellFormed
  := by
  rw [Grammar.removeUnreachable]
  split
  · apply hg
  · next start _ =>
    apply hg.removeSymbols
    intro r hr howner s hs hremoved
    have hreach : Reaches g start (.term r.owner) := by
      by_contra hn
      apply howner (mem_unreachable_iff.mpr ⟨hg.owner_mem r hr, rfl, hn⟩)
    apply (mem_unreachable_iff.mp hremoved).2.2 (reaches_of_mem hr hreach hs)

/-- The start term is left. -/
theorem start_removeUnreachable :
  g.removeUnreachable.start = g.start
  := by
  rw [Grammar.removeUnreachable]
  split
  · rfl
  · next start hs =>
    rw [hs]
    apply mem_start_removeSymbols.mpr
    refine ⟨hs, fun hremoved => ?_⟩
    apply (mem_unreachable_iff.mp hremoved).2.2 .start

/-- The error token is left. -/
theorem error_removeUnreachable :
  g.removeUnreachable.error = g.error
  := by
  rw [Grammar.removeUnreachable]
  split
  · rfl
  · apply Option.ext
    intro n
    rw [← Option.mem_def, mem_error_removeSymbols, Option.mem_def, and_iff_left_iff_imp]
    intro herror hremoved
    have hspared := (mem_unreachable_iff.mp hremoved).2.1
    simp [isErrorToken, herror] at hspared

/-- A symbol that is left keeps its name. -/
theorem WellFormed.nameOf_removeUnreachable (hg : g.WellFormed)
    (hleft : g.removeUnreachable.contains s) :
  g.removeUnreachable.nameOf s = g.nameOf s
  := by
  rw [Grammar.removeUnreachable] at hleft ⊢
  split at hleft
  · rfl
  · apply hg.nameOf_removeSymbols hleft

/-- The reading by which the terms that are reached read what they derive when the others are gone. -/
def readsIfReached (g : Grammar) (start : TermId) : Reading := fun t w =>
  Reaches g start (.term t) → derived g.removeUnreachable.rules t w

/-- A term that is left derives the same sequences as before. -/
theorem derived_removeUnreachable (hg : g.WellFormed) (hs : g.start = some start)
    (hreach : Reaches g start (.term t)) :
  derived g.removeUnreachable.rules t w ↔ derived g.rules t w
  := by
  constructor
  · apply reading_of_derived
    rintro _ _ ⟨r, hr, rfl, rfl⟩ w hw
    apply derived_of_hasRule (hasRule_of_mem ((mem_rules_removeUnreachable hg hs).mp hr).1) hw
  · intro hw
    -- The rules of terms that are not reachable are gone, so nothing is said about these.
    apply reading_of_derived (L := g.readsIfReached start) _ hw hreach
    rintro _ _ ⟨r, hr, rfl, rfl⟩ w hw howner
    have hr' := (mem_rules_removeUnreachable hg hs).mpr ⟨hr, howner⟩
    apply derived_of_hasRule (hasRule_of_mem hr')
    apply hw.mono fun t ht u hu => hu (reaches_of_mem hr howner ht)

/-- A term that is left generates the same names as before. -/
theorem generates_removeUnreachable (hg : g.WellFormed) (hs : g.start = some start)
    (hleft : g.removeUnreachable.contains (.term t)) {names : List String} :
  g.removeUnreachable.Generates t names ↔ g.Generates t names
  := by
  have hreach := ((contains_term_removeUnreachable hs).mp hleft).2
  have hnames : ∀ w, derived g.removeUnreachable.rules t w →
      w.map g.removeUnreachable.tokenName = w.map g.tokenName := by
    intro w hw
    apply List.map_congr_left
    intro n hn
    apply hg.nameOf_removeUnreachable
    apply hg.removeUnreachable.contains_of_derives hw _ n hn
    simpa using hleft
  rw [generates_iff, generates_iff]
  constructor
  · rintro ⟨w, hw, rfl⟩
    use w, (derived_removeUnreachable hg hs hreach).mp hw, (hnames w hw).symm
  · rintro ⟨w, hw, rfl⟩
    have hw := (derived_removeUnreachable hg hs hreach).mpr hw
    use w, hw, hnames w hw

end removeUnreachable

end Grammar

end CanonicalLR
