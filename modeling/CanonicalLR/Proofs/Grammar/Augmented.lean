import CanonicalLR.Grammar.Augmented
import CanonicalLR.Proofs.Grammar.WellFormed

/-!
# Well-formed augmented grammars

An augmented grammar is *well formed* (`AugmentedGrammar.WellFormed`) if its grammar is, and if its
start term and the token for the end of the input occur where they should and nowhere else.  The
augmented grammar of a well-formed grammar is well formed (`WellFormed.augment`).
-/

namespace CanonicalLR

/-- The start term has the start rule only and occurs in no rule, and the token for the end of the
input occurs in the start rule only. -/
structure AugmentedGrammar.WellFormed (g : AugmentedGrammar) : Prop where
  grammar : g.grammar.WellFormed
  startRule_mem : g.startRule ∈ g.grammar.rules
  owner_startRule : g.startRule.owner = g.startTerm
  eq_startRule : ∀ r ∈ g.grammar.rules, r.owner = g.startTerm → r = g.startRule
  startTerm_not_mem : ∀ r ∈ g.grammar.rules, .term g.startTerm ∉ r.items
  items_startRule : ∃ start, g.startRule.items = [.term start, .token g.eof]
  eof_not_mem : ∀ r ∈ g.grammar.rules, r ≠ g.startRule → .token g.eof ∉ r.items
  tokenName_eof : g.grammar.tokenName g.eof = eofTokenName

theorem AugmentedGrammar.WellFormed.contains_eof {g : AugmentedGrammar} (h : g.WellFormed) :
  g.grammar.contains (.token g.eof) = true
  := by
  obtain ⟨start, hitems⟩ := h.items_startRule
  apply h.grammar.items_mem g.startRule h.startRule_mem
  rw [hitems]
  apply List.mem_cons_of_mem _ List.mem_cons_self

namespace Grammar

variable {g : Grammar}

/-- A label that is not found has a new name, if it is trimmed. -/
theorem not_mem_names_of_find? {l : Label} (hl : Text.IsName l.name)
    (h : (g.find? l).isSome = false) :
  l.name ∉ (g.table l.kind).names
  := by
  rw [find?, Text.trim_of_isName hl, Option.isSome_map, Option.isSome_eq_false_iff,
    Option.isNone_iff_eq_none] at h
  apply SymbolTable.find?_eq_none_iff.mp h

theorem isName_startTermName :
  Text.IsName startTermName
  := by
  have hhead : startTermName.toList.head? = some '$' := by decide
  have hlast : startTermName.toList.getLast? = some 'm' := by decide
  use by decide, Text.isBlank_eq_false_of_mem hhead (by decide)
  apply Text.isBlank_eq_false_of_mem hlast (by decide)

theorem isName_eofTokenName :
  Text.IsName eofTokenName
  := by
  have hhead : eofTokenName.toList.head? = some '$' := by decide
  have hlast : eofTokenName.toList.getLast? = some 'n' := by decide
  use by decide, Text.isBlank_eq_false_of_mem hhead (by decide)
  apply Text.isBlank_eq_false_of_mem hlast (by decide)

/-- When a symbol with a new name is added, it becomes a member, and nothing else changes. -/
theorem exists_intern_eq (h : g.WellFormed) {l : Label} (hl : Text.IsName l.name)
    (hnew : l.name ∉ (g.table l.kind).names) :
  ∃ id g', g.intern l = (⟨l.kind, id⟩, g') ∧ g'.WellFormed ∧ g.contains ⟨l.kind, id⟩ = false ∧
    (∀ s, g'.contains s = true ↔ g.contains s = true ∨ s = ⟨l.kind, id⟩) ∧
    (∀ k, k ≠ l.kind → g'.table k = g.table k) ∧ g'.rules = g.rules ∧
    g'.nameOf ⟨l.kind, id⟩ = l.name
  := by
  refine ⟨(g.intern l).1.id, (g.intern l).2, rfl, h.intern hl, not_contains_intern h hnew,
    fun s => contains_intern h, fun k hk => ?_, rules_intern l, nameOf_intern h (h.intern hl)⟩
  rw [intern, table_withTable, if_neg hk]

section startRule

variable {g' : Grammar} {startTerm start : TermId} {eof : TokenId}

/-- If two symbols were added to a grammar, then it is augmented by the rule of the one of them for
the old start term and the other one. -/
theorem WellFormed.augmentedBy (h : g.WellFormed) (h' : g'.WellFormed) (hrules : g'.rules = g.rules)
    (hstart : g'.contains (.term start) = true) (hne : start ≠ startTerm)
    (hterm : g.contains (.term startTerm) = false) (hterm' : g'.contains (.term startTerm) = true)
    (heof : g.contains (.token eof) = false) (heof' : g'.contains (.token eof) = true)
    (hname : g'.nameOf (.token eof) = eofTokenName) :
  AugmentedGrammar.WellFormed
    ⟨{ (g'.pushRule startTerm [.term start, .token eof]).2 with start := some startTerm }, startTerm,
      (g'.pushRule startTerm [.term start, .token eof]).1, eof⟩
  := by
  have hitems : ∀ s ∈ [.term start, .token eof], g'.contains s := by
    simp only [List.mem_cons, List.not_mem_nil, or_false]
    rintro s (rfl | rfl)
    · apply hstart
    · apply heof'
  have hpush : ∀ r ∈ (g'.pushRule startTerm [.term start, .token eof]).2.rules,
      r ∈ g.rules ∨ r = (g'.pushRule startTerm [.term start, .token eof]).1 := by
    intro r hr
    rw [← hrules]
    simpa [Grammar.pushRule] using hr
  constructor
  · apply (h'.pushRule hterm' hitems).withStart hterm'
  · simp [Grammar.pushRule]
  · rfl
  · intro r hr howner
    rcases hpush r hr with hr | rfl
    · apply absurd (congrArg Symbol.term howner) (ne_of_contains (h.owner_mem r hr) hterm)
    · rfl
  · intro r hr hs
    rcases hpush r hr with hr | rfl
    · apply ne_of_contains (h.items_mem r hr _ hs) hterm rfl
    · simp only [Grammar.pushRule, List.mem_cons, List.not_mem_nil, or_false, reduceCtorEq,
        Symbol.mk.injEq, false_and, true_and] at hs
      apply hne hs.symm
  · use start
    rfl
  · intro r hr hnew hs
    rcases hpush r hr with hr | rfl
    · apply ne_of_contains (h.items_mem r hr _ hs) heof rfl
    · apply hnew rfl
  · apply hname

end startRule

/-- The augmented grammar of a well-formed grammar is well formed; its start rule is the old start
term, followed by the token for the end of the input. -/
theorem WellFormed.augment (h : g.WellFormed) {a : AugmentedGrammar} (ha : g.augment = .ok a) :
  a.WellFormed ∧ ∃ start, g.start = some start ∧ a.startRule.items = [.term start, .token a.eof]
  := by
  rw [Grammar.augment] at ha
  split at ha
  · cases ha
  · next start hstart =>
    split at ha
    · cases ha
    · split at ha
      · cases ha
      · next hmember hnew =>
        rw [Bool.not_eq_true, Bool.or_eq_false_iff] at hnew
        rw [not_not] at hmember
        obtain ⟨startTerm, g₁, he₁, h₁, hn₁, hmem₁, htable₁, hrules₁, -⟩ :=
          exists_intern_eq h isName_startTermName
            (not_mem_names_of_find? isName_startTermName hnew.1)
        have heof := not_mem_names_of_find? isName_eofTokenName hnew.2
        rw [← htable₁ .token (by decide)] at heof
        obtain ⟨eof, g₂, he₂, h₂, hn₂, hmem₂, -, hrules₂, hname₂⟩ :=
          exists_intern_eq h₁ isName_eofTokenName heof
        rw [he₁] at ha
        simp only at ha
        rw [he₂] at ha
        cases ha
        have hold {s : Symbol} (hs : g₁.contains s = true) : g₂.contains s = true :=
          (hmem₂ s).mpr (.inl hs)
        have hne : start ≠ startTerm := by
          rintro rfl
          apply ne_of_contains hmember hn₁ rfl
        have hn₂' : g.contains (.token eof) = false := by
          rw [Bool.eq_false_iff]
          intro hs
          rw [(hmem₁ _).mpr (.inl hs)] at hn₂
          cases hn₂
        constructor
        · apply h.augmentedBy h₂ (hrules₂.trans hrules₁) (hold ((hmem₁ _).mpr (.inl hmember))) hne
            hn₁ (hold ((hmem₁ _).mpr (.inr rfl))) hn₂' ((hmem₂ _).mpr (.inr rfl)) hname₂
        · use start, hstart
          rfl

end Grammar

end CanonicalLR
