import CanonicalLR.Proofs.Grammar.Built
import CanonicalLR.Proofs.Grammar.Diagnosis

/-!
# What is found

What is found in a grammar is told apart by its wording: no other finding reads like that of an
unreachable symbol (`Diagnostic.eq_unreachable_of_message`).  In a grammar that is built, members that
are *out of reach* (`OutOfReach`) have different labels, so each of them is reported once and nothing
else is reported as unreachable; and nothing at all is found exactly if no member is out of reach of the
start term and all rules are different and productive (`diagnose_exact`).
-/

namespace CanonicalLR

/-! ### Wording -/

namespace Diagnostic

variable {d : Diagnostic} {l : Label}

theorem message_unreachable (k : Kind) (name : String) :
  (unreachable ⟨k, name⟩).message = "The " ++ k.word ++ " `" ++ name ++ "' is unreachable"
  := rfl

/-- Only unreachable symbols are reported in the words for it. -/
theorem eq_unreachable_of_message (h : d.message = (unreachable l).message) :
  d = unreachable l
  := by
  obtain ⟨k, name⟩ := l
  rw [← String.toList_inj, message_unreachable] at h
  cases d with
  | emptyGrammar =>
    change "The grammar is empty".toList = _ at h
    cases k <;> simp [Kind.word] at h
  | missingStart =>
    change "The start term is not specified".toList = _ at h
    cases k <;> simp [Kind.word] at h
  | foreignStart =>
    change "The start term is not a member of the grammar".toList = _ at h
    cases k <;> simp [Kind.word] at h
  | foreignError =>
    change "The error token is not a member of the grammar".toList = _ at h
    cases k <;> simp [Kind.word] at h
  | repeatedTerm name' times =>
    change ("The term `" ++ name' ++ "' is defined " ++ toString times ++ " times").toList = _ at h
    have hlast := congrArg List.getLast? h
    simp [List.getLast?_append, List.getLast?_cons] at hlast
  | duplicateRule rule =>
    change ("Duplicate rule detected: `" ++ rule.display ++ "'").toList = _ at h
    simp at h
  | nonproductiveRule rule =>
    change ("Nonproductive rule detected: `" ++ rule.display ++ "'").toList = _ at h
    simp at h
  | unreachable l' =>
    obtain ⟨k', name'⟩ := l'
    rw [message_unreachable] at h
    cases k <;> cases k' <;> simp_all [Kind.word, String.toList_inj]

/-- The findings in the words for an unreachable symbol are the findings about it. -/
theorem count_message {ds : List Diagnostic} :
  (ds.map message).count (unreachable l).message = ds.count (unreachable l)
  := by
  rw [List.count, List.countP_map, List.count]
  apply List.countP_congr
  intro d _
  simp only [Function.comp_apply, beq_iff_eq]
  constructor
  · apply eq_unreachable_of_message
  · apply congrArg

end Diagnostic

namespace Grammar

variable {g : Grammar} {start : TermId} {earlier rules : List Rule} {l : Label} {s : Symbol}

/-! ### Unreachable members -/

/-- The symbol is a member, it is not the error token, and it is neither the term `start` nor does it
occur in a rule of a term that is reachable from it. -/
def OutOfReach (g : Grammar) (start : TermId) (s : Symbol) : Prop :=
  g.contains s = true ∧ (∀ n, s = .token n → g.error ≠ some n) ∧ ¬ Reaches g start s

theorem isErrorToken_eq_false_iff :
  g.isErrorToken s = false ↔ ∀ n, s = .token n → g.error ≠ some n
  := by
  obtain ⟨k, id⟩ := s
  cases k <;> simp [isErrorToken]

theorem mem_unreachable_iff_outOfReach :
  s ∈ g.unreachable start ↔ g.OutOfReach start s
  := by
  rw [mem_unreachable_iff, isErrorToken_eq_false_iff, OutOfReach]

/-- A symbol is not twice among the unreachable ones. -/
theorem WellFormed.nodup_unreachable (hg : g.WellFormed) :
  (g.unreachable start).Nodup
  := by
  have hsymbols (k : Kind) : (g.symbols k).Nodup :=
    (hg.proper k).ids_nodup.map fun _ _ he => congrArg Symbol.id he
  have hdisjoint {k k' : Kind} (hk : k ≠ k') : (g.symbols k).Disjoint (g.symbols k') := by
    intro s hs hs'
    apply hk ((mem_symbols_iff.mp hs).1.symm.trans (mem_symbols_iff.mp hs').1)
  apply List.Nodup.filter
  apply List.Nodup.append
  · apply (hsymbols .term).append (hsymbols .token) (hdisjoint (by decide))
  · apply hsymbols
  · apply List.disjoint_append_left.mpr
    use hdisjoint (by decide), hdisjoint (by decide)

/-- Members that are out of reach are reported by different findings. -/
theorem WellFormed.nodup_findings (hg : g.WellFormed) :
  ((g.unreachable start).map fun s => Diagnostic.unreachable (g.label s)).Nodup
  := by
  apply List.Nodup.map_on _ hg.nodup_unreachable
  intro s hs s' hs' he
  apply hg.eq_of_label_eq (mem_unreachable_iff.mp hs).1 (mem_unreachable_iff.mp hs').1
  simpa using he

/-! ### Other findings -/

theorem unreachable_notMem_diagnoseRules :
  .unreachable l ∉ g.diagnoseRules earlier rules
  := by
  induction rules generalizing earlier with
  | nil => simp [diagnoseRules]
  | cons r rules ih => simp [diagnoseRules, ih]

/-- The findings about unreachable members tell of each of these once. -/
theorem WellFormed.count_unreachable (hg : g.WellFormed) (hs : g.start = some start) :
  g.diagnose.count (.unreachable l) =
    ((g.unreachable start).map fun s => Diagnostic.unreachable (g.label s)).count (.unreachable l)
  := by
  rw [hg.diagnose_eq hs, List.count_append, List.count_eq_zero_of_not_mem, Nat.zero_add]
  simp [unreachable_notMem_diagnoseRules]

/-- The grammar is tidy if no term has a right side twice or has itself alone for a right side. -/
theorem tidy_iff :
  g.Tidy ↔ (∀ t, ((g.rulesOf t).map (·.items)).Nodup) ∧
    ∀ r ∈ g.rules, r.items.filter Symbol.isBasic ≠ [.term r.owner]
  := by
  constructor
  · intro h
    constructor
    · intro t
      apply List.pairwise_map.mpr
      apply List.Pairwise.imp_of_mem _ (h.distinct.sublist List.filter_sublist)
      intro r s hr hs hsame he
      apply hsame (Rule.same_iff.mpr ⟨_, he⟩)
      rw [(mem_rulesOf.mp hr).2, (mem_rulesOf.mp hs).2]
    · intro r hr hitems
      apply h.productive r hr (decide_eq_true hitems)
  · rintro ⟨hdistinct, hproductive⟩
    constructor
    · apply List.pairwise_iff_forall_sublist.mpr
      intro r s hsub hsame
      obtain ⟨howner, hitems⟩ := Rule.same_iff.mp hsame
      have hpair := hsub.filter fun x => x.owner == r.owner
      have hnodup := (hdistinct r.owner).sublist (hpair.map _)
      simp [howner, hitems] at hnodup
    · intro r hr hitems
      apply hproductive r hr (of_decide_eq_true hitems)

/-! ### Everything that is found -/

/-- In a grammar that is built, the search for reachable symbols comes to an end; nothing is found
exactly if there is a term, the start term is set, no member is out of its reach, no term has a right
side twice, and none has itself for the only symbol of a right side that is no prompt; and if the start
term is set, then one finding, in words that no other finding has, tells of each symbol that is out of
reach, and of no other symbol. -/
theorem diagnose_exact (hg : g.Built) :
  (∀ start, Stuck (Reachable.step g)
      (exhaust (Reachable.step g) (Reachable.occurrences g + 2) ⟨[.term start], [start]⟩)) ∧
    (g.diagnose = [] ↔ (∃ t, g.contains (.term t) = true) ∧
      (∃ start, g.start = some start ∧ ∀ s, ¬ g.OutOfReach start s) ∧
      (∀ t, ((g.rulesOf t).map (·.items)).Nodup) ∧
      ∀ r ∈ g.rules, r.items.filter Symbol.isBasic ≠ [.term r.owner]) ∧
    ∀ start, g.start = some start → ∀ l,
      ((Diagnostic.unreachable l).message ∈ g.diagnose.map Diagnostic.message ↔
        ∃! s, g.OutOfReach start s ∧ g.label s = l) ∧
      (g.diagnose.map Diagnostic.message).count (Diagnostic.unreachable l).message ≤ 1
  := by
  have hg := hg.wellFormed
  refine ⟨fun start => ?_, ?_, ?_⟩
  · rw [Stuck, Reachable.step, Reachable.pending_exhaust]
  · rw [diagnose_eq_nil_iff hg, tidy_iff]
    constructor
    · rintro ⟨start, hs, htidy, hreach⟩
      refine ⟨⟨start, hg.start_mem start hs⟩, ⟨start, hs, ?_⟩, htidy⟩
      rintro s ⟨hmember, herror, hout⟩
      apply hout (hreach s hmember (isErrorToken_eq_false_iff.mpr herror))
    · rintro ⟨-, ⟨start, hs, hin⟩, htidy⟩
      refine ⟨start, hs, htidy, fun s hmember herror => ?_⟩
      by_contra hout
      apply hin s ⟨hmember, isErrorToken_eq_false_iff.mp herror, hout⟩
  · intro start hs l
    rw [← List.count_pos_iff, Diagnostic.count_message, hg.count_unreachable hs]
    refine ⟨?_, List.nodup_iff_count_le_one.mp hg.nodup_findings _⟩
    simp only [List.count_pos_iff, List.mem_map, mem_unreachable_iff_outOfReach,
      Diagnostic.unreachable.injEq]
    constructor
    · rintro ⟨s, hout, rfl⟩
      refine ⟨s, ⟨hout, rfl⟩, fun s' hs' => ?_⟩
      apply hg.eq_of_label_eq hs'.1.1 hout.1 hs'.2
    · apply ExistsUnique.exists

/-- A grammar with an error token that does not occur, and with two terms that are reachable from each
other only, one of them with a prompt. -/
def islands : Grammar :=
  let answer := do
    let g ← ofProductions "S" [⟨"S", [⟨.token, "a"⟩, ⟨.term, "A"⟩]⟩,
      ⟨"A", [⟨.prompt, "p"⟩, ⟨.term, "S"⟩]⟩, ⟨"A", []⟩, ⟨"U", [⟨.term, "V"⟩, ⟨.prompt, "q"⟩]⟩,
      ⟨"V", [⟨.term, "U"⟩, ⟨.token, "a"⟩]⟩]
    g.setError "error"
  (answer.toOption.map (·.2)).getD empty

/-- Among the islands, two terms and a prompt are out of reach of the start term; the error token does
not count. -/
theorem diagnose_exact_islands :
  islands.Built ∧ islands.start = some 0 ∧ islands.diagnose ≠ [] ∧
    (∃ s, islands.OutOfReach 0 s) ∧
    (∃! s, islands.OutOfReach 0 s ∧ islands.label s = ⟨.prompt, "q"⟩) ∧
    ¬ ∃! s, islands.OutOfReach 0 s ∧ islands.label s = ⟨.token, "error"⟩
  := by
  have hbuilt : islands.Built := by
    rw [islands]
    apply built_getD_of_answer
    intro s g h
    obtain ⟨g₀, hrules, herror⟩ := exists_of_bind_eq_ok h
    apply Built.setError (built_of_ofProductions hrules) herror
  have hstart : islands.start = some 0 := by decide +kernel
  have hfound : islands.diagnose = [.unreachable ⟨.term, "U"⟩, .unreachable ⟨.term, "V"⟩,
      .unreachable ⟨.prompt, "q"⟩] := by decide +kernel
  obtain ⟨-, -, hexact⟩ := diagnose_exact hbuilt
  have hunique := (hexact 0 hstart ⟨.prompt, "q"⟩).1.mp (by rw [hfound]; simp)
  refine ⟨hbuilt, hstart, by simp [hfound], hunique.exists.imp fun _ h => h.1, hunique, ?_⟩
  rw [← (hexact 0 hstart ⟨.token, "error"⟩).1, hfound]
  decide +kernel

end Grammar

end CanonicalLR
