import CanonicalLR.Proofs.Grammar.Built

/-!
# Counters

Numbers are given out in order, and none is given out twice: whatever becomes of a grammar is *later*
than it (`Grammar.Later`).  No counter is set back, and a symbol whose number had been given out before
is a symbol that was there before, under the name that it had.
-/

namespace CanonicalLR

/-! ### Tables -/

namespace SymbolTable

variable {t t' t'' : SymbolTable}

/-- The counter of the second table is not behind that of the first, and what it has under the numbers
that the first has given out, the first has under them as well. -/
structure Later (t t' : SymbolTable) : Prop where
  next_le : t.next ≤ t'.next
  old_mem : ∀ entry ∈ t'.entries, entry.1 < t.next → entry ∈ t.entries

namespace Later

theorem refl (t : SymbolTable) :
  Later t t
  := ⟨Nat.le_refl _, fun _ h _ => h⟩

theorem trans (h : Later t t') (h' : Later t' t'') :
  Later t t''
  := by
  constructor
  · apply Nat.le_trans h.next_le h'.next_le
  · intro entry hentry hold
    apply h.old_mem entry _ hold
    apply h'.old_mem entry hentry (Nat.lt_of_lt_of_le hold h.next_le)

/-- A name that is new gets a new number. -/
theorem intern (t : SymbolTable) (name : String) :
  Later t (t.intern name).2
  := by
  rw [SymbolTable.intern]
  split
  · apply refl
  · constructor
    · apply Nat.le_succ
    · intro entry hentry hold
      rcases List.mem_append.mp hentry with hentry | hentry
      · apply hentry
      · rw [List.mem_singleton.mp hentry] at hold
        apply absurd hold (Nat.lt_irrefl _)

theorem erase (t : SymbolTable) (id : Nat) :
  Later t (t.erase id)
  := ⟨Nat.le_refl _, fun _ hentry _ => List.mem_of_mem_filter hentry⟩

end Later

end SymbolTable

namespace Grammar

variable {g g' g'' : Grammar}

/-- No counter of the second grammar is behind that of the first, and the numbers that the first has
given out have no other meaning in the second. -/
structure Later (g g' : Grammar) : Prop where
  table : ∀ k, (g.table k).Later (g'.table k)
  nextRule_le : g.nextRule ≤ g'.nextRule

namespace Later

theorem next_le (h : Later g g') (k : Kind) :
  (g.table k).next ≤ (g'.table k).next
  := (h.table k).next_le

theorem refl (g : Grammar) :
  Later g g
  := ⟨fun _ => .refl _, Nat.le_refl _⟩

theorem trans (h : Later g g') (h' : Later g' g'') :
  Later g g''
  := ⟨fun k => (h.table k).trans (h'.table k), Nat.le_trans h.nextRule_le h'.nextRule_le⟩

/-- Only the tables and the counter of the rules matter. -/
theorem of_eq (h : Later g g') (htable : ∀ k, g''.table k = g'.table k)
    (hrule : g''.nextRule = g'.nextRule) :
  Later g g''
  := by
  constructor
  · intro k
    rw [htable]
    apply h.table
  · rw [hrule]
    apply h.nextRule_le

/-- A table may be replaced by a later one. -/
theorem withTable (g : Grammar) {k : Kind} {t : SymbolTable} (ht : (g.table k).Later t) :
  Later g (g.withTable k t)
  := by
  constructor
  · intro k'
    rw [table_withTable]
    split
    · next hk =>
      rw [hk]
      apply ht
    · apply SymbolTable.Later.refl
  · apply Nat.le_of_eq (nextRule_withTable k t).symm

/-- A fold leads to a later grammar if every step does. -/
theorem foldl {β : Type} {op : Grammar → β → Grammar} (step : ∀ g b, Later g (op g b)) (g : Grammar)
    (bs : List β) :
  Later g (bs.foldl op g)
  := by
  induction bs generalizing g with
  | nil => apply refl
  | cons b bs ih => apply (step g b).trans (ih (op g b))

/-! ### Building -/

theorem intern (g : Grammar) (l : Label) :
  Later g (g.intern l).2
  := withTable g (.intern _ _)

theorem declare {l : Label} {s : Symbol} (h : g.declare l = .ok (s, g')) :
  Later g g'
  := by
  obtain ⟨name, -, he⟩ := exists_of_map_eq_ok h
  have hg : (g.intern ⟨l.kind, name⟩).2 = g' := congrArg Prod.snd he
  rw [← hg]
  apply intern

theorem pushRule (g : Grammar) (owner : TermId) (items : List Symbol) :
  Later g (g.pushRule owner items).2
  := ⟨fun k => .refl (g.table k), Nat.le_succ _⟩

theorem setStart {name : String} {s : Symbol} (h : g.setStart name = .ok (s, g')) :
  Later g g'
  := by
  obtain ⟨⟨s, g₁⟩, hd, he⟩ := exists_of_map_eq_ok h
  cases he
  exact (declare hd).of_eq (fun _ => rfl) rfl

theorem setError {name : String} {s : Symbol} (h : g.setError name = .ok (s, g')) :
  Later g g'
  := by
  obtain ⟨⟨s, g₁⟩, hd, he⟩ := exists_of_map_eq_ok h
  cases he
  exact (declare hd).of_eq (fun _ => rfl) rfl

theorem newRule {left : String} {id : RuleId} (h : g.newRule left = .ok (id, g')) :
  Later g g'
  := by
  obtain ⟨⟨s, g₁⟩, hd, he⟩ := exists_of_map_eq_ok h
  cases he
  apply (declare hd).trans (pushRule g₁ s.id [])

theorem append (g : Grammar) (id : RuleId) (l : Label) :
  Later g (g.append id l).2
  := by
  rw [Grammar.append]
  split
  · next s g' hd => exact (declare hd).of_eq (fun _ => rfl) rfl
  · exact (refl g).of_eq (fun _ => rfl) rfl

theorem augment {a : AugmentedGrammar} (h : g.augment = .ok a) :
  Later g a.grammar
  := by
  rw [Grammar.augment] at h
  split at h
  · cases h
  · next start _ =>
    split at h
    · cases h
    · split at h
      · cases h
      · cases h
        have hterm := intern g ⟨.term, startTermName⟩
        have htoken := intern (g.intern ⟨.term, startTermName⟩).2 ⟨.token, eofTokenName⟩
        -- Neither the owner nor the right side of the new rule matters to the counters.
        exact ((hterm.trans htoken).trans (pushRule _ start [])).of_eq (fun _ => rfl) rfl

/-! ### Normal forms -/

theorem removeSymbol (g : Grammar) (s : Symbol) :
  Later g (g.removeSymbol s)
  := by
  apply (withTable g (.erase _ s.id)).of_eq
  · obtain ⟨k, id⟩ := s
    cases k <;> exact fun _ => rfl
  · rw [nextRule_removeSymbol, nextRule_withTable]

theorem replaceRules (g : Grammar) (owner : TermId) (rights : List (List Symbol)) :
  Later g (g.replaceRules owner rights)
  := by
  rw [Grammar.replaceRules, pushRules]
  have hremove : Later g (g.removeRules fun r => r.owner = owner) :=
    (refl g).of_eq (fun _ => rfl) rfl
  apply hremove.trans (foldl (fun g right => pushRule g owner right) _ rights)

theorem mergeStep (h : g.mergeStep = some g') :
  Later g g'
  := by
  rw [mergeStep_eq] at h
  obtain ⟨⟨source, target⟩, -, rfl⟩ := Option.map_eq_some_iff.mp h
  have hrenamed : Later g { g with
      rules := g.rules.map fun r => { r with items := renameItems source target r.items }
      start := g.start.map fun start => if start = source then target else start } :=
    (refl g).of_eq (fun _ => rfl) rfl
  exact (hrenamed.trans (removeSymbol _ (.term source))).of_eq (fun _ => rfl) rfl

theorem mergeIf (merge : Bool) (g : Grammar) :
  Later g (g.mergeIf merge)
  := by
  rw [Grammar.mergeIf]
  split
  · apply exhaust_induction (motive := Later g) _ _ (refl g)
    intro g₁ g₂ h₁ hstep
    apply h₁.trans (mergeStep hstep)
  · apply refl

theorem eliminationStep {a : Analysis} {head : TermId} (h : g.eliminationStep a head = some g') :
  Later g g'
  := by
  rcases eliminationStep_cases h with hsplit | ⟨-, rfl⟩
  · rw [splitHead] at hsplit
    simp only at hsplit
    split at hsplit
    · cases hsplit
    · cases hsplit
      apply ((intern g _).trans (replaceRules _ _ _)).trans (replaceRules _ _ _)
  · apply replaceRules

theorem normalize {merge : Bool} (h : g.normalize merge = .ok g') :
  Later g g'
  := by
  obtain ⟨g₁, he, rfl⟩ := exists_of_map_eq_ok h
  have htidy (g : Grammar) : Later g g.tidyRules := (refl g).of_eq (fun _ => rfl) rfl
  have hmerged := (htidy g).trans (mergeIf merge g.tidyRules)
  have helim : Later g g₁ := by
    apply (eliminate_induction (motive := Later g) _ hmerged he).1
    intro g₂ head path g₃ h₂ _ hstep
    apply (h₂.trans (eliminationStep hstep)).trans (htidy g₃)
  apply (helim.trans (mergeIf merge g₁)).trans
  rw [removeUnreachable]
  split
  · apply refl
  · apply foldl removeSymbol

end Later

end Grammar

end CanonicalLR
