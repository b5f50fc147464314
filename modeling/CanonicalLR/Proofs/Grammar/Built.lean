import CanonicalLR.NormalForm.Normalize
import CanonicalLR.Proofs.Grammar.Augmented
import CanonicalLR.Proofs.NormalForm.Elimination
import CanonicalLR.Proofs.NormalForm.Merging

/-!
# Grammars that can be built

The grammars that can be built (`Grammar.Built`) are those that come from the empty grammar by
declaring symbols, adding rules, choosing a start term and an error token, augmenting, and bringing
into normal form.  They are well formed (`Built.wellFormed`).
-/

namespace CanonicalLR.Grammar

variable {g : Grammar}

/-- The grammar with the rule that is written with labels; if a label is refused, it is the grammar
without the rule, in which the other labels are declared. -/
def addProduction (g : Grammar) (p : Production) : Except GrammarError Grammar :=
  (g.newRule p.left).map fun (id, g) => (g.appendEach id p.right).2

/-- The grammar with a start term and the rules that are written with labels. -/
def ofProductions (start : String) (ps : List Production) : Except GrammarError Grammar := do
  let (_, g) ← empty.setStart start
  ps.foldlM addProduction g

/-- The grammar comes from the empty grammar by operations on grammars. -/
inductive Built : Grammar → Prop where
  | empty : Built empty
  | declare {g g' : Grammar} {l : Label} {s : Symbol} :
      Built g → g.declare l = .ok (s, g') → Built g'
  | setStart {g g' : Grammar} {name : String} {s : Symbol} :
      Built g → g.setStart name = .ok (s, g') → Built g'
  | setError {g g' : Grammar} {name : String} {s : Symbol} :
      Built g → g.setError name = .ok (s, g') → Built g'
  | addProduction {g g' : Grammar} {p : Production} :
      Built g → g.addProduction p = .ok g' → Built g'
  | augment {g : Grammar} {a : AugmentedGrammar} :
      Built g → g.augment = .ok a → Built a.grammar
  | normalize {g g' : Grammar} {merge : Bool} :
      Built g → g.normalize merge = .ok g' → Built g'

/-- A grammar with a start term and rules can be built. -/
theorem built_of_ofProductions {start : String} {ps : List Production}
    (h : ofProductions start ps = .ok g) :
  Built g
  := by
  cases hs : empty.setStart start with
  | error e => simp [ofProductions, hs, bind, Except.bind] at h
  | ok answer =>
    obtain ⟨s, g₀⟩ := answer
    simp only [ofProductions, hs, bind, Except.bind] at h
    have hg₀ := Built.setStart .empty hs
    clear hs
    induction ps generalizing g₀ with
    | nil =>
      cases h
      apply hg₀
    | cons p ps ih =>
      rw [List.foldlM_cons] at h
      cases hp : g₀.addProduction p with
      | error e => simp [hp, bind, Except.bind] at h
      | ok g₁ =>
        simp only [hp, bind, Except.bind] at h
        apply ih g₁ h (.addProduction hg₀ hp)

/-- What is left of a start term and rules can be built, also if a label is refused. -/
theorem built_getD_ofProductions {start : String} {ps : List Production} :
  ((ofProductions start ps).toOption.getD empty).Built
  := by
  cases h : ofProductions start ps with
  | error e => exact .empty
  | ok g => apply built_of_ofProductions h

/-- What is left of an operation on a grammar can be built, also if the operation is refused. -/
theorem built_getD_of_answer {answer : Except GrammarError (Symbol × Grammar)}
    (h : ∀ s g, answer = .ok (s, g) → g.Built) :
  ((answer.toOption.map (·.2)).getD Grammar.empty).Built
  := by
  cases answer with
  | error e => exact .empty
  | ok answer => apply h answer.1 answer.2 rfl

namespace WellFormed

theorem addProduction (h : g.WellFormed) {p : Production} {g' : Grammar}
    (hp : g.addProduction p = .ok g') :
  g'.WellFormed
  := by
  obtain ⟨⟨id, g₁⟩, hr, rfl⟩ := exists_of_map_eq_ok hp
  apply (h.newRule hr).appendEach id p.right

theorem mergeIf (h : g.WellFormed) (merge : Bool) :
  (g.mergeIf merge).WellFormed
  := by
  rw [Grammar.mergeIf]
  split
  · apply h.mergeDuplicates
  · apply h

theorem normalize (h : g.WellFormed) {merge : Bool} {g' : Grammar}
    (hn : g.normalize merge = .ok g') :
  g'.WellFormed
  := by
  obtain ⟨g₁, he, rfl⟩ := exists_of_map_eq_ok hn
  have h₁ := (keeps_eliminate (h.tidyRules.mergeIf merge) he).wellFormed
  apply (h₁.mergeIf merge).removeUnreachable

end WellFormed

/-- A grammar that can be built is well formed. -/
theorem Built.wellFormed (h : g.Built) :
  g.WellFormed
  := by
  induction h with
  | empty => exact .empty
  | declare _ hd ih => apply (ih.declare hd).1
  | setStart _ hs ih => apply ih.setStart hs
  | setError _ hs ih => apply ih.setError hs
  | addProduction _ hp ih => apply ih.addProduction hp
  | augment _ ha ih => apply (ih.augment ha).1.grammar
  | normalize _ hn ih => apply ih.normalize hn

end CanonicalLR.Grammar
