import Mathlib.Data.Fintype.Card
import Mathlib.Data.List.Chain
import Mathlib.Data.Set.Finite.Basic
import Mathlib.Logic.Relation
import Mathlib.Order.WellFounded
import Mathlib.Tactic.Use

/-!
# Paths and cycles of a relation

A path that *avoids* a value never goes on from it (`Avoiding`).  Every path avoids a value or comes
by it (`avoiding_or_reaches`), and a path from a value avoids it from the last time that it comes by
(`exists_avoiding_of_transGen`).

All values on a cycle are themselves on a cycle (`transGen_on_cycle`).  Where there are no cycles, a
finite set has a member that is not reached from any other (`exists_unreached`).

A value can be made to go to what the values go to that it went to and from which it is reached
(`Contracted`).  Each cycle through it is then one value shorter (`isChain_contracted`,
`exists_isChain_of_contracted`).
-/

namespace CanonicalLR

open Relation

variable {α : Type} {r : α → α → Prop} {a b x y : α} {as : List α}

/-- The pairs of a relation the first of which is not `a`. -/
def Avoiding (r : α → α → Prop) (a : α) : α → α → Prop :=
  fun u v => r u v ∧ u ≠ a

/-- A path from a value goes on from it for the last time, and avoids it then. -/
theorem exists_avoiding_of_transGen (h : TransGen r a x) :
  ∃ z, r a z ∧ ReflTransGen (Avoiding r a) z x
  := by
  induction h with
  | @single b h => use b, h
  | @tail b c _ h ih =>
    obtain ⟨z, hz, hmany⟩ := ih
    by_cases hb : b = a
    · subst hb
      use c, h
    · use z, hz, hmany.tail ⟨h, hb⟩

/-- A path avoids a value, or its end can be reached from the value. -/
theorem avoiding_or_reaches (h : TransGen r y x) (a : α) :
  TransGen (Avoiding r a) y x ∨ TransGen r a x
  := by
  induction h with
  | @single b h =>
    by_cases hy : y = a
    · exact .inr (.single (hy ▸ h))
    · exact .inl (.single ⟨h, hy⟩)
  | @tail b c _ h ih =>
    by_cases hb : b = a
    · exact .inr (.single (hb ▸ h))
    · exact ih.imp (fun hmany => hmany.tail ⟨h, hb⟩) fun hmany => hmany.tail h

theorem transGen_of_avoiding (h : TransGen (Avoiding r a) y x) :
  TransGen r y x
  := TransGen.mono (fun _ _ hstep => hstep.1) _ _ h

/-- A path on a cycle goes on from values only that are themselves on a cycle. -/
theorem transGen_on_cycle (h : TransGen r x y) (hback : ReflTransGen r y x) :
  TransGen (fun u v => r u v ∧ TransGen r u u) x y
  := by
  induction h with
  | single h => exact .single ⟨h, .head' h hback⟩
  | tail hmany h ih =>
    have hcycle := TransGen.head' h (hback.trans hmany.to_reflTransGen)
    exact (ih (hback.head h)).tail ⟨h, hcycle⟩

/-- If no member of a finite set is on a cycle, then one of them is not reached from any. -/
theorem exists_unreached {S : Set α} (hfinite : S.Finite) (hne : S.Nonempty)
    (hcycle : ∀ x ∈ S, ¬ TransGen r x x) :
  ∃ x ∈ S, ∀ y ∈ S, ¬ TransGen r y x
  := by
  have : Finite S := hfinite.to_subtype
  let reaches (x y : S) : Prop := TransGen r x y
  have : Std.Irrefl reaches := ⟨fun x => hcycle x x.property⟩
  have : IsTrans S reaches := ⟨fun _ _ _ => TransGen.trans⟩
  obtain ⟨x, hx⟩ := hne
  obtain ⟨m, -, hm⟩ := (Finite.wellFounded_of_trans_of_irrefl reaches).has_min Set.univ
    ⟨⟨x, hx⟩, trivial⟩
  use m, m.property
  exact fun y hy => hm ⟨y, hy⟩ trivial

/-! ### Contraction -/

/-- The relation in which `a`, instead of the values that it goes to and from which it is reached, goes
to what these go to. -/
def Contracted (r : α → α → Prop) (a : α) : α → α → Prop :=
  fun u v => u ≠ a ∧ r u v ∨
    u = a ∧ (r a v ∧ ¬ ReflTransGen r v a ∨ ∃ x, r a x ∧ ReflTransGen r x a ∧ r x v)

/-- A contracted path is one of the relation. -/
theorem transGen_of_contracted (h : TransGen (Contracted r a) x y) :
  TransGen r x y
  := by
  apply TransGen.closed _ _ _ h
  rintro u v (⟨-, h⟩ | ⟨rfl, ⟨h, -⟩ | ⟨x, hx, -, h⟩⟩)
  · exact .single h
  · exact .single h
  · exact .tail (.single hx) h

/-- A path that does not go on from `a` is the same in the contracted relation. -/
theorem isChain_contracted_iff (hne : ∀ u ∈ as, u ≠ a) :
  (as ++ [b]).IsChain (Contracted r a) ↔ (as ++ [b]).IsChain r
  := by
  induction as with
  | nil => simp
  | cons u as ih =>
    have ih := ih fun v hv => hne v (List.mem_cons_of_mem _ hv)
    have hu (v : α) : Contracted r a u v ↔ r u v := by
      simp [Contracted, hne u List.mem_cons_self]
    cases as with
    | nil => simp [hu]
    | cons v as =>
      rw [List.cons_append, List.cons_append, List.isChain_cons_cons, List.isChain_cons_cons, hu]
      apply and_congr_right fun _ => ih

/-- The first value of a path reaches the last one. -/
theorem transGen_of_isChain (h : (x :: (as ++ [a])).IsChain r) :
  TransGen r x a
  := by
  induction as generalizing x with
  | nil => exact .single (List.isChain_pair.mp h)
  | cons y as ih =>
    obtain ⟨hy, h⟩ := List.isChain_cons_cons.mp h
    apply (ih h).head hy

/-- A cycle through `a` is a value shorter in the contracted relation. -/
theorem isChain_contracted (hne : ∀ u ∈ as, u ≠ a) (h : (a :: x :: (as ++ [a])).IsChain r) :
  (a :: (as ++ [a])).IsChain (Contracted r a)
  := by
  obtain ⟨hx, h⟩ := List.isChain_cons_cons.mp h
  have hback := (transGen_of_isChain h).to_reflTransGen
  have hrest := (isChain_contracted_iff (r := r) hne (b := a)).mpr h.tail
  obtain ⟨z, zs, hzs⟩ := List.exists_cons_of_ne_nil (List.concat_ne_nil a as)
  rw [hzs] at h hrest ⊢
  apply List.isChain_cons_cons.mpr ⟨_, hrest⟩
  exact .inr ⟨rfl, .inr ⟨x, hx, hback, (List.isChain_cons_cons.mp h).1⟩⟩

/-- A cycle through `a` in the contracted relation is a value longer in the relation itself. -/
theorem exists_isChain_of_contracted (hne : ∀ u ∈ as, u ≠ a)
    (h : (a :: (as ++ [a])).IsChain (Contracted r a)) :
  ∃ x, (a :: x :: (as ++ [a])).IsChain r
  := by
  have hrest := (isChain_contracted_iff hne).mp h.tail
  obtain ⟨z, zs, hzs⟩ := List.exists_cons_of_ne_nil (List.concat_ne_nil a as)
  have hback : ReflTransGen r z a := by
    apply List.relationReflTransGen_of_exists_isChain_cons zs (hzs ▸ hrest)
    simp [← hzs]
  rw [hzs] at h hrest ⊢
  obtain ⟨hne, -⟩ | ⟨-, ⟨-, hnot⟩ | ⟨x, hx, -, hxz⟩⟩ := (List.isChain_cons_cons.mp h).1
  · apply absurd rfl hne
  · apply absurd hback hnot
  · use x
    apply List.isChain_cons_cons.mpr ⟨hx, List.isChain_cons_cons.mpr ⟨hxz, hrest⟩⟩

end CanonicalLR
