import Mathlib.Tactic.Use
import CanonicalLR.Grammar.Basic

/-!
# Derivations

By the rules of a list, a sequence of symbols derives sequences of tokens (`Derives`): a token
derives itself, a prompt derives nothing, and a term derives what the right side of one of its
rules derives.

A *reading* assigns a set of sequences of tokens to each term, and sequences of symbols can be
read by it (`Reads`).  A reading is closed under a rule if the owner stands for all that can be
read off the right side (`ClosedUnder`).  The derived sequences are the least reading that is
closed under the rules: it is closed (`closedUnder_derived`), and it is contained in every other
closed reading (`Derives.reads`).  So two lists of rules are compared by showing that what one of
them derives is closed under the rules of the other.
-/

namespace CanonicalLR

/-- The sequence of symbols derives the sequence of tokens by the rules of the list. -/
inductive Derives (rules : List Rule) : List Symbol → List TokenId → Prop where
  | nil : Derives rules [] []
  | prompt {p : PromptId} {items : List Symbol} {w : List TokenId} :
      Derives rules items w → Derives rules (.prompt p :: items) w
  | token {n : TokenId} {items : List Symbol} {w : List TokenId} :
      Derives rules items w → Derives rules (.token n :: items) (n :: w)
  | term {r : Rule} {items : List Symbol} {v w : List TokenId} :
      r ∈ rules → Derives rules r.items v → Derives rules items w →
      Derives rules (.term r.owner :: items) (v ++ w)

/-- The names `names` are those of a sequence of tokens that the term `t` derives. -/
def Grammar.Generates (g : Grammar) (t : TermId) (names : List String) : Prop :=
  ∃ w, Derives g.rules [.term t] w ∧ w.map g.tokenName = names

/-! ### Readings -/

/-- A set of sequences of tokens for each term. -/
abbrev Reading := TermId → List TokenId → Prop

/-- The sequence of tokens can be read off the symbol by the reading `L`. -/
def ReadsSymbol (L : Reading) : Symbol → List TokenId → Prop
  | .prompt _, w => w = []
  | .token n, w => w = [n]
  | .term t, w => L t w

/-- The sequence of tokens can be read off the symbols, one after the other, by the
reading `L`. -/
def Reads (L : Reading) : List Symbol → List TokenId → Prop
  | [], w => w = []
  | s :: items, w => ∃ u v, w = u ++ v ∧ ReadsSymbol L s u ∧ Reads L items v

/-- The owner of the rule stands for all that can be read off its right side. -/
def ClosedUnder (L : Reading) (r : Rule) : Prop :=
  ∀ w, Reads L r.items w → L r.owner w

/-- The sequences that the terms derive. -/
def derived (rules : List Rule) : Reading :=
  fun t w => Derives rules [.term t] w

/-- Two sequences of symbols side by side are read one after the other. -/
theorem reads_append {L : Reading} {xs ys : List Symbol} {w : List TokenId} :
  Reads L (xs ++ ys) w ↔ ∃ u v, w = u ++ v ∧ Reads L xs u ∧ Reads L ys v
  := by
  induction xs generalizing w with
  | nil =>
    simp only [List.nil_append, Reads]
    constructor
    · intro h
      use [], w
      simp [h]
    · rintro ⟨_, v, rfl, rfl, h⟩
      apply h
  | cons s xs ih =>
    simp only [List.cons_append, Reads, ih]
    constructor
    · rintro ⟨x, _, rfl, hx, u, v, rfl, hu, hv⟩
      use x ++ u, v, (List.append_assoc x u v).symm, ⟨x, u, rfl, hx, hu⟩
    · rintro ⟨_, v, rfl, ⟨x, u, rfl, hx, hu⟩, hv⟩
      use x, u ++ v, List.append_assoc x u v, hx, u, v

/-- A single symbol is read as a symbol. -/
@[simp]
theorem reads_singleton {L : Reading} {s : Symbol} {w : List TokenId} :
  Reads L [s] w ↔ ReadsSymbol L s w
  := by
  simp [Reads]

/-- Nothing is read off prompts. -/
theorem reads_prompts {L : Reading} {items : List Symbol} (h : ∀ s ∈ items, s.isPrompt)
    {w : List TokenId} :
  Reads L items w ↔ w = []
  := by
  induction items generalizing w with
  | nil => rfl
  | cons s items ih =>
    obtain ⟨k, id⟩ := s
    obtain rfl : k = .prompt := by simpa [Symbol.isPrompt] using h ⟨k, id⟩ List.mem_cons_self
    simp [Reads, ReadsSymbol, ih fun s hs => h s (List.mem_cons_of_mem _ hs)]

/-- What is read by `L` is read by `M` if the terms that occur stand for more by `M`. -/
theorem Reads.mono {L M : Reading} {items : List Symbol} {w : List TokenId}
    (hLM : ∀ t, .term t ∈ items → ∀ u, L t u → M t u) (h : Reads L items w) :
  Reads M items w
  := by
  induction items generalizing w with
  | nil => apply h
  | cons s items ih =>
    obtain ⟨u, v, rfl, hu, hv⟩ := h
    use u, v, rfl
    constructor
    · match s with
      | .prompt _ => apply hu
      | .token _ => apply hu
      | .term t => apply hLM t List.mem_cons_self u hu
    · apply ih (fun t ht => hLM t (List.mem_cons_of_mem _ ht)) hv

/-! ### The least closed reading -/

/-- Every reading that is closed under the rules contains what is derived. -/
theorem Derives.reads {rules : List Rule} {L : Reading} (hL : ∀ r ∈ rules, ClosedUnder L r)
    {items : List Symbol} {w : List TokenId} (h : Derives rules items w) :
  Reads L items w
  := by
  induction h with
  | nil => rfl
  | prompt _ ih => exact ⟨[], _, rfl, rfl, ih⟩
  | token _ ih => exact ⟨[_], _, rfl, rfl, ih⟩
  | term hr _ _ ihv ihw => exact ⟨_, _, rfl, hL _ hr _ ihv, ihw⟩

/-- A term derives what the right sides of its rules derive. -/
theorem derived_iff {rules : List Rule} {t : TermId} {w : List TokenId} :
  derived rules t w ↔ ∃ r ∈ rules, r.owner = t ∧ Derives rules r.items w
  := by
  constructor
  · rintro (_ | _ | _ | ⟨hr, hv, hnil⟩)
    cases hnil
    rw [List.append_nil]
    exact ⟨_, hr, rfl, hv⟩
  · rintro ⟨r, hr, rfl, h⟩
    rw [derived, ← List.append_nil w]
    exact .term hr h .nil

/-- What is read off a sequence of symbols when the terms stand for what they derive is derived
from it. -/
theorem Reads.derives {rules : List Rule} {items : List Symbol} {w : List TokenId}
    (h : Reads (derived rules) items w) :
  Derives rules items w
  := by
  induction items generalizing w with
  | nil =>
    obtain rfl := h
    exact .nil
  | cons s items ih =>
    obtain ⟨u, v, rfl, hu, hv⟩ := h
    match s with
    | .prompt _ =>
      obtain rfl := hu
      exact .prompt (ih hv)
    | .token _ =>
      obtain rfl := hu
      exact .token (ih hv)
    | .term t =>
      obtain ⟨r, hr, rfl, hr'⟩ := derived_iff.mp hu
      exact .term hr hr' (ih hv)

/-- What is derived is closed under the rules. -/
theorem closedUnder_derived {rules : List Rule} {r : Rule} (hr : r ∈ rules) :
  ClosedUnder (derived rules) r
  := by
  intro w h
  apply derived_iff.mpr ⟨r, hr, rfl, h.derives⟩

theorem derives_iff_reads {rules : List Rule} {items : List Symbol} {w : List TokenId} :
  Derives rules items w ↔ Reads (derived rules) items w
  := ⟨Derives.reads fun _ => closedUnder_derived, Reads.derives⟩

/-- Two sequences of symbols side by side derive one after the other. -/
theorem derives_append {rules : List Rule} {xs ys : List Symbol} {w : List TokenId} :
  Derives rules (xs ++ ys) w ↔ ∃ u v, w = u ++ v ∧ Derives rules xs u ∧ Derives rules ys v
  := by
  simp only [derives_iff_reads, reads_append]

/-- A symbol derives the empty sequence together with what follows it if both do. -/
theorem derives_cons_nil {rules : List Rule} {s : Symbol} {items : List Symbol} :
  Derives rules (s :: items) [] ↔ Derives rules [s] [] ∧ Derives rules items []
  := by
  rw [← List.singleton_append, derives_append]
  constructor
  · rintro ⟨u, v, heq, hs, hitems⟩
    obtain ⟨rfl, rfl⟩ := List.append_eq_nil_iff.mp heq.symm
    use hs, hitems
  · rintro ⟨hs, hitems⟩
    use [], [], rfl, hs

/-- The empty sequence is derived from symbols exactly if it is derived from each of them. -/
theorem derives_nil_iff_forall {rules : List Rule} {items : List Symbol} :
  Derives rules items [] ↔ ∀ s ∈ items, Derives rules [s] []
  := by
  induction items with
  | nil => simp [Derives.nil]
  | cons s items ih => rw [derives_cons_nil, ih, List.forall_mem_cons]

end CanonicalLR
