/-!
# Finite sets of numbers

The type `IndexSet` of finite sets of natural numbers.  A set is represented by the number in
whose binary notation the digit for `2 ^ n` tells whether `n` is a member, so that unions are
operations on numbers, and two sets with the same members are equal (`IndexSet.ext_mem`).  The
sets of this library are sets of identifiers: of the tokens that may come next, or of the terms
that a term may begin with.
-/

namespace CanonicalLR

/-- A finite set of natural numbers. -/
structure IndexSet where
  /-- The number whose binary digits tell the members. -/
  digits : Nat
deriving DecidableEq

namespace IndexSet

instance : EmptyCollection IndexSet :=
  ⟨⟨0⟩⟩

instance : Inhabited IndexSet :=
  ⟨∅⟩

instance : Membership Nat IndexSet :=
  ⟨fun s n => s.digits.testBit n = true⟩

instance (n : Nat) (s : IndexSet) : Decidable (n ∈ s) :=
  inferInstanceAs (Decidable (s.digits.testBit n = true))

theorem mem_iff {n : Nat} {s : IndexSet} :
  n ∈ s ↔ s.digits.testBit n = true
  := Iff.rfl

/-- A set is determined by its members. -/
theorem ext_mem {s t : IndexSet} (h : ∀ n, n ∈ s ↔ n ∈ t) :
  s = t
  := by
  obtain ⟨m⟩ := s
  obtain ⟨n⟩ := t
  apply congrArg IndexSet.mk (Nat.eq_of_testBit_eq fun i => Bool.eq_iff_iff.mpr (h i))

/-! ### Construction -/

/-- The set with the one member `n`. -/
def singleton (n : Nat) : IndexSet :=
  ⟨1 <<< n⟩

/-- The union of two sets. -/
def union (s t : IndexSet) : IndexSet :=
  ⟨s.digits ||| t.digits⟩

instance : Union IndexSet :=
  ⟨union⟩

/-- The set with the members of `s` and `n`. -/
def insert (s : IndexSet) (n : Nat) : IndexSet :=
  s ∪ singleton n

/-- The set of the numbers in `ns`. -/
def ofList (ns : List Nat) : IndexSet :=
  ns.foldl insert ∅

@[simp]
theorem not_mem_empty (n : Nat) :
  ¬ n ∈ (∅ : IndexSet)
  := by
  rw [mem_iff]
  apply ne_true_of_eq_false (Nat.zero_testBit n)

@[simp]
theorem mem_singleton {a n : Nat} :
  a ∈ singleton n ↔ a = n
  := by
  rw [mem_iff, singleton, Nat.one_shiftLeft, Nat.testBit_two_pow, decide_eq_true_eq]
  apply eq_comm

@[simp]
theorem mem_union {a : Nat} {s t : IndexSet} :
  a ∈ s ∪ t ↔ a ∈ s ∨ a ∈ t
  := by
  rw [mem_iff, mem_iff, mem_iff, ← Bool.or_eq_true, ← Nat.testBit_or]
  rfl

@[simp]
theorem mem_insert {a n : Nat} {s : IndexSet} :
  a ∈ s.insert n ↔ a = n ∨ a ∈ s
  := by
  rw [insert, mem_union, mem_singleton]
  apply Or.comm

theorem mem_foldl_insert {a : Nat} {ns : List Nat} {s : IndexSet} :
  a ∈ ns.foldl insert s ↔ a ∈ s ∨ a ∈ ns
  := by
  induction ns generalizing s with
  | nil => simp
  | cons n ns ih =>
    rw [List.foldl_cons, ih, mem_insert, List.mem_cons]
    constructor
    · rintro ((h | h) | h) <;> simp [h]
    · rintro (h | h | h) <;> simp [h]

@[simp]
theorem mem_ofList {a : Nat} {ns : List Nat} :
  a ∈ ofList ns ↔ a ∈ ns
  := by
  simp [ofList, mem_foldl_insert]

/-! ### Members -/

/-- The places of the digits of `digits` that are not zero, in increasing order, with `members`
behind them.  The highest place is found first; `bound` is above it. -/
def collect : Nat → Nat → List Nat → List Nat
  | 0, _, members => members
  | bound + 1, digits, members =>
    if digits = 0 then members
    else collect bound (digits % 1 <<< digits.log2) (digits.log2 :: members)

/-- The members in increasing order. -/
def toList (s : IndexSet) : List Nat :=
  collect (s.digits.log2 + 1) s.digits []

/-- What is left when the highest digit is removed. -/
theorem testBit_mod_log2 {i digits : Nat} :
  (digits % 1 <<< digits.log2).testBit i = true ↔ i < digits.log2 ∧ digits.testBit i = true
  := by
  rw [Nat.one_shiftLeft, Nat.testBit_mod_two_pow, Bool.and_eq_true, decide_eq_true_eq]

theorem testBit_log2 {digits : Nat} (h : ¬ digits = 0) :
  digits.testBit digits.log2 = true
  := Nat.testBit_log2 h

theorem le_log2_of_testBit {i digits : Nat} (h : digits.testBit i = true) :
  i ≤ digits.log2
  := by
  have hle := Nat.ge_two_pow_of_testBit h
  have hlt := Nat.lt_log2_self (n := digits)
  have := (Nat.pow_lt_pow_iff_right (by decide)).mp (Nat.lt_of_le_of_lt hle hlt)
  omega

theorem mem_collect {n bound digits : Nat} {members : List Nat}
    (h : ∀ i, digits.testBit i = true → i < bound) :
  n ∈ collect bound digits members ↔ digits.testBit n = true ∨ n ∈ members
  := by
  induction bound generalizing digits members with
  | zero =>
    rw [collect]
    constructor
    · exact .inr
    · rintro (hn | hn)
      · apply absurd (h n hn) (Nat.not_lt_zero n)
      · apply hn
  | succ bound ih =>
    rw [collect]
    split
    · next hz => simp [hz]
    · next hz =>
      have hlog := h _ (testBit_log2 hz)
      rw [ih fun i hi => Nat.lt_of_lt_of_le (testBit_mod_log2.mp hi).1 (Nat.le_of_lt_succ hlog),
        testBit_mod_log2, List.mem_cons]
      constructor
      · rintro (hn | rfl | hn)
        · exact .inl hn.2
        · exact .inl (testBit_log2 hz)
        · exact .inr hn
      · rintro (hn | hn)
        · rcases Nat.lt_or_eq_of_le (le_log2_of_testBit hn) with hlt | heq
          · exact .inl ⟨hlt, hn⟩
          · exact .inr (.inl heq)
        · exact .inr (.inr hn)

theorem pairwise_collect {bound digits : Nat} {members : List Nat}
    (hd : ∀ n ∈ members, ∀ i, digits.testBit i = true → i < n)
    (hm : members.Pairwise (· < ·)) :
  (collect bound digits members).Pairwise (· < ·)
  := by
  induction bound generalizing digits members with
  | zero => apply hm
  | succ bound ih =>
    rw [collect]
    split
    · apply hm
    · next hz =>
      have hlog : ∀ n ∈ members, digits.log2 < n := fun n hn => hd n hn _ (testBit_log2 hz)
      apply ih
      · intro n hn i hi
        have hlt := (testBit_mod_log2.mp hi).1
        rcases List.mem_cons.mp hn with rfl | hn
        · apply hlt
        · apply Nat.lt_trans hlt (hlog n hn)
      · apply List.pairwise_cons.mpr ⟨hlog, hm⟩

@[simp]
theorem mem_toList {n : Nat} {s : IndexSet} :
  n ∈ s.toList ↔ n ∈ s
  := by
  rw [toList, mem_collect fun i hi => Nat.lt_succ_of_le (le_log2_of_testBit hi), mem_iff]
  simp

theorem pairwise_toList (s : IndexSet) :
  s.toList.Pairwise (· < ·)
  := pairwise_collect (by simp) List.Pairwise.nil

/-- The number of members. -/
def size (s : IndexSet) : Nat :=
  s.toList.length

/-- Whether there is no member. -/
def isEmpty (s : IndexSet) : Bool :=
  s.digits = 0

/-- Whether every member of `t` is a member of `s`. -/
def includes (s t : IndexSet) : Bool :=
  s ∪ t = s

theorem includes_iff {s t : IndexSet} :
  s.includes t = true ↔ ∀ n, n ∈ t → n ∈ s
  := by
  rw [includes, decide_eq_true_eq]
  constructor
  · intro h n hn
    rw [← h]
    apply mem_union.mpr (.inr hn)
  · intro h
    apply ext_mem
    intro n
    rw [mem_union]
    exact ⟨fun hn => hn.elim id (h n), .inl⟩

theorem isEmpty_iff {s : IndexSet} :
  s.isEmpty = true ↔ ∀ n, ¬ n ∈ s
  := by
  rw [isEmpty, decide_eq_true_eq]
  constructor
  · intro h n
    rw [mem_iff, h, Nat.zero_testBit]
    apply Bool.false_ne_true
  · intro h
    have he : s = ∅ := ext_mem fun n => iff_of_false (h n) (not_mem_empty n)
    rw [he]
    rfl

end IndexSet

end CanonicalLR
