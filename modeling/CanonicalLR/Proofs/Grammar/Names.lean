import CanonicalLR.Grammar.Edit

/-!
# Names

A *name* is a text with something in it and with no blanks at its ends (`Text.IsName`).  What
`checkName` answers is a name (`isName_of_checkName`), and so are the names that are tried for the
tail of a term (`isName_tailName`), no two of which are the same (`tailName_injective`).
-/

namespace CanonicalLR

namespace Text

/-- Neither the first nor the last of the characters is blank. -/
def Trimmed (cs : List Char) : Prop :=
  (∀ c ∈ cs.head?, isBlank c = false) ∧ ∀ c ∈ cs.getLast?, isBlank c = false

/-- The text is not empty, and there are no blanks at its ends. -/
def IsName (s : String) : Prop :=
  s.toList ≠ [] ∧ Trimmed s.toList

/-- There is no blank where a character stands that is none. -/
theorem isBlank_eq_false_of_mem {o : Option Char} {c : Char} (ho : o = some c)
    (hc : isBlank c = false) :
  ∀ d ∈ o, isBlank d = false
  := by
  rw [ho]
  rintro d ⟨⟩
  apply hc

theorem dropWhile_eq_self {cs : List Char} (h : ∀ c ∈ cs.head?, isBlank c = false) :
  cs.dropWhile isBlank = cs
  := by
  cases cs with
  | nil => rfl
  | cons c cs => rw [List.dropWhile_cons_of_neg]; simp [h c rfl]

theorem head?_dropWhile_blank (cs : List Char) :
  ∀ c ∈ (cs.dropWhile isBlank).head?, isBlank c = false
  := by
  intro c hc
  have h := List.head?_dropWhile_not isBlank cs
  rw [Option.mem_def.mp hc] at h
  apply h

/-- Trimming leaves nothing to trim. -/
theorem trimmed_trimChars (cs : List Char) :
  Trimmed (trimChars cs)
  := by
  constructor
  · intro c hc
    apply head?_dropWhile_blank cs
    obtain ⟨blanks, h⟩ := List.dropWhile_suffix (l := (cs.dropWhile isBlank).reverse) isBlank
    rw [← List.reverse_inj, List.reverse_append, List.reverse_reverse] at h
    rw [Option.mem_def, ← h, List.head?_append, ← dropEndBlanks, ← trimChars,
      Option.mem_def.mp hc]
    rfl
  · rw [trimChars, dropEndBlanks, List.getLast?_reverse]
    apply head?_dropWhile_blank _

/-- A trimmed text is not changed by trimming. -/
theorem trimChars_of_trimmed {cs : List Char} (h : Trimmed cs) :
  trimChars cs = cs
  := by
  rw [trimChars, dropWhile_eq_self h.1, dropEndBlanks, dropWhile_eq_self, List.reverse_reverse]
  rw [List.head?_reverse]
  apply h.2

/-- A name is not changed by trimming. -/
theorem trim_of_isName {s : String} (h : IsName s) :
  trim s = s
  := by
  rw [trim, trimChars_of_trimmed h.2, String.ofList_toList]

@[simp]
theorem trim_trim (s : String) :
  trim (trim s) = trim s
  := by
  rw [trim, trim, String.toList_ofList, trimChars_of_trimmed (trimmed_trimChars _)]

/-- A digit is not blank. -/
theorem isBlank_of_isDigit {c : Char} (h : c.isDigit = true) :
  isBlank c = false
  := by
  simp only [Char.isDigit, Bool.and_eq_true, decide_eq_true_eq, ge_iff_le] at h
  have hlow : 48 ≤ c.toNat := h.1
  have hhigh : c.toNat ≤ 57 := h.2
  simp only [isBlank, Bool.or_eq_false_iff, Bool.and_eq_false_iff, decide_eq_false_iff_not,
    beq_eq_false_iff_ne, ne_eq]
  omega

theorem getLast?_append {cs ds : List Char} (h : ds ≠ []) :
  (cs ++ ds).getLast? = ds.getLast?
  := by
  rw [List.getLast?_append, List.getLast?_eq_some_getLast h]
  rfl

/-- A name stays a name when something is put behind it that ends with no blank. -/
theorem IsName.append {s t : String} (hs : IsName s) (ht : t.toList ≠ [])
    (hlast : ∀ c ∈ t.toList.getLast?, isBlank c = false) :
  IsName (s ++ t)
  := by
  obtain ⟨c, cs, hcs⟩ := List.exists_cons_of_ne_nil hs.1
  have hhead := hs.2.1
  rw [hcs] at hhead
  rw [IsName, Trimmed, String.toList_append, hcs]
  refine ⟨List.cons_ne_nil _ _, hhead, ?_⟩
  rw [getLast?_append ht]
  apply hlast

end Text

namespace Grammar

/-- A name that is not refused is a name. -/
theorem isName_of_checkName {name trimmed : String} (h : checkName name = .ok trimmed) :
  Text.IsName trimmed
  := by
  rw [checkName] at h
  split at h
  · cases h
  · cases h
  · next hne _ =>
    cases h
    rw [Text.IsName, String.toList_ofList]
    exact ⟨hne, Text.trimmed_trimChars _⟩

/-- The names that are tried for the tail of a term are names. -/
theorem isName_tailName {base : String} (h : Text.IsName base) (n : Nat) :
  Text.IsName (tailName base n)
  := by
  cases n with
  | zero =>
    have hlast : "_tail".toList.getLast? = some 'l' := by decide
    apply h.append (by decide) (Text.isBlank_eq_false_of_mem hlast (by decide))
  | succ n =>
    rw [tailName, String.append_assoc]
    have hdigits : (toString (n + 2)).toList = Nat.toDigits 10 (n + 2) := by
      rw [Nat.toString_eq_ofList_toDigits, String.toList_ofList]
    apply h.append
    · simp
    · rw [String.toList_append, hdigits, Text.getLast?_append Nat.toDigits_ne_nil]
      intro c hc
      apply Text.isBlank_of_isDigit
      apply Nat.isDigit_of_mem_toDigits (by decide) (by decide) (List.mem_of_getLast? hc)

/-- No two of the names that are tried for the tail of a term are the same. -/
theorem tailName_injective (base : String) :
  Function.Injective (tailName base)
  := by
  have hdigits (n : Nat) : (toString n).toList = Nat.toDigits 10 n := by
    rw [Nat.toString_eq_ofList_toDigits, String.toList_ofList]
  intro m n h
  have h := congrArg String.toList h
  cases m with
  | zero =>
    cases n with
    | zero => rfl
    | succ n => simp [tailName, Nat.toDigits_ne_nil] at h
  | succ m =>
    cases n with
    | zero => simp [tailName, Nat.toDigits_ne_nil] at h
    | succ n =>
      simp only [tailName, String.toList_append, List.append_cancel_left_eq, hdigits] at h
      have h := congrArg (fun ds => Nat.ofDigitChars 10 ds 0) h
      simpa using h

end Grammar

end CanonicalLR
