import Mathlib.Algebra.Group.Nat.Defs
import PlainSync.Calendar

/-!
# Padded decimals

A number that is padded with zeros is read back from its digits. Numbers that fit in a width are
padded to texts of that length, which stand in the order of the numbers.
-/

namespace PlainSync

/-- A padded number has digits only. -/
theorem isDigit_of_mem_paddedDecimal {width n : Nat} :
    ∀ c ∈ (paddedDecimal width n).toList, c.isDigit := by
  intro c hc
  rw [paddedDecimal, String.toList_ofList, List.mem_append, List.mem_replicate] at hc
  rcases hc with ⟨-, rfl⟩ | hdigit
  · decide
  · rw [Nat.toString_eq_repr, Nat.toList_repr] at hdigit
    exact Nat.isDigit_of_mem_toDigits (by decide) (by decide) hdigit

/-- The number is read back from its padded digits, also if there are more digits than the
width asks for. -/
theorem ofDigitChars_paddedDecimal (width n : Nat) :
    Nat.ofDigitChars 10 (paddedDecimal width n).toList 0 = n := by
  unfold paddedDecimal
  rw [String.toList_ofList, Nat.ofDigitChars_append, Nat.ofDigitChars_replicate_zero, Nat.mul_zero,
    Nat.toString_eq_repr, Nat.toList_repr, Nat.ofDigitChars_ten_toDigits]

/-- A number can be told from its padded digits. -/
theorem paddedDecimal_injective {width n n' : Nat}
    (hsame : paddedDecimal width n = paddedDecimal width n') : n = n' := by
  rw [← ofDigitChars_paddedDecimal width n, hsame, ofDigitChars_paddedDecimal]

/-- A number that fits has the width that is asked for. -/
theorem length_paddedDecimal {width n : Nat} (hwidth : 0 < width) (hn : n < 10 ^ width) :
    (paddedDecimal width n).toList.length = width := by
  have hdigits : (toString n).toList.length ≤ width := by
    rw [Nat.toString_eq_repr, Nat.toList_repr]
    exact (Nat.length_toDigits_le_iff (by decide) hwidth).mpr hn
  rw [paddedDecimal, String.toList_ofList, List.length_append, List.length_replicate]
  exact Nat.sub_add_cancel hdigits

/-! ## Order -/

/-- Texts with fronts of one length are ordered by their fronts first. -/
theorem append_lt_append_iff {α : Type} [LT α] {front front' : List α}
    (hlength : front.length = front'.length) (back back' : List α) :
    front ++ back < front' ++ back' ↔ front < front' ∨ front = front' ∧ back < back' := by
  induction front generalizing front' with
  | nil =>
    obtain rfl := List.eq_nil_of_length_eq_zero hlength.symm
    simp
  | cons a rest ih =>
    cases front' with
    | nil => cases hlength
    | cons b rest' =>
      rw [List.cons_append, List.cons_append, List.cons_lt_cons_iff, List.cons_lt_cons_iff,
        ih (Nat.succ.inj hlength), List.cons.injEq, and_or_left, or_assoc, and_assoc]

/-- Numbers compare by their multiples of a size, and then by what is left. -/
theorem mul_add_lt_mul_add_iff {size a b r s : Nat} (hr : r < size) (hs : s < size) :
    size * a + r < size * b + s ↔ a < b ∨ a = b ∧ r < s := by
  rcases Nat.lt_trichotomy a b with hless | rfl | hmore
  · have hstep := Nat.mul_le_mul_left size (Nat.succ_le_of_lt hless)
    rw [Nat.mul_succ] at hstep
    omega
  · omega
  · have hstep := Nat.mul_le_mul_left size (Nat.succ_le_of_lt hmore)
    rw [Nat.mul_succ] at hstep
    omega

/-- The first digit counts as often as its place says. -/
theorem ofDigitChars_cons_zero (c : Char) (rest : List Char) :
    Nat.ofDigitChars 10 (c :: rest) 0 =
      10 ^ rest.length * (c.toNat - 48) + Nat.ofDigitChars 10 rest 0 := by
  rw [Nat.ofDigitChars_cons, Nat.ofDigitChars_eq_ofDigitChars_zero, Nat.mul_zero, Nat.zero_add]
  rfl

/-- The codes of the digits. -/
theorem toNat_of_isDigit {c : Char} (hc : c.isDigit) : 48 ≤ c.toNat ∧ c.toNat ≤ 57 := by
  simpa [Char.isDigit, UInt32.le_iff_toNat_le] using hc

/-- Digits make up less than the next power of ten. -/
theorem ofDigitChars_lt {digits : List Char} (hdigits : ∀ c ∈ digits, c.isDigit) :
    Nat.ofDigitChars 10 digits 0 < 10 ^ digits.length := by
  induction digits with
  | nil => decide
  | cons c rest ih =>
    obtain ⟨hc, hrest⟩ := List.forall_mem_cons.mp hdigits
    have hless := (mul_add_lt_mul_add_iff (ih hrest) (Nat.pow_pos (by decide))).mpr
      (.inl (show c.toNat - 48 < 10 by have := toNat_of_isDigit hc; omega))
    rw [ofDigitChars_cons_zero, List.length_cons, Nat.pow_succ]
    exact hless

/-- Digits compare as the numbers that they spell, if there are as many of them. -/
theorem ofDigitChars_lt_iff {digits digits' : List Char} (hdigits : ∀ c ∈ digits, c.isDigit)
    (hdigits' : ∀ c ∈ digits', c.isDigit) (hlength : digits.length = digits'.length) :
    Nat.ofDigitChars 10 digits 0 < Nat.ofDigitChars 10 digits' 0 ↔ digits < digits' := by
  induction digits generalizing digits' with
  | nil =>
    obtain rfl := List.eq_nil_of_length_eq_zero hlength.symm
    simp
  | cons c rest ih =>
    cases digits' with
    | nil => cases hlength
    | cons d rest' =>
      obtain ⟨hc, hrest⟩ := List.forall_mem_cons.mp hdigits
      obtain ⟨hd, hrest'⟩ := List.forall_mem_cons.mp hdigits'
      have hsame : rest.length = rest'.length := Nat.succ.inj hlength
      have hbound' := ofDigitChars_lt hrest'
      rw [← hsame] at hbound'
      have hcRange := toNat_of_isDigit hc
      have hdRange := toNat_of_isDigit hd
      have hless : c.toNat - 48 < d.toNat - 48 ↔ c < d := by
        rw [Char.lt_def, UInt32.lt_iff_toNat_lt]
        change _ ↔ c.toNat < d.toNat
        omega
      have hequal : c.toNat - 48 = d.toNat - 48 ↔ c = d := by
        rw [← Char.toNat_inj]
        omega
      rw [ofDigitChars_cons_zero, ofDigitChars_cons_zero, ← hsame,
        mul_add_lt_mul_add_iff (ofDigitChars_lt hrest) hbound', ih hrest hrest' hsame, hless,
        hequal, List.cons_lt_cons_iff]

/-- Numbers that fit in a width are padded to texts in the order of the numbers. -/
theorem paddedDecimal_lt_iff {width m n : Nat} (hwidth : 0 < width) (hm : m < 10 ^ width)
    (hn : n < 10 ^ width) :
    (paddedDecimal width m).toList < (paddedDecimal width n).toList ↔ m < n := by
  rw [← ofDigitChars_lt_iff isDigit_of_mem_paddedDecimal isDigit_of_mem_paddedDecimal
    (by rw [length_paddedDecimal hwidth hm, length_paddedDecimal hwidth hn]),
    ofDigitChars_paddedDecimal, ofDigitChars_paddedDecimal]

end PlainSync
