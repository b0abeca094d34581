import Mathlib.Data.String.Basic
import PlainSync.Text.Bytes

/-!
# The order of bytes

UTF-8 keeps the order of characters, so strings stand in the order of their encodings.
-/

namespace PlainSync.Bytes

/-- An encoding consists of the digits of the code point to the base 64, the first of which is
marked by the number of digits. There is one length for each range of code points. -/
theorem exists_digits (c : Char) :
    (∃ i < 128, c.val.toNat = i ∧ String.utf8EncodeChar c = [UInt8.ofNat i]) ∨
    (∃ i < 32, ∃ j < 64, c.val.toNat = i * 64 + j ∧ 128 ≤ c.val.toNat ∧
      String.utf8EncodeChar c = [UInt8.ofNat (i + 192), UInt8.ofNat (j + 128)]) ∨
    (∃ i < 16, ∃ j < 64, ∃ k < 64, c.val.toNat = (i * 64 + j) * 64 + k ∧ 2048 ≤ c.val.toNat ∧
      String.utf8EncodeChar c =
        [UInt8.ofNat (i + 224), UInt8.ofNat (j + 128), UInt8.ofNat (k + 128)]) ∨
    (∃ i < 8, ∃ j < 64, ∃ k < 64, ∃ l < 64, c.val.toNat = ((i * 64 + j) * 64 + k) * 64 + l ∧
      65536 ≤ c.val.toNat ∧ String.utf8EncodeChar c =
        [UInt8.ofNat (i + 240), UInt8.ofNat (j + 128), UInt8.ofNat (k + 128),
          UInt8.ofNat (l + 128)]) := by
  have hvalid := c.valid
  simp only [UInt32.isValidChar, Nat.isValidChar] at hvalid
  rw [String.utf8EncodeChar.eq_1]
  by_cases hone : c.val.toNat ≤ 127
  · exact .inl ⟨_, by omega, rfl, if_pos hone⟩
  rw [if_neg hone]
  by_cases htwo : c.val.toNat ≤ 2047
  · rw [if_pos htwo]
    exact .inr (.inl ⟨_, by omega, _, by omega, by omega, by omega, rfl⟩)
  rw [if_neg htwo]
  by_cases hthree : c.val.toNat ≤ 65535
  · rw [if_pos hthree]
    exact .inr (.inr (.inl ⟨_, by omega, _, by omega, _, by omega, by omega, by omega, rfl⟩))
  · rw [if_neg hthree]
    exact .inr (.inr (.inr ⟨_, by omega, _, by omega, _, by omega, _, by omega, by omega, by omega,
      rfl⟩))

/-- Bytes are ordered as their numbers. -/
theorem ofNat_lt_ofNat {m n : Nat} (hm : m < 256) (hn : n < 256) :
    UInt8.ofNat m < UInt8.ofNat n ↔ m < n := by
  rw [UInt8.lt_iff_toNat_lt, UInt8.toNat_ofNat_of_lt' hm, UInt8.toNat_ofNat_of_lt' hn]

/-- A byte can be told from its number. -/
theorem ofNat_inj {m n : Nat} (hm : m < 256) (hn : n < 256) :
    UInt8.ofNat m = UInt8.ofNat n ↔ m = n := by
  rw [← UInt8.toNat_inj, UInt8.toNat_ofNat_of_lt' hm, UInt8.toNat_ofNat_of_lt' hn]

/-- A text that begins with the smaller character comes first. -/
theorem utf8EncodeChar_append_lt {c d : Char} (hlt : c < d) (rest more : Bytes) :
    String.utf8EncodeChar c ++ rest < String.utf8EncodeChar d ++ more := by
  have hval : c.val.toNat < d.val.toNat := UInt32.lt_iff_toNat_lt.mp hlt
  -- Of two encodings of different lengths the longer one has the greater first byte.
  rcases exists_digits c with ⟨i, hi, hc, hfirst⟩ | ⟨i, hi, j, hj, hc, hleast, hfirst⟩ |
      ⟨i, hi, j, hj, k, hk, hc, hleast, hfirst⟩ |
      ⟨i, hi, j, hj, k, hk, l, hl, hc, hleast, hfirst⟩ <;>
    rcases exists_digits d with ⟨i', hi', hd, hsecond⟩ | ⟨i', hi', j', hj', hd, -, hsecond⟩ |
      ⟨i', hi', j', hj', k', hk', hd, -, hsecond⟩ |
      ⟨i', hi', j', hj', k', hk', l', hl', hd, -, hsecond⟩
  all_goals
    rw [hfirst, hsecond]
    simp (disch := omega) only [List.cons_append, List.cons_lt_cons_iff, ofNat_lt_ofNat, ofNat_inj]
    omega

/-- The encodings of strings stand in the order of the strings. -/
theorem ofString_lt_of_lt {s t : String} (hlt : s < t) : ofString s < ofString t := by
  rw [String.lt_iff_toList_lt] at hlt
  unfold ofString
  generalize s.toList = first at hlt ⊢
  generalize t.toList = second at hlt ⊢
  induction first generalizing second with
  | nil =>
    cases second with
    | nil => exact absurd hlt (List.lt_irrefl [])
    | cons d more =>
      obtain ⟨b, tail, hd⟩ := List.exists_cons_of_ne_nil (String.utf8EncodeChar_ne_nil (c := d))
      rw [List.flatMap_cons, hd]
      exact List.nil_lt_cons b _
  | cons c rest ih =>
    cases second with
    | nil => exact absurd hlt (List.not_lt_nil _)
    | cons d more =>
      rw [List.flatMap_cons, List.flatMap_cons]
      rcases List.cons_lt_cons_iff.mp hlt with hchar | ⟨rfl, hrest⟩
      · exact utf8EncodeChar_append_lt hchar _ _
      · exact List.append_left_lt (ih more hrest)

/-- Strings are ordered as their bytes. -/
theorem ofString_lt_ofString {s t : String} : ofString s < ofString t ↔ s < t := by
  refine ⟨fun hlt => ?_, ofString_lt_of_lt⟩
  have hbytes : Std.Asymm (fun a b : UInt8 => a < b) := ⟨fun _ _ => UInt8.lt_asymm⟩
  rcases lt_trichotomy s t with hless | rfl | hmore
  · exact hless
  · exact absurd hlt (List.lt_irrefl _)
  · exact absurd hlt (List.lt_asymm (ofString_lt_of_lt hmore))

end PlainSync.Bytes
