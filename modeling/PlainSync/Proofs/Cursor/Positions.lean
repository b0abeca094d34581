import PlainSync.Proofs.Text.Characters

/-!
# Positions in a text

Reading and cutting a text by indices, with the checks that the bytes are there and that no
character is cut. An index stands between the bytes before it and the rest of the text.
-/

namespace PlainSync.Cursor

open Bytes

/-- The bytes between two indices, if the text has them. -/
def bytes? (text : Bytes) (start stop : Nat) : Option Bytes :=
  if start ≤ stop ∧ stop ≤ text.length then some ((text.take stop).drop start) else none

/-- A slice stands between the text in front of it and behind it. -/
theorem exists_of_bytes? {text piece : Bytes} {start stop : Nat}
    (hpiece : bytes? text start stop = some piece) :
    ∃ front back, text = front ++ (piece ++ back) ∧ start = front.length ∧
      stop = front.length + piece.length := by
  unfold bytes? at hpiece
  split at hpiece
  · next hbounds =>
    obtain ⟨hstart, hstop⟩ := hbounds
    cases hpiece
    refine ⟨text.take start, text.drop stop, ?_, ?_, ?_⟩
    · have hfront : (text.take stop).take start = text.take start := by
        rw [List.take_take, Nat.min_eq_left hstart]
      rw [← List.append_assoc, ← hfront, List.take_append_drop, List.take_append_drop]
    · rw [List.length_take_of_le (Nat.le_trans hstart hstop)]
    · rw [List.length_drop, List.length_take_of_le (Nat.le_trans hstart hstop),
        List.length_take_of_le hstop]
      omega
  · cases hpiece

/-- The text between two indices, if the text can be cut at both. -/
def slice? (text : Bytes) (start stop : Nat) : Option Bytes :=
  if isBoundary text start ∧ isBoundary text stop then bytes? text start stop else none

/-- The index that a loop moves on to, if it lies further on. -/
def ahead? (i next : Nat) : Option { next // i < next } :=
  if h : i < next then some ⟨next, h⟩ else none

/-- A position behind the next byte is ahead. -/
theorem ahead?_succ_add (i count : Nat) :
    ahead? i (i + 1 + count) = some ⟨i + 1 + count, by omega⟩ :=
  dif_pos (by omega)

/-- A position behind a piece of text is ahead. -/
theorem ahead?_add (i : Nat) {count : Nat} (hcount : 0 < count) :
    ahead? i (i + count) = some ⟨i + count, Nat.lt_add_of_pos_right hcount⟩ :=
  dif_pos (Nat.lt_add_of_pos_right hcount)

/-! ## Positions -/

/-- An index stands between two parts of a text. The bytes before it are given last one first. -/
structure Between (text before rest : Bytes) (i : Nat) : Prop where
  whole : before.reverse ++ rest = text
  index : before.length = i

namespace Between

variable {text before rest unit behind : Bytes} {b : UInt8} {i : Nat}

/-- Everything stands behind the first position. -/
theorem zero (text : Bytes) : Between text [] text 0 := ⟨rfl, rfl⟩

/-- The text is as long as what stands on either side of a position. -/
theorem length_eq (h : Between text before rest i) : text.length = i + rest.length := by
  rw [← h.whole, List.length_append, List.length_reverse, h.index]

/-- What stands behind a position can be cut. -/
theorem split (h : Between text before rest i) (hrest : unit ++ behind = rest) :
    Between text before (unit ++ behind) i :=
  hrest ▸ h

/-- Going on behind a unit. -/
theorem append (h : Between text before (unit ++ behind) i) :
    Between text (unit.reverse ++ before) behind (i + unit.length) := by
  refine ⟨?_, ?_⟩
  · rw [← h.whole, List.reverse_append, List.reverse_reverse, List.append_assoc]
  · rw [← h.index, List.length_append, List.length_reverse, Nat.add_comm]

/-- Going on behind a byte. -/
theorem cons (h : Between text before (b :: rest) i) : Between text (b :: before) rest (i + 1) := by
  have hunit : Between text before ([b] ++ rest) i := h
  exact hunit.append

/-- A position in front of a byte is in the text. -/
theorem lt (h : Between text before (b :: rest) i) : i < text.length := by
  rw [h.length_eq, List.length_cons]
  omega

/-- The position behind the text is not in it. -/
theorem not_lt (h : Between text before [] i) : ¬ i < text.length := by
  rw [h.length_eq, List.length_nil]
  omega

/-- A byte behind a position is one of the bytes that stand there. -/
theorem getElem?_add (h : Between text before rest i) (k : Nat) : text[i + k]? = rest[k]? := by
  have hlength : before.reverse.length = i := (List.length_reverse).trans h.index
  rw [← h.whole, List.getElem?_append_right (by omega), hlength, Nat.add_sub_cancel_left]

/-- The byte at a position is the first that stands there. -/
theorem getElem?_cons (h : Between text before (b :: rest) i) : text[i]? = some b :=
  h.getElem?_add 0

/-- The byte behind that at a position. -/
theorem getElem?_succ (h : Between text before (b :: rest) i) : text[i + 1]? = rest.head? := by
  rw [h.getElem?_add 1, List.getElem?_cons_succ, List.head?_eq_getElem?]

/-- Going back in front of a byte. -/
theorem back (h : Between text (b :: before) rest i) : Between text before (b :: rest) (i - 1) := by
  refine ⟨?_, ?_⟩
  · rw [← h.whole, List.reverse_cons, List.append_assoc, List.singleton_append]
  · rw [← h.index, List.length_cons, Nat.add_sub_cancel]

/-- The bytes up to a position are those in front of it. -/
theorem bytes?_zero (h : Between text before rest i) : bytes? text 0 i = some before.reverse := by
  have hlength : before.reverse.length = i := (List.length_reverse).trans h.index
  have hle : i ≤ text.length := by
    rw [h.length_eq]
    omega
  rw [bytes?, if_pos ⟨Nat.zero_le i, hle⟩, List.drop_zero, ← h.whole, ← hlength, List.take_left]

/-- The bytes from a position on are those behind it. -/
theorem bytes?_length (h : Between text before rest i) : bytes? text i text.length = some rest := by
  have hlength : before.reverse.length = i := (List.length_reverse).trans h.index
  have hle : i ≤ text.length := by
    rw [h.length_eq]
    omega
  rw [bytes?, if_pos ⟨hle, Nat.le_refl _⟩, List.take_length, ← h.whole, ← hlength, List.drop_left]

/-- The bytes of a unit are those from its start to its end. -/
theorem bytes?_append (h : Between text before (unit ++ behind) i) :
    bytes? text i (i + unit.length) = some unit := by
  have hlength : before.reverse.length = i := (List.length_reverse).trans h.index
  have hbehind := h.append
  have hle : i + unit.length ≤ text.length := by
    rw [hbehind.length_eq]
    omega
  rw [bytes?, if_pos ⟨Nat.le_add_right _ _, hle⟩, ← h.whole, ← hlength, ← List.append_assoc,
    ← List.length_append, List.take_left, List.drop_left]

/-- A character of its own begins at a boundary. -/
theorem isBoundary_of_ascii (h : Between text before (b :: rest) i) (hascii : b < 128) :
    isBoundary text i := by
  rw [← h.whole, ← h.index, ← List.length_reverse]
  exact Bytes.isBoundary_of_ascii hascii

/-- Well encoded text begins at a boundary. -/
theorem isBoundary_of_isUtf8 (h : Between text before rest i) (hrest : IsUtf8 rest) :
    isBoundary text i := by
  rw [← h.whole, ← h.index, ← List.length_reverse]
  exact hrest.isBoundary_length

/-- Well encoded text is cut into well encoded texts at a boundary. -/
theorem isUtf8_of_isBoundary (h : Between text before rest i) (htext : IsUtf8 text)
    (hcut : isBoundary text i) : IsUtf8 before.reverse ∧ IsUtf8 rest := by
  rw [← h.whole] at htext hcut
  rw [← h.index, ← List.length_reverse] at hcut
  exact htext.of_append hcut

/-- What stands behind an ASCII byte is a text. -/
theorem isUtf8_of_ascii (h : Between text before (b :: rest) i) (htext : IsUtf8 text)
    (hascii : b < 128) : IsUtf8 rest :=
  (h.isUtf8_of_isBoundary htext (h.isBoundary_of_ascii hascii)).2.of_ascii_cons hascii

/-- The text from an earlier index on can be cut out. -/
theorem slice?_eq (h : Between text before rest i) {start : Nat} (hstart : start ≤ i)
    (hcut : isBoundary text start) (hcut' : isBoundary text i) :
    slice? text start i = some (before.reverse.drop start) := by
  have hlength : before.reverse.length = i := (List.length_reverse).trans h.index
  have hle : i ≤ text.length := by
    rw [h.length_eq]
    omega
  rw [slice?, if_pos ⟨hcut, hcut'⟩, bytes?, if_pos ⟨hstart, hle⟩, ← h.whole, ← hlength,
    List.take_left]

/-- All that stands in front of a cut can be cut out. -/
theorem slice?_zero (h : Between text before rest i) (hcut : isBoundary text i) :
    slice? text 0 i = some before.reverse :=
  h.slice?_eq (Nat.zero_le i) (by simp [isBoundary]) hcut

/-- A unit can be cut out of a text. -/
theorem slice?_append (h : Between text before (unit ++ behind) i) (hcut : isBoundary text i)
    (hcut' : isBoundary text (i + unit.length)) :
    slice? text i (i + unit.length) = some unit := by
  rw [slice?, if_pos ⟨hcut, hcut'⟩, h.bytes?_append]

end Between

/-- What is cut out of a text is a text. -/
theorem isUtf8_of_slice? {text piece : Bytes} {start stop : Nat} (htext : IsUtf8 text)
    (hslice : slice? text start stop = some piece) : IsUtf8 piece := by
  unfold slice? at hslice
  split at hslice
  · next hcuts =>
    obtain ⟨hstart, hstop⟩ := hcuts
    obtain ⟨front, back, rfl, rfl, rfl⟩ := exists_of_bytes? hslice
    have hrest := (htext.of_append hstart).2
    rw [← List.length_append, ← List.append_assoc, isBoundary_length, List.append_eq_nil_iff]
      at hstop
    exact (hrest.of_append (isBoundary_length.mpr (hstop.imp_left And.right))).1
  · cases hslice

/-! ## Copying -/

/-- What has been copied of a text in front of an index: the result for what stands in front of
`copied`, and the text from there on. -/
def copiedText (out before : Bytes) (copied : Nat) : Bytes := out ++ before.reverse.drop copied

/-- A text is copied up to an index. It can be cut where its last stretch begins. -/
structure Copying (text out before rest : Bytes) (copied i : Nat) : Prop
    extends Between text before rest i where
  isUtf8_text : IsUtf8 text
  isUtf8_out : IsUtf8 out
  copied_le : copied ≤ i
  isBoundary_copied : isBoundary text copied

namespace Copying

variable {text out before rest unit behind replacement : Bytes} {b : UInt8} {copied i : Nat}

/-- What is left to copy can be cut. -/
theorem split (h : Copying text out before rest copied i) (hrest : unit ++ behind = rest) :
    Copying text out before (unit ++ behind) copied i :=
  hrest ▸ h

/-- Nothing is copied yet at the first position. -/
theorem start (htext : IsUtf8 text) : Copying text [] [] text 0 0 where
  toBetween := .zero text
  isUtf8_text := htext
  isUtf8_out := isUtf8_nil
  copied_le := Nat.le_refl 0
  isBoundary_copied := by simp [isBoundary]

/-- Passing a unit without copying it yet. -/
theorem append (h : Copying text out before (unit ++ behind) copied i) :
    Copying text out (unit.reverse ++ before) behind copied (i + unit.length) where
  toBetween := h.toBetween.append
  isUtf8_text := h.isUtf8_text
  isUtf8_out := h.isUtf8_out
  copied_le := Nat.le_trans h.copied_le (Nat.le_add_right _ _)
  isBoundary_copied := h.isBoundary_copied

/-- Passing a byte without copying it yet. -/
theorem cons (h : Copying text out before (b :: rest) copied i) :
    Copying text out (b :: before) rest copied (i + 1) := by
  have hunit : Copying text out before ([b] ++ rest) copied i := h
  exact hunit.append

/-- A unit that is passed is copied with the text in front of it. -/
theorem copiedText_append (h : Copying text out before (unit ++ behind) copied i) :
    copiedText out (unit.reverse ++ before) copied = copiedText out before copied ++ unit := by
  have hle : copied ≤ before.reverse.length := by
    rw [List.length_reverse, h.index]
    exact h.copied_le
  rw [copiedText, List.reverse_append, List.reverse_reverse, List.drop_append_of_le_length hle,
    ← List.append_assoc, copiedText]

/-- In front of an ASCII byte the stretch that is being copied can be cut out. -/
theorem slice?_eq (h : Copying text out before (b :: rest) copied i) (hascii : b < 128) :
    slice? text copied i = some (before.reverse.drop copied) :=
  h.toBetween.slice?_eq h.copied_le h.isBoundary_copied (h.isBoundary_of_ascii hascii)

/-- What is copied up to a boundary is well encoded. -/
theorem isUtf8_copiedText (h : Copying text out before rest copied i) (hcut : isBoundary text i) :
    IsUtf8 (copiedText out before copied) :=
  h.isUtf8_out.append (isUtf8_of_slice? h.isUtf8_text
    (h.toBetween.slice?_eq h.copied_le h.isBoundary_copied hcut))

/-- Another text is put in the place of a unit. -/
theorem replace (h : Copying text out before (unit ++ behind) copied i) (hcut : isBoundary text i)
    (hbehind : IsUtf8 behind) (hreplacement : IsUtf8 replacement) :
    Copying text (copiedText out before copied ++ replacement) (unit.reverse ++ before) behind
      (i + unit.length) (i + unit.length) where
  toBetween := h.toBetween.append
  isUtf8_text := h.isUtf8_text
  isUtf8_out := (h.isUtf8_copiedText hcut).append hreplacement
  copied_le := Nat.le_refl _
  isBoundary_copied := h.toBetween.append.isBoundary_of_isUtf8 hbehind

/-- Nothing has been copied since a cut. -/
theorem copiedText_self (h : Between text before rest i) : copiedText out before i = out := by
  have hlength : before.reverse.length = i := (List.length_reverse).trans h.index
  rw [copiedText, ← hlength, List.drop_length, List.append_nil]

/-- The end of the text is a boundary. -/
theorem isBoundary_end (h : Copying text out before [] copied i) : isBoundary text i :=
  h.isBoundary_of_isUtf8 isUtf8_nil

/-- The last stretch of a text can be cut out. -/
theorem slice?_end (h : Copying text out before [] copied i) :
    slice? text copied text.length = some (before.reverse.drop copied) := by
  have hlength : text.length = i := h.length_eq
  rw [hlength]
  exact h.toBetween.slice?_eq h.copied_le h.isBoundary_copied h.isBoundary_end

end Copying

/-- A result is the given text. -/
structure Makes (result : Option Bytes) (made : Bytes) : Prop where
  eq_some : result = some made
  isUtf8 : IsUtf8 made

namespace Copying

variable {text out before rest unit behind replacement tail : Bytes} {b : UInt8} {copied i : Nat}
  {result : Option Bytes}

/-- What stands at the front is left to be copied. -/
theorem verbatim (h : Copying text out before (unit ++ behind) copied i)
    (hmakes : Makes result (copiedText out (unit.reverse ++ before) copied ++ tail)) :
    Makes result (copiedText out before copied ++ (unit ++ tail)) := by
  rwa [h.copiedText_append, List.append_assoc] at hmakes

/-- A byte that is passed is copied. -/
theorem verbatim_cons (h : Copying text out before (b :: rest) copied i)
    (hmakes : Makes result (copiedText out (b :: before) copied ++ tail)) :
    Makes result (copiedText out before copied ++ b :: tail) := by
  have hunit : Copying text out before ([b] ++ rest) copied i := h
  exact hunit.verbatim hmakes

/-- Behind a replacement nothing is left to be copied. -/
theorem replaced (h : Copying text (out ++ replacement) before rest i i)
    (hmakes : Makes result (copiedText (out ++ replacement) before i ++ tail)) :
    Makes result (out ++ (replacement ++ tail)) := by
  rwa [copiedText_self h.toBetween, List.append_assoc] at hmakes

end Copying

end PlainSync.Cursor
