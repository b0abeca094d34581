import PlainSync.Text.Blank

/-!
# Characters in a text

A text in UTF-8 can be cut in front of the first byte of a character and nowhere else. An ASCII byte
is a character of its own, so it can be cut off on both sides.
-/

namespace PlainSync.Bytes

/-- A text is the encoding of characters. -/
def IsUtf8 (text : Bytes) : Prop := ∃ chars : List Char, chars.flatMap String.utf8EncodeChar = text

/-- A text can be cut at its ends and in front of the first byte of a character. -/
def isBoundary (text : Bytes) (i : Nat) : Bool :=
  i = 0 ∨ i = text.length ∨ text[i]?.any fun b => b.IsUTF8FirstByte

/-! ## Encodings -/

/-- The bytes of a string are well encoded. -/
theorem isUtf8_ofString (s : String) : IsUtf8 (ofString s) := ⟨s.toList, rfl⟩

/-- Well encoded text is that of a string. -/
theorem IsUtf8.exists_ofString {text : Bytes} (h : IsUtf8 text) : ∃ s, text = ofString s := by
  obtain ⟨chars, rfl⟩ := h
  exact ⟨String.ofList chars, by rw [ofString, String.toList_ofList]⟩

/-- The empty text is well encoded. -/
theorem isUtf8_nil : IsUtf8 [] := ⟨[], rfl⟩

/-- A character is well encoded. -/
theorem isUtf8_char (c : Char) : IsUtf8 (String.utf8EncodeChar c) :=
  ⟨[c], List.append_nil _⟩

/-- Well encoded texts are so together. -/
theorem IsUtf8.append {front back : Bytes} (hfront : IsUtf8 front) (hback : IsUtf8 back) :
    IsUtf8 (front ++ back) := by
  obtain ⟨chars, rfl⟩ := hfront
  obtain ⟨more, rfl⟩ := hback
  exact ⟨chars ++ more, List.flatMap_append⟩

/-- Pieces that are well encoded are so together. -/
theorem isUtf8_flatMap {α : Type} {list : List α} {f : α → Bytes} (h : ∀ a ∈ list, IsUtf8 (f a)) :
    IsUtf8 (list.flatMap f) := by
  induction list with
  | nil => exact isUtf8_nil
  | cons a more ih =>
    obtain ⟨hfirst, hmore⟩ := List.forall_mem_cons.mp h
    exact hfirst.append (ih hmore)

/-- An ASCII character is one byte. -/
theorem length_ofString_of_ascii {s : String} (hascii : ∀ c ∈ s.toList, c.toNat < 128) :
    (ofString s).length = s.toList.length := by
  unfold ofString
  generalize s.toList = chars at hascii ⊢
  induction chars with
  | nil => rfl
  | cons c rest ih =>
    obtain ⟨hc, hrest⟩ := List.forall_mem_cons.mp hascii
    have hsize : c.utf8Size = 1 :=
      Char.utf8Size_eq_one_iff.mpr (UInt32.le_iff_toNat_le.mpr (Nat.le_of_lt_succ hc))
    rw [List.flatMap_cons, List.length_append, String.length_utf8EncodeChar, hsize, ih hrest,
      List.length_cons, Nat.add_comm]

/-! ## Bytes of a character -/

/-- Bits that are added make no number smaller. -/
theorem le_or_right (a b : UInt8) : b ≤ a ||| b := by
  rw [UInt8.le_iff_toNat_le, UInt8.toNat_or]
  exact Nat.right_le_or

/-- An ASCII byte is no part of a longer encoding. -/
theorem utf8EncodeChar_of_mem_ascii {c : Char} {b : UInt8} (hb : b ∈ String.utf8EncodeChar c)
    (hascii : b < 128) : String.utf8EncodeChar c = [b] := by
  have hlong (x y : UInt8) (hy : 128 ≤ y) : b ≠ x ||| y := by
    rintro rfl
    have hle := UInt8.le_trans hy (le_or_right x y)
    exact absurd hascii (UInt8.not_lt.mpr hle)
  match hsize : c.utf8Size, c.utf8Size_pos, c.utf8Size_le_four with
  | 1, _, _ =>
    have hlength := (String.length_utf8EncodeChar c).trans hsize
    obtain ⟨first, hfirst⟩ := List.length_eq_one_iff.mp hlength
    rw [hfirst, List.mem_singleton] at hb
    rw [hfirst, hb]
  | 2, _, _ =>
    rw [String.utf8EncodeChar_eq_cons_cons hsize] at hb
    simp [hlong _ 0xc0 (by decide), hlong _ 0x80 (by decide)] at hb
  | 3, _, _ =>
    rw [String.utf8EncodeChar_eq_cons_cons_cons hsize] at hb
    simp [hlong _ 0xe0 (by decide), hlong _ 0x80 (by decide)] at hb
  | 4, _, _ =>
    rw [String.utf8EncodeChar_eq_cons_cons_cons_cons hsize] at hb
    simp [hlong _ 0xf0 (by decide), hlong _ 0x80 (by decide)] at hb

/-- A character of its own begins a character. -/
theorem isUTF8FirstByte_of_ascii {b : UInt8} (hascii : b < 128) : b.IsUTF8FirstByte := by
  have htable : ∀ i : Fin 128, (UInt8.ofNat i).IsUTF8FirstByte := by decide
  have hb := htable ⟨b.toNat, UInt8.lt_iff_toNat_lt.mp hascii⟩
  rwa [UInt8.ofNat_toNat] at hb

/-- Characters are read off the front of a text in one way. -/
theorem utf8EncodeChar_append_inj {c d : Char} {rest more : Bytes}
    (h : String.utf8EncodeChar c ++ rest = String.utf8EncodeChar d ++ more) :
    c = d ∧ rest = more := by
  have hread (e : Char) (behind : Bytes) :
      ByteArray.utf8DecodeChar? (String.utf8EncodeChar e ++ behind).toByteArray 0 = some e := by
    rw [List.toByteArray_append]
    exact ByteArray.utf8DecodeChar?_utf8EncodeChar_append
  have hsame : some c = some d := by rw [← hread c rest, h, hread]
  cases hsame
  exact ⟨rfl, List.append_cancel_left h⟩

/-! ## Cutting -/

/-- A boundary is at either end, or where a character begins. -/
theorem isBoundary_length {front back : Bytes} :
    isBoundary (front ++ back) front.length ↔
      front = [] ∨ back = [] ∨ ∃ b ∈ back.head?, b.IsUTF8FirstByte := by
  unfold isBoundary
  rw [List.getElem?_append_right (Nat.le_refl _), Nat.sub_self, ← List.head?_eq_getElem?]
  simp [Option.any_eq_true]

/-- Both sides of a cut are texts. -/
theorem IsUtf8.of_append {front back : Bytes} (h : IsUtf8 (front ++ back))
    (hcut : isBoundary (front ++ back) front.length) : IsUtf8 front ∧ IsUtf8 back := by
  rw [isBoundary_length] at hcut
  obtain ⟨chars, hchars⟩ := h
  induction chars generalizing front with
  | nil =>
    obtain ⟨rfl, rfl⟩ := List.append_eq_nil_iff.mp hchars.symm
    exact ⟨isUtf8_nil, isUtf8_nil⟩
  | cons c more ih =>
    by_cases hfront : front = []
    · subst hfront
      exact ⟨isUtf8_nil, c :: more, hchars⟩
    replace hcut := hcut.resolve_left hfront
    rw [List.flatMap_cons] at hchars
    rcases List.append_eq_append_iff.mp hchars with ⟨front', rfl, hmore⟩ | ⟨tail, hchar, rfl⟩
    · obtain ⟨hfront', hback⟩ := ih (Or.inr hcut) hmore
      exact ⟨(isUtf8_char c).append hfront', hback⟩
    · cases tail with
      | nil =>
        rw [List.append_nil] at hchar
        exact ⟨hchar ▸ isUtf8_char c, more, rfl⟩
      | cons b tail =>
        -- The cut would be inside the first character.
        obtain ⟨first, hfirst, hstarts⟩ := hcut.resolve_left nofun
        cases hfirst
        have hinside : front.length < (String.utf8EncodeChar c).length := by
          rw [hchar, List.length_append, List.length_cons]
          omega
        have hbyte : (String.utf8EncodeChar c)[front.length] = b := by
          simp only [hchar, List.getElem_append_right (Nat.le_refl _), Nat.sub_self,
            List.getElem_cons_zero]
        rw [← hbyte, UInt8.isUTF8FirstByte_getElem_utf8EncodeChar] at hstarts
        exact absurd (List.eq_nil_of_length_eq_zero hstarts) hfront

/-- A text that is not empty begins with a character. -/
theorem IsUtf8.exists_char {b : UInt8} {rest : Bytes} (h : IsUtf8 (b :: rest)) :
    ∃ c tail behind, String.utf8EncodeChar c = b :: tail ∧ rest = tail ++ behind ∧
      IsUtf8 behind := by
  obtain ⟨chars, hchars⟩ := h
  cases chars with
  | nil => cases hchars
  | cons c more =>
    rw [List.flatMap_cons] at hchars
    cases hc : String.utf8EncodeChar c with
    | nil => exact absurd hc String.utf8EncodeChar_ne_nil
    | cons first tail =>
      rw [hc, List.cons_append, List.cons.injEq] at hchars
      obtain ⟨rfl, rfl⟩ := hchars
      exact ⟨c, tail, _, hc, rfl, more, rfl⟩

/-- Well encoded text begins with a character. -/
theorem IsUtf8.isUTF8FirstByte {b : UInt8} {rest : Bytes} (h : IsUtf8 (b :: rest)) :
    b.IsUTF8FirstByte := by
  obtain ⟨c, tail, behind, hc, -, -⟩ := h.exists_char
  have hfirst := UInt8.isUTF8FirstByte_getElem_zero_utf8EncodeChar (c := c)
  simpa only [hc, List.getElem_cons_zero] using hfirst

/-- What stands behind an ASCII byte at the front is a text. -/
theorem IsUtf8.of_ascii_cons {b : UInt8} {rest : Bytes} (h : IsUtf8 (b :: rest))
    (hascii : b < 128) : IsUtf8 rest := by
  obtain ⟨c, tail, behind, hc, rfl, hbehind⟩ := h.exists_char
  rw [utf8EncodeChar_of_mem_ascii (hc ▸ List.mem_cons_self) hascii, List.cons.injEq] at hc
  rwa [← hc.2]

/-- What stands behind ASCII bytes at the front is a text. -/
theorem IsUtf8.of_ascii_append {front back : Bytes} (h : IsUtf8 (front ++ back))
    (hascii : ∀ b ∈ front, b < 128) : IsUtf8 back := by
  induction front with
  | nil => exact h
  | cons b front ih =>
    obtain ⟨hb, hfront⟩ := List.forall_mem_cons.mp hascii
    exact ih (h.of_ascii_cons hb) hfront

/-- A boundary is in front of a character of its own. -/
theorem isBoundary_of_ascii {front rest : Bytes} {b : UInt8} (hascii : b < 128) :
    isBoundary (front ++ b :: rest) front.length :=
  isBoundary_length.mpr (Or.inr (Or.inr ⟨b, rfl, isUTF8FirstByte_of_ascii hascii⟩))

/-- A boundary is in front of well encoded text. -/
theorem IsUtf8.isBoundary_length {front back : Bytes} (hback : IsUtf8 back) :
    isBoundary (front ++ back) front.length := by
  refine Bytes.isBoundary_length.mpr ?_
  cases back with
  | nil => exact Or.inr (Or.inl rfl)
  | cons b rest => exact Or.inr (Or.inr ⟨b, rfl, hback.isUTF8FirstByte⟩)

/-- A text can be cut on both sides of an ASCII byte. -/
theorem IsUtf8.of_ascii {front rest : Bytes} {b : UInt8} (h : IsUtf8 (front ++ b :: rest))
    (hascii : b < 128) : IsUtf8 front ∧ IsUtf8 rest := by
  obtain ⟨hfront, hback⟩ := h.of_append (isBoundary_of_ascii hascii)
  exact ⟨hfront, hback.of_ascii_cons hascii⟩

/-! ## Trimming -/

/-- The blanks that are trimmed are characters. -/
theorem exists_char_of_mem_blankEncodings {pattern : Bytes} (hpattern : pattern ∈ blankEncodings) :
    ∃ c, pattern = String.utf8EncodeChar c := by
  obtain ⟨point, -, rfl⟩ := List.mem_map.mp hpattern
  exact ⟨Char.ofNat point, rfl⟩

/-- Text stays well encoded without the blanks in front of it. -/
theorem IsUtf8.trimStart {text : Bytes} (h : IsUtf8 text) : IsUtf8 text.trimStart := by
  unfold Bytes.trimStart
  fun_induction dropLeading blankEncodings text with
  | case1 text pattern hfound ih =>
    apply ih
    have hmatch := List.find?_some hfound
    rw [Bool.and_eq_true, List.isPrefixOf_iff_prefix] at hmatch
    obtain ⟨behind, rfl⟩ := hmatch.2
    rw [List.drop_left]
    obtain ⟨c, rfl⟩ := exists_char_of_mem_blankEncodings (List.mem_of_find?_eq_some hfound)
    obtain ⟨chars, hchars⟩ := h
    cases chars with
    | nil =>
      exact absurd (List.append_eq_nil_iff.mp hchars.symm).1 String.utf8EncodeChar_ne_nil
    | cons d more => exact ⟨more, (utf8EncodeChar_append_inj hchars).2⟩
  | case2 text hnone => exact h

/-- A text of which the end was dropped is a text. The bytes are given last one first. -/
theorem isUtf8_reverse_dropLeading {reversed : Bytes} (h : IsUtf8 reversed.reverse) :
    IsUtf8 (dropLeading (blankEncodings.map List.reverse) reversed).reverse := by
  fun_induction dropLeading (blankEncodings.map List.reverse) reversed with
  | case1 reversed pattern hfound ih =>
    apply ih
    have hmatch := List.find?_some hfound
    rw [Bool.and_eq_true, List.isPrefixOf_iff_prefix] at hmatch
    obtain ⟨behind, rfl⟩ := hmatch.2
    rw [List.drop_left]
    obtain ⟨encoding, hencoding, rfl⟩ := List.mem_map.mp (List.mem_of_find?_eq_some hfound)
    obtain ⟨c, rfl⟩ := exists_char_of_mem_blankEncodings hencoding
    rw [List.reverse_append, List.reverse_reverse] at h
    exact (h.of_append (isUtf8_char c).isBoundary_length).1
  | case2 reversed hnone => exact h

/-- A trimmed text is a text. -/
theorem IsUtf8.trim {text : Bytes} (h : IsUtf8 text) : IsUtf8 text.trim := by
  apply isUtf8_reverse_dropLeading
  rw [List.reverse_reverse]
  exact h.trimStart

end PlainSync.Bytes
