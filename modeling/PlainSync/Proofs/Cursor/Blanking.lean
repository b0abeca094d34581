import PlainSync.Proofs.Cursor.Scanners
import PlainSync.Source.Blanking

/-!
# Blanking with a cursor

The two ways to take text out of an operand, as loops that copy what stands between the cuts. They
cut beside ASCII bytes only, also where a backslash or a literal leads the index into the middle of
a character.
-/

namespace PlainSync.Cursor

open Bytes Source

/-- A digit at an index opens a number. -/
def opensNumberAt (text : Bytes) (i : Nat) (b : UInt8) : Option Bool := do
  if Byte.isDigit b then
    if i = 0 then return true else return !Byte.continuesIdentifier (← text[i - 1]?)
  else return false

/-- The text on one line, `out` being the result for what stands in front of `copied`. -/
def flatten (text out : Bytes) (copied i : Nat) : Option Bytes := do
  if i < text.length then
    let b ← text[i]?
    if b = Byte.slash ∧ (text[i + 1]? = some Byte.star ∨ text[i + 1]? = some Byte.slash) then
      let piece ← slice? text copied i
      let ⟨next, _⟩ ← ahead? i ((← skipTrivia text i).getD text.length)
      flatten text (out ++ piece ++ [Byte.space]) next next
    else if ← opensNumberAt text i b then
      let ⟨next, _⟩ ← ahead? i (← numberEnd text i i)
      flatten text out copied next
    else if b = Byte.doubleQuote ∨ b = Byte.quote then
      let ⟨next, _⟩ ← ahead? i (← skipLiteral text i)
      flatten text out copied next
    else if b = Byte.backslash ∧ text[i + 1]?.any Byte.breaksLine then
      let piece ← slice? text copied i
      flatten text (out ++ piece ++ [Byte.space]) (i + 1) (i + 1)
    else if Byte.breaksLine b then
      let piece ← slice? text copied i
      flatten text (out ++ piece ++ [Byte.space]) (i + 1) (i + 1)
    else flatten text out copied (i + 1)
  else
    let piece ← slice? text (min copied text.length) text.length
    return out ++ piece
termination_by text.length - i

/-- The text without line comments, likewise. -/
def dropLineComments (text out : Bytes) (copied i : Nat) : Option Bytes := do
  if i < text.length then
    let b ← text[i]?
    if b = Byte.slash ∧ text[i + 1]? = some Byte.slash then
      let piece ← slice? text copied i
      let ⟨next, _⟩ ← ahead? i ((← skipTrivia text i).getD text.length)
      dropLineComments text (out ++ piece ++ [Byte.space]) next next
    else if ← opensNumberAt text i b then
      let ⟨next, _⟩ ← ahead? i (← numberEnd text i i)
      dropLineComments text out copied next
    else if b = Byte.slash ∨ b = Byte.doubleQuote ∨ b = Byte.quote then
      let ⟨next, _⟩ ← ahead? i ((← skipTrivia text i).getD (i + 1))
      dropLineComments text out copied next
    else dropLineComments text out copied (i + 1)
  else
    let piece ← slice? text copied text.length
    return out ++ piece
termination_by text.length - i

variable {text before rest unit behind out : Bytes} {b : UInt8} {i copied : Nat}

/-- A number opens at a digit that continues no word. -/
theorem opensNumberAt_eq (h : Between text before (b :: rest) i) :
    opensNumberAt text i b = some (decide (Byte.isDigit b ∧ opensNumber before)) := by
  rw [opensNumberAt]
  by_cases hdigit : Byte.isDigit b
  · rw [if_pos hdigit]
    cases before with
    | nil =>
      have hi : i = 0 := h.index.symm
      rw [if_pos hi]
      simp [hdigit, opensNumber]
    | cons previous before =>
      have hi : before.length + 1 = i := h.index
      rw [if_neg (by omega), h.back.getElem?_cons]
      simp [hdigit, opensNumber]
  · simp [hdigit]

/-! ## Comments -/

/-- A block comment ends with the text or with a slash. -/
theorem splitBlockCommentBody_ends (text : Bytes) :
    (splitBlockCommentBody text).2 = [] ∨
      ∃ front, (splitBlockCommentBody text).1 = front ++ [Byte.slash] := by
  fun_induction splitBlockCommentBody text with
  | case1 => exact Or.inl rfl
  | case2 => exact Or.inl rfl
  | case3 b c rest hcloses => exact Or.inr ⟨[b], by rw [hcloses.2]; rfl⟩
  | case4 b c rest hopen body behind hsplit ih =>
    rw [hsplit] at ih
    rcases ih with hbehind | ⟨front, hbody⟩
    · exact Or.inl hbehind
    · exact Or.inr ⟨b :: front, congrArg (b :: ·) hbody⟩

/-- The text behind a block comment is well encoded. -/
theorem isUtf8_splitBlockCommentBody (htext : IsUtf8 text) :
    IsUtf8 (splitBlockCommentBody text).2 := by
  rcases splitBlockCommentBody_ends text with hbehind | ⟨front, hbody⟩
  · rw [hbehind]
    exact isUtf8_nil
  · rw [← splitBlockCommentBody_append text, hbody, List.append_assoc] at htext
    exact (htext.of_ascii (by decide)).2

/-- The text behind a line is well encoded. -/
theorem isUtf8_splitLine (htext : IsUtf8 text) : IsUtf8 (splitLine text).2 := by
  have hwhole := splitLine_append text
  cases hbehind : (splitLine text).2 with
  | nil => exact isUtf8_nil
  | cons b rest =>
    have hnewline := List.head?_dropWhile_not (· ≠ Byte.newline) text
    rw [show text.dropWhile _ = b :: rest from hbehind, List.head?_cons] at hnewline
    have hb : b = Byte.newline := by simpa using hnewline
    rw [hbehind] at hwhole
    rw [← hwhole] at htext
    exact (htext.of_append (isBoundary_of_ascii (by rw [hb]; decide))).2

/-- A comment ends in front of a text. -/
theorem isUtf8_of_comment (hrest : IsUtf8 (Byte.slash :: rest))
    (htrivia : splitTrivia? (Byte.slash :: rest) = some (unit, behind)) : IsUtf8 behind := by
  have hopened := hrest.of_ascii_cons (by decide)
  cases rest with
  | nil => cases htrivia
  | cons c rest =>
    simp only [splitTrivia?, if_true] at htrivia
    split at htrivia
    · next hstar =>
      cases htrivia
      exact isUtf8_splitBlockCommentBody (hopened.of_ascii_cons (by rw [hstar]; decide))
    · split at htrivia
      · next hslash =>
        cases htrivia
        exact isUtf8_splitLine (hopened.of_ascii_cons (by rw [hslash]; decide))
      · cases htrivia

/-- A space is put in the place of a comment. -/
theorem Copying.comment (h : Copying text out before (Byte.slash :: rest) copied i)
    (htrivia : splitTrivia? (Byte.slash :: rest) = some (unit, behind)) :
    Copying text (copiedText out before copied ++ [Byte.space]) (unit.reverse ++ before) behind
      (i + unit.length) (i + unit.length) := by
  have hcut := h.isBoundary_of_ascii (by decide)
  have hrest := (h.isUtf8_of_isBoundary h.isUtf8_text hcut).2
  exact (h.split (append_of_splitTrivia? htrivia)).replace hcut (isUtf8_of_comment hrest htrivia)
    (isUtf8_char ' ')

/-- A space is put in the place of an ASCII byte. -/
theorem Copying.blank (h : Copying text out before (b :: rest) copied i) (hascii : b < 128) :
    Copying text (copiedText out before copied ++ [Byte.space]) (b :: before) rest (i + 1)
      (i + 1) := by
  have hunit : Copying text out before ([b] ++ rest) copied i := h
  exact hunit.replace (h.isBoundary_of_ascii hascii) (h.isUtf8_of_ascii h.isUtf8_text hascii)
    (isUtf8_char ' ')

/-- A slash opens a comment if a star or another slash stands behind it. -/
theorem splitTrivia?_slash_eq_none :
    splitTrivia? (Byte.slash :: rest) = none ↔
      ¬ (rest.head? = some Byte.star ∨ rest.head? = some Byte.slash) := by
  cases rest with
  | nil => exact iff_of_true rfl nofun
  | cons c rest =>
    simp only [splitTrivia?, if_true, List.head?_cons, Option.some.injEq]
    split
    · next hstar => simp [hstar]
    · next hstar =>
      split
      · next hslash => simp [hslash]
      · next hslash => simp [hstar, hslash]

/-! ## One line -/

/-- At the end of the text the rest is copied. -/
theorem flatten_nil (h : Copying text out before [] copied i) :
    flatten text out copied i = some (copiedText out before copied) := by
  have hle : copied ≤ text.length := by
    rw [h.length_eq]
    exact h.copied_le
  rw [flatten, if_neg h.not_lt, Nat.min_eq_left hle, h.slice?_end]
  rfl

/-- What the next byte means to the flattened text. -/
theorem flatten_cons (h : Between text before (b :: rest) i) :
    flatten text out copied i =
      if b = Byte.slash ∧ (rest.head? = some Byte.star ∨ rest.head? = some Byte.slash) then do
        let piece ← slice? text copied i
        let ⟨next, _⟩ ← ahead? i ((← skipTrivia text i).getD text.length)
        flatten text (out ++ piece ++ [Byte.space]) next next
      else if Byte.isDigit b ∧ opensNumber before then do
        let ⟨next, _⟩ ← ahead? i (← numberEnd text i i)
        flatten text out copied next
      else if b = Byte.doubleQuote ∨ b = Byte.quote then do
        let ⟨next, _⟩ ← ahead? i (← skipLiteral text i)
        flatten text out copied next
      else if b = Byte.backslash ∧ rest.head?.any Byte.breaksLine then do
        let piece ← slice? text copied i
        flatten text (out ++ piece ++ [Byte.space]) (i + 1) (i + 1)
      else if Byte.breaksLine b then do
        let piece ← slice? text copied i
        flatten text (out ++ piece ++ [Byte.space]) (i + 1) (i + 1)
      else flatten text out copied (i + 1) := by
  rw [flatten, if_pos h.lt, h.getElem?_cons, h.getElem?_succ]
  simp only [Option.bind_eq_bind, Option.bind_some, opensNumberAt_eq h, decide_eq_true_eq]

/-- Copying beside ASCII bytes puts a text on one line. -/
theorem flatten_eq (h : Copying text out before rest copied i) :
    Makes (flatten text out copied i) (copiedText out before copied ++ onOneLine before rest) := by
  fun_induction onOneLine before rest generalizing out copied i with
  | case1 before =>
    rw [List.append_nil]
    exact ⟨flatten_nil h, h.isUtf8_copiedText h.isBoundary_end⟩
  | case2 before rest unit behind htrivia ih =>
    have hopens : rest.head? = some Byte.star ∨ rest.head? = some Byte.slash := by
      by_cases hopens : rest.head? = some Byte.star ∨ rest.head? = some Byte.slash
      · exact hopens
      · rw [splitTrivia?_slash_eq_none.mpr hopens] at htrivia
        cases htrivia
    have hcomment := h.comment htrivia
    rw [flatten_cons h.toBetween, if_pos ⟨rfl, hopens⟩, h.slice?_eq (by decide),
      skipTrivia_some h.toBetween htrivia]
    simp only [Option.bind_eq_bind, Option.bind_some, Option.getD_some,
      ahead?_add i (length_pos_of_splitTrivia? htrivia)]
    exact hcomment.replaced (ih hcomment)
  | case3 before rest htrivia ih =>
    have hplain := splitTrivia?_slash_eq_none.mp htrivia
    have hnumber : ¬ (Byte.isDigit Byte.slash ∧ opensNumber before) := nofun
    rw [flatten_cons h.toBetween, if_neg fun hopens => hplain hopens.2, if_neg hnumber,
      if_neg (by decide), if_neg nofun, if_neg (by decide)]
    exact h.verbatim_cons (ih h.cons)
  | case4 before b rest hslash hnumber body =>
    rename_i ih
    rw [flatten_cons h.toBetween, if_neg fun hopens => hslash hopens.1, if_pos hnumber,
      numberEnd_of_isDigit h.toBetween hnumber.1]
    simp only [Option.bind_eq_bind, Option.bind_some, ahead?_succ_add]
    have hbody := h.cons.split (splitNumberBody_append b rest)
    exact h.verbatim_cons (hbody.verbatim (ih hbody.append))
  | case5 before b rest hslash hnumber hquote body =>
    rename_i ih
    rw [flatten_cons h.toBetween, if_neg fun hopens => hslash hopens.1, if_neg hnumber,
      if_pos hquote, skipLiteral_eq h.toBetween]
    simp only [Option.bind_eq_bind, Option.bind_some, ahead?_succ_add]
    have hbody := h.cons.split (splitLiteralBody_append b rest)
    exact h.verbatim_cons (hbody.verbatim (ih hbody.append))
  | case6 before b rest hslash hnumber hquote hjoined ih =>
    rw [flatten_cons h.toBetween, if_neg fun hopens => hslash hopens.1, if_neg hnumber,
      if_neg hquote, if_pos hjoined, h.slice?_eq (by rw [hjoined.1]; decide)]
    have hblank := h.blank (by rw [hjoined.1]; decide)
    exact hblank.replaced (ih hblank)
  | case7 before b rest hslash hnumber hquote hjoined hbreaks ih =>
    have hascii : b < 128 := by
      rcases (Bool.or_eq_true _ _).mp hbreaks with hnewline | hreturn
      · rw [of_decide_eq_true hnewline]
        decide
      · rw [of_decide_eq_true hreturn]
        decide
    rw [flatten_cons h.toBetween, if_neg fun hopens => hslash hopens.1, if_neg hnumber,
      if_neg hquote, if_neg hjoined, if_pos hbreaks, h.slice?_eq hascii]
    have hblank := h.blank hascii
    exact hblank.replaced (ih hblank)
  | case8 before b rest hslash hnumber hquote hjoined hbreaks ih =>
    rw [flatten_cons h.toBetween, if_neg fun hopens => hslash hopens.1, if_neg hnumber,
      if_neg hquote, if_neg hjoined, if_neg hbreaks]
    exact h.verbatim_cons (ih h.cons)

/-! ## Line comments -/

/-- A line comment goes up to the end of its line. -/
theorem splitTrivia?_lineComment (hslash : rest.head? = some Byte.slash) :
    splitTrivia? (Byte.slash :: rest) =
      some (Byte.slash :: (splitLine rest).1, (splitLine rest).2) := by
  cases rest with
  | nil => cases hslash
  | cons c rest =>
    cases hslash
    rfl

/-- Only slashes and quotation marks open comments and literals. -/
theorem splitTrivia?_of_not_opens
    (hopens : ¬ (b = Byte.slash ∨ b = Byte.doubleQuote ∨ b = Byte.quote)) :
    splitTrivia? (b :: rest) = none := by
  obtain ⟨hslash, hquote⟩ := not_or.mp hopens
  simp only [splitTrivia?, if_neg hslash, if_neg hquote]

/-- What the next byte means to a text without line comments. -/
theorem dropLineComments_cons (h : Between text before (b :: rest) i) :
    dropLineComments text out copied i =
      if b = Byte.slash ∧ rest.head? = some Byte.slash then do
        let piece ← slice? text copied i
        let ⟨next, _⟩ ← ahead? i ((← skipTrivia text i).getD text.length)
        dropLineComments text (out ++ piece ++ [Byte.space]) next next
      else if Byte.isDigit b ∧ opensNumber before then do
        let ⟨next, _⟩ ← ahead? i (← numberEnd text i i)
        dropLineComments text out copied next
      else if b = Byte.slash ∨ b = Byte.doubleQuote ∨ b = Byte.quote then do
        let ⟨next, _⟩ ← ahead? i ((← skipTrivia text i).getD (i + 1))
        dropLineComments text out copied next
      else dropLineComments text out copied (i + 1) := by
  rw [dropLineComments, if_pos h.lt, h.getElem?_cons, h.getElem?_succ]
  simp only [Option.bind_eq_bind, Option.bind_some, opensNumberAt_eq h, decide_eq_true_eq]

/-- Copying beside ASCII bytes drops the line comments of a text. -/
theorem dropLineComments_eq (h : Copying text out before rest copied i) :
    Makes (dropLineComments text out copied i)
      (copiedText out before copied ++ withoutLineComments before rest) := by
  fun_induction withoutLineComments before rest generalizing out copied i with
  | case1 before =>
    rw [List.append_nil, dropLineComments, if_neg h.not_lt, h.slice?_end]
    exact ⟨rfl, h.isUtf8_copiedText h.isBoundary_end⟩
  | case2 before b rest hcomment =>
    rename_i ih
    obtain ⟨rfl, hslash⟩ := hcomment
    have htrivia := splitTrivia?_lineComment hslash
    have hcopying := h.comment htrivia
    rw [dropLineComments_cons h.toBetween, if_pos ⟨rfl, hslash⟩, h.slice?_eq (by decide),
      skipTrivia_some h.toBetween htrivia]
    simp only [Option.bind_eq_bind, Option.bind_some, Option.getD_some,
      ahead?_add i (length_pos_of_splitTrivia? htrivia)]
    rw [List.reverse_cons, List.append_assoc, List.singleton_append] at hcopying
    exact hcopying.replaced (ih hcopying)
  | case3 before b rest hcomment hnumber body =>
    rename_i ih
    rw [dropLineComments_cons h.toBetween, if_neg hcomment, if_pos hnumber,
      numberEnd_of_isDigit h.toBetween hnumber.1]
    simp only [Option.bind_eq_bind, Option.bind_some, ahead?_succ_add]
    have hbody := h.cons.split (splitNumberBody_append b rest)
    exact h.verbatim_cons (hbody.verbatim (ih hbody.append))
  | case4 before b rest hcomment hnumber unit behind htrivia =>
    rename_i ih
    have hopens : b = Byte.slash ∨ b = Byte.doubleQuote ∨ b = Byte.quote := by
      by_cases hopens : b = Byte.slash ∨ b = Byte.doubleQuote ∨ b = Byte.quote
      · exact hopens
      · rw [splitTrivia?_of_not_opens hopens] at htrivia
        cases htrivia
    rw [dropLineComments_cons h.toBetween, if_neg hcomment, if_neg hnumber, if_pos hopens,
      skipTrivia_some h.toBetween htrivia]
    simp only [Option.bind_eq_bind, Option.bind_some, Option.getD_some,
      ahead?_add i (length_pos_of_splitTrivia? htrivia)]
    have hunit := h.split (append_of_splitTrivia? htrivia)
    exact hunit.verbatim (ih hunit.append)
  | case5 before b rest hcomment hnumber htrivia =>
    rename_i ih
    rw [dropLineComments_cons h.toBetween, if_neg hcomment, if_neg hnumber,
      skipTrivia_none h.toBetween htrivia]
    simp only [Option.bind_eq_bind, Option.bind_some, Option.getD_none, ahead?_add i Nat.one_pos,
      ite_self]
    exact h.verbatim_cons (ih h.cons)

end PlainSync.Cursor
