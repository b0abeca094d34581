import PlainSync.Text.Bytes

/-!
# Blank characters

The characters with the Unicode property White_Space, and the removal of such characters
from both ends of a text. A string is trimmed character by character. Source bytes are
trimmed by the encodings of the same characters, so both agree on valid UTF-8.
-/

namespace PlainSync

/-- The code points with the property White_Space, in ascending order. -/
def blankCodePoints : List Nat :=
  [0x09, 0x0A, 0x0B, 0x0C, 0x0D, 0x20, 0x85, 0xA0, 0x1680, 0x2000, 0x2001, 0x2002, 0x2003,
   0x2004, 0x2005, 0x2006, 0x2007, 0x2008, 0x2009, 0x200A, 0x2028, 0x2029, 0x202F, 0x205F,
   0x3000]

/-- A character with the property White_Space. -/
def isBlankChar (c : Char) : Bool := blankCodePoints.contains c.toNat

/-- The encodings of the blank characters. -/
def blankEncodings : List Bytes :=
  blankCodePoints.map fun point => String.utf8EncodeChar (Char.ofNat point)

/-- Remove every one of `patterns` that the text begins with, again and again. An empty
pattern is never removed. -/
def dropLeading (patterns : List Bytes) (text : Bytes) : Bytes :=
  match _found : patterns.find? fun pattern => !pattern.isEmpty && pattern.isPrefixOf text with
  | some pattern => dropLeading patterns (text.drop pattern.length)
  | none => text
termination_by text.length
decreasing_by
  have matched := List.find?_some _found
  rw [Bool.and_eq_true, List.isPrefixOf_iff_prefix] at matched
  have fits := matched.2.length_le
  have nonempty : pattern.length ≠ 0 := by
    have notEmpty := matched.1
    cases pattern <;> simp_all
  rw [List.length_drop]
  omega

namespace Bytes

/-- The text without the blank characters at its front. -/
def trimStart (text : Bytes) : Bytes := dropLeading blankEncodings text

/-- The text without the blank characters at its end. -/
def trimEnd (text : Bytes) : Bytes :=
  (dropLeading (blankEncodings.map List.reverse) text.reverse).reverse

/-- The text without the blank characters at both ends. -/
def trim (text : Bytes) : Bytes := trimEnd (trimStart text)

end Bytes

/-- The characters of a text without the blank ones at both ends. -/
def trimBlanks (text : List Char) : List Char :=
  ((text.dropWhile isBlankChar).reverse.dropWhile isBlankChar).reverse

/-- A string without the blank characters at both ends. -/
def trimString (s : String) : String := String.ofList (trimBlanks s.toList)

end PlainSync
