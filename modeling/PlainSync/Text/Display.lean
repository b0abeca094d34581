import PlainSync.Text.Bytes

/-!
# Showing bytes

Bytes that need not be UTF-8, such as the path of a file, are shown as text. Where they encode no
character a replacement character stands, one for as many bytes as an encoding may begin with.
-/

namespace PlainSync

namespace Byte

/-- A byte that stands in an encoding behind the first one. -/
def continuesEncoding (b : UInt8) : Bool := 128 ≤ b && b ≤ 191

/-- A byte that stands behind the first one of an encoding of three or four bytes. What would encode
a surrogate, more than is needed or too great a number is no encoding. -/
def followsLead (lead b : UInt8) : Bool :=
  if lead = 224 then 160 ≤ b && b ≤ 191
  else if lead = 237 then 128 ≤ b && b ≤ 159
  else if lead = 240 then 144 ≤ b && b ≤ 191
  else if lead = 244 then 128 ≤ b && b ≤ 143
  else 225 ≤ lead && lead ≤ 243 && continuesEncoding b

end Byte

namespace Bytes

/-- The character that a text begins with, if its first bytes encode one. -/
def firstChar? (text : Bytes) : Option Char :=
  (ByteArray.mk (text.take 4).toArray).utf8DecodeChar? 0

/-- How many bytes of a text that begins with no character one replacement character stands for. -/
def brokenLength : Bytes → Nat
  | lead :: second :: rest =>
    if Byte.followsLead lead second then
      if 240 ≤ lead && (rest.head?.any Byte.continuesEncoding) then 3 else 2
    else 1
  | _ => 1

/-- The characters that a text shows behind its first `skipped` bytes, which were shown before. -/
def shownBehind (skipped : Nat) : Bytes → List Char
  | [] => []
  | b :: rest =>
    match skipped with
    | skipped + 1 => shownBehind skipped rest
    | 0 =>
      match firstChar? (b :: rest) with
      | some c => c :: shownBehind (c.utf8Size - 1) rest
      | none => '\uFFFD' :: shownBehind (brokenLength (b :: rest) - 1) rest

/-- The text that bytes show. -/
def display (text : Bytes) : String := String.ofList (shownBehind 0 text)

end Bytes

end PlainSync
