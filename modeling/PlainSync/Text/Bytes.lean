/-!
# Text as bytes

C sources are scanned byte by byte. Every byte that a scanner stops at is ASCII, so
cutting there never splits a character that is encoded in several bytes. This file names
those bytes, sorts bytes into the classes of a C lexer and converts from and to `String`.
-/

namespace PlainSync

/-- A text in its UTF-8 encoding. -/
abbrev Bytes := List UInt8

namespace Byte

abbrev tab : UInt8 := 9
abbrev newline : UInt8 := 10
abbrev formFeed : UInt8 := 12
abbrev carriageReturn : UInt8 := 13
abbrev space : UInt8 := 32
abbrev doubleQuote : UInt8 := 34
abbrev hash : UInt8 := 35
abbrev quote : UInt8 := 39
abbrev openParen : UInt8 := 40
abbrev closeParen : UInt8 := 41
abbrev star : UInt8 := 42
abbrev comma : UInt8 := 44
abbrev dot : UInt8 := 46
abbrev slash : UInt8 := 47
abbrev openBracket : UInt8 := 91
abbrev backslash : UInt8 := 92
abbrev closeBracket : UInt8 := 93
abbrev underscore : UInt8 := 95
abbrev openBrace : UInt8 := 123
abbrev closeBrace : UInt8 := 125

/-- A decimal digit. -/
def isDigit (b : UInt8) : Bool := 48 ≤ b && b ≤ 57

/-- A letter of the basic alphabet. -/
def isLetter (b : UInt8) : Bool := (65 ≤ b && b ≤ 90) || (97 ≤ b && b ≤ 122)

/-- A letter or a digit. -/
def isAlphanumeric (b : UInt8) : Bool := isLetter b || isDigit b

/-- A byte that may open an identifier. -/
def startsIdentifier (b : UInt8) : Bool := b = underscore || isLetter b

/-- A byte that may stand inside an identifier. -/
def continuesIdentifier (b : UInt8) : Bool := b = underscore || isAlphanumeric b

/-- The blanks that may precede a directive on its line. -/
def isBlank (b : UInt8) : Bool := b = space || b = tab

/-- The white space between tokens: blanks, line ends and the form feed, but not the
vertical tab. -/
def isWhiteSpace (b : UInt8) : Bool :=
  b = space || b = tab || b = newline || b = formFeed || b = carriageReturn

/-- A bracket that opens a group. -/
def opensGroup (b : UInt8) : Bool := b = openParen || b = openBracket || b = openBrace

/-- A bracket that closes a group. -/
def closesGroup (b : UInt8) : Bool := b = closeParen || b = closeBracket || b = closeBrace

/-- A line break of either kind. -/
def breaksLine (b : UInt8) : Bool := b = newline || b = carriageReturn

end Byte

namespace Bytes

/-- The encoding of a string. -/
def ofString (s : String) : Bytes := s.toList.flatMap String.utf8EncodeChar

/-- The string that `bytes` encode, if they are valid UTF-8. -/
def toString? (bytes : Bytes) : Option String := String.fromUTF8? ⟨bytes.toArray⟩

/-- The number of line ends in a text. -/
def newlines (text : Bytes) : Nat := text.count Byte.newline

/-- Newlines of two texts add up. -/
theorem newlines_append (a b : Bytes) : newlines (a ++ b) = newlines a + newlines b :=
  List.count_append

end Bytes

end PlainSync
