import PlainSync.Json
import PlainSync.Number.Shortest

/-!
# Writing JSON

A value as text, on one line or indented by two spaces. A floating-point number has the
fewest digits that read back, and always a point or an exponent.
-/

namespace PlainSync

namespace Double

/-- The exponents of ten for which a number is written without one. -/
def isPositional (exponent : Int) : Bool := -5 ≤ exponent && exponent < 16

/-- The digits of a decimal, without zeros at the end, and the exponent of the first of them. -/
def scientific (d : Decimal) : List Char × Int :=
  let digits := (toString d.digits).toList
  let trimmed := (digits.reverse.dropWhile (· = '0')).reverse
  (if trimmed.isEmpty then ['0'] else trimmed, d.exponent + (digits.length - 1 : Nat))

/-- Digits with the point where the exponent of the first digit puts it. -/
def positional (digits : List Char) (exponent : Int) : List Char :=
  if exponent < 0 then
    '0' :: '.' :: List.replicate (-exponent - 1).toNat '0' ++ digits
  else
    let whole := digits.take (exponent.toNat + 1)
    let fraction := digits.drop (exponent.toNat + 1)
    whole ++ List.replicate (exponent.toNat + 1 - whole.length) '0' ++
      '.' :: (if fraction.isEmpty then ['0'] else fraction)

/-- Digits with a point behind the first and a power of ten. -/
def exponential (digits : List Char) (exponent : Int) : List Char :=
  digits.take 1 ++ (if digits.length ≤ 1 then [] else '.' :: digits.drop 1) ++
    'e' :: (if exponent < 0 then '-' else '+') :: (toString exponent.natAbs).toList

/-- A number as text. -/
def text (x : Double) : List Char :=
  let (digits, exponent) := scientific x.shortest
  (if x.negative then ['-'] else []) ++
    (if isPositional exponent then positional digits exponent else exponential digits exponent)

end Double

namespace Json

/-- A hexadecimal digit in lower case. -/
def hexDigit (n : Nat) : Char := Nat.digitChar n

/-- A character inside a string. -/
def escapeChar (c : Char) : List Char :=
  match c with
  | '"' => ['\\', '"']
  | '\\' => ['\\', '\\']
  | '\x08' => ['\\', 'b']
  | '\x0c' => ['\\', 'f']
  | '\n' => ['\\', 'n']
  | '\r' => ['\\', 'r']
  | '\t' => ['\\', 't']
  | c =>
    if c.toNat < 0x20 then
      ['\\', 'u', '0', '0', hexDigit (c.toNat / 16), hexDigit (c.toNat % 16)]
    else [c]

/-- A string between double quotes. -/
def stringText (s : String) : List Char := '"' :: s.toList.flatMap escapeChar ++ ['"']

mutual

/-- A value on one line, without blanks between its parts. -/
def chars : Json → List Char
  | null => "null".toList
  | bool value => (if value then "true" else "false").toList
  | integer value => (toString value).toList
  | real value => value.text
  | string value => stringText value
  | array items => '[' :: itemChars items ++ [']']
  | object members => '\x7b' :: memberChars members ++ ['\x7d']

/-- The items of an array, with commas between them. -/
def itemChars : List Json → List Char
  | [] => []
  | [item] => item.chars
  | item :: more => item.chars ++ ',' :: itemChars more

/-- The members of an object, with commas between them. -/
def memberChars : List (String × Json) → List Char
  | [] => []
  | [(name, value)] => stringText name ++ ':' :: value.chars
  | (name, value) :: more => stringText name ++ ':' :: value.chars ++ ',' :: memberChars more

end

/-- The beginning of an indented line. -/
def lineStart (depth : Nat) : List Char := '\n' :: List.replicate (2 * depth) ' '

mutual

/-- A value with each item and member on a line of its own, `depth` levels deep. -/
def prettyChars (depth : Nat) : Json → List Char
  | null => "null".toList
  | bool value => (if value then "true" else "false").toList
  | integer value => (toString value).toList
  | real value => value.text
  | string value => stringText value
  | array [] => ['[', ']']
  | array (item :: more) =>
    '[' :: prettyItems (depth + 1) (item :: more) ++ lineStart depth ++ [']']
  | object [] => ['\x7b', '\x7d']
  | object (member :: more) =>
    '\x7b' :: prettyMembers (depth + 1) (member :: more) ++ lineStart depth ++ ['\x7d']

/-- The items of an array, each on a line of its own. -/
def prettyItems (depth : Nat) : List Json → List Char
  | [] => []
  | [item] => lineStart depth ++ item.prettyChars depth
  | item :: more => lineStart depth ++ item.prettyChars depth ++ ',' :: prettyItems depth more

/-- The members of an object, each on a line of its own. -/
def prettyMembers (depth : Nat) : List (String × Json) → List Char
  | [] => []
  | [(name, value)] =>
    lineStart depth ++ stringText name ++ ':' :: ' ' :: value.prettyChars depth
  | (name, value) :: more =>
    lineStart depth ++ stringText name ++ ':' :: ' ' :: value.prettyChars depth ++
      ',' :: prettyMembers depth more

end

/-- A value on one line. -/
def compact (value : Json) : String := String.ofList value.chars

/-- A value with each item and member on a line of its own. -/
def pretty (value : Json) : String := String.ofList (value.prettyChars 0)

end Json

end PlainSync
