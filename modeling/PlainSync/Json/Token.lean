import PlainSync.Json

/-!
# The tokens of JSON

A text is cut into punctuation, words, numbers and strings. What is no token ends the list
with the token `bad`, so that a reader meets it only after all that stands in front of it.
-/

namespace PlainSync.Json

/-- A token. -/
inductive Token where
  | openBrace | closeBrace | openBracket | closeBracket | colon | comma
  | null
  | bool (value : Bool)
  | integer (value : Int)
  | real (value : Double)
  | string (value : String)
  /-- The rest of the text begins with no token. -/
  | bad
  deriving DecidableEq, Repr

/-- A blank between tokens. -/
def isBlank (c : Char) : Bool := c = ' ' || c = '\n' || c = '\t' || c = '\r'

/-! ## Strings -/

/-- The value of a hexadecimal digit. -/
def hexValue? (c : Char) : Option Nat :=
  if '0' ≤ c ∧ c ≤ '9' then some (c.toNat - '0'.toNat)
  else if 'a' ≤ c ∧ c ≤ 'f' then some (c.toNat - 'a'.toNat + 10)
  else if 'A' ≤ c ∧ c ≤ 'F' then some (c.toNat - 'A'.toNat + 10)
  else none

/-- The number that four hexadecimal digits write. -/
def codeUnit? (a b c d : Char) : Option Nat := do
  let a ← hexValue? a
  let b ← hexValue? b
  let c ← hexValue? c
  let d ← hexValue? d
  return ((a * 16 + b) * 16 + c) * 16 + d

/-- The first half of a surrogate pair. -/
def isLeadingHalf (unit : Nat) : Bool := 0xD800 ≤ unit && unit < 0xDC00

/-- The second half of a surrogate pair. -/
def isTrailingHalf (unit : Nat) : Bool := 0xDC00 ≤ unit && unit < 0xE000

/-- The character that a surrogate pair stands for. -/
def pairedChar (leading trailing : Nat) : Char :=
  Char.ofNat (0x10000 + (leading - 0xD800) * 0x400 + (trailing - 0xDC00))

/-- The character that one letter behind a backslash stands for. -/
def escaped? : Char → Option Char
  | '"' => some '"'
  | '\\' => some '\\'
  | '/' => some '/'
  | 'b' => some '\x08'
  | 'f' => some '\x0c'
  | 'n' => some '\n'
  | 'r' => some '\r'
  | 't' => some '\t'
  | _ => none

/-- Put a character in front of a string that has been read. -/
def consRead (c : Char) (read : Option (List Char × List Char)) :
    Option (List Char × List Char) :=
  read.map fun (chars, behind) => (c :: chars, behind)

/-- Read a string behind its opening quote: its characters, and what stands behind its closing
quote. Control characters and unpaired halves of surrogate pairs are refused. -/
def readString? : List Char → Option (List Char × List Char)
  | [] => none
  | '"' :: rest => some ([], rest)
  | '\\' :: 'u' :: a :: b :: c :: d :: rest =>
    match codeUnit? a b c d with
    | none => none
    | some unit =>
      if isLeadingHalf unit then
        match rest with
        | '\\' :: 'u' :: e :: f :: g :: h :: rest =>
          match codeUnit? e f g h with
          | none => none
          | some trailing =>
            if isTrailingHalf trailing then consRead (pairedChar unit trailing) (readString? rest)
            else none
        | _ => none
      else if isTrailingHalf unit then none
      else consRead (Char.ofNat unit) (readString? rest)
  | '\\' :: c :: rest =>
    match escaped? c with
    | none => none
    | some c => consRead c (readString? rest)
  | c :: rest => if c = '\\' ∨ c.toNat < 0x20 then none else consRead c (readString? rest)

/-! ## Numbers -/

/-- A number as it is written: its sign, the digits in front of the point, the digits behind
it and the power of ten, as far as they are there. -/
structure Numeral where
  negative : Bool
  whole : List Nat
  fraction : Option (List Nat)
  exponent : Option Int
  deriving DecidableEq, Repr

/-- The digits that a text begins with, and what stands behind them. -/
def readDigits (text : List Char) : List Nat × List Char :=
  ((text.takeWhile Char.isDigit).map fun c => c.toNat - '0'.toNat,
    text.dropWhile Char.isDigit)

/-- The number that decimal digits write. -/
def digitsValue (digits : List Nat) : Nat := digits.foldl (fun n digit => 10 * n + digit) 0

/-- Read digits. There is at least one. -/
def readSomeDigits? (text : List Char) : Option (List Nat × List Char) :=
  if (readDigits text).1.isEmpty then none else some (readDigits text)

/-- Read the digits in front of the point. A zero in front stands alone. -/
def readWhole? (text : List Char) : Option (List Nat × List Char) :=
  (readSomeDigits? text).filter fun read => read.1.head? ≠ some 0 || read.1.length = 1

/-- Read a minus sign, if there is one. -/
def readMinus : List Char → Bool × List Char
  | '-' :: rest => (true, rest)
  | text => (false, text)

/-- Read the point and the digits behind it, if there is a point. -/
def readFraction? : List Char → Option (Option (List Nat) × List Char)
  | '.' :: rest => (readSomeDigits? rest).map fun read => (some read.1, read.2)
  | text => some (none, text)

/-- Read a power of ten behind its letter. -/
def readPower? : List Char → Option (Int × List Char)
  | '+' :: rest => (readSomeDigits? rest).map fun read => ((digitsValue read.1 : Int), read.2)
  | '-' :: rest => (readSomeDigits? rest).map fun read => (-(digitsValue read.1 : Int), read.2)
  | rest => (readSomeDigits? rest).map fun read => ((digitsValue read.1 : Int), read.2)

/-- Read the letter and the power of ten behind it, if there is such a letter. -/
def readExponent? : List Char → Option (Option Int × List Char)
  | 'e' :: rest | 'E' :: rest => (readPower? rest).map fun read => (some read.1, read.2)
  | text => some (none, text)

/-- Read a number. -/
def readNumeral? (text : List Char) : Option (Numeral × List Char) := do
  let (whole, behind) ← readWhole? (readMinus text).2
  let (fraction, behind) ← readFraction? behind
  let (exponent, behind) ← readExponent? behind
  return (⟨(readMinus text).1, whole, fraction, exponent⟩, behind)

/-- The greatest number that digits are gathered to. -/
def greatestGathered : Nat := Nat.pow 2 64 - 1

/-- Gather digits into a number as long as it does not exceed the greatest one: the number,
how many digits went into it, and how many are left. -/
def gather (gathered : Nat) : List Nat → Nat × Nat × Nat
  | [] => (gathered, 0, 0)
  | digit :: more =>
    if greatestGathered < gathered * 10 + digit then (gathered, 0, more.length + 1)
    else
      let (gathered, taken, left) := gather (gathered * 10 + digit) more
      (gathered, taken + 1, left)

/-- The token for a number. A number without point and exponent that fits 64 bits is an
integer, but minus zero is not. Other numbers are rounded; of their digits only those count
that fit 64 bits. There is no token for a number that is too large. -/
def Numeral.token? (n : Numeral) : Option Token :=
  let (gathered, _, left) := gather 0 n.whole
  match n.fraction, n.exponent with
  | none, none =>
    if left = 0 ∧ !n.negative then some (.integer gathered)
    else if left = 0 ∧ 0 < gathered ∧ gathered ≤ Nat.pow 2 63 then some (.integer (-gathered))
    else (Double.ofDecimal? n.negative gathered left).map .real
  | fraction, exponent =>
    let (gathered, taken, _) := gather gathered (fraction.getD [])
    (Double.ofDecimal? n.negative gathered (left - taken + exponent.getD 0)).map .real

/-! ## Texts -/

/-- A word, if the text goes on with the letters of it. -/
def readWord? (letters : List Char) (token : Token) (text : List Char) :
    Option (Token × List Char) :=
  if letters.isPrefixOf text then some (token, text.drop letters.length) else none

/-- The token that begins with the character `c`, and what stands behind it. -/
def readToken? (c : Char) (rest : List Char) : Option (Token × List Char) :=
  match c with
  | '\x7b' => some (.openBrace, rest)
  | '\x7d' => some (.closeBrace, rest)
  | '[' => some (.openBracket, rest)
  | ']' => some (.closeBracket, rest)
  | ':' => some (.colon, rest)
  | ',' => some (.comma, rest)
  | 'n' => readWord? "ull".toList .null rest
  | 't' => readWord? "rue".toList (.bool true) rest
  | 'f' => readWord? "alse".toList (.bool false) rest
  | '"' => (readString? rest).map fun (chars, behind) => (.string (String.ofList chars), behind)
  | c => do
    let (numeral, behind) ← readNumeral? (c :: rest)
    let token ← numeral.token?
    return (token, behind)

/-- A character in front of what is read leaves the rest as it is. -/
theorem length_le_of_consRead {c : Char} {read : Option (List Char × List Char)}
    {chars behind : List Char} {n : Nat}
    (bound : ∀ {chars behind}, read = some (chars, behind) → behind.length ≤ n)
    (done : consRead c read = some (chars, behind)) : behind.length ≤ n := by
  obtain ⟨⟨chars', behind'⟩, found, same⟩ := Option.map_eq_some_iff.mp done
  simp only [Prod.mk.injEq] at same
  rw [← same.2]
  exact bound found

/-- A string that is read leaves no more than the text. -/
theorem length_le_of_readString? {text chars behind : List Char}
    (read : readString? text = some (chars, behind)) : behind.length ≤ text.length := by
  fun_induction readString? text generalizing chars behind with
  | case1 => simp at read
  | case2 rest =>
    simp only [Option.some.injEq, Prod.mk.injEq] at read
    simp [← read.2]
  | case3 => simp at read
  | case4 => simp at read
  | case5 a b c d unit found leading e f g h rest trailing found' half ih =>
    have := length_le_of_consRead (fun found => ih found) read
    simp only [List.length_cons]
    omega
  | case6 => simp at read
  | case7 => simp at read
  | case8 => simp at read
  | case9 a b c d rest unit found notLeading notTrailing ih =>
    have := length_le_of_consRead (fun found => ih found) read
    simp only [List.length_cons]
    omega
  | case10 => simp at read
  | case11 c rest notUnit c' found ih =>
    have := length_le_of_consRead (fun found => ih found) read
    simp only [List.length_cons]
    omega
  | case12 => simp at read
  | case13 c rest _ _ _ plain ih =>
    have := length_le_of_consRead (fun found => ih found) read
    simp only [List.length_cons]
    omega

/-- Digits that have to be there leave less than the text. -/
theorem length_lt_of_readSomeDigits? {text behind : List Char} {digits : List Nat}
    (read : readSomeDigits? text = some (digits, behind)) : behind.length < text.length := by
  unfold readSomeDigits? readDigits at read
  split at read
  · simp at read
  · rename_i some?
    simp only [Option.some.injEq, Prod.mk.injEq] at read
    have whole := congrArg List.length
      (List.takeWhile_append_dropWhile (p := Char.isDigit) (l := text))
    rw [List.length_append, read.2] at whole
    have : 0 < (text.takeWhile Char.isDigit).length := by
      cases taken : text.takeWhile Char.isDigit <;> simp_all
    omega

/-- The whole part of a numeral leaves less than the text. -/
theorem length_lt_of_readWhole? {text behind : List Char} {digits : List Nat}
    (read : readWhole? text = some (digits, behind)) : behind.length < text.length :=
  length_lt_of_readSomeDigits? (Option.filter_eq_some_iff.mp read).1

/-- A sign leaves no more than the text. -/
theorem length_readMinus_le (text : List Char) : (readMinus text).2.length ≤ text.length := by
  unfold readMinus
  split <;> simp

/-- A fraction leaves no more than the text. -/
theorem length_le_of_readFraction? {text behind : List Char} {fraction : Option (List Nat)}
    (read : readFraction? text = some (fraction, behind)) : behind.length ≤ text.length := by
  unfold readFraction? at read
  split at read
  · obtain ⟨⟨digits, rest⟩, found, same⟩ := Option.map_eq_some_iff.mp read
    have shorter := length_lt_of_readSomeDigits? found
    simp only [Prod.mk.injEq] at same
    rw [← same.2]
    simp only [List.length_cons]
    omega
  · simp only [Option.some.injEq, Prod.mk.injEq] at read
    obtain ⟨_, rfl⟩ := read
    exact Nat.le_refl _

/-- The digits of an exponent leave no more than the text. -/
theorem length_le_of_readPower? {text behind : List Char} {exponent : Int}
    (read : readPower? text = some (exponent, behind)) : behind.length ≤ text.length := by
  unfold readPower? at read
  split at read
  iterate 2
    · obtain ⟨⟨digits, rest⟩, found, same⟩ := Option.map_eq_some_iff.mp read
      have shorter := length_lt_of_readSomeDigits? found
      simp only [Prod.mk.injEq] at same
      rw [← same.2]
      simp only [List.length_cons]
      omega
  · obtain ⟨⟨digits, rest⟩, found, same⟩ := Option.map_eq_some_iff.mp read
    have shorter := length_lt_of_readSomeDigits? found
    simp only [Prod.mk.injEq] at same
    rw [← same.2]
    omega

/-- An exponent leaves no more than the text. -/
theorem length_le_of_readExponent? {text behind : List Char} {exponent : Option Int}
    (read : readExponent? text = some (exponent, behind)) : behind.length ≤ text.length := by
  unfold readExponent? at read
  split at read
  iterate 2
    · obtain ⟨⟨exponent, rest⟩, found, same⟩ := Option.map_eq_some_iff.mp read
      have shorter := length_le_of_readPower? found
      simp only [Prod.mk.injEq] at same
      rw [← same.2]
      simp only [List.length_cons]
      omega
  · simp only [Option.some.injEq, Prod.mk.injEq] at read
    obtain ⟨_, rfl⟩ := read
    exact Nat.le_refl _

/-- A numeral leaves less than the text, so reading tokens comes to an end. -/
theorem length_lt_of_readNumeral? {text behind : List Char} {numeral : Numeral}
    (read : readNumeral? text = some (numeral, behind)) : behind.length < text.length := by
  obtain ⟨⟨whole, afterWhole⟩, foundWhole, read⟩ := Option.bind_eq_some_iff.mp read
  obtain ⟨⟨fraction, afterFraction⟩, foundFraction, read⟩ := Option.bind_eq_some_iff.mp read
  obtain ⟨⟨exponent, afterExponent⟩, foundExponent, read⟩ := Option.bind_eq_some_iff.mp read
  have minus := length_readMinus_le text
  have first := length_lt_of_readWhole? foundWhole
  have second := length_le_of_readFraction? foundFraction
  have third := length_le_of_readExponent? foundExponent
  simp only [Option.pure_def, Option.some.injEq, Prod.mk.injEq] at read
  rw [← read.2]
  omega

/-- A word leaves no more than the text. -/
theorem length_le_of_readWord? {letters text behind : List Char} {word token : Token}
    (read : readWord? letters word text = some (token, behind)) :
    behind.length ≤ text.length := by
  unfold readWord? at read
  split at read
  · simp only [Option.some.injEq, Prod.mk.injEq] at read
    rw [← read.2, List.length_drop]
    exact Nat.sub_le _ _
  · simp at read

/-- A token takes at least the character it begins with. -/
theorem length_le_of_readToken? {c : Char} {rest behind : List Char} {token : Token}
    (read : readToken? c rest = some (token, behind)) : behind.length ≤ rest.length := by
  unfold readToken? at read
  split at read
  iterate 6
    · simp only [Option.some.injEq, Prod.mk.injEq] at read
      obtain ⟨_, rfl⟩ := read
      exact Nat.le_refl _
  iterate 3
    · exact length_le_of_readWord? read
  · obtain ⟨⟨chars, rest'⟩, found, same⟩ := Option.map_eq_some_iff.mp read
    have shorter := length_le_of_readString? found
    simp only [Prod.mk.injEq] at same
    rw [← same.2]
    exact shorter
  · obtain ⟨⟨numeral, afterNumeral⟩, found, read⟩ := Option.bind_eq_some_iff.mp read
    obtain ⟨token', _, read⟩ := Option.bind_eq_some_iff.mp read
    have shorter := length_lt_of_readNumeral? found
    simp only [Option.pure_def, Option.some.injEq, Prod.mk.injEq] at read
    rw [← read.2]
    simp only [List.length_cons] at shorter
    omega

/-- The tokens of a text. -/
def tokens (text : List Char) : List Token :=
  match text with
  | [] => []
  | c :: rest =>
    if isBlank c then tokens rest
    else
      match _read : readToken? c rest with
      | none => [.bad]
      | some (token, behind) => token :: tokens behind
termination_by text.length
decreasing_by
  · simp
  · have := length_le_of_readToken? _read
    simp only [List.length_cons]
    omega

end PlainSync.Json
