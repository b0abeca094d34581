import PlainSync.Text.Bytes

/-!
# Comments, literals and numbers

The stretches of a C source that are skipped as units. Each function splits a text in two:
the unit and what stands behind it. Nothing is lost by a split, and a unit is never empty.
-/

namespace PlainSync.Source

/-- The rest of a literal behind its opening quote `mark`. A backslash takes the byte behind
it along. An unclosed literal ends before the end of its line. -/
def splitLiteralBody (mark : UInt8) : Bytes → Bytes × Bytes
  | [] => ([], [])
  | b :: rest =>
    if b = Byte.backslash then
      match rest with
      | [] => ([b], [])
      | c :: rest =>
        let (body, behind) := splitLiteralBody mark rest
        (b :: c :: body, behind)
    else if b = Byte.newline then ([], b :: rest)
    else if b = mark then ([b], rest)
    else
      let (body, behind) := splitLiteralBody mark rest
      (b :: body, behind)

/-- The string or character literal that begins with the first byte, whatever byte that is. -/
def splitLiteral : Bytes → Bytes × Bytes
  | [] => ([], [])
  | mark :: rest =>
    let (body, behind) := splitLiteralBody mark rest
    (mark :: body, behind)

/-- The rest of a block comment behind its opening. An unclosed comment takes all. -/
def splitBlockCommentBody : Bytes → Bytes × Bytes
  | [] => ([], [])
  | [b] => ([b], [])
  | b :: c :: rest =>
    if b = Byte.star ∧ c = Byte.slash then ([b, c], rest)
    else
      let (body, behind) := splitBlockCommentBody (c :: rest)
      (b :: body, behind)

/-- The line a text begins with, without its end. -/
def splitLine (text : Bytes) : Bytes × Bytes :=
  (text.takeWhile (· ≠ Byte.newline), text.dropWhile (· ≠ Byte.newline))

/-- The comment or literal that a text begins with. A line comment ends before the end of
its line. -/
def splitTrivia? : Bytes → Option (Bytes × Bytes)
  | [] => none
  | b :: rest =>
    if b = Byte.slash then
      match rest with
      | [] => none
      | c :: rest =>
        if c = Byte.star then
          let (body, behind) := splitBlockCommentBody rest
          some (b :: c :: body, behind)
        else if c = Byte.slash then
          let (line, behind) := splitLine rest
          some (b :: c :: line, behind)
        else none
    else if b = Byte.doubleQuote ∨ b = Byte.quote then some (splitLiteral (b :: rest))
    else none

/-- The rest of a number behind the byte `previous`. A quote between two letters or digits
separates digits and does not open a literal. -/
def splitNumberBody (previous : UInt8) : Bytes → Bytes × Bytes
  | [] => ([], [])
  | b :: rest =>
    if Byte.continuesIdentifier b ∨ b = Byte.dot ∨
        (b = Byte.quote ∧ Byte.isAlphanumeric previous ∧ rest.head?.any Byte.isAlphanumeric) then
      let (body, behind) := splitNumberBody b rest
      (b :: body, behind)
    else ([], b :: rest)

/-- The number that a text begins with. It may be empty: a quote at the front separates
nothing. -/
def splitNumber : Bytes → Bytes × Bytes
  | [] => ([], [])
  | b :: rest =>
    if Byte.continuesIdentifier b ∨ b = Byte.dot then
      let (body, behind) := splitNumberBody b rest
      (b :: body, behind)
    else ([], b :: rest)

/-- Whether a digit opens a number: it does unless it continues an identifier. The bytes
`before` it are given last one first. -/
def opensNumber (before : Bytes) : Bool := !before.head?.any Byte.continuesIdentifier

/-! ## Nothing is lost -/

/-- The body of a literal and what stands behind it make up the text. -/
theorem splitLiteralBody_append (mark : UInt8) (text : Bytes) :
    (splitLiteralBody mark text).1 ++ (splitLiteralBody mark text).2 = text := by
  fun_induction splitLiteralBody mark text <;> simp_all

/-- A literal and what stands behind it make up the text. -/
theorem splitLiteral_append (text : Bytes) :
    (splitLiteral text).1 ++ (splitLiteral text).2 = text := by
  cases text with
  | nil => rfl
  | cons mark rest => simpa [splitLiteral] using splitLiteralBody_append mark rest

/-- The body of a block comment and what stands behind it make up the text. -/
theorem splitBlockCommentBody_append (text : Bytes) :
    (splitBlockCommentBody text).1 ++ (splitBlockCommentBody text).2 = text := by
  fun_induction splitBlockCommentBody text <;> simp_all

/-- A line and what stands behind it make up the text. -/
theorem splitLine_append (text : Bytes) : (splitLine text).1 ++ (splitLine text).2 = text :=
  List.takeWhile_append_dropWhile

/-- The body of a number and what stands behind it make up the text. -/
theorem splitNumberBody_append (previous : UInt8) (text : Bytes) :
    (splitNumberBody previous text).1 ++ (splitNumberBody previous text).2 = text := by
  fun_induction splitNumberBody previous text <;> simp_all

/-- A comment or literal and what stands behind it make up the text. -/
theorem append_of_splitTrivia? {text unit behind : Bytes}
    (split : splitTrivia? text = some (unit, behind)) : unit ++ behind = text := by
  cases text with
  | nil => simp [splitTrivia?] at split
  | cons b rest =>
    simp only [splitTrivia?] at split
    split at split
    · split at split
      · simp at split
      · rename_i c rest
        split at split
        · simp only [Option.some.injEq, Prod.mk.injEq] at split
          rw [← split.1, ← split.2]
          simpa using splitBlockCommentBody_append rest
        · split at split
          · simp only [Option.some.injEq, Prod.mk.injEq] at split
            rw [← split.1, ← split.2]
            simpa using splitLine_append rest
          · simp at split
    · split at split
      · simp only [Option.some.injEq] at split
        have whole := splitLiteral_append (b :: rest)
        rwa [split] at whole
      · simp at split

/-- A comment or literal is not empty. -/
theorem length_pos_of_splitTrivia? {text unit behind : Bytes}
    (split : splitTrivia? text = some (unit, behind)) : 0 < unit.length := by
  cases text with
  | nil => simp [splitTrivia?] at split
  | cons b rest =>
    simp only [splitTrivia?] at split
    split at split
    · split at split
      · simp at split
      · split at split
        · simp only [Option.some.injEq, Prod.mk.injEq] at split
          simp [← split.1]
        · split at split
          · simp only [Option.some.injEq, Prod.mk.injEq] at split
            simp [← split.1]
          · simp at split
    · split at split
      · simp only [splitLiteral, Option.some.injEq, Prod.mk.injEq] at split
        simp [← split.1]
      · simp at split

/-- What stands behind a comment or literal is shorter than the text. -/
theorem length_lt_of_splitTrivia? {text unit behind : Bytes}
    (split : splitTrivia? text = some (unit, behind)) : behind.length < text.length := by
  have whole := append_of_splitTrivia? split
  have nonempty := length_pos_of_splitTrivia? split
  rw [← whole, List.length_append]
  omega

end PlainSync.Source
