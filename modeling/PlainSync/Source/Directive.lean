import PlainSync.Source.Trivia

/-!
# Preprocessor directives

Where a directive begins, how far it reaches and where the first one stands in a stretch of
a source. The bytes `before` a position are given last one first.
-/

namespace PlainSync.Source

/-- Only blanks stand between a position and the start of its line. -/
def atLineStart (before : Bytes) : Bool :=
  (before.takeWhile (· ≠ Byte.newline)).all Byte.isBlank

/-- A line end behind `before` does not end its directive: a backslash stands in front of
it, perhaps with a carriage return between. -/
def isContinued : Bytes → Bool
  | b :: before =>
    b = Byte.backslash || (b = Byte.carriageReturn && before.head? = some Byte.backslash)
  | [] => false

/-- The directive that a text begins with, continued lines included, without the end of its
last line. -/
def splitDirective (before : Bytes) : Bytes → Bytes × Bytes
  | [] => ([], [])
  | b :: rest =>
    if b = Byte.newline ∧ !isContinued before then ([], b :: rest)
    else
      let (body, behind) := splitDirective (b :: before) rest
      (b :: body, behind)

/-- A directive and what stands behind it make up the text. -/
theorem splitDirective_append (before text : Bytes) :
    (splitDirective before text).1 ++ (splitDirective before text).2 = text := by
  fun_induction splitDirective before text <;> simp_all

/-- How far into `text` the first directive stands that begins among its first `span` bytes,
outside comments and literals. -/
def findDirective? (before text : Bytes) (span : Nat) : Option Nat :=
  if span = 0 then none
  else
    match _trivia : splitTrivia? text with
    | some (unit, behind) =>
      (findDirective? (unit.reverse ++ before) behind (span - unit.length)).map
        (unit.length + ·)
    | none =>
      match text with
      | [] => none
      | b :: rest =>
        if b = Byte.hash ∧ atLineStart before then some 0
        else (findDirective? (b :: before) rest (span - 1)).map (1 + ·)
termination_by text.length
decreasing_by
  · exact length_lt_of_splitTrivia? _trivia
  · simp

end PlainSync.Source
