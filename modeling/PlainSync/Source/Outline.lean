import PlainSync.Builtin
import PlainSync.Source.ArgumentList
import PlainSync.Source.Directive

/-!
# The outline of a source

A source cut at its calls of built-ins: what is copied as written, which calls are kept and
why, and which calls are expanded, each with the outlines of its operands. An operand is
outlined as a text of its own.
-/

namespace PlainSync.Source

/-- Why a call is left as written. -/
inductive KeepReason where
  /-- It has too few arguments. -/
  | arity (expected found : Nat)
  /-- Its closing parenthesis is missing. -/
  | unterminated
  /-- A preprocessor directive stands among its arguments, on the given line. -/
  | directive (line : Nat)
  deriving DecidableEq, Repr

/-- The text for a reason in reports. -/
def KeepReason.message : KeepReason → String
  | arity expected found => s!"expected {expected} argument(s), found {found}"
  | unterminated => "unterminated argument list"
  | directive line => s!"preprocessor directive at line {line} inside the argument list"

/-- A stretch of an outlined source. -/
inductive Piece where
  /-- Text without a call, copied as written. -/
  | verbatim (text : Bytes)
  /-- The name of a call that is kept, and the line it stands on. The outline goes on right
  behind the name. -/
  | kept (builtin : Builtin) (line : Nat) (reason : KeepReason)
  /-- A call that is expanded: the white space behind its name, its arguments, and the
  outlines of those that it needs. -/
  | call (builtin : Builtin) (gap : Bytes) (list : ArgumentList) (operands : List (List Piece))

/-- The text of a call between its name and what stands behind its closing parenthesis. -/
def callTail (gap : Bytes) (list : ArgumentList) : Bytes :=
  gap ++ Byte.openParen :: list.inside ++ [Byte.closeParen]

/-- The source text that a piece stands for. -/
def Piece.source : Piece → Bytes
  | verbatim text => text
  | kept builtin _ _ => builtin.spelling
  | call builtin gap list _ => builtin.spelling ++ callTail gap list

/-- Decide about a call behind its opening parenthesis, which stands on the given line: its
arguments if it can be expanded, else the reason to keep it. The bytes `before` are given
last one first. -/
def judge (builtin : Builtin) (line : Nat) (before text : Bytes) :
    Except KeepReason ArgumentList :=
  match splitArguments? 0 text with
  | none => .error .unterminated
  | some list =>
    match findDirective? before text list.inside.length with
    | some offset => .error (.directive (line + Bytes.newlines (text.take offset)))
    | none =>
      if list.arguments.length < builtin.operandCount then
        .error (.arity builtin.operandCount list.arguments.length)
      else .ok list

/-- The arguments of a call that can be expanded make up the text behind its opening
parenthesis. -/
theorem append_of_judge {builtin : Builtin} {line : Nat} {before text : Bytes}
    {list : ArgumentList} (judged : judge builtin line before text = .ok list) :
    list.inside ++ Byte.closeParen :: list.behind = text := by
  unfold judge at judged
  split at judged
  · simp at judged
  · rename_i list' split?
    split at judged
    · simp at judged
    · split at judged
      · simp at judged
      · cases judged
        exact append_of_splitArguments? split?

/-- How much text there is to outline in a list of arguments. -/
def outlineSize : List Bytes → Nat
  | [] => 0
  | argument :: more => argument.length + 1 + outlineSize more

/-- Fewer arguments are no more text. -/
theorem outlineSize_take_le (arguments : List Bytes) (count : Nat) :
    outlineSize (arguments.take count) ≤ outlineSize arguments := by
  induction arguments generalizing count with
  | nil => simp [outlineSize]
  | cons argument more ih =>
    cases count with
    | zero => exact Nat.zero_le _
    | succ count =>
      have fewer := ih count
      simp only [List.take_succ_cons, outlineSize]
      omega

/-- Stretches with a comma in front of each are as much text as is counted for them. -/
theorem length_flatMap_comma (more : List Bytes) :
    (more.flatMap (Byte.comma :: ·)).length = outlineSize more := by
  induction more with
  | nil => rfl
  | cons stretch more ih =>
    rw [List.flatMap_cons, List.length_append, ih]
    rfl

/-- The arguments of a list are at most one byte more than stands between its parentheses. -/
theorem outlineSize_arguments_le (list : ArgumentList) (count : Nat) :
    outlineSize (list.arguments.take count) ≤ list.inside.length + 1 := by
  refine Nat.le_trans (outlineSize_take_le _ _) ?_
  unfold ArgumentList.arguments ArgumentList.inside
  rw [List.length_append, length_flatMap_comma]
  split
  · exact Nat.zero_le _
  · have whole : outlineSize (list.first :: list.more) =
        list.first.length + 1 + outlineSize list.more := rfl
    omega

mutual

/-- Cut a text at its calls. The text begins on the given line; the bytes `before` it are
given last one first. -/
def outline (line : Nat) (before text : Bytes) : List Piece :=
  match text with
  | [] => []
  | b :: rest =>
    match _trivia : splitTrivia? (b :: rest) with
    | some (unit, behind) =>
      .verbatim unit :: outline (line + Bytes.newlines unit) (unit.reverse ++ before) behind
    | none =>
      if b = Byte.hash ∧ atLineStart before then
        let body := (splitDirective (b :: before) rest).1
        .verbatim (b :: body) ::
          outline (line + Bytes.newlines body) (body.reverse ++ b :: before)
            (splitDirective (b :: before) rest).2
      else if Byte.isDigit b then
        let body := (splitNumberBody b rest).1
        .verbatim (b :: body) ::
          outline line (body.reverse ++ b :: before) (splitNumberBody b rest).2
      else if Byte.startsIdentifier b then
        let name := b :: rest.takeWhile Byte.continuesIdentifier
        let behind := rest.dropWhile Byte.continuesIdentifier
        match Builtin.ofSpelling? name with
        | none => .verbatim name :: outline line (name.reverse ++ before) behind
        | some builtin =>
          let gap := behind.takeWhile Byte.isWhiteSpace
          match _opened : behind.dropWhile Byte.isWhiteSpace with
          | [] => .verbatim name :: outline line (name.reverse ++ before) behind
          | c :: inner =>
            if c = Byte.openParen then
              match _judged : judge builtin (line + Bytes.newlines gap)
                  (c :: gap.reverse ++ name.reverse ++ before) inner with
              | .error reason =>
                .kept builtin line reason :: outline line (name.reverse ++ before) behind
              | .ok list =>
                .call builtin gap list
                    (outlineOperands (line + Bytes.newlines gap)
                      (list.arguments.take builtin.operandCount)) ::
                  outline (line + Bytes.newlines (callTail gap list))
                    ((callTail gap list).reverse ++ name.reverse ++ before) list.behind
            else .verbatim name :: outline line (name.reverse ++ before) behind
      else .verbatim [b] :: outline (line + Bytes.newlines [b]) (b :: before) rest
termination_by text.length
decreasing_by
  all_goals
    have behind_le : (rest.dropWhile Byte.continuesIdentifier).length ≤ rest.length :=
      (List.dropWhile_sublist _).length_le
  · exact length_lt_of_splitTrivia? _trivia
  · have whole := congrArg List.length (splitDirective_append (b :: before) rest)
    simp only [List.length_append] at whole
    simp only [List.length_cons]
    omega
  · have whole := congrArg List.length (splitNumberBody_append b rest)
    simp only [List.length_append] at whole
    simp only [List.length_cons]
    omega
  · simp only [List.length_cons]
    omega
  · simp only [List.length_cons]
    omega
  · simp only [List.length_cons]
    omega
  · have opened_le := ((List.dropWhile_sublist Byte.isWhiteSpace).length_le :
      ((rest.dropWhile Byte.continuesIdentifier).dropWhile Byte.isWhiteSpace).length ≤ _)
    have whole := congrArg List.length (append_of_judge _judged)
    have fits := outlineSize_arguments_le list builtin.operandCount
    rw [_opened] at opened_le
    simp only [List.length_append, List.length_cons] at whole opened_le ⊢
    omega
  · have opened_le := ((List.dropWhile_sublist Byte.isWhiteSpace).length_le :
      ((rest.dropWhile Byte.continuesIdentifier).dropWhile Byte.isWhiteSpace).length ≤ _)
    have whole := congrArg List.length (append_of_judge _judged)
    rw [_opened] at opened_le
    simp only [List.length_append, List.length_cons] at whole opened_le ⊢
    omega
  · simp only [List.length_cons]
    omega
  · simp

/-- Outline the arguments of a call, the first of which begins on the given line. -/
def outlineOperands (line : Nat) (arguments : List Bytes) : List (List Piece) :=
  match arguments with
  | [] => []
  | argument :: more =>
    outline line [] argument :: outlineOperands (line + Bytes.newlines argument) more
termination_by outlineSize arguments
decreasing_by
  · simp [outlineSize]
    omega
  · simp [outlineSize]

end

end PlainSync.Source
