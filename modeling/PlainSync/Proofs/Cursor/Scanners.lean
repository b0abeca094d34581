import PlainSync.Proofs.Cursor.Positions
import PlainSync.Source.Directive

/-!
# Scanning with a cursor

The scanners of a source as loops that move an index over its bytes. Each has no result if it reads
a byte that is not there or takes a stretch that is not there. Read from an index on, they find the
ends of the units into which the bytes behind it are split.
-/

namespace PlainSync.Cursor

open Source

/-- The end of the literal whose opening quote `mark` stands in front of the index. -/
def literalEnd (text : Bytes) (mark : UInt8) (i : Nat) : Option Nat := do
  if i < text.length then
    let b ← text[i]?
    if b = Byte.backslash then literalEnd text mark (i + 2)
    else if b = Byte.newline then return i
    else if b = mark then return i + 1
    else literalEnd text mark (i + 1)
  else return text.length
termination_by text.length - i

/-- The end of the literal at an index. -/
def skipLiteral (text : Bytes) (i : Nat) : Option Nat := do literalEnd text (← text[i]?) (i + 1)

/-- The end of the comment or literal at an index, if there is one. -/
def skipTrivia (text : Bytes) (i : Nat) : Option (Option Nat) := do
  let b ← text[i]?
  if b = Byte.slash ∧ text[i + 1]? = some Byte.star then
    let body ← bytes? text (min (i + 2) text.length) text.length
    let closing := (body.zip body.tail).findIdx? (· = (Byte.star, Byte.slash))
    return some (closing.elim text.length (i + 2 + · + 2))
  else if b = Byte.slash ∧ text[i + 1]? = some Byte.slash then
    let comment ← bytes? text i text.length
    return some ((comment.findIdx? (· = Byte.newline)).elim text.length (i + ·))
  else if b = Byte.doubleQuote ∨ b = Byte.quote then return some (← skipLiteral text i)
  else return none

/-- Only blanks stand between an index and the start of its line. -/
def isLineStart (text : Bytes) (i : Nat) : Option Bool :=
  return atLineStart (← bytes? text 0 i).reverse

/-- A line end at an index does not end its directive. -/
def isContinuedAt (text : Bytes) (i : Nat) : Option Bool := do
  if i = 0 then return false
  let b ← text[i - 1]?
  if b = Byte.backslash then return true
  if 2 ≤ i ∧ b = Byte.carriageReturn then return (← text[i - 2]?) = Byte.backslash
  return false

/-- The end of the directive in which an index stands. -/
def directiveEnd (text : Bytes) (i : Nat) : Option Nat := do
  if i < text.length then
    if (← text[i]?) = Byte.newline then
      if ← isContinuedAt text i then directiveEnd text (i + 1) else return i
    else directiveEnd text (i + 1)
  else return text.length
termination_by text.length - i

/-- A byte at an index is a quote that separates digits of the number from `start` on. -/
def separatesDigits (text : Bytes) (start i : Nat) (b : UInt8) : Option Bool := do
  if b = Byte.quote ∧ start < i then
    return Byte.isAlphanumeric (← text[i - 1]?) && text[i + 1]?.any Byte.isAlphanumeric
  else return false

/-- The end of the number that began at `start`. -/
def numberEnd (text : Bytes) (start i : Nat) : Option Nat := do
  if i < text.length then
    let b ← text[i]?
    let separates ← separatesDigits text start i b
    if Byte.continuesIdentifier b ∨ b = Byte.dot ∨ separates then numberEnd text start (i + 1)
    else return i
  else return i
termination_by text.length - i

/-- The first index at which a byte fails a test. -/
def skipWhile (p : UInt8 → Bool) (text : Bytes) (i : Nat) : Option Nat := do
  if i < text.length then
    if p (← text[i]?) then skipWhile p text (i + 1) else return i
  else return i
termination_by text.length - i

/-! ## The ends of units -/

variable {text before rest unit behind : Bytes} {b mark : UInt8} {i : Nat}

/-- A literal ends with the text at the latest. -/
theorem literalEnd_of_le (hi : text.length ≤ i) :
    literalEnd text mark i = some text.length := by
  rw [literalEnd, if_neg (Nat.not_lt.mpr hi)]
  rfl

/-- What the next byte means to a literal. -/
theorem literalEnd_cons (h : Between text before (b :: rest) i) :
    literalEnd text mark i =
      if b = Byte.backslash then literalEnd text mark (i + 2)
      else if b = Byte.newline then some i
      else if b = mark then some (i + 1)
      else literalEnd text mark (i + 1) := by
  rw [literalEnd, if_pos h.lt, h.getElem?_cons]
  rfl

/-- The end of a literal is behind its body. -/
theorem literalEnd_eq (h : Between text before rest i) :
    literalEnd text mark i = some (i + (splitLiteralBody mark rest).1.length) := by
  fun_induction splitLiteralBody mark rest generalizing before i with
  | case1 =>
    have hlength : text.length = i := h.length_eq
    rw [literalEnd_of_le (Nat.le_of_eq hlength), hlength]
    rfl
  | case2 =>
    have hlength : text.length = i + 1 := h.length_eq
    rw [literalEnd_cons h, if_pos rfl, literalEnd_of_le (by omega), hlength]
    rfl
  | case3 c rest body behind hsplit ih =>
    rw [literalEnd_cons h, if_pos rfl, ih h.cons.cons, hsplit]
    exact congrArg some (by simp only [List.length_cons]; omega)
  | case4 rest hb =>
    rw [literalEnd_cons h, if_neg hb, if_pos rfl]
    rfl
  | case5 rest hb hnewline =>
    rw [literalEnd_cons h, if_neg hb, if_neg hnewline, if_pos rfl]
    rfl
  | case6 b rest hb hnewline hmark body behind hsplit ih =>
    rw [literalEnd_cons h, if_neg hb, if_neg hnewline, if_neg hmark, ih h.cons, hsplit]
    exact congrArg some (by simp only [List.length_cons]; omega)

/-- A literal is skipped with its quotation marks. -/
theorem skipLiteral_eq (h : Between text before (mark :: rest) i) :
    skipLiteral text i = some (i + 1 + (splitLiteralBody mark rest).1.length) := by
  rw [skipLiteral, h.getElem?_cons]
  exact literalEnd_eq h.cons

/-- The first star with a slash behind it ends a block comment. -/
theorem length_splitBlockCommentBody (text : Bytes) :
    (splitBlockCommentBody text).1.length =
      ((text.zip text.tail).findIdx? (· = (Byte.star, Byte.slash))).elim text.length (· + 2) := by
  fun_induction splitBlockCommentBody text with
  | case1 => rfl
  | case2 => rfl
  | case3 b c rest hcloses =>
    rw [List.tail_cons, List.zip_cons_cons, List.findIdx?_cons, hcloses.1, hcloses.2]
    rfl
  | case4 b c rest hopen body behind hsplit ih =>
    have hpair : ¬ (b, c) = (Byte.star, Byte.slash) := fun hpair => hopen (Prod.mk.inj hpair)
    rw [hsplit, List.tail_cons] at ih
    rw [List.tail_cons, List.zip_cons_cons, List.findIdx?_cons, decide_eq_false hpair,
      List.length_cons, ih]
    cases ((c :: rest).zip rest).findIdx? fun pair => pair = (Byte.star, Byte.slash) with
    | none => rfl
    | some index => exact Nat.add_right_comm index 2 1

/-- A line ends in front of the first newline. -/
theorem length_splitLine (text : Bytes) :
    (splitLine text).1.length = (text.findIdx? (· = Byte.newline)).elim text.length id := by
  induction text with
  | nil => rfl
  | cons b rest ih =>
    unfold splitLine at ih ⊢
    by_cases hb : b = Byte.newline
    · rw [List.findIdx?_cons, decide_eq_true hb, List.takeWhile_cons_of_neg (by simpa using hb)]
      rfl
    · rw [List.findIdx?_cons, decide_eq_false hb, List.takeWhile_cons_of_pos (by simpa using hb),
        List.length_cons, ih]
      cases rest.findIdx? fun b => b = Byte.newline with
      | none => rfl
      | some index => rfl

/-- A block comment is skipped as a whole. -/
theorem skipTrivia_blockComment (h : Between text before (Byte.slash :: Byte.star :: rest) i) :
    skipTrivia text i = some (some (i + (2 + (splitBlockCommentBody rest).1.length))) := by
  have hbody := h.cons.cons
  have hle : i + 2 ≤ text.length := by
    rw [hbody.length_eq]
    omega
  unfold skipTrivia
  rw [h.getElem?_cons, h.getElem?_succ, Nat.min_eq_left hle, hbody.bytes?_length]
  refine congrArg (some ∘ some) ?_
  rw [length_splitBlockCommentBody, hbody.length_eq]
  cases (rest.zip rest.tail).findIdx? fun pair => pair = (Byte.star, Byte.slash) with
  | none => exact Nat.add_assoc i 2 rest.length
  | some index =>
    change i + 2 + index + 2 = i + (2 + (index + 2))
    omega

/-- A line comment is skipped up to the end of its line. -/
theorem skipTrivia_lineComment (h : Between text before (Byte.slash :: Byte.slash :: rest) i) :
    skipTrivia text i = some (some (i + (2 + (splitLine rest).1.length))) := by
  unfold skipTrivia
  rw [h.getElem?_cons, h.getElem?_succ, h.bytes?_length]
  refine congrArg (some ∘ some) ?_
  rw [length_splitLine, h.length_eq, List.findIdx?_cons, List.findIdx?_cons]
  cases rest.findIdx? fun b => b = Byte.newline with
  | none =>
    change i + (rest.length + 2) = i + (2 + rest.length)
    omega
  | some index =>
    change i + (index + 1 + 1) = i + (2 + index)
    omega

/-- A literal is skipped as a whole. -/
theorem skipTrivia_literal (h : Between text before (b :: rest) i)
    (hquote : b = Byte.doubleQuote ∨ b = Byte.quote) :
    skipTrivia text i = some (some (i + 1 + (splitLiteralBody b rest).1.length)) := by
  have hslash : b ≠ Byte.slash := by
    rintro rfl
    exact absurd hquote (by decide)
  unfold skipTrivia
  rw [h.getElem?_cons, skipLiteral_eq h]
  simp only [Option.bind_eq_bind, Option.bind_some, hslash, false_and, if_false, if_pos hquote]
  rfl

/-- A comment or literal is skipped as a whole. -/
theorem skipTrivia_eq (h : Between text before (b :: rest) i) :
    skipTrivia text i = some ((splitTrivia? (b :: rest)).map fun split => i + split.1.length) := by
  by_cases hslash : b = Byte.slash
  · subst hslash
    cases rest with
    | nil =>
      rw [skipTrivia, h.getElem?_cons, h.getElem?_succ]
      rfl
    | cons c rest =>
      by_cases hstar : c = Byte.star
      · subst hstar
        rw [skipTrivia_blockComment h, Nat.add_comm 2]
        rfl
      · by_cases hline : c = Byte.slash
        · subst hline
          rw [skipTrivia_lineComment h, Nat.add_comm 2]
          rfl
        · have hsome (d : UInt8) : (c :: rest).head? = some d ↔ c = d := by simp
          rw [skipTrivia, h.getElem?_cons, h.getElem?_succ]
          simp only [splitTrivia?, if_true, Option.bind_eq_bind, Option.bind_some, hsome, hstar,
            hline, and_false, if_false]
          rfl
  · by_cases hquote : b = Byte.doubleQuote ∨ b = Byte.quote
    · rw [skipTrivia_literal h hquote, Nat.add_assoc, Nat.add_comm 1]
      simp only [splitTrivia?, if_neg hslash, if_pos hquote]
      rfl
    · rw [skipTrivia, h.getElem?_cons]
      simp only [splitTrivia?, Option.bind_eq_bind, Option.bind_some, hslash, false_and, if_false,
        if_neg hquote]
      rfl

/-- What is skipped is the comment or literal that the text begins with. -/
theorem skipTrivia_some (h : Between text before rest i)
    (htrivia : splitTrivia? rest = some (unit, behind)) :
    skipTrivia text i = some (some (i + unit.length)) := by
  cases rest with
  | nil => cases htrivia
  | cons b rest =>
    rw [skipTrivia_eq h, htrivia]
    rfl

/-- Nothing is skipped where neither a comment nor a literal begins. -/
theorem skipTrivia_none (h : Between text before (b :: rest) i)
    (htrivia : splitTrivia? (b :: rest) = none) : skipTrivia text i = some none := by
  rw [skipTrivia_eq h, htrivia]
  rfl

/-- A position is at the start of a line if what stands before it says so. -/
theorem isLineStart_eq (h : Between text before rest i) :
    isLineStart text i = some (atLineStart before) := by
  rw [isLineStart, h.bytes?_zero]
  change some (atLineStart before.reverse.reverse) = _
  rw [List.reverse_reverse]

/-- A line is continued if what stands before its end says so. -/
theorem isContinuedAt_eq (h : Between text before rest i) :
    isContinuedAt text i = some (isContinued before) := by
  rw [isContinuedAt]
  cases before with
  | nil =>
    have hi : i = 0 := h.index.symm
    rw [if_pos hi]
    rfl
  | cons b before =>
    have hi : before.length + 1 = i := h.index
    rw [if_neg (by omega), h.back.getElem?_cons]
    simp only [Option.bind_eq_bind, Option.bind_some, isContinued]
    by_cases hb : b = Byte.backslash
    · rw [if_pos hb, decide_eq_true hb]
      rfl
    · rw [if_neg hb, decide_eq_false hb, Bool.false_or]
      cases before with
      | nil =>
        have hshort : ¬ (2 ≤ i ∧ b = Byte.carriageReturn) := fun hlong => by
          rw [List.length_nil] at hi
          omega
        rw [if_neg hshort]
        simp
      | cons c before =>
        have hlong : 2 ≤ i := by
          rw [List.length_cons] at hi
          omega
        have hprevious : text[i - 2]? = some c := h.back.back.getElem?_cons
        rw [hprevious]
        by_cases hreturn : b = Byte.carriageReturn
        · simp [hlong, hreturn]
        · simp [hreturn]

/-- What the next byte means to a directive. -/
theorem directiveEnd_cons (h : Between text before (b :: rest) i) :
    directiveEnd text i =
      if b = Byte.newline ∧ !isContinued before then some i else directiveEnd text (i + 1) := by
  rw [directiveEnd, if_pos h.lt, h.getElem?_cons, isContinuedAt_eq h]
  simp only [Option.bind_eq_bind, Option.bind_some]
  by_cases hb : b = Byte.newline
  · cases isContinued before <;> simp [hb]
  · rw [if_neg hb, if_neg fun hboth => hb hboth.1]

/-- The end of a directive is behind its text. -/
theorem directiveEnd_eq (h : Between text before rest i) :
    directiveEnd text i = some (i + (splitDirective before rest).1.length) := by
  fun_induction splitDirective before rest generalizing i with
  | case1 before =>
    have hlength : text.length = i := h.length_eq
    rw [directiveEnd, if_neg h.not_lt, hlength]
    rfl
  | case2 before b rest hends =>
    rw [directiveEnd_cons h, if_pos hends]
    rfl
  | case3 before b rest hgoes body behind hsplit ih =>
    rw [directiveEnd_cons h, if_neg hgoes, ih h.cons, hsplit]
    exact congrArg some (by simp only [List.length_cons]; omega)

/-- What the next byte means to a number. -/
theorem numberEnd_cons {start : Nat} (h : Between text before (b :: rest) i) :
    numberEnd text start i = do
      let separates ← separatesDigits text start i b
      if Byte.continuesIdentifier b ∨ b = Byte.dot ∨ separates then numberEnd text start (i + 1)
      else return i := by
  rw [numberEnd, if_pos h.lt, h.getElem?_cons]
  rfl

/-- A quote separates digits if one stands on either side. -/
theorem separatesDigits_eq {start : Nat} {previous : UInt8}
    (h : Between text (previous :: before) (b :: rest) i) (hstart : start < i) :
    separatesDigits text start i b = some (decide (b = Byte.quote ∧ Byte.isAlphanumeric previous ∧
      rest.head?.any Byte.isAlphanumeric)) := by
  rw [separatesDigits, h.back.getElem?_cons, h.getElem?_succ]
  by_cases hquote : b = Byte.quote
  · simp [hquote, hstart]
  · simp [hquote]

/-- The end of a number is behind its body. -/
theorem numberEnd_eq {start : Nat} {previous : UInt8}
    (h : Between text (previous :: before) rest i) (hstart : start < i) :
    numberEnd text start i = some (i + (splitNumberBody previous rest).1.length) := by
  fun_induction splitNumberBody previous rest generalizing before i with
  | case1 previous =>
    rw [numberEnd, if_neg h.not_lt]
    rfl
  | case2 previous b rest hnumber body behind hsplit ih =>
    rw [numberEnd_cons h, separatesDigits_eq h hstart]
    simp only [Option.bind_eq_bind, Option.bind_some, decide_eq_true_eq, if_pos hnumber]
    rw [ih h.cons (by omega), hsplit]
    exact congrArg some (by simp only [List.length_cons]; omega)
  | case3 previous b rest hnumber =>
    rw [numberEnd_cons h, separatesDigits_eq h hstart]
    simp only [Option.bind_eq_bind, Option.bind_some, decide_eq_true_eq, if_neg hnumber]
    rfl

/-- The end of a number that begins at a digit. -/
theorem numberEnd_of_isDigit (h : Between text before (b :: rest) i) (hdigit : Byte.isDigit b) :
    numberEnd text i i = some (i + 1 + (splitNumberBody b rest).1.length) := by
  have hcontinues : Byte.continuesIdentifier b := by
    simp [Byte.continuesIdentifier, Byte.isAlphanumeric, hdigit]
  have hseparates : separatesDigits text i i b = some false := by
    rw [separatesDigits, if_neg fun hboth => Nat.lt_irrefl i hboth.2]
    rfl
  rw [numberEnd_cons h, hseparates]
  simp only [Option.bind_eq_bind, Option.bind_some, hcontinues, true_or, if_true]
  exact numberEnd_eq h.cons (Nat.lt_succ_self i)

/-- Bytes of a kind are skipped up to the first of another kind. -/
theorem skipWhile_eq {p : UInt8 → Bool} (h : Between text before rest i) :
    skipWhile p text i = some (i + (rest.takeWhile p).length) := by
  induction rest generalizing before i with
  | nil =>
    rw [skipWhile, if_neg h.not_lt]
    rfl
  | cons b rest ih =>
    rw [skipWhile, if_pos h.lt, h.getElem?_cons]
    simp only [Option.bind_eq_bind, Option.bind_some]
    by_cases hb : p b
    · rw [if_pos hb, ih h.cons, List.takeWhile_cons_of_pos hb]
      exact congrArg some (by simp only [List.length_cons]; omega)
    · rw [if_neg hb, List.takeWhile_cons_of_neg hb]
      rfl

end PlainSync.Cursor
