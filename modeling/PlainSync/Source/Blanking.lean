import PlainSync.Source.Trivia

/-!
# Blanking

Two ways to take text out of an operand without joining the tokens around it: put it on one
line, and drop its line comments. What goes is replaced by a space. The bytes `before` a
position are given last one first; they are bytes of the text that is read, not of the result.
-/

namespace PlainSync.Source

/-- The text with every comment and every line break replaced by a space. A backslash in
front of a line break becomes a space of its own. Literals and numbers are left alone. -/
def onOneLine (before text : Bytes) : Bytes :=
  match text with
  | [] => []
  | b :: rest =>
    if b = Byte.slash then
      match _trivia : splitTrivia? (b :: rest) with
      | some (unit, behind) => Byte.space :: onOneLine (unit.reverse ++ before) behind
      | none => b :: onOneLine (b :: before) rest
    else if Byte.isDigit b ∧ opensNumber before then
      let body := (splitNumberBody b rest).1
      b :: body ++ onOneLine (body.reverse ++ b :: before) (splitNumberBody b rest).2
    else if b = Byte.doubleQuote ∨ b = Byte.quote then
      let body := (splitLiteralBody b rest).1
      b :: body ++ onOneLine (body.reverse ++ b :: before) (splitLiteralBody b rest).2
    else if b = Byte.backslash ∧ rest.head?.any Byte.breaksLine then
      Byte.space :: onOneLine (b :: before) rest
    else if Byte.breaksLine b then Byte.space :: onOneLine (b :: before) rest
    else b :: onOneLine (b :: before) rest
termination_by text.length
decreasing_by
  · exact length_lt_of_splitTrivia? _trivia
  · simp
  · have whole := congrArg List.length (splitNumberBody_append b rest)
    simp only [List.length_append] at whole
    simp only [List.length_cons]
    omega
  · have whole := congrArg List.length (splitLiteralBody_append b rest)
    simp only [List.length_append] at whole
    simp only [List.length_cons]
    omega
  all_goals simp

/-- The text with every line comment replaced by a space. The end of the comment's line
stays, and so do block comments, literals and numbers. -/
def withoutLineComments (before text : Bytes) : Bytes :=
  match text with
  | [] => []
  | b :: rest =>
    if b = Byte.slash ∧ rest.head? = some Byte.slash then
      Byte.space :: withoutLineComments ((splitLine rest).1.reverse ++ b :: before)
        (splitLine rest).2
    else if Byte.isDigit b ∧ opensNumber before then
      let body := (splitNumberBody b rest).1
      b :: body ++ withoutLineComments (body.reverse ++ b :: before) (splitNumberBody b rest).2
    else
      match _trivia : splitTrivia? (b :: rest) with
      | some (unit, behind) => unit ++ withoutLineComments (unit.reverse ++ before) behind
      | none => b :: withoutLineComments (b :: before) rest
termination_by text.length
decreasing_by
  · have whole := congrArg List.length (splitLine_append rest)
    simp only [List.length_append] at whole
    simp only [List.length_cons]
    omega
  · have whole := congrArg List.length (splitNumberBody_append b rest)
    simp only [List.length_append] at whole
    simp only [List.length_cons]
    omega
  · exact length_lt_of_splitTrivia? _trivia
  · simp

end PlainSync.Source
