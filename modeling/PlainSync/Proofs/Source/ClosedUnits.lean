import PlainSync.Proofs.Source.PastWords

/-!
# Closed comments and literals

A block comment that is closed, a line comment in front of its line end and a literal that is closed
are read up to their ends, whatever stands behind them.
-/

namespace PlainSync.Source

/-- Text that does not close the block comment that it stands in. -/
def KeepsOpen (body : Bytes) : Prop := ¬ [Byte.star, Byte.slash] <:+: body

instance (body : Bytes) : Decidable (KeepsOpen body) := inferInstanceAs (Decidable (¬ _))

/-- The block comment with the given text in it. -/
def blockComment (body : Bytes) : Bytes :=
  Byte.slash :: Byte.star :: (body ++ [Byte.star, Byte.slash])

/-- Text that can stand in a literal between two quotes `mark`: bytes on one line, and bytes behind
a backslash. -/
inductive LiteralBody (mark : UInt8) : Bytes → Prop
  | nil : LiteralBody mark []
  | byte {b : UInt8} {rest : Bytes} (hescape : b ≠ Byte.backslash) (hline : b ≠ Byte.newline)
    (hmark : b ≠ mark) (hrest : LiteralBody mark rest) : LiteralBody mark (b :: rest)
  | escape {b : UInt8} {rest : Bytes} (hrest : LiteralBody mark rest) :
    LiteralBody mark (Byte.backslash :: b :: rest)

section ClosedUnits

variable {body : Bytes} {mark : UInt8}

/-- A block comment ends at its first mark, if its body keeps it open. -/
theorem splitBlockCommentBody_closed (hbody : KeepsOpen body) (behind : Bytes) :
    splitBlockCommentBody (body ++ Byte.star :: Byte.slash :: behind) =
      (body ++ [Byte.star, Byte.slash], behind) := by
  induction body with
  | nil => rfl
  | cons b rest ih =>
    have hclose : ¬ (b = Byte.star ∧
        (rest ++ Byte.star :: Byte.slash :: behind).head? = some Byte.slash) := by
      rintro ⟨rfl, hhead⟩
      cases rest with
      | nil => exact absurd (Option.some.inj hhead) (by decide)
      | cons c rest =>
        obtain rfl : c = Byte.slash := Option.some.inj hhead
        exact hbody ⟨[], rest, rfl⟩
    have hrest : KeepsOpen rest := fun hcloses =>
      hbody (hcloses.trans (List.suffix_cons b rest).isInfix)
    rw [List.cons_append, splitBlockCommentBody_step _ hclose, ih hrest]
    rfl

/-- A block comment is read as one unit. -/
theorem splitTrivia?_blockComment (hbody : KeepsOpen body) (behind : Bytes) :
    splitTrivia? (blockComment body ++ behind) = some (blockComment body, behind) := by
  have hclosed := splitBlockCommentBody_closed hbody behind
  simp only [blockComment, List.cons_append, List.append_assoc, List.nil_append, splitTrivia?,
    if_true, hclosed]

/-- A line comment is read up to the end of its line. -/
theorem splitTrivia?_lineComment_newline (hbody : Byte.newline ∉ body) (behind : Bytes) :
    splitTrivia? (Byte.slash :: Byte.slash :: (body ++ Byte.newline :: behind)) =
      some (Byte.slash :: Byte.slash :: body, Byte.newline :: behind) := by
  have hall : ∀ b ∈ body, decide (b ≠ Byte.newline) = true := fun b hb =>
    decide_eq_true fun hsame => hbody (hsame ▸ hb)
  have hslash : Byte.slash ≠ Byte.star := by decide
  simp only [splitTrivia?, if_true, if_neg hslash, splitLine, List.takeWhile_append_of_pos hall,
    List.dropWhile_append_of_pos hall, List.takeWhile_cons, List.dropWhile_cons, ne_eq,
    not_true_eq_false, decide_false, Bool.false_eq_true, if_false, List.append_nil]

/-- A literal ends at its first quotation mark that is not escaped. -/
theorem splitLiteralBody_closed (hmark : mark ≠ Byte.backslash ∧ mark ≠ Byte.newline)
    (hbody : LiteralBody mark body) (behind : Bytes) :
    splitLiteralBody mark (body ++ mark :: behind) = (body ++ [mark], behind) := by
  induction hbody with
  | nil =>
    rw [List.nil_append, splitLiteralBody_cons mark hmark.1, if_neg hmark.2, if_pos rfl]
    rfl
  | byte hescape hline hquote _ ih =>
    rw [List.cons_append, splitLiteralBody_cons mark hescape, if_neg hline, if_neg hquote, ih]
    rfl
  | escape _ ih =>
    rw [List.cons_append, List.cons_append, splitLiteralBody, if_pos rfl, ih]
    rfl

/-- A literal is read as one unit. -/
theorem splitTrivia?_literal (hmark : mark = Byte.doubleQuote ∨ mark = Byte.quote)
    (hbody : LiteralBody mark body) (behind : Bytes) :
    splitTrivia? (mark :: (body ++ mark :: behind)) = some (mark :: (body ++ [mark]), behind) := by
  have hslash : mark ≠ Byte.slash := by rcases hmark with rfl | rfl <;> decide
  have hplain : mark ≠ Byte.backslash ∧ mark ≠ Byte.newline := by
    rcases hmark with rfl | rfl <;> decide
  simp only [splitTrivia?, if_neg hslash, if_pos hmark, splitLiteral,
    splitLiteralBody_closed hplain hbody]

end ClosedUnits

end PlainSync.Source
