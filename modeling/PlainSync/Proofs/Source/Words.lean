import PlainSync.Proofs.Source.Lexeme

/-!
# Where words end

No identifier goes on from one lexeme into the next, so a word of the scan is a whole identifier
of the source.
-/

namespace PlainSync.Source

/-- No identifier goes on from the text `before` into the text behind it. -/
def WordsEnd (before text : Bytes) : Prop :=
  ∀ b ∈ before.head?, ∀ c ∈ text.head?,
    Byte.continuesIdentifier b = true → Byte.continuesIdentifier c = false

/-- No identifier goes on behind nothing. -/
theorem wordsEnd_nil (text : Bytes) : WordsEnd [] text := by
  simp [WordsEnd]

/-- A literal is closed by its mark, or ends in front of a line end or of nothing. -/
theorem splitLiteralBody_end (mark : UInt8) (text : Bytes) :
    (∀ c ∈ (splitLiteralBody mark text).2.head?, c = Byte.newline) ∨
      (splitLiteralBody mark text).1.getLast? = some mark := by
  fun_induction splitLiteralBody mark text with
  | case1 => exact .inl (by simp)
  | case2 => exact .inl (by simp)
  | case3 c rest body behind hbody ih =>
    rw [hbody] at ih
    refine ih.imp_right fun hlast => ?_
    rw [List.getLast?_cons, List.getLast?_cons, hlast]
    rfl
  | case4 rest => exact .inl fun c hc => (Option.some.inj hc).symm
  | case5 => exact .inr rfl
  | case6 b rest hescape hnewline hmark body behind hbody ih =>
    rw [hbody] at ih
    refine ih.imp_right fun hlast => ?_
    rw [List.getLast?_cons, hlast]
    rfl

/-- A block comment ends with the text or with a slash. -/
theorem splitBlockCommentBody_end (text : Bytes) :
    (splitBlockCommentBody text).2 = [] ∨
      (splitBlockCommentBody text).1.getLast? = some Byte.slash := by
  fun_induction splitBlockCommentBody text with
  | case1 => exact .inl rfl
  | case2 => exact .inl rfl
  | case3 b c rest hclose =>
    rw [hclose.2]
    exact .inr rfl
  | case4 b c rest hclose body behind hbody ih =>
    rw [hbody] at ih
    refine ih.imp_right fun hlast => ?_
    rw [List.getLast?_cons, hlast]
    rfl

/-- A line ends in front of a newline or with the text. -/
theorem splitLine_end (text : Bytes) : ∀ c ∈ (splitLine text).2.head?, c = Byte.newline := by
  intro c hc
  have hstop := List.head?_dropWhile_not (· ≠ Byte.newline) text
  rw [splitLine] at hc
  rw [Option.mem_def.mp hc] at hstop
  simpa using hstop

/-- A comment or literal ends with its slash or its mark, or in front of a line end or of
nothing. -/
theorem splitTrivia?_end {text unit behind : Bytes}
    (hsplit : splitTrivia? text = some (unit, behind)) :
    (∀ c ∈ behind.head?, c = Byte.newline) ∨
      ∃ b ∈ unit.getLast?, b = Byte.slash ∨ b = Byte.doubleQuote ∨ b = Byte.quote := by
  cases text with
  | nil => cases hsplit
  | cons b rest =>
    simp only [splitTrivia?] at hsplit
    split at hsplit
    · split at hsplit
      · cases hsplit
      · next c rest =>
        split at hsplit
        · cases hsplit
          rcases splitBlockCommentBody_end rest with hnil | hlast
          · rw [hnil]
            exact .inl (by simp)
          · refine .inr ⟨Byte.slash, ?_, .inl rfl⟩
            rw [List.getLast?_cons, List.getLast?_cons, hlast]
            rfl
        · split at hsplit
          · cases hsplit
            exact .inl (splitLine_end rest)
          · cases hsplit
    · split at hsplit
      · next hquote =>
        cases hsplit
        refine (splitLiteralBody_end b rest).imp_right fun hlast => ⟨b, ?_, .inr hquote⟩
        rw [List.getLast?_cons, hlast]
        rfl
      · cases hsplit

/-- A directive ends in front of a newline or with the text. -/
theorem splitDirective_end (before text : Bytes) :
    ∀ c ∈ (splitDirective before text).2.head?, c = Byte.newline := by
  fun_induction splitDirective before text with
  | case1 => simp
  | case2 before b rest hends =>
    intro c hc
    rw [← Option.some.inj hc]
    exact hends.1
  | case3 before b rest hends body behind hbody ih =>
    rwa [hbody] at ih

/-- A number ends in front of what continues no identifier. -/
theorem splitNumberBody_end (previous : UInt8) (text : Bytes) :
    ∀ c ∈ (splitNumberBody previous text).2.head?, Byte.continuesIdentifier c = false := by
  fun_induction splitNumberBody previous text with
  | case1 => simp
  | case2 previous b rest hnumber body behind hbody ih =>
    rwa [hbody] at ih
  | case3 previous b rest hnumber =>
    intro c hc
    rw [← Option.some.inj hc]
    exact Bool.eq_false_iff.mpr fun hword => hnumber (.inl hword)

/-- A byte of its own neither begins nor continues an identifier. -/
theorem not_continuesIdentifier_of_mark {before rest behind : Bytes} {b c : UInt8}
    (hnext : nextLexeme before b rest = (.mark c, behind)) :
    Byte.continuesIdentifier c = false := by
  unfold nextLexeme at hnext
  split at hnext
  · cases hnext
  · split at hnext
    · cases hnext
    · split at hnext
      · cases hnext
      · next hdigit =>
        split at hnext
        · cases hnext
        · next hstarts =>
          cases hnext
          simp only [Byte.startsIdentifier, Bool.not_eq_true, Bool.or_eq_false_iff]
            at hstarts hdigit
          simp [Byte.continuesIdentifier, Byte.isAlphanumeric, hstarts, hdigit]

/-- No identifier goes on behind a lexeme. -/
theorem wordsEnd_of_nextLexeme {before rest behind : Bytes} {b : UInt8} {lexeme : Lexeme}
    (hnext : nextLexeme before b rest = (lexeme, behind)) :
    WordsEnd (lexeme.text.reverse ++ before) behind := by
  have hnewline {c : UInt8} (hc : c = Byte.newline) : Byte.continuesIdentifier c = false := by
    rw [hc]
    decide
  intro d hd c hc hjoins
  cases firstLexeme hnext with
  | @trivia unit _ htrivia =>
    rcases splitTrivia?_end htrivia with hbehind | ⟨last, hlast, hends⟩
    · exact hnewline (hbehind c hc)
    · have hhead : (unit.reverse ++ before).head? = some last := by
        rw [List.head?_append, List.head?_reverse, Option.mem_def.mp hlast]
        rfl
      have hsame : last = d := Option.some.inj (hhead.symm.trans hd)
      rw [← hsame] at hjoins
      rcases hends with rfl | rfl | rfl <;> cases hjoins
  | directive htrivia hstart => exact hnewline (splitDirective_end _ _ c hc)
  | number htrivia hdigit => exact splitNumberBody_end _ _ c hc
  | word htrivia hstarts =>
    have hstop := List.head?_dropWhile_not Byte.continuesIdentifier rest
    rw [Option.mem_def.mp hc] at hstop
    simpa using hstop
  | mark htrivia hstart =>
    have hmark := not_continuesIdentifier_of_mark hnext
    cases hd
    rw [hmark] at hjoins
    cases hjoins

end PlainSync.Source
