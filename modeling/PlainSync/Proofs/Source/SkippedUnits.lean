import PlainSync.Proofs.Source.ClosedUnits
import PlainSync.Proofs.Source.Regions

/-!
# What a scan skips

Rules for the units that are skipped as a whole, in front of what stands behind them: block comments
and literals, closed or not, and numbers with digit separators. The scanners split a text exactly
by these rules.
-/

namespace PlainSync.Source

/-- A block comment ends with the first star that has a slash behind it, or takes all. -/
inductive BlockComment : Bytes → Bytes → Prop
  | closed {body behind : Bytes} (hbody : KeepsOpen body) : BlockComment (blockComment body) behind
  | unclosed {body : Bytes} (hbody : KeepsOpen body) :
    BlockComment (Byte.slash :: Byte.star :: body) []

/-- A literal ends with a quote like its first one, in front of the end of its line, or with the
text. A backslash takes the byte behind it along, if there is one. -/
inductive Literal : Bytes → Bytes → Prop
  | closed {mark : UInt8} {body behind : Bytes}
    (hmark : mark = Byte.doubleQuote ∨ mark = Byte.quote) (hbody : LiteralBody mark body) :
    Literal (mark :: (body ++ [mark])) behind
  | unclosed {mark : UInt8} {body behind : Bytes}
    (hmark : mark = Byte.doubleQuote ∨ mark = Byte.quote) (hbody : LiteralBody mark body)
    (hend : ∀ b ∈ behind.head?, b = Byte.newline) : Literal (mark :: body) behind
  | escape {mark : UInt8} {body : Bytes} (hmark : mark = Byte.doubleQuote ∨ mark = Byte.quote)
    (hbody : LiteralBody mark body) : Literal (mark :: (body ++ [Byte.backslash])) []

/-- What a number can have behind the byte `previous`: letters, digits, underscores and dots, and
quotes between two letters or digits. -/
inductive NumberBody : UInt8 → Bytes → Prop
  | nil {previous : UInt8} : NumberBody previous []
  | byte {previous b : UInt8} {rest : Bytes} (hb : Byte.continuesIdentifier b ∨ b = Byte.dot)
    (hrest : NumberBody b rest) : NumberBody previous (b :: rest)
  | separator {previous b : UInt8} {rest : Bytes} (hprevious : Byte.isAlphanumeric previous)
    (hb : Byte.isAlphanumeric b) (hrest : NumberBody b rest) :
    NumberBody previous (Byte.quote :: b :: rest)

/-- The digit `first` and `rest` are a number in front of the text behind it, and no longer one
begins there. -/
structure Number (first : UInt8) (rest behind : Bytes) : Prop where
  isDigit_first : Byte.isDigit first
  numberBody : NumberBody first rest
  longest : ∀ more, NumberBody (rest.getLastD first) more → more <+: behind → more = []

/-! ## Lines -/

/-- A line ends at its newline or with the text. -/
theorem splitLine_of_line {body behind : Bytes} (hbody : Byte.newline ∉ body)
    (hend : ∀ b ∈ behind.head?, b = Byte.newline) :
    splitLine (body ++ behind) = (body, behind) := by
  have hline : ∀ b ∈ body, decide (b ≠ Byte.newline) := fun b hb =>
    decide_eq_true fun hsame => hbody (hsame ▸ hb)
  rw [splitLine, List.takeWhile_append_of_pos hline, List.dropWhile_append_of_pos hline]
  cases behind with
  | nil => rw [List.takeWhile_nil, List.dropWhile_nil, List.append_nil]
  | cons b rest =>
    obtain rfl := hend b rfl
    rw [List.takeWhile_cons_of_neg (by decide), List.dropWhile_cons_of_neg (by decide),
      List.append_nil]

/-! ## Block comments -/

section BlockComment

variable {text behind body rest : Bytes}

/-- A body keeps a comment open from any byte on. -/
theorem KeepsOpen.of_cons {b : UInt8} (hbody : KeepsOpen (b :: body)) : KeepsOpen body :=
  fun hcloses => hbody (hcloses.trans (List.suffix_cons b body).isInfix)

/-- A byte that closes nothing keeps a comment open. -/
theorem KeepsOpen.cons {b : UInt8} (hbody : KeepsOpen body)
    (hopen : ¬ (b = Byte.star ∧ body.head? = some Byte.slash)) : KeepsOpen (b :: body) := by
  intro hcloses
  rcases List.infix_cons_iff.mp hcloses with hfront | hinside
  · obtain ⟨more, hmore⟩ := hfront
    obtain ⟨rfl, hrest⟩ := List.cons.inj hmore
    exact hopen ⟨rfl, by rw [← hrest]; rfl⟩
  · exact hbody hinside

/-- A comment that nothing closes ends with the text. -/
theorem splitBlockCommentBody_of_keepsOpen (hbody : KeepsOpen body) :
    splitBlockCommentBody body = (body, []) := by
  induction body with
  | nil => rfl
  | cons b rest ih =>
    have hopen : ¬ (b = Byte.star ∧ rest.head? = some Byte.slash) := by
      rintro ⟨rfl, hhead⟩
      obtain ⟨more, rfl⟩ := List.head?_eq_some_iff.mp hhead
      exact hbody (List.prefix_append [Byte.star, Byte.slash] more).isInfix
    rw [splitBlockCommentBody_step rest hopen, ih hbody.of_cons]

/-- A block comment is read as one unit. -/
theorem splitTrivia?_of_blockComment (hcomment : BlockComment text behind) :
    splitTrivia? (text ++ behind) = some (text, behind) := by
  cases hcomment with
  | closed hbody => exact splitTrivia?_blockComment hbody behind
  | @unclosed body hbody =>
    have hsplit := splitBlockCommentBody_of_keepsOpen hbody
    simp only [List.append_nil, splitTrivia?, if_true, hsplit]

/-- A block comment is closed by its first mark, or by the end of the text. -/
theorem exists_splitBlockCommentBody_eq (text : Bytes) :
    (∃ body, KeepsOpen body ∧
        (splitBlockCommentBody text).1 = body ++ [Byte.star, Byte.slash]) ∨
      KeepsOpen (splitBlockCommentBody text).1 ∧ (splitBlockCommentBody text).2 = [] := by
  fun_induction splitBlockCommentBody text with
  | case1 => exact .inr ⟨by decide, rfl⟩
  | case2 b =>
    have hnil : KeepsOpen [] := by decide
    exact .inr ⟨hnil.cons fun hcloses => Option.some_ne_none _ hcloses.2.symm, rfl⟩
  | case3 b c rest hclose => exact .inl ⟨[], by decide, by rw [hclose.1, hclose.2]; rfl⟩
  | case4 b c rest hclose front behind hsplit ih =>
    have hwhole := splitBlockCommentBody_append (c :: rest)
    rw [hsplit] at ih hwhole
    -- Text in front of the rest begins with the byte that the rest begins with.
    have hopen {body more : Bytes} (hbody : body ++ more = c :: rest) :
        ¬ (b = Byte.star ∧ body.head? = some Byte.slash) := by
      rintro ⟨hstar, hhead⟩
      obtain ⟨others, rfl⟩ := List.head?_eq_some_iff.mp hhead
      exact hclose ⟨hstar, (List.cons.inj hbody).1.symm⟩
    rcases ih with ⟨body, hbody, hfront⟩ | ⟨hfront, hnil⟩
    · rw [hfront, List.append_assoc] at hwhole
      exact .inl ⟨b :: body, hbody.cons (hopen hwhole), congrArg (b :: ·) hfront⟩
    · exact .inr ⟨hfront.cons (hopen hwhole), hnil⟩

/-- What is read as a block comment is one. -/
theorem blockComment_splitBlockCommentBody (text : Bytes) :
    BlockComment (Byte.slash :: Byte.star :: (splitBlockCommentBody text).1)
      (splitBlockCommentBody text).2 := by
  rcases exists_splitBlockCommentBody_eq text with ⟨body, hbody, hfront⟩ | ⟨hbody, hnil⟩
  · rw [hfront]
    exact .closed hbody
  · rw [hnil]
    exact .unclosed hbody

/-- What stands behind a block comment can be exchanged, but text only for text. -/
theorem BlockComment.exchange {behind' : Bytes} (hcomment : BlockComment text behind)
    (hnil : behind = [] → behind' = []) : BlockComment text behind' := by
  cases hcomment with
  | closed hbody => exact .closed hbody
  | unclosed hbody =>
    rw [hnil rfl]
    exact .unclosed hbody

/-- A block comment begins with its opening. -/
theorem BlockComment.exists_eq (hcomment : BlockComment text behind) :
    ∃ body, text = Byte.slash :: Byte.star :: body := by
  cases hcomment with
  | @closed body => exact ⟨body ++ [Byte.star, Byte.slash], rfl⟩
  | @unclosed body => exact ⟨body, rfl⟩

end BlockComment

/-! ## Literals -/

section Literal

variable {mark : UInt8} {text behind body : Bytes}

/-- A literal goes on behind text that does not close it. -/
theorem splitLiteralBody_past (hbody : LiteralBody mark body) (rest : Bytes) :
    splitLiteralBody mark (body ++ rest) =
      (body ++ (splitLiteralBody mark rest).1, (splitLiteralBody mark rest).2) := by
  induction hbody with
  | nil => rfl
  | byte hescape hline hmark _ ih =>
    rw [List.cons_append, splitLiteralBody_cons mark hescape, if_neg hline, if_neg hmark, ih]
    rfl
  | escape _ ih =>
    rw [List.cons_append, List.cons_append, splitLiteralBody, if_pos rfl, ih]
    rfl

/-- A literal that is not closed ends with its line. -/
theorem splitLiteralBody_of_line (hend : ∀ b ∈ behind.head?, b = Byte.newline) :
    splitLiteralBody mark behind = ([], behind) := by
  cases behind with
  | nil => rfl
  | cons b rest =>
    obtain rfl := hend b rfl
    rw [splitLiteralBody_cons mark (by decide), if_pos rfl]

/-- A quotation mark opens a literal. -/
theorem splitTrivia?_quote (hmark : mark = Byte.doubleQuote ∨ mark = Byte.quote) (rest : Bytes) :
    splitTrivia? (mark :: rest) =
      some (mark :: (splitLiteralBody mark rest).1, (splitLiteralBody mark rest).2) := by
  have hslash : mark ≠ Byte.slash := by rcases hmark with rfl | rfl <;> decide
  simp only [splitTrivia?, if_neg hslash, if_pos hmark, splitLiteral]

/-- A literal is read as one unit. -/
theorem splitTrivia?_of_literal (hliteral : Literal text behind) :
    splitTrivia? (text ++ behind) = some (text, behind) := by
  cases hliteral with
  | @closed mark body _ hmark hbody =>
    rw [List.cons_append, List.append_assoc]
    exact splitTrivia?_literal hmark hbody behind
  | @unclosed mark body _ hmark hbody hend =>
    rw [List.cons_append, splitTrivia?_quote hmark, splitLiteralBody_past hbody,
      splitLiteralBody_of_line hend, List.append_nil]
  | @escape mark body hmark hbody =>
    rw [List.append_nil, splitTrivia?_quote hmark, splitLiteralBody_past hbody]
    rfl

/-- A literal is closed by its mark, by the end of its line or by that of the text, perhaps within
an escape. -/
theorem exists_splitLiteralBody_eq (mark : UInt8) (text : Bytes) :
    (∃ body, LiteralBody mark body ∧ (splitLiteralBody mark text).1 = body ++ [mark]) ∨
      LiteralBody mark (splitLiteralBody mark text).1 ∧
        (∀ b ∈ (splitLiteralBody mark text).2.head?, b = Byte.newline) ∨
      ∃ body, LiteralBody mark body ∧ (splitLiteralBody mark text).1 = body ++ [Byte.backslash] ∧
        (splitLiteralBody mark text).2 = [] := by
  fun_induction splitLiteralBody mark text with
  | case1 => exact .inr (.inl ⟨.nil, fun b hb => absurd hb (Option.not_mem_none b)⟩)
  | case2 => exact .inr (.inr ⟨[], .nil, rfl, rfl⟩)
  | case3 c rest front behind hsplit ih =>
    rw [hsplit] at ih
    rcases ih with ⟨body, hbody, hfront⟩ | ⟨hbody, hend⟩ | ⟨body, hbody, hfront, hnil⟩
    · exact .inl ⟨_ :: c :: body, .escape hbody, congrArg (_ :: c :: ·) hfront⟩
    · exact .inr (.inl ⟨.escape hbody, hend⟩)
    · exact .inr (.inr ⟨_ :: c :: body, .escape hbody, congrArg (_ :: c :: ·) hfront, hnil⟩)
  | case4 rest hescape => exact .inr (.inl ⟨.nil, fun b hb => (Option.some.inj hb).symm⟩)
  | case5 rest hescape hline => exact .inl ⟨[], .nil, rfl⟩
  | case6 b rest hescape hline hmark front behind hsplit ih =>
    rw [hsplit] at ih
    rcases ih with ⟨body, hbody, hfront⟩ | ⟨hbody, hend⟩ | ⟨body, hbody, hfront, hnil⟩
    · exact .inl ⟨b :: body, .byte hescape hline hmark hbody, congrArg (b :: ·) hfront⟩
    · exact .inr (.inl ⟨.byte hescape hline hmark hbody, hend⟩)
    · exact .inr (.inr ⟨b :: body, .byte hescape hline hmark hbody, congrArg (b :: ·) hfront, hnil⟩)

/-- What is read as a literal is one. -/
theorem literal_splitLiteralBody (hmark : mark = Byte.doubleQuote ∨ mark = Byte.quote)
    (text : Bytes) :
    Literal (mark :: (splitLiteralBody mark text).1) (splitLiteralBody mark text).2 := by
  rcases exists_splitLiteralBody_eq mark text with
    ⟨body, hbody, hfront⟩ | ⟨hbody, hend⟩ | ⟨body, hbody, hfront, hnil⟩
  · rw [hfront]
    exact .closed hmark hbody
  · exact .unclosed hmark hbody hend
  · rw [hfront, hnil]
    exact .escape hmark hbody

/-- What stands behind a literal can be exchanged, but a line end only for a line end. -/
theorem Literal.exchange {behind' : Bytes} (hliteral : Literal text behind)
    (hhead : (∀ b ∈ behind.head?, b = Byte.newline) → behind'.head? = behind.head?) :
    Literal text behind' := by
  cases hliteral with
  | closed hmark hbody => exact .closed hmark hbody
  | unclosed hmark hbody hend =>
    rw [← hhead hend] at hend
    exact .unclosed hmark hbody hend
  | escape hmark hbody =>
    rw [List.head?_eq_none_iff.mp (hhead nofun)]
    exact .escape hmark hbody

/-- A literal begins with a quotation mark. -/
theorem Literal.exists_eq (hliteral : Literal text behind) :
    ∃ mark body, (mark = Byte.doubleQuote ∨ mark = Byte.quote) ∧ text = mark :: body := by
  cases hliteral with
  | @closed mark body _ hmark => exact ⟨mark, body ++ [mark], hmark, rfl⟩
  | @unclosed mark body _ hmark => exact ⟨mark, body, hmark, rfl⟩
  | @escape mark body hmark => exact ⟨mark, body ++ [Byte.backslash], hmark, rfl⟩

end Literal

/-! ## What begins with a comment or literal -/

section Trivia

variable {b : UInt8} {text rest behind : Bytes}

/-- What is split off, if it is no line comment, is a block comment or a literal. -/
theorem blockComment_or_literal_of_splitTrivia?
    (hline : ¬ (b = Byte.slash ∧ rest.head? = some Byte.slash))
    (hsplit : splitTrivia? (b :: rest) = some (text, behind)) :
    BlockComment text behind ∨ Literal text behind := by
  by_cases hslash : b = Byte.slash
  · subst hslash
    cases rest with
    | nil => cases hsplit
    | cons c rest =>
      have hc : c ≠ Byte.slash := fun hc => hline ⟨rfl, congrArg some hc⟩
      by_cases hstar : c = Byte.star
      · subst hstar
        simp only [splitTrivia?, if_true, Option.some.injEq, Prod.mk.injEq] at hsplit
        obtain ⟨rfl, rfl⟩ := hsplit
        exact .inl (blockComment_splitBlockCommentBody rest)
      · simp only [splitTrivia?, if_true, if_neg hstar, if_neg hc] at hsplit
        cases hsplit
  · by_cases hmark : b = Byte.doubleQuote ∨ b = Byte.quote
    · rw [splitTrivia?_quote hmark] at hsplit
      cases hsplit
      exact .inr (literal_splitLiteralBody hmark rest)
    · simp only [splitTrivia?, if_neg hslash, if_neg hmark] at hsplit
      cases hsplit

/-- Quotes begin a literal, and a slash in front of a slash or a star begins a comment. -/
theorem splitTrivia?_eq_none_iff :
    splitTrivia? (b :: rest) = none ↔
      (b = Byte.slash → ∀ c ∈ rest.head?, c ≠ Byte.slash ∧ c ≠ Byte.star) ∧
        b ≠ Byte.doubleQuote ∧ b ≠ Byte.quote := by
  by_cases hslash : b = Byte.slash
  · subst hslash
    have hquote : Byte.slash ≠ Byte.doubleQuote ∧ Byte.slash ≠ Byte.quote := by decide
    cases rest with
    | nil => exact iff_of_true rfl ⟨fun _ => nofun, hquote⟩
    | cons c rest => by_cases hstar : c = Byte.star <;> simp [splitTrivia?, hstar, hquote]
  · simp [splitTrivia?, hslash]

end Trivia

/-! ## Numbers -/

section Number

variable {previous first : UInt8} {body behind rest : Bytes}

/-- Letters and digits continue identifiers. -/
theorem continuesIdentifier_of_isAlphanumeric {b : UInt8} (hb : Byte.isAlphanumeric b) :
    Byte.continuesIdentifier b := by
  simp [Byte.continuesIdentifier, hb]

/-- A number behind a quote has a letter or digit there that goes on alike behind any byte. -/
theorem NumberBody.separated {b : UInt8} (hprevious : Byte.isAlphanumeric previous)
    (hb : Byte.isAlphanumeric b) (hbody : NumberBody Byte.quote (b :: rest)) :
    NumberBody previous (Byte.quote :: b :: rest) := by
  cases hbody with
  | byte _ hrest => exact .separator hprevious hb hrest
  | separator hquote _ _ => exact absurd hquote (by decide)

/-- What is read as the body of a number is one. -/
theorem numberBody_splitNumberBody (previous : UInt8) (text : Bytes) :
    NumberBody previous (splitNumberBody previous text).1 := by
  fun_induction splitNumberBody previous text with
  | case1 => exact .nil
  | case2 previous b rest hgoes front behind hsplit ih =>
    rw [hsplit] at ih
    rcases hgoes with hword | hdot | ⟨rfl, hprevious, hnext⟩
    · exact .byte (.inl hword) ih
    · exact .byte (.inr hdot) ih
    · -- The letter or digit behind the quote belongs to the number.
      cases rest with
      | nil => cases hnext
      | cons c rest =>
        have hc : Byte.isAlphanumeric c := hnext
        rw [splitNumberBody, if_pos (.inl (continuesIdentifier_of_isAlphanumeric hc)),
          Prod.mk.injEq] at hsplit
        rw [← hsplit.1] at ih ⊢
        exact ih.separated hprevious hc
  | case3 => exact .nil

/-- A number goes on behind text that belongs to it. -/
theorem splitNumberBody_past (hbody : NumberBody previous body) (rest : Bytes) :
    splitNumberBody previous (body ++ rest) =
      (body ++ (splitNumberBody (body.getLastD previous) rest).1,
        (splitNumberBody (body.getLastD previous) rest).2) := by
  induction hbody with
  | nil => rfl
  | byte hb _ ih =>
    rw [List.cons_append, splitNumberBody, if_pos (or_assoc.mp (.inl hb)), ih, List.getLastD_cons]
    rfl
  | @separator previous b rest' hprevious hb _ ih =>
    have hword := continuesIdentifier_of_isAlphanumeric hb
    rw [List.cons_append, List.cons_append, splitNumberBody,
      if_pos (.inr (.inr ⟨rfl, hprevious, hb⟩)), splitNumberBody, if_pos (.inl hword), ih,
      List.getLastD_cons, List.getLastD_cons]
    rfl

/-- The scanner reads the longest number. -/
theorem splitNumberBody_of_number (hnumber : Number first rest behind) :
    splitNumberBody first (rest ++ behind) = (rest, behind) := by
  have hwhole := splitNumberBody_append (rest.getLastD first) behind
  have hnone := hnumber.longest _ (numberBody_splitNumberBody _ behind) ⟨_, hwhole⟩
  rw [hnone, List.nil_append] at hwhole
  rw [splitNumberBody_past hnumber.numberBody, hnone, hwhole, List.append_nil]

/-- What is read as a number is one. -/
theorem number_splitNumberBody (hdigit : Byte.isDigit first) (text : Bytes) :
    Number first (splitNumberBody first text).1 (splitNumberBody first text).2 := by
  have hbody := numberBody_splitNumberBody first text
  refine ⟨hdigit, hbody, ?_⟩
  rintro more hmore ⟨behind, hbehind⟩
  have hwhole := splitNumberBody_append first text
  have hpast := congrArg Prod.fst (splitNumberBody_past hbody (more ++ behind))
  rw [hbehind, hwhole, ← hbehind, splitNumberBody_past hmore] at hpast
  have hnone := List.append_right_eq_self.mp hpast.symm
  exact (List.append_eq_nil_iff.mp hnone).1

end Number

end PlainSync.Source
