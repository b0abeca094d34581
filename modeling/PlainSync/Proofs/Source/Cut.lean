import PlainSync.Proofs.Source.Lexeme
import PlainSync.Source.ArgumentList

/-!
# Cutting a text between lexemes

A text that ends where a lexeme ends has the lexemes that stand there in every longer text.
What stands before a text is of no matter unless the text has a hash mark.
-/

namespace PlainSync.Source

/-- Stretches that are joined with commas, the first one apart. -/
theorem intercalate_comma (text : Bytes) (more : List Bytes) :
    [Byte.comma].intercalate (text :: more) = text ++ more.flatMap (Byte.comma :: ·) := by
  induction more generalizing text with
  | nil => simp
  | cons next more ih =>
    rw [List.intercalate_cons_cons, ih, List.flatMap_cons]
    simp

/-- A single stretch of white space is no argument. -/
theorem ArgumentList.arguments_eq_ite (list : ArgumentList) :
    list.arguments =
      if (list.first :: list.more).length = 1 ∧ list.inside.all Byte.isWhiteSpace then []
      else list.first :: list.more := by
  unfold ArgumentList.arguments ArgumentList.inside
  cases list.more <;> simp

/-! ## Scanners step by step -/

section Steps

variable {before rest text unit behind : Bytes} {b : UInt8} {span depth : Nat}

/-- No directive is found in an empty stretch. -/
theorem findDirective?_zero : findDirective? before text 0 = none := by
  rw [findDirective?]
  rfl

/-- The search goes on behind a comment or literal. -/
theorem findDirective?_trivia (hspan : span ≠ 0)
    (htrivia : splitTrivia? text = some (unit, behind)) :
    findDirective? before text span =
      (findDirective? (unit.reverse ++ before) behind (span - unit.length)).map
        (unit.length + ·) := by
  rw [findDirective?, if_neg hspan]
  split
  · next hsplit =>
    rw [htrivia, Option.some.injEq, Prod.mk.injEq] at hsplit
    rw [hsplit.1, hsplit.2]
  · next hsplit =>
    rw [htrivia] at hsplit
    cases hsplit

/-- What the next byte means to the search for a directive. -/
theorem findDirective?_cons (htrivia : splitTrivia? (b :: rest) = none) :
    findDirective? before (b :: rest) (span + 1) =
      if b = Byte.hash ∧ atLineStart before then some 0
      else (findDirective? (b :: before) rest span).map (1 + ·) := by
  rw [findDirective?, if_neg (Nat.succ_ne_zero span)]
  split
  · next hsplit =>
    rw [htrivia] at hsplit
    cases hsplit
  · rfl

/-- Arguments go on behind a comment or literal. -/
theorem splitArguments?_trivia (htrivia : splitTrivia? text = some (unit, behind)) :
    splitArguments? depth text = (splitArguments? depth behind).map (·.prepend unit) := by
  rw [splitArguments?]
  split
  · next hsplit =>
    rw [htrivia, Option.some.injEq, Prod.mk.injEq] at hsplit
    rw [hsplit.1, hsplit.2]
  · next hsplit =>
    rw [htrivia] at hsplit
    cases hsplit

/-- A text that is over closes no argument list. -/
theorem splitArguments?_nil : splitArguments? depth [] = none := by
  rw [splitArguments?]
  rfl

/-- What the next byte means to an argument list. -/
theorem splitArguments?_cons (htrivia : splitTrivia? (b :: rest) = none) :
    splitArguments? depth (b :: rest) =
      if b = Byte.closeParen ∧ depth = 0 then some ⟨[], [], rest⟩
      else if b = Byte.comma ∧ depth = 0 then (splitArguments? depth rest).map (·.separate)
      else if Byte.opensGroup b then (splitArguments? (depth + 1) rest).map (·.prepend [b])
      else if Byte.closesGroup b then (splitArguments? (depth - 1) rest).map (·.prepend [b])
      else (splitArguments? depth rest).map (·.prepend [b]) := by
  rw [splitArguments?]
  split
  · next hsplit =>
    rw [htrivia] at hsplit
    cases hsplit
  · rfl

end Steps

/-! ## Scanners on a front of a text -/

/-- Nothing stands in front of a text that is the whole. -/
theorem eq_nil_of_append_eq {body behind tail : Bytes} (hwhole : body ++ (behind ++ tail) = tail) :
    body = [] ∧ behind = [] := by
  have hlength := congrArg List.length hwhole
  simp only [List.length_append] at hlength
  exact ⟨List.eq_nil_of_length_eq_zero (by omega), List.eq_nil_of_length_eq_zero (by omega)⟩

/-- What a byte that escapes nothing means to a literal. -/
theorem splitLiteralBody_cons (mark : UInt8) {b : UInt8} (hb : b ≠ Byte.backslash)
    (rest : Bytes) :
    splitLiteralBody mark (b :: rest) =
      if b = Byte.newline then ([], b :: rest)
      else if b = mark then ([b], rest)
      else (b :: (splitLiteralBody mark rest).1, (splitLiteralBody mark rest).2) := by
  rw [splitLiteralBody.eq_def]
  simp only [if_neg hb]

/-- A byte that is no star goes into the comment. -/
theorem splitBlockCommentBody_cons {b : UInt8} (hb : b ≠ Byte.star) (rest : Bytes) :
    splitBlockCommentBody (b :: rest) =
      (b :: (splitBlockCommentBody rest).1, (splitBlockCommentBody rest).2) := by
  cases rest with
  | nil => rfl
  | cons c rest => rw [splitBlockCommentBody, if_neg fun hclose => hb hclose.1]

/-- A literal that ends in a text ends there whatever follows the text. -/
theorem splitLiteralBody_cut {mark : UInt8} {text tail body behind : Bytes}
    (hsplit : splitLiteralBody mark (text ++ tail) = (body, behind ++ tail)) :
    splitLiteralBody mark text = (body, behind) := by
  fun_induction splitLiteralBody mark text generalizing body behind with
  | case1 =>
    have hwhole := splitLiteralBody_append mark tail
    rw [List.nil_append] at hsplit
    rw [hsplit] at hwhole
    obtain ⟨rfl, rfl⟩ := eq_nil_of_append_eq hwhole
    rfl
  | case2 =>
    cases tail with
    | nil => simpa [splitLiteralBody] using hsplit
    | cons c tail =>
      -- The backslash takes a byte of the tail along.
      have hwhole := congrArg List.length (splitLiteralBody_append mark tail)
      simp only [List.cons_append, List.nil_append, splitLiteralBody, if_true,
        Prod.mk.injEq] at hsplit
      rw [hsplit.2] at hwhole
      simp only [List.length_append, List.length_cons] at hwhole
      omega
  | case3 c rest body' behind' hbody ih =>
    simp only [List.cons_append, splitLiteralBody, if_true, Prod.mk.injEq] at hsplit
    obtain ⟨rfl, hbehind⟩ := hsplit
    have hrest := ih (Prod.ext rfl hbehind)
    rw [hbody] at hrest
    rw [Prod.mk.injEq] at hrest
    rw [hrest.1, hrest.2]
  | case4 rest hnewline =>
    simp only [List.cons_append, splitLiteralBody_cons mark hnewline, if_true,
      Prod.mk.injEq] at hsplit
    obtain ⟨rfl, hbehind⟩ := hsplit
    rw [← List.cons_append] at hbehind
    rw [List.append_cancel_right hbehind]
  | case5 rest hescape hnewline =>
    simp only [List.cons_append, splitLiteralBody_cons _ hescape, if_neg hnewline, if_true,
      Prod.mk.injEq] at hsplit
    obtain ⟨rfl, hbehind⟩ := hsplit
    rw [List.append_cancel_right hbehind]
  | case6 b rest hescape hnewline hmark body' behind' hbody ih =>
    simp only [List.cons_append, splitLiteralBody_cons _ hescape, if_neg hnewline,
      if_neg hmark, Prod.mk.injEq] at hsplit
    obtain ⟨rfl, hbehind⟩ := hsplit
    have hrest := ih (Prod.ext rfl hbehind)
    rw [hbody] at hrest
    rw [Prod.mk.injEq] at hrest
    rw [hrest.1, hrest.2]

/-- A block comment that ends in a text ends there whatever follows the text. -/
theorem splitBlockCommentBody_cut {text tail body behind : Bytes}
    (hsplit : splitBlockCommentBody (text ++ tail) = (body, behind ++ tail)) :
    splitBlockCommentBody text = (body, behind) := by
  fun_induction splitBlockCommentBody text generalizing body behind with
  | case1 =>
    have hwhole := splitBlockCommentBody_append tail
    rw [List.nil_append] at hsplit
    rw [hsplit] at hwhole
    obtain ⟨rfl, rfl⟩ := eq_nil_of_append_eq hwhole
    rfl
  | case2 b =>
    cases tail with
    | nil => simpa [splitBlockCommentBody] using hsplit
    | cons c tail =>
      have hwhole := splitBlockCommentBody_append ([b] ++ c :: tail)
      rw [hsplit] at hwhole
      dsimp only at hwhole
      have hbehind : behind = [] := by
        cases body with
        | nil =>
          rw [List.singleton_append, splitBlockCommentBody] at hsplit
          split at hsplit <;> cases hsplit
        | cons d body =>
          have hlength := congrArg List.length hwhole
          simp only [List.length_append, List.length_cons, List.length_nil] at hlength
          exact List.eq_nil_of_length_eq_zero (by omega)
      subst hbehind
      rw [List.append_cancel_right hwhole]
  | case3 b c rest hclose =>
    simp only [List.cons_append, splitBlockCommentBody, if_pos hclose, Prod.mk.injEq] at hsplit
    obtain ⟨rfl, hbehind⟩ := hsplit
    rw [List.append_cancel_right hbehind]
  | case4 b c rest hclose body' behind' hbody ih =>
    simp only [List.cons_append, splitBlockCommentBody, if_neg hclose, Prod.mk.injEq] at hsplit
    obtain ⟨rfl, hbehind⟩ := hsplit
    have hrest := ih (Prod.ext rfl hbehind)
    rw [hbody, Prod.mk.injEq] at hrest
    rw [hrest.1, hrest.2, List.cons_append]

/-- Bytes of a kind that end in a text end there whatever follows the text. -/
theorem takeWhile_cut {p : UInt8 → Bool} {text tail body behind : Bytes}
    (hbody : (text ++ tail).takeWhile p = body)
    (hbehind : (text ++ tail).dropWhile p = behind ++ tail) :
    text.takeWhile p = body ∧ text.dropWhile p = behind := by
  induction text generalizing body with
  | nil =>
    have hwhole : (tail.takeWhile p) ++ tail.dropWhile p = tail := List.takeWhile_append_dropWhile
    rw [List.nil_append] at hbody hbehind
    rw [hbody, hbehind] at hwhole
    obtain ⟨rfl, rfl⟩ := eq_nil_of_append_eq hwhole
    exact ⟨rfl, rfl⟩
  | cons b rest ih =>
    rw [List.cons_append] at hbody hbehind
    by_cases hb : p b
    · rw [List.takeWhile_cons_of_pos hb] at hbody
      rw [List.dropWhile_cons_of_pos hb] at hbehind
      subst hbody
      obtain ⟨hfront, hback⟩ := ih rfl hbehind
      rw [List.takeWhile_cons_of_pos hb, List.dropWhile_cons_of_pos hb, hfront]
      exact ⟨rfl, hback⟩
    · rw [List.takeWhile_cons_of_neg hb] at hbody
      rw [List.dropWhile_cons_of_neg hb, ← List.cons_append] at hbehind
      rw [List.takeWhile_cons_of_neg hb, List.dropWhile_cons_of_neg hb]
      exact ⟨hbody, List.append_cancel_right hbehind⟩

/-- A number that ends in a text ends there whatever follows the text. -/
theorem splitNumberBody_cut {previous : UInt8} {text tail body behind : Bytes}
    (hsplit : splitNumberBody previous (text ++ tail) = (body, behind ++ tail)) :
    splitNumberBody previous text = (body, behind) := by
  fun_induction splitNumberBody previous text generalizing body behind with
  | case1 previous =>
    have hwhole := splitNumberBody_append previous tail
    rw [List.nil_append] at hsplit
    rw [hsplit] at hwhole
    obtain ⟨rfl, rfl⟩ := eq_nil_of_append_eq hwhole
    rfl
  | case2 previous b rest hnumber body' behind' hbody ih =>
    have hlonger : Byte.continuesIdentifier b ∨ b = Byte.dot ∨ (b = Byte.quote ∧
        Byte.isAlphanumeric previous ∧ (rest ++ tail).head?.any Byte.isAlphanumeric) := by
      rcases hnumber with hword | hdot | ⟨hquote, hprevious, hnext⟩
      · exact .inl hword
      · exact .inr (.inl hdot)
      · refine .inr (.inr ⟨hquote, hprevious, ?_⟩)
        cases rest with
        | nil => cases hnext
        | cons c rest => exact hnext
    simp only [List.cons_append, splitNumberBody, if_pos hlonger, Prod.mk.injEq] at hsplit
    obtain ⟨rfl, hbehind⟩ := hsplit
    have hrest := ih (Prod.ext rfl hbehind)
    rw [hbody, Prod.mk.injEq] at hrest
    rw [hrest.1, hrest.2]
  | case3 previous b rest hnumber =>
    rw [List.cons_append, splitNumberBody] at hsplit
    split at hsplit
    · -- A quote at the end of the front would take a byte of the tail along.
      next hlonger =>
      exfalso
      cases rest with
      | cons c rest => exact hnumber hlonger
      | nil =>
        rcases hlonger with hword | hdot | ⟨hquote, hprevious, hnext⟩
        · exact hnumber (.inl hword)
        · exact hnumber (.inr (.inl hdot))
        · cases tail with
          | nil => cases hnext
          | cons d tail =>
            have hd : Byte.continuesIdentifier d := by
              simp [Byte.continuesIdentifier, show Byte.isAlphanumeric d from hnext]
            have hwhole := splitNumberBody_append b (d :: tail)
            have hbehind : (splitNumberBody b (d :: tail)).2 = behind ++ d :: tail :=
              congrArg Prod.snd hsplit
            rw [hbehind] at hwhole
            have hnil := (eq_nil_of_append_eq hwhole).1
            rw [splitNumberBody, if_pos (.inl hd)] at hnil
            cases hnil
    · rw [Prod.mk.injEq, ← List.cons_append] at hsplit
      rw [hsplit.1, List.append_cancel_right hsplit.2]

/-- A directive that ends in a text ends there whatever follows the text. -/
theorem splitDirective_cut {before text tail body behind : Bytes}
    (hsplit : splitDirective before (text ++ tail) = (body, behind ++ tail)) :
    splitDirective before text = (body, behind) := by
  fun_induction splitDirective before text generalizing body behind with
  | case1 before =>
    have hwhole := splitDirective_append before tail
    rw [List.nil_append] at hsplit
    rw [hsplit] at hwhole
    obtain ⟨rfl, rfl⟩ := eq_nil_of_append_eq hwhole
    rfl
  | case2 before b rest hends =>
    rw [List.cons_append, splitDirective, if_pos hends, Prod.mk.injEq,
      ← List.cons_append] at hsplit
    rw [hsplit.1, List.append_cancel_right hsplit.2]
  | case3 before b rest hends body' behind' hbody ih =>
    simp only [List.cons_append, splitDirective, if_neg hends, Prod.mk.injEq] at hsplit
    obtain ⟨rfl, hbehind⟩ := hsplit
    have hrest := ih (Prod.ext rfl hbehind)
    rw [hbody, Prod.mk.injEq] at hrest
    rw [hrest.1, hrest.2]

/-- A comment takes its first two bytes, wherever the text is cut. -/
theorem two_le_of_splitTrivia? {rest unit behind : Bytes}
    (hsplit : splitTrivia? (Byte.slash :: rest) = some (unit, behind)) : 2 ≤ unit.length := by
  cases rest with
  | nil => cases hsplit
  | cons c rest =>
    simp only [splitTrivia?, if_true] at hsplit
    split at hsplit
    · cases hsplit
      simp
    · split at hsplit
      · cases hsplit
        simp
      · cases hsplit

/-- A comment or literal that ends in a text is read there whatever follows the text. -/
theorem splitTrivia?_cut {b : UInt8} {rest tail unit behind : Bytes}
    (hsplit : splitTrivia? (b :: (rest ++ tail)) = some (unit, behind ++ tail)) :
    splitTrivia? (b :: rest) = some (unit, behind) := by
  by_cases hslash : b = Byte.slash
  · subst hslash
    cases rest with
    | nil =>
      have htwo := two_le_of_splitTrivia? hsplit
      have hwhole := congrArg List.length (append_of_splitTrivia? hsplit)
      simp only [List.length_append, List.length_cons, List.nil_append] at hwhole
      omega
    | cons c rest =>
      simp only [List.cons_append, splitTrivia?, if_true] at hsplit ⊢
      by_cases hstar : c = Byte.star
      · simp only [if_pos hstar, Option.some.injEq, Prod.mk.injEq] at hsplit ⊢
        obtain ⟨rfl, hbehind⟩ := hsplit
        have hbody := splitBlockCommentBody_cut (Prod.ext rfl hbehind)
        rw [hbody]
        exact ⟨rfl, rfl⟩
      · simp only [if_neg hstar] at hsplit ⊢
        by_cases hline : c = Byte.slash
        · simp only [if_pos hline, splitLine, Option.some.injEq, Prod.mk.injEq] at hsplit ⊢
          obtain ⟨rfl, hbehind⟩ := hsplit
          obtain ⟨hfront, hback⟩ := takeWhile_cut rfl hbehind
          rw [hfront]
          exact ⟨rfl, hback⟩
        · rw [if_neg hline] at hsplit
          cases hsplit
  · simp only [splitTrivia?, if_neg hslash] at hsplit ⊢
    by_cases hquote : b = Byte.doubleQuote ∨ b = Byte.quote
    · simp only [if_pos hquote, splitLiteral, Option.some.injEq, Prod.mk.injEq] at hsplit ⊢
      obtain ⟨rfl, hbehind⟩ := hsplit
      have hbody := splitLiteralBody_cut (Prod.ext rfl hbehind)
      rw [hbody]
      exact ⟨rfl, rfl⟩
    · rw [if_neg hquote] at hsplit
      cases hsplit

/-- Where no comment or literal begins, none begins in the text alone. -/
theorem splitTrivia?_cut_none {b : UInt8} {rest tail : Bytes}
    (hsplit : splitTrivia? (b :: (rest ++ tail)) = none) : splitTrivia? (b :: rest) = none := by
  by_cases hslash : b = Byte.slash
  · subst hslash
    cases rest with
    | nil => rfl
    | cons c rest =>
      simp only [List.cons_append, splitTrivia?, if_true] at hsplit ⊢
      by_cases hstar : c = Byte.star
      · simp only [if_pos hstar] at hsplit
        cases hsplit
      · simp only [if_neg hstar] at hsplit ⊢
        by_cases hline : c = Byte.slash
        · simp only [if_pos hline] at hsplit
          cases hsplit
        · rw [if_neg hline]
  · simp only [splitTrivia?, if_neg hslash] at hsplit ⊢
    by_cases hquote : b = Byte.doubleQuote ∨ b = Byte.quote
    · rw [if_pos hquote] at hsplit
      cases hsplit
    · rw [if_neg hquote]

/-- The first lexeme of a text is that of every front that it is in. -/
theorem nextLexeme_cut {before rest tail behind : Bytes} {b : UInt8} {lexeme : Lexeme}
    (hnext : nextLexeme before b (rest ++ tail) = (lexeme, behind ++ tail)) :
    nextLexeme before b rest = (lexeme, behind) := by
  unfold nextLexeme at hnext ⊢
  split at hnext
  · next unit behind' htrivia =>
    rw [Prod.mk.injEq] at hnext
    obtain ⟨rfl, rfl⟩ := hnext
    rw [splitTrivia?_cut htrivia]
  · next htrivia =>
    rw [splitTrivia?_cut_none htrivia]
    dsimp only
    split at hnext
    · next hhash =>
      rw [if_pos hhash]
      rw [Prod.mk.injEq] at hnext
      rw [splitDirective_cut (Prod.ext rfl hnext.2)]
      rw [← hnext.1]
    · next hhash =>
      rw [if_neg hhash]
      split at hnext
      · next hdigit =>
        rw [if_pos hdigit]
        rw [Prod.mk.injEq] at hnext
        rw [splitNumberBody_cut (Prod.ext rfl hnext.2)]
        rw [← hnext.1]
      · next hdigit =>
        rw [if_neg hdigit]
        split at hnext
        · next hstarts =>
          rw [if_pos hstarts]
          rw [Prod.mk.injEq] at hnext
          obtain ⟨hfront, hback⟩ := takeWhile_cut rfl hnext.2
          rw [hfront, hback, ← hnext.1]
        · next hstarts =>
          rw [if_neg hstarts]
          rw [Prod.mk.injEq] at hnext
          rw [← hnext.1, List.append_cancel_right hnext.2]

/-- The lexemes of a text up to a cut between two of them. -/
theorem lexemes_cut {before text tail : Bytes} {front back : List Lexeme}
    (hlexemes : lexemes before (text ++ tail) = front ++ back) (hfront : textOf front = text) :
    lexemes before text = front ∧ lexemes (text.reverse ++ before) tail = back := by
  induction front generalizing before text with
  | nil =>
    subst hfront
    exact ⟨lexemes_nil before, hlexemes⟩
  | cons lexeme more ih =>
    have hnonempty : lexeme.text ≠ [] := by
      have hmem : lexeme ∈ lexemes before (text ++ tail) := by
        rw [hlexemes]
        exact List.mem_cons_self
      exact List.length_pos_iff.mp (length_text_pos_of_mem_lexemes hmem)
    cases text with
    | nil =>
      rw [textOf_cons] at hfront
      exact absurd (List.append_eq_nil_iff.mp hfront).1 hnonempty
    | cons b rest =>
      cases hnext : nextLexeme before b (rest ++ tail) with
      | mk first behind =>
        rw [List.cons_append, lexemes_cons hnext, List.cons_append, List.cons.injEq] at hlexemes
        obtain ⟨rfl, hlexemes⟩ := hlexemes
        have hbehind : behind = textOf more ++ tail := by
          have hwhole := append_of_nextLexeme hnext
          rw [← List.cons_append, ← hfront, textOf_cons, List.append_assoc] at hwhole
          exact List.append_cancel_left hwhole
        rw [hbehind] at hnext hlexemes
        obtain ⟨hmore, hback⟩ := ih hlexemes rfl
        rw [lexemes_cons (nextLexeme_cut hnext), hmore, ← hfront, textOf_cons,
          List.reverse_append, List.append_assoc]
        exact ⟨rfl, hback⟩

/-! ## Texts without hash marks -/

/-- No directive and no other hash mark is among the lexemes. -/
def Hashless (list : List Lexeme) : Prop :=
  ∀ lexeme ∈ list, lexeme ≠ .mark Byte.hash ∧ ∀ text, lexeme ≠ .directive text

/-- What stands in front of a lexeme matters to hash marks only. -/
theorem nextLexeme_of_hashless {before before' rest behind : Bytes} {b : UInt8}
    {lexeme : Lexeme} (hnext : nextLexeme before b rest = (lexeme, behind))
    (hhash : lexeme ≠ .mark Byte.hash) (hdirective : ∀ text, lexeme ≠ .directive text) :
    nextLexeme before' b rest = (lexeme, behind) := by
  unfold nextLexeme at hnext ⊢
  cases htrivia : splitTrivia? (b :: rest) with
  | some split =>
    rw [htrivia] at hnext
    exact hnext
  | none =>
    rw [htrivia] at hnext
    dsimp only at hnext ⊢
    by_cases hstart : b = Byte.hash ∧ atLineStart before
    · rw [if_pos hstart, Prod.mk.injEq] at hnext
      exact absurd hnext.1.symm (hdirective _)
    · rw [if_neg hstart] at hnext
      by_cases hstart' : b = Byte.hash ∧ atLineStart before'
      · -- In the first reading the hash mark is a lexeme of its own.
        obtain ⟨rfl, -⟩ := hstart'
        rw [if_neg (by decide), if_neg (by decide), Prod.mk.injEq] at hnext
        exact absurd hnext.1.symm hhash
      · rw [if_neg hstart']
        exact hnext

/-- What stands before a text without hash marks does not matter. -/
theorem lexemes_of_hashless {before before' text : Bytes}
    (hhashless : Hashless (lexemes before text)) :
    lexemes before' text = lexemes before text := by
  induction before, text using lexemes_induction generalizing before' with
  | nil before => rw [lexemes_nil, lexemes_nil]
  | cons hnext ih =>
    rw [lexemes_cons hnext] at hhashless ⊢
    obtain ⟨hhash, hdirective⟩ := hhashless _ List.mem_cons_self
    rw [lexemes_cons (nextLexeme_of_hashless hnext hhash hdirective)]
    rw [ih fun lexeme hlexeme => hhashless lexeme (List.mem_cons_of_mem _ hlexeme)]

end PlainSync.Source
