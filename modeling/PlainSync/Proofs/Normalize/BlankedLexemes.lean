import PlainSync.Proofs.Normalize.TidyLexemes
import PlainSync.Proofs.Source.PastWords

/-!
# The lexemes of a blanked operand

Dropping line comments and putting text on one line go from lexeme to lexeme: each is copied, or
a space takes its place. So the text of an operand has known lexemes, all of them over.
-/

namespace PlainSync.Source

open Bytes

/-- The same lexeme, or a space in the place of one that fades. -/
def BlanksTo (lexeme lexeme' : Lexeme) : Prop :=
  lexeme'.Firm ∧ (lexeme' = lexeme ∨ fades lexeme.text ∧ lexeme' = .mark Byte.space)

/-- A way of blanking goes from lexeme to lexeme. -/
structure GoesByLexeme (blank : Bytes → Bytes → Bytes) : Prop where
  nil : ∀ before, blank before [] = []
  step : ∀ {before behind : Bytes} {lexeme : Lexeme}, lexeme.StandsBefore behind →
    lexeme.Firm ∨ isLineComment lexeme.text → WordsEnd before lexeme.text →
      ∃ lexeme', BlanksTo lexeme lexeme' ∧
        blank before (lexeme.text ++ behind) =
          lexeme'.text ++ blank (lexeme.text.reverse ++ before) behind

/-- A lexeme that is no line comment may stay. -/
theorem BlanksTo.same {lexeme : Lexeme} (hsound : lexeme.Firm ∨ isLineComment lexeme.text)
    (hcomment : ¬ isLineComment lexeme.text) : BlanksTo lexeme lexeme :=
  ⟨hsound.resolve_right hcomment, .inl rfl⟩

/-- A lexeme that fades may become a space. -/
theorem BlanksTo.space {lexeme : Lexeme} (hfades : fades lexeme.text) :
    BlanksTo lexeme (.mark Byte.space) :=
  ⟨firm_mark (by decide), .inr ⟨hfades, rfl⟩⟩

/-- A number opens where no identifier goes on. -/
theorem opensNumber_of_wordsEnd {before rest : Bytes} {b : UInt8}
    (hends : WordsEnd before (b :: rest)) (hb : Byte.continuesIdentifier b) :
    opensNumber before := by
  cases before with
  | nil => rfl
  | cons c before =>
    have hc : Byte.continuesIdentifier c = false := by
      rw [Bool.eq_false_iff]
      intro hcontinues
      rw [hends c rfl b rfl hcontinues] at hb
      cases hb
    simp [opensNumber, hc]

/-- A line comment begins with a slash. -/
theorem not_isLineComment {b : UInt8} (hb : b ≠ Byte.slash) (rest : Bytes) :
    ¬ isLineComment (b :: rest) := by
  rintro ⟨line, hline⟩
  exact hb (List.cons.inj hline).1.symm

/-! ## What takes the place of a lexeme -/

namespace Lexeme

/-- A space in the place of a line comment. -/
def bare (lexeme : Lexeme) : Lexeme :=
  if isLineComment lexeme.text then .mark Byte.space else lexeme

/-- A space in the place of a comment, of a line break and of a backslash in front of one. -/
def flat (behind : Bytes) : Lexeme → Lexeme
  | trivia text => if text.head? = some Byte.slash then .mark Byte.space else .trivia text
  | mark b =>
    if b = Byte.backslash ∧ behind.head?.any Byte.breaksLine ∨ Byte.breaksLine b then
      .mark Byte.space
    else .mark b
  | lexeme => lexeme

end Lexeme

section Steps

variable {before behind : Bytes} {lexeme : Lexeme}

/-- A lexeme that is no line comment is bare already. -/
theorem bare_eq_self (lexeme : Lexeme) (hcomment : ¬ isLineComment lexeme.text) :
    lexeme.bare = lexeme :=
  if_neg hcomment

/-- Line comments are dropped one lexeme after the other. -/
theorem withoutLineComments_append (hstands : lexeme.StandsBefore behind)
    (hends : WordsEnd before lexeme.text) :
    withoutLineComments before (lexeme.text ++ behind) =
      lexeme.bare.text ++ withoutLineComments (lexeme.text.reverse ++ before) behind := by
  cases hstands.ends with
  | @trivia b rest htrivia =>
    by_cases hcomment : isLineComment (b :: rest)
    · have hbare : (Lexeme.trivia (b :: rest)).bare = .mark Byte.space := if_pos hcomment
      rw [hbare]
      obtain ⟨line, hline⟩ := hcomment
      simp only [List.cons_append, List.nil_append, List.cons.injEq] at hline
      obtain ⟨rfl, rfl⟩ := hline
      have hsplit : splitTrivia? (Byte.slash :: (Byte.slash :: line ++ behind)) =
          some (Byte.slash :: (splitLine (Byte.slash :: line ++ behind)).1,
            (splitLine (Byte.slash :: line ++ behind)).2) := rfl
      rw [htrivia] at hsplit
      simp only [Option.some.injEq, Prod.mk.injEq, List.cons.injEq, true_and] at hsplit
      have hwhole : (Lexeme.trivia (Byte.slash :: Byte.slash :: line)).text ++ behind =
          Byte.slash :: (Byte.slash :: line ++ behind) := rfl
      rw [hwhole, withoutLineComments_lineComment rfl, ← hsplit.1, ← hsplit.2]
      simp [Lexeme.text]
    · rw [bare_eq_self (.trivia (b :: rest)) hcomment]
      refine withoutLineComments_trivia ?_ htrivia
      rintro ⟨rfl, hhead⟩
      cases rest with
      | nil =>
        have htwo := two_le_of_splitTrivia? htrivia
        simp at htwo
      | cons c rest =>
        obtain rfl := Option.some.inj hhead
        exact hcomment ⟨rest, rfl⟩
  | @number b body hdigit hbody =>
    have hslash : b ≠ Byte.slash := by
      rintro rfl
      exact absurd hdigit (by decide)
    rw [bare_eq_self (.number (b :: body)) (not_isLineComment hslash body)]
    have hopens := opensNumber_of_wordsEnd hends (continuesIdentifier_of_isDigit hdigit)
    simp only [Lexeme.text, List.cons_append]
    rw [withoutLineComments_number hdigit hopens, hbody]
    simp
  | @word b rest hstarts hrest =>
    have hslash : b ≠ Byte.slash := by
      rintro rfl
      exact absurd hstarts (by decide)
    rw [bare_eq_self (.word (b :: rest)) (not_isLineComment hslash rest)]
    refine withoutLineComments_word_append behind
      (wordBytes_cons.mpr ⟨continuesIdentifier_of_startsIdentifier hstarts, hrest⟩) ?_
    intro c hc hdigit
    obtain rfl := Option.some.inj hc
    exact absurd hdigit (not_isDigit_of_startsIdentifier hstarts)
  | @mark b htrivia hword =>
    have hcomment : ¬ isLineComment [b] := by
      rintro ⟨line, hline⟩
      cases hline
    rw [bare_eq_self (.mark b) hcomment]
    refine withoutLineComments_byte ?_ htrivia
    rintro ⟨hdigit, -⟩
    rw [continuesIdentifier_of_isDigit hdigit] at hword
    cases hword

/-- Lines are joined one lexeme after the other. -/
theorem onOneLine_append (hstands : lexeme.StandsBefore behind)
    (hends : WordsEnd before lexeme.text) :
    onOneLine before (lexeme.text ++ behind) =
      (lexeme.flat behind).text ++ onOneLine (lexeme.text.reverse ++ before) behind := by
  cases hstands.ends with
  | @trivia b rest htrivia =>
    by_cases hslash : b = Byte.slash
    · subst hslash
      exact onOneLine_comment htrivia
    · have hflat : (Lexeme.trivia (b :: rest)).flat behind = .trivia (b :: rest) :=
        if_neg fun hhead => hslash (Option.some.inj hhead)
      rw [hflat]
      simp only [splitTrivia?, if_neg hslash] at htrivia
      split at htrivia
      · next hquote =>
        simp only [splitLiteral, Option.some.injEq, Prod.mk.injEq, List.cons.injEq,
          true_and] at htrivia
        simp only [Lexeme.text, List.cons_append]
        rw [onOneLine_literal hquote, htrivia.1, htrivia.2]
        simp
      · cases htrivia
  | @number b body hdigit hbody =>
    have hopens := opensNumber_of_wordsEnd hends (continuesIdentifier_of_isDigit hdigit)
    simp only [Lexeme.flat, Lexeme.text, List.cons_append]
    rw [onOneLine_number hdigit hopens, hbody]
    simp
  | @word b rest hstarts hrest =>
    refine onOneLine_word_append behind
      (wordBytes_cons.mpr ⟨continuesIdentifier_of_startsIdentifier hstarts, hrest⟩) ?_
    intro c hc hdigit
    obtain rfl := Option.some.inj hc
    exact absurd hdigit (not_isDigit_of_startsIdentifier hstarts)
  | @mark b htrivia hword =>
    by_cases hbreak : b = Byte.backslash ∧ behind.head?.any Byte.breaksLine ∨ Byte.breaksLine b
    · rw [Lexeme.flat, if_pos hbreak]
      exact onOneLine_break hbreak
    · rw [Lexeme.flat, if_neg hbreak]
      by_cases hslash : b = Byte.slash
      · subst hslash
        exact onOneLine_slash htrivia
      refine onOneLine_byte hslash ?_ ?_ hbreak
      · rintro ⟨hdigit, -⟩
        rw [continuesIdentifier_of_isDigit hdigit] at hword
        cases hword
      · intro hquote
        simp [splitTrivia?, hslash, hquote] at htrivia

/-- Dropping line comments blanks lexemes. -/
theorem blanksTo_bare (hsound : lexeme.Firm ∨ isLineComment lexeme.text) :
    BlanksTo lexeme lexeme.bare := by
  by_cases hcomment : isLineComment lexeme.text
  · rw [Lexeme.bare, if_pos hcomment]
    exact .space (fades_of_isLineComment hcomment)
  · rw [bare_eq_self lexeme hcomment]
    exact .same hsound hcomment

/-- What a space takes the place of fades. -/
theorem flat_eq_or (hstands : lexeme.StandsBefore behind) :
    lexeme.flat behind = lexeme ∧ ¬ isLineComment lexeme.text ∨
      fades lexeme.text ∧ lexeme.flat behind = .mark Byte.space := by
  cases hstands.ends with
  | @trivia b rest htrivia =>
    by_cases hslash : b = Byte.slash
    · subst hslash
      refine .inr ⟨?_, rfl⟩
      cases rest with
      | nil =>
        have htwo := two_le_of_splitTrivia? htrivia
        simp at htwo
      | cons c rest => rfl
    · exact .inl ⟨if_neg fun hhead => hslash (Option.some.inj hhead), not_isLineComment hslash rest⟩
  | @number b body hdigit hbody =>
    refine .inl ⟨rfl, not_isLineComment ?_ body⟩
    rintro rfl
    exact absurd hdigit (by decide)
  | @word b rest hstarts hrest =>
    refine .inl ⟨rfl, not_isLineComment ?_ rest⟩
    rintro rfl
    exact absurd hstarts (by decide)
  | @mark b htrivia hword =>
    by_cases hbreak : b = Byte.backslash ∧ behind.head?.any Byte.breaksLine ∨ Byte.breaksLine b
    · refine .inr ⟨?_, if_pos hbreak⟩
      rcases hbreak with ⟨rfl, -⟩ | hbreak
      · rfl
      · simp only [Byte.breaksLine, Bool.or_eq_true, decide_eq_true_eq] at hbreak
        rcases hbreak with rfl | rfl <;> rfl
    · refine .inl ⟨if_neg hbreak, ?_⟩
      rintro ⟨line, hline⟩
      cases hline

/-- Joining lines blanks lexemes. -/
theorem blanksTo_flat (hstands : lexeme.StandsBefore behind)
    (hsound : lexeme.Firm ∨ isLineComment lexeme.text) : BlanksTo lexeme (lexeme.flat behind) := by
  rcases flat_eq_or hstands with ⟨hsame, hcomment⟩ | ⟨hfades, hspace⟩
  · rw [hsame]
    exact .same hsound hcomment
  · rw [hspace]
    exact .space hfades

end Steps

/-- Line comments are dropped lexeme by lexeme. -/
theorem withoutLineComments_goesByLexeme : GoesByLexeme withoutLineComments where
  nil := fun before => by rw [withoutLineComments]
  step := fun hstands hsound hends =>
    ⟨_, blanksTo_bare hsound, withoutLineComments_append hstands hends⟩

/-- Text is put on one line lexeme by lexeme. -/
theorem onOneLine_goesByLexeme : GoesByLexeme onOneLine where
  nil := fun before => by rw [onOneLine]
  step := fun hstands hsound hends =>
    ⟨_, blanksTo_flat hstands hsound, onOneLine_append hstands hends⟩

/-- The lexemes of a blanked text. -/
theorem GoesByLexeme.exists_textOf_eq {blank : Bytes → Bytes → Bytes} (hblank : GoesByLexeme blank)
    {list : List Lexeme} (hjoined : Joined [] list)
    (hsound : ∀ lexeme ∈ list, lexeme.Firm ∨ isLineComment lexeme.text) {before : Bytes}
    (hends : WordsEnd before (textOf list)) :
    ∃ list', List.Forall₂ BlanksTo list list' ∧ blank before (textOf list) = textOf list' := by
  induction list generalizing before with
  | nil => exact ⟨[], .nil, hblank.nil before⟩
  | cons lexeme more ih =>
    obtain ⟨hstands, hmore⟩ := hjoined
    rw [List.append_nil] at hstands
    obtain ⟨hlexeme, hmoreSound⟩ := List.forall_mem_cons.mp hsound
    obtain ⟨b, rest, htext⟩ := List.exists_cons_of_ne_nil hstands.text_ne_nil
    have hbegins : WordsEnd before lexeme.text := by
      rw [textOf_cons, htext] at hends
      rw [htext]
      exact hends
    obtain ⟨lexeme', hblanks, hstep⟩ := hblank.step hstands hlexeme hbegins
    obtain ⟨more', hmoreBlanks, hmoreText⟩ :=
      ih hmore hmoreSound (wordsEnd_of_nextLexeme (hstands.nextLexeme_eq htext before))
    refine ⟨lexeme' :: more', .cons hblanks hmoreBlanks, ?_⟩
    rw [textOf_cons, hstep, hmoreText, textOf_cons]

/-- A unit that fades begins with no letter or digit. -/
theorem head?_any_of_fades {unit : Bytes} (hunit : fades unit) (behind : Bytes) :
    (unit ++ behind).head?.any Byte.isAlphanumeric = false := by
  match unit with
  | [b] =>
    rw [fades, Bool.or_eq_true, decide_eq_true_eq] at hunit
    rcases hunit with hwhite | rfl
    · simp only [Byte.isWhiteSpace, Bool.or_eq_true, decide_eq_true_eq] at hwhite
      rcases hwhite with (((rfl | rfl) | rfl) | rfl) | rfl <;> rfl
    · rfl
  | b :: c :: rest =>
    rw [fades, decide_eq_true_eq] at hunit
    rw [hunit]
    rfl

/-- Blanking leaves whether a text begins with a letter or digit. -/
theorem head?_any_of_blanksTo {list list' : List Lexeme}
    (hlist : List.Forall₂ BlanksTo list list') (hjoined : Joined [] list) :
    (textOf list').head?.any Byte.isAlphanumeric = (textOf list).head?.any Byte.isAlphanumeric := by
  cases hlist with
  | nil => rfl
  | @cons lexeme lexeme' more more' hlexeme hmore =>
    obtain ⟨b, rest, htext⟩ := List.exists_cons_of_ne_nil hjoined.1.text_ne_nil
    rcases hlexeme.2 with rfl | ⟨hfades, rfl⟩
    · rw [textOf_cons, textOf_cons, htext]
      rfl
    · rw [textOf_cons lexeme, head?_any_of_fades hfades]
      rfl

/-- Blanked lexemes end where the next one begins. -/
theorem joined_of_blanksTo {list list' : List Lexeme} (hlist : List.Forall₂ BlanksTo list list')
    (hjoined : Joined [] list) : Joined [] list' := by
  induction hlist with
  | nil => trivial
  | @cons lexeme lexeme' more more' hlexeme hmore ih =>
    obtain ⟨hstands, hmoreJoined⟩ := hjoined
    refine ⟨?_, ih hmoreJoined⟩
    obtain ⟨hfirm, rfl | ⟨-, rfl⟩⟩ := hlexeme
    · rw [List.append_nil] at hstands ⊢
      -- Either a space has come to stand behind the lexeme, or the same lexeme still does.
      cases hmore with
      | nil => exact hstands
      | @cons next next' others others' hnext hothers =>
        rcases hnext.2 with rfl | ⟨-, rfl⟩
        · refine hstands.of_sight ?_
          rw [textOf_cons, textOf_cons]
          exact sight_append hmoreJoined.1.text_ne_nil (head?_any_of_blanksTo hothers hmoreJoined.2)
        · refine hfirm.standsBefore fun c hc => ?_
          obtain rfl := Option.some.inj hc
          decide
    · exact standsBefore_mark (by decide) _

/-- Blanked lexemes are firm. -/
theorem allFirm_of_blanksTo {list list' : List Lexeme} (hlist : List.Forall₂ BlanksTo list list') :
    AllFirm list' := by
  induction hlist with
  | nil => exact fun lexeme hlexeme => absurd hlexeme List.not_mem_nil
  | cons hlexeme _ ih => exact List.forall_mem_cons.mpr ⟨hlexeme.1, ih⟩

/-- Blanked lexemes are tidy. -/
theorem Tidy.of_blanksTo {list list' : List Lexeme} (htidy : Tidy list)
    (hlist : List.Forall₂ BlanksTo list list') : Tidy list' where
  joined := joined_of_blanksTo hlist htidy.joined
  sound := fun lexeme hlexeme => .inl (allFirm_of_blanksTo hlist lexeme hlexeme)
  apart := by
    refine htidy.apart.of_fadesTo ?_
    rw [List.forall₂_map_left_iff, List.forall₂_map_right_iff]
    refine hlist.imp fun lexeme lexeme' hblanks => ?_
    rcases hblanks.2 with rfl | ⟨hfades, rfl⟩
    · exact .inl rfl
    · exact .inr ⟨hfades, rfl⟩

/-- Tidy lexemes that are blanked are tidy and firm. -/
theorem Tidy.exists_blank {list : List Lexeme} (htidy : Tidy list) {blank : Bytes → Bytes → Bytes}
    (hblank : GoesByLexeme blank) :
    ∃ list', textOf list' = blank [] (textOf list) ∧ Tidy list' ∧ AllFirm list' := by
  obtain ⟨list', hblanks, htext⟩ :=
    hblank.exists_textOf_eq htidy.joined htidy.sound (wordsEnd_nil (textOf list))
  exact ⟨list', htext.symm, htidy.of_blanksTo hblanks, allFirm_of_blanksTo hblanks⟩

/-- The lexemes of an operand's text are tidy and over if those that it is made from are tidy. -/
theorem Tidy.exists_operandText {list : List Lexeme} (htidy : Tidy list) :
    ∃ list', textOf list' = operandText (textOf list) ∧ Tidy list' ∧ AllFirm list' := by
  obtain ⟨trimmed, htrimmed, htrimmedTidy, -⟩ := exists_textOf_eq_trim htidy
  obtain ⟨bare, hbare, hbareTidy, hbareFirm⟩ :=
    htrimmedTidy.exists_blank withoutLineComments_goesByLexeme
  obtain ⟨list', hlist', hlistTidy, hlistFirm⟩ := exists_textOf_eq_trim hbareTidy
  exact ⟨list', by rw [hlist', hbare, htrimmed]; rfl, hlistTidy, hlistFirm hbareFirm⟩

end PlainSync.Source
