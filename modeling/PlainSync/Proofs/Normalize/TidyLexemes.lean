import Mathlib.Data.List.Forall2
import PlainSync.Proofs.Source.Joined
import PlainSync.Proofs.Source.NamesApart

/-!
# Lexemes that can be blanked

The lexemes of an operand before it is trimmed, loses its line comments and is put on one line.
They are such that none of this joins two of them or brings a name in front of a parenthesis.
Trimming takes lexemes from both ends and may shorten a line comment at the end.
-/

namespace PlainSync.Source

open Bytes

/-- Text that is one lexeme in front of a space, and no hash mark. -/
def Complete : Bytes → Prop
  | [] => False
  | b :: rest => b ≠ Byte.hash ∧ (nextLexeme [] b (rest ++ [Byte.space])).2 = [Byte.space]

instance : DecidablePred Complete
  | [] => isFalse id
  | b :: _ => inferInstanceAs (Decidable (b ≠ Byte.hash ∧ _))

/-- A complete text is a firm lexeme. -/
theorem Complete.exists_firm {text : Bytes} (hcomplete : Complete text) :
    ∃ lexeme : Lexeme, lexeme.text = text ∧ lexeme.Firm := by
  cases text with
  | nil => exact hcomplete.elim
  | cons b rest =>
    obtain ⟨hhash, hbehind⟩ := hcomplete
    cases hnext : nextLexeme [] b (rest ++ [Byte.space]) with
    | mk lexeme behind =>
      rw [hnext] at hbehind
      dsimp only at hbehind
      subst hbehind
      have hwhole := append_of_nextLexeme hnext
      rw [← List.cons_append] at hwhole
      exact ⟨lexeme, List.append_cancel_right hwhole, standsBefore_of_nextLexeme hnext hhash⟩

/-- Text that is one lexeme wherever it ends is the lexeme that is read there. -/
theorem Complete.firm {lexeme : Lexeme} {before rest behind : Bytes} {b : UInt8}
    (hcomplete : Complete lexeme.text) (hnext : nextLexeme before b rest = (lexeme, behind)) :
    lexeme.Firm := by
  obtain ⟨other, htext, hfirm⟩ := hcomplete.exists_firm
  obtain ⟨text, hcons, rfl⟩ := exists_text_eq_cons hnext
  rw [hcons] at htext
  obtain ⟨c, more, hother, hhash, hotherNext⟩ := id hfirm
  rw [htext, List.cons.injEq] at hother
  obtain ⟨rfl, rfl⟩ := hother
  have hcut : nextLexeme before b text = (lexeme, []) := nextLexeme_cut hnext
  have hotherCut : nextLexeme [] b text = (other, []) := nextLexeme_cut hotherNext
  rw [nextLexeme_of_ne_hash hhash before, hcut, Prod.mk.injEq] at hotherCut
  rw [hotherCut.1]
  exact hfirm

/-- Text that begins as a line comment does. -/
def isLineComment (unit : Bytes) : Prop := [Byte.slash, Byte.slash] <+: unit

instance (unit : Bytes) : Decidable (isLineComment unit) :=
  inferInstanceAs (Decidable ([Byte.slash, Byte.slash] <+: unit))

/-- Lexemes that can be blanked: they end where the next one begins, all but the line comments
are over in front of a space, and a name has a parenthesis behind it only if something that does
not fade stands between. -/
structure Tidy (list : List Lexeme) : Prop where
  joined : Joined [] list
  sound : ∀ lexeme ∈ list, lexeme.Firm ∨ isLineComment lexeme.text
  apart : NamesApart fades (list.map Lexeme.text)

/-- Lexemes that are over in front of a space. -/
def AllFirm (list : List Lexeme) : Prop := ∀ lexeme ∈ list, lexeme.Firm

/-- Line comments fade. -/
theorem fades_of_isLineComment {unit : Bytes} (hunit : isLineComment unit) : fades unit := by
  obtain ⟨line, rfl⟩ := hunit
  rfl

/-- A unit that fades is not the name of a built-in. -/
theorem ofSpelling?_of_fades {unit : Bytes} (hunit : fades unit) :
    Builtin.ofSpelling? unit = none := by
  match unit with
  | [] => cases hunit
  | [b] =>
    refine ofSpelling?_of_not_startsIdentifier fun hstarts => ?_
    have hwhite := not_isWhiteSpace_of_joinsWord (joinsWord_of_startsIdentifier hstarts)
    rw [fades, hwhite, Bool.false_or, decide_eq_true_eq] at hunit
    rw [hunit] at hstarts
    exact absurd hstarts (by decide)
  | b :: c :: rest =>
    refine ofSpelling?_of_not_startsIdentifier fun hstarts => ?_
    rw [fades, decide_eq_true_eq] at hunit
    rw [hunit] at hstarts
    exact absurd hstarts (by decide)

/-- The same unit, or one that fades in the place of another. -/
def FadesTo (unit unit' : Bytes) : Prop := unit' = unit ∨ fades unit ∧ fades unit'

/-- The first unit that does not fade stays. -/
theorem find?_of_fadesTo {units units' : List Bytes} (hunits : List.Forall₂ FadesTo units units') :
    units'.find? (fun unit => !fades unit) = units.find? (fun unit => !fades unit) := by
  induction hunits with
  | nil => rfl
  | @cons unit unit' more more' hunit _ ih =>
    rcases hunit with rfl | ⟨hfades, hfades'⟩
    · rw [List.find?_cons, List.find?_cons, ih]
    · simp [hfades, hfades', ih]

/-- Units that fade can be exchanged. -/
theorem NamesApart.of_fadesTo {units units' : List Bytes}
    (hunits : List.Forall₂ FadesTo units units') (happart : NamesApart fades units) :
    NamesApart fades units' := by
  induction hunits with
  | nil => trivial
  | cons hunit hmore ih =>
    refine ⟨fun hbuiltin => ?_, ih happart.2⟩
    rcases hunit with rfl | ⟨-, hfades'⟩
    · rw [find?_of_fadesTo hmore]
      exact happart.1 hbuiltin
    · rw [ofSpelling?_of_fades hfades'] at hbuiltin
      cases hbuiltin

/-! ## Trimming -/

/-- A byte of the encoding of a blank character. -/
def isBlankByte (b : UInt8) : Bool := 9 ≤ b && b ≤ 13 || b = Byte.space || 128 ≤ b

/-- The blanks that are trimmed consist of blank bytes. -/
theorem isBlankByte_of_mem_blankEncodings :
    ∀ pattern ∈ blankEncodings, ∀ b ∈ pattern, isBlankByte b := by
  decide +kernel

/-- Blank bytes stand alone. -/
theorem standsAlone_of_isBlankByte {b : UInt8} (hb : isBlankByte b) :
    standsAlone b ∧ b ≠ Byte.dot := by
  have hall : ∀ b : Fin 256, isBlankByte (.ofFin b) →
      standsAlone (.ofFin b) ∧ UInt8.ofFin b ≠ Byte.dot := by decide +kernel
  exact hall b.toFin hb

/-- Blank bytes at the front of a text are lexemes of their own. -/
theorem exists_append_of_blank_front {list : List Lexeme} (hjoined : Joined [] list)
    {front kept : Bytes} (hfront : ∀ b ∈ front, isBlankByte b)
    (hcut : textOf list = front ++ kept) :
    ∃ dropped more, list = dropped ++ more ∧ textOf more = kept := by
  induction front generalizing list with
  | nil => exact ⟨[], list, rfl, hcut⟩
  | cons b front ih =>
    obtain ⟨hb, hmoreBlank⟩ := List.forall_mem_cons.mp hfront
    obtain ⟨more, rfl, hmore⟩ := hjoined.exists_mark hcut (standsAlone_of_isBlankByte hb).1
    obtain ⟨dropped, kept', rfl, hkept⟩ := ih hjoined.2 hmoreBlank hmore
    exact ⟨_ :: dropped, kept', rfl, hkept⟩

/-- A lexeme with a blank byte at its end, and more than that, is not over. -/
theorem not_firm_of_blank_end {lexeme : Lexeme} {kept back : Bytes}
    (htext : lexeme.text = kept ++ back) (hkept : kept ≠ []) (hback : back ≠ [])
    (hblank : ∀ b ∈ back, isBlankByte b) : ¬ lexeme.Firm := by
  intro hfirm
  have hlast : back.getLast hback ∈ lexeme.text.getLast? := by
    rw [htext, List.getLast?_append_of_ne_nil _ hback, List.getLast?_eq_some_getLast hback]
    rfl
  obtain ⟨hstands, hdot⟩ := standsAlone_of_isBlankByte (hblank _ (List.getLast_mem hback))
  have hone : lexeme.text.length = 1 := by
    rw [hfirm.eq_mark hlast hstands hdot]
    rfl
  have hkeptPos := List.length_pos_iff.mpr hkept
  have hbackPos := List.length_pos_iff.mpr hback
  rw [htext, List.length_append] at hone
  omega

/-- A text is cut between two lexemes or inside one. -/
theorem exists_append_of_textOf_eq {list : List Lexeme} {kept back : Bytes}
    (hcut : textOf list = kept ++ back) :
    ∃ front behind, list = front ++ behind ∧ (textOf front = kept ∧ textOf behind = back ∨
      ∃ lexeme more part rest, behind = lexeme :: more ∧ lexeme.text = part ++ rest ∧ part ≠ [] ∧
        rest ≠ [] ∧ textOf front ++ part = kept ∧ rest ++ textOf more = back) := by
  induction list generalizing kept with
  | nil =>
    obtain ⟨rfl, rfl⟩ := List.append_eq_nil_iff.mp hcut.symm
    exact ⟨[], [], rfl, .inl ⟨rfl, rfl⟩⟩
  | cons lexeme more ih =>
    rw [textOf_cons] at hcut
    rcases List.append_eq_append_iff.mp hcut with ⟨kept', rfl, hmore⟩ | ⟨rest, htext, rfl⟩
    · obtain ⟨front, behind, rfl, hfront⟩ := ih hmore
      refine ⟨lexeme :: front, behind, rfl, ?_⟩
      rw [textOf_cons]
      rcases hfront with ⟨hkept, hback⟩ | ⟨other, others, part, rest, hbehind, htext, hpart, hrest,
        hkept, hback⟩
      · exact .inl ⟨by rw [hkept], hback⟩
      · exact .inr ⟨other, others, part, rest, hbehind, htext, hpart, hrest,
          by rw [List.append_assoc, hkept], hback⟩
    · -- The lexeme is cut, unless nothing of it stands on one side.
      by_cases hkept : kept = []
      · refine ⟨[], lexeme :: more, rfl, .inl ⟨hkept.symm, ?_⟩⟩
        rw [textOf_cons, htext, hkept, List.nil_append]
      by_cases hrest : rest = []
      · refine ⟨[lexeme], more, rfl, .inl ⟨?_, by rw [hrest, List.nil_append]⟩⟩
        rw [textOf_cons, htext, hrest]
        simp
      · exact ⟨[], lexeme :: more, rfl, .inr ⟨lexeme, more, kept, rest, rfl, htext, hkept, hrest,
          rfl, rfl⟩⟩

/-- A line comment that is cut in front of a blank byte still begins as one. -/
theorem exists_line_of_cut {unit part rest : Bytes} (hcomment : isLineComment unit)
    (htext : unit = part ++ rest) (hpart : part ≠ []) (hrest : rest ≠ [])
    (hblank : ∀ b ∈ rest, isBlankByte b) : ∃ line, part = Byte.slash :: Byte.slash :: line := by
  obtain ⟨line, hline⟩ := hcomment
  rw [htext] at hline
  obtain ⟨c, rest, rfl⟩ := List.exists_cons_of_ne_nil hrest
  have hc : c ≠ Byte.slash := by
    rintro rfl
    exact absurd (hblank Byte.slash (by simp)) (by decide)
  match part with
  | [b] =>
    simp only [List.cons_append, List.nil_append, List.cons.injEq] at hline
    exact absurd hline.2.1.symm hc
  | b :: d :: part =>
    simp only [List.cons_append, List.nil_append, List.cons.injEq] at hline
    obtain ⟨rfl, rfl, -⟩ := hline
    exact ⟨part, rfl⟩

/-- Blank bytes at the end of a text are lexemes of their own, or end a line comment. -/
theorem exists_append_of_blank_back {list : List Lexeme}
    (hsound : ∀ lexeme ∈ list, lexeme.Firm ∨ isLineComment lexeme.text)
    {kept back : Bytes} (hback : ∀ b ∈ back, isBlankByte b) (hcut : textOf list = kept ++ back) :
    ∃ front behind, list = front ++ behind ∧ (textOf front = kept ∨
      ∃ comment more line, behind = comment :: more ∧ ¬ comment.Firm ∧
        Byte.slash :: Byte.slash :: line <+: comment.text ∧
        textOf front ++ Byte.slash :: Byte.slash :: line = kept) := by
  obtain ⟨front, behind, rfl, ⟨hkept, -⟩ | ⟨lexeme, more, part, rest, rfl, htext, hpart, hrest, rfl,
    rfl⟩⟩ := exists_append_of_textOf_eq hcut
  · exact ⟨front, behind, rfl, .inl hkept⟩
  · have hblank : ∀ b ∈ rest, isBlankByte b := fun b hb => hback b (List.mem_append_left _ hb)
    have hfirm : ¬ lexeme.Firm := not_firm_of_blank_end htext hpart hrest hblank
    have hcomment := (hsound lexeme (by simp)).resolve_left hfirm
    obtain ⟨line, rfl⟩ := exists_line_of_cut hcomment htext hpart hrest hblank
    exact ⟨front, lexeme :: more, rfl, .inr ⟨lexeme, more, line, rfl, hfirm, ⟨rest, htext.symm⟩,
      rfl⟩⟩

/-- A line comment is read up to the end of its line. -/
theorem newline_not_mem_of_isLineComment {lexeme : Lexeme} {behind line : Bytes}
    (hstands : lexeme.StandsBefore behind)
    (hline : Byte.slash :: Byte.slash :: line <+: lexeme.text) : Byte.newline ∉ line := by
  obtain ⟨more, htext⟩ := hline
  rw [List.cons_append, List.cons_append] at htext
  have hnext := hstands.nextLexeme_eq htext.symm []
  have hsplit : nextLexeme [] Byte.slash (Byte.slash :: (line ++ more) ++ behind) =
      (.trivia (Byte.slash :: Byte.slash :: (splitLine (line ++ more ++ behind)).1),
        (splitLine (line ++ more ++ behind)).2) := rfl
  rw [hnext, Prod.mk.injEq] at hsplit
  intro hnewline
  have hmem : Byte.newline ∈ lexeme.text := by
    rw [← htext]
    simp [hnewline]
  rw [hsplit.1] at hmem
  simp only [Lexeme.text, List.mem_cons, splitLine] at hmem
  rcases hmem with hslash | hslash | htake
  · exact absurd hslash (by decide)
  · exact absurd hslash (by decide)
  · simpa using List.mem_takeWhile_imp htake

/-- A line comment stands at the end of its text. -/
theorem standsBefore_lineComment {line : Bytes} (hline : Byte.newline ∉ line) :
    (Lexeme.trivia (Byte.slash :: Byte.slash :: line)).StandsBefore [] := by
  have hall : ∀ b ∈ line, decide (b ≠ Byte.newline) = true := fun b hb =>
    decide_eq_true fun hsame => hline (hsame ▸ hb)
  refine ⟨Byte.slash, Byte.slash :: line, rfl, by decide, ?_⟩
  have hsplit : nextLexeme [] Byte.slash (Byte.slash :: line ++ []) =
      (.trivia (Byte.slash :: Byte.slash :: (splitLine (line ++ [])).1),
        (splitLine (line ++ [])).2) := rfl
  rw [hsplit, splitLine, List.takeWhile_append_of_pos hall, List.dropWhile_append_of_pos hall]
  simp

/-- Trimmed lexemes are tidy. -/
theorem exists_textOf_eq_trim {list : List Lexeme} (htidy : Tidy list) :
    ∃ list', textOf list' = (textOf list).trim ∧ Tidy list' ∧ (AllFirm list → AllFirm list') := by
  obtain ⟨front, back, hfront, hback, hwhole⟩ :=
    exists_trim_eq isBlankByte_of_mem_blankEncodings (textOf list)
  obtain ⟨dropped, list, rfl, hlist⟩ := exists_append_of_blank_front htidy.joined hfront hwhole.symm
  have hjoined := (joined_append.mp htidy.joined).2
  have hsound : ∀ lexeme ∈ list, lexeme.Firm ∨ isLineComment lexeme.text := fun lexeme hlexeme =>
    htidy.sound lexeme (List.mem_append_right _ hlexeme)
  have happart := htidy.apart
  rw [List.map_append] at happart
  obtain ⟨kept, behind, rfl, hkept⟩ := exists_append_of_blank_back hsound hback hlist
  have hkeptSound : ∀ lexeme ∈ kept, lexeme.Firm ∨ isLineComment lexeme.text :=
    fun lexeme hlexeme => hsound lexeme (List.mem_append_left _ hlexeme)
  have hkeptFirm : AllFirm (dropped ++ (kept ++ behind)) → AllFirm kept :=
    fun hfirm lexeme hlexeme =>
      hfirm lexeme (List.mem_append_right _ (List.mem_append_left _ hlexeme))
  have hunits := happart.of_append.2
  rw [List.map_append] at hunits
  rcases hkept with hkept | ⟨comment, more, line, rfl, hfirm, hline, hkept⟩
  · exact ⟨kept, hkept, ⟨(joined_append.mp hjoined).1.cut, hkeptSound, hunits.of_append.1⟩,
      hkeptFirm⟩
  · obtain ⟨hkeptJoined, hcomment, -⟩ := joined_append.mp hjoined
    refine ⟨kept ++ [.trivia (Byte.slash :: Byte.slash :: line)], ?_, ⟨?_, ?_, ?_⟩, ?_⟩
    · rw [textOf_append, ← hkept]
      simp [Lexeme.text]
    · refine joined_append.mpr ⟨hkeptJoined.of_sight ?_, ?_, trivial⟩
      · obtain ⟨rest, hrest⟩ := hline
        rw [textOf_cons comment, ← hrest]
        rfl
      · exact standsBefore_lineComment (newline_not_mem_of_isLineComment hcomment hline)
    · intro lexeme hlexeme
      rcases List.mem_append.mp hlexeme with hlexeme | hlexeme
      · exact hkeptSound lexeme hlexeme
      · rw [List.mem_singleton.mp hlexeme]
        exact .inr ⟨line, rfl⟩
    · have hshort : NamesApart fades (kept.map Lexeme.text ++ [comment.text]) :=
        NamesApart.of_append (by simpa using hunits) |>.1
      refine hshort.of_fadesTo ?_
      rw [List.map_append]
      refine List.rel_append (R := FadesTo) (List.forall₂_same.mpr fun unit _ => .inl rfl) ?_
      obtain ⟨rest, hrest⟩ := hline
      exact .cons (.inr ⟨fades_of_isLineComment ⟨line ++ rest, hrest⟩, rfl⟩) .nil
    · intro hall
      exact absurd (hall comment (by simp)) hfirm

end PlainSync.Source
