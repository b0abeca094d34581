import PlainSync.Proofs.Source.Calls
import PlainSync.Proofs.Source.Context
import Mathlib.Data.List.Forall2

/-!
# Digit separators

A source without some of its digit separators has the lexemes of the source, the numbers without
those separators. A lexeme reads no more than one byte of what stands behind it, and a number two
of them at a quote, so it does not meet the separators of other numbers.
-/

namespace PlainSync.Source

open Bytes

/-- A text with some of the quotes of another text deleted. -/
inductive Thinned : Bytes → Bytes → Prop
  | nil : Thinned [] []
  | keep (b : UInt8) {text text' : Bytes} (hmore : Thinned text text') :
    Thinned (b :: text) (b :: text')
  | delete {text text' : Bytes} (hmore : Thinned text text') : Thinned (Byte.quote :: text) text'

namespace Thinned

variable {text text' : Bytes} {b : UInt8}

/-- A text may keep its separators. -/
theorem refl (text : Bytes) : Thinned text text := by
  induction text with
  | nil => exact .nil
  | cons b text ih => exact .keep b ih

/-- No other byte is deleted. -/
theorem exists_cons (hb : b ≠ Byte.quote) (hthinned : Thinned (b :: text) text') :
    ∃ more, text' = b :: more := by
  cases hthinned with
  | keep _ hmore => exact ⟨_, rfl⟩
  | delete => exact absurd rfl hb

/-- A text without separators stays as it is. -/
theorem eq_of_not_mem (hthinned : Thinned text text') (hquote : Byte.quote ∉ text) :
    text' = text := by
  induction hthinned with
  | nil => rfl
  | keep b hmore ih => rw [ih fun hmem => hquote (List.mem_cons_of_mem _ hmem)]
  | delete => exact absurd List.mem_cons_self hquote

/-- Deleting separators leaves the number of lines. -/
theorem newlines_eq (hthinned : Thinned text text') : newlines text' = newlines text := by
  induction hthinned with
  | nil => rfl
  | keep b hmore ih => rw [newlines_cons, ih, ← newlines_cons]
  | delete hmore ih => rw [newlines_cons_of_ne (by decide), ih]

end Thinned

/-- A lexeme with some of its digit separators deleted. All quotes of a number are separators. -/
inductive Lexeme.Thinned : Lexeme → Lexeme → Prop
  | same (lexeme : Lexeme) : Lexeme.Thinned lexeme lexeme
  | number (b : UInt8) {text text' : Bytes} (hthinned : Source.Thinned text text') :
    Lexeme.Thinned (.number (b :: text)) (.number (b :: text'))

namespace Lexeme.Thinned

variable {lexeme lexeme' : Lexeme}

/-- A lexeme that is no number stays as it is. -/
theorem eq_of_number?_eq_none (hthinned : Lexeme.Thinned lexeme lexeme')
    (hnumber : lexeme.number? = none) : lexeme' = lexeme := by
  cases hthinned with
  | same => rfl
  | number => cases hnumber

/-- An undivided lexeme stays as it is. -/
theorem eq_of_isDivided (hthinned : Lexeme.Thinned lexeme lexeme')
    (hdivided : lexeme.isDivided = false) : lexeme' = lexeme := by
  cases hthinned with
  | same => rfl
  | number b htext =>
    rw [htext.eq_of_not_mem fun hquote => ?_]
    rw [Lexeme.isDivided, List.contains_iff_mem.mpr (List.mem_cons_of_mem _ hquote)] at hdivided
    cases hdivided

/-- Deleting separators leaves the number of lines of a lexeme. -/
theorem newlines_eq (hthinned : Lexeme.Thinned lexeme lexeme') :
    newlines lexeme'.text = newlines lexeme.text := by
  cases hthinned with
  | same => rfl
  | number b htext =>
    rw [Lexeme.text, Lexeme.text, newlines_cons, htext.newlines_eq, ← newlines_cons]

end Lexeme.Thinned

/-- Texts begin with the same byte before and after the deletion. -/
theorem head?_textOf_thinned {list list' : List Lexeme}
    (hthinned : List.Forall₂ Lexeme.Thinned list list')
    (hpos : ∀ lexeme ∈ list, 0 < lexeme.text.length) :
    (textOf list').head? = (textOf list).head? := by
  cases hthinned with
  | nil => rfl
  | @cons lexeme lexeme' more more' hlexeme hmore =>
    have hfirst := hpos lexeme List.mem_cons_self
    cases hlexeme with
    | same =>
      rw [textOf_cons, textOf_cons, List.head?_append, List.head?_append]
      rw [List.head?_eq_some_head (List.length_pos_iff.mp hfirst)]
      rfl
    | number b htext => rfl

/-! ## The lexemes without the separators -/

/-- A number that loses some of its separators ends where it did. -/
theorem splitNumberBody_thinned {previous previous' : UInt8} {text body' behind' : Bytes}
    (hprevious : previous' = previous ∨ text.head?.any Byte.isAlphanumeric)
    (hthinned : Thinned (splitNumberBody previous text).1 body')
    (hends : ∀ last, (splitNumberBody last (splitNumberBody previous text).2).1 = [] →
      splitNumberBody last behind' = ([], behind')) :
    splitNumberBody previous' (body' ++ behind') = (body', behind') := by
  fun_induction splitNumberBody previous text generalizing previous' body' with
  | case1 previous =>
    cases hthinned
    exact hends previous' rfl
  | case2 previous b rest hnumber body behind hbody ih =>
    rw [hbody] at ih
    cases hthinned with
    | @keep _ _ more hmore =>
      have hbehind := ih (.inl rfl) hmore hends
      have hjoins : Byte.continuesIdentifier b ∨ b = Byte.dot ∨ (b = Byte.quote ∧
          Byte.isAlphanumeric previous' ∧ (more ++ behind').head?.any Byte.isAlphanumeric) := by
        rcases hnumber with hword | hdot | ⟨rfl, hleft, hright⟩
        · exact .inl hword
        · exact .inr (.inl hdot)
        · have hsame : previous' = previous := hprevious.resolve_right Bool.false_ne_true
          obtain ⟨c, rest, rfl⟩ : ∃ c tail, rest = c :: tail := by
            cases rest with
            | nil => cases hright
            | cons c rest => exact ⟨c, rest, rfl⟩
          have hc : Byte.isAlphanumeric c := hright
          rw [splitNumberBody, if_pos (.inl (by simp [Byte.continuesIdentifier, hc]))] at hbody
          cases hbody
          have hne : c ≠ Byte.quote := by
            rintro rfl
            exact absurd hc (by decide)
          obtain ⟨others, rfl⟩ := hmore.exists_cons hne
          exact .inr (.inr ⟨rfl, hsame ▸ hleft, hc⟩)
      rw [List.cons_append, splitNumberBody, if_pos hjoins, hbehind]
    | delete hmore =>
      have hright : rest.head?.any Byte.isAlphanumeric := by
        rcases hnumber with hword | hdot | ⟨-, -, hright⟩
        · exact absurd hword (by decide)
        · exact absurd hdot (by decide)
        · exact hright
      exact ih (.inr hright) hmore hends
  | case3 previous b rest hnumber =>
    cases hthinned
    have hsame : previous' = previous := by
      refine hprevious.resolve_right fun hb => hnumber (.inl ?_)
      have hb : Byte.isAlphanumeric b := hb
      simp [Byte.continuesIdentifier, hb]
    refine hends previous' ?_
    rw [hsame, splitNumberBody, if_neg hnumber]

section Lexemes

variable {before behind : Bytes} {more' : List Lexeme}

/-- Deleting separators leaves the first byte. -/
theorem head?_of_thinned (hmore : List.Forall₂ Lexeme.Thinned (lexemes before behind) more') :
    (textOf more').head? = behind.head? := by
  have hhead := head?_textOf_thinned hmore fun _ hlexeme => length_text_pos_of_mem_lexemes hlexeme
  rwa [textOf_lexemes] at hhead

/-- What ends a number ends it after the deletion, too. -/
theorem splitNumberBody_of_thinned {last : UInt8}
    (hmore : List.Forall₂ Lexeme.Thinned (lexemes before behind) more')
    (hends : (splitNumberBody last behind).1 = []) :
    splitNumberBody last (textOf more') = ([], textOf more') := by
  cases behind with
  | nil =>
    rw [lexemes_nil] at hmore
    cases hmore
    rfl
  | cons c rest =>
    cases hnext : nextLexeme before c rest with
    | mk lexeme behind =>
      rw [lexemes_cons hnext] at hmore
      obtain ⟨lexeme', others, hlexeme, hothers, rfl⟩ := List.forall₂_cons_left_iff.mp hmore
      have hword : ¬ (Byte.continuesIdentifier c ∨ c = Byte.dot ∨ (c = Byte.quote ∧
          Byte.isAlphanumeric last ∧ rest.head?.any Byte.isAlphanumeric)) := by
        intro hjoins
        rw [splitNumberBody, if_pos hjoins] at hends
        cases hends
      have hnumber : lexeme.number? = none := by
        cases firstLexeme hnext with
        | number htrivia hdigit =>
          exact absurd (.inl (by simp [Byte.continuesIdentifier, Byte.isAlphanumeric, hdigit]))
            hword
        | _ => rfl
      obtain rfl := hlexeme.eq_of_number?_eq_none hnumber
      obtain ⟨text, htext, hrest⟩ := exists_text_eq_cons hnext
      have hsecond : (text ++ textOf others).head? = rest.head? := by
        rw [hrest, List.head?_append, List.head?_append, head?_of_thinned hothers]
      rw [textOf_cons, htext, List.cons_append, splitNumberBody, if_neg (by rwa [hsecond])]

end Lexemes

section Lexemes

variable {before before' rest behind : Bytes} {b : UInt8} {lexeme lexeme' : Lexeme}
  {more' : List Lexeme}

/-- The first lexeme is the same without its separators. -/
theorem nextLexeme_thinned (hstart : atLineStart before' = atLineStart before)
    (hnext : nextLexeme before b rest = (lexeme, behind))
    (hlexeme : Lexeme.Thinned lexeme lexeme')
    (hmore : List.Forall₂ Lexeme.Thinned (lexemes (lexeme.text.reverse ++ before) behind) more') :
    ∃ rest', lexeme'.text ++ textOf more' = b :: rest' ∧
      nextLexeme before' b rest' = (lexeme', textOf more') := by
  cases hnumber : lexeme.number? with
  | none =>
    obtain rfl := hlexeme.eq_of_number?_eq_none hnumber
    obtain ⟨text, htext, rfl⟩ := exists_text_eq_cons hnext
    refine ⟨text ++ textOf more', by rw [htext, List.cons_append], ?_⟩
    rw [nextLexeme_of_atLineStart hstart]
    exact nextLexeme_exchange hnext hnumber (head?_of_thinned hmore)
  | some number =>
    cases firstLexeme hnext with
    | number htrivia hdigit =>
      obtain ⟨body', rfl, hbody⟩ : ∃ body', lexeme' = .number (b :: body') ∧
          Thinned (splitNumberBody b rest).1 body' := by
        cases hlexeme with
        | same => exact ⟨_, rfl, .refl _⟩
        | number _ hbody => exact ⟨_, rfl, hbody⟩
      have hsplit : splitNumberBody b (body' ++ textOf more') = (body', textOf more') :=
        splitNumberBody_thinned (.inl rfl) hbody fun last hends =>
          splitNumberBody_of_thinned hmore hends
      have hplain := isPlain_of_isDigit hdigit
      have hhash : b ≠ Byte.hash := (ne_of_isPlain hplain).2.2.2.2.1
      refine ⟨body' ++ textOf more', rfl, ?_⟩
      rw [nextLexeme, splitTrivia?_of_isPlain hplain]
      simp only [hhash, false_and, if_false, hdigit, if_true, hsplit]
    | _ => cases hnumber

/-- Behind a number without its separators a line starts as little as behind the number. -/
theorem atLineStart_thinned (hstart : atLineStart before' = atLineStart before)
    (hnext : nextLexeme before b rest = (lexeme, behind))
    (hlexeme : Lexeme.Thinned lexeme lexeme') :
    atLineStart (lexeme'.text.reverse ++ before') =
      atLineStart (lexeme.text.reverse ++ before) := by
  cases hlexeme with
  | same => exact atLineStart_append hstart _
  | @number c text text' htext =>
    cases firstLexeme hnext with
    | number htrivia hdigit =>
      have hblank := not_isBlank_of_isDigit hdigit
      have hnewlines := newlines_number hdigit rest
      have hnewlines' := (Thinned.keep b htext).newlines_eq.trans hnewlines
      rw [Lexeme.text, Lexeme.text,
        atLineStart_reverse_append hblank (List.count_eq_zero.mp hnewlines),
        atLineStart_reverse_append hblank (List.count_eq_zero.mp hnewlines')]

end Lexemes

/-! ## Undivided fronts -/

/-- Text in front of all divided numbers stays as it is. -/
theorem exists_append_of_undividedUpTo {span : Nat} {list list' : List Lexeme} {front back : Bytes}
    (hthinned : List.Forall₂ Lexeme.Thinned list list')
    (hpos : ∀ lexeme ∈ list, 0 < lexeme.text.length) (hundivided : UndividedUpTo span list)
    (htext : textOf list = front ++ back) (hspan : front.length ≤ span) :
    ∃ back', textOf list' = front ++ back' ∧ back'.head? = back.head? := by
  induction hthinned generalizing span front with
  | nil =>
    obtain ⟨rfl, rfl⟩ := List.append_eq_nil_iff.mp htext.symm
    exact ⟨[], rfl, rfl⟩
  | @cons lexeme lexeme' more more' hlexeme hmore ih =>
    have hothers : ∀ other ∈ more, 0 < other.text.length :=
      fun other hother => hpos other (List.mem_cons_of_mem _ hother)
    by_cases hfront : front = []
    · subst hfront
      rw [List.nil_append] at htext
      refine ⟨textOf (lexeme' :: more'), rfl, ?_⟩
      rw [head?_textOf_thinned (.cons hlexeme hmore) hpos, htext]
    · have hlength := List.length_pos_iff.mpr hfront
      obtain rfl := hlexeme.eq_of_isDivided (hundivided.head (by omega))
      rw [textOf_cons] at htext ⊢
      rcases List.append_eq_append_iff.mp htext with ⟨middle, hin, hout⟩ | ⟨middle, hin, hout⟩
      · obtain ⟨back', hback, hhead⟩ := ih hothers hundivided.tail hout (by
          rw [hin, List.length_append] at hspan
          omega)
        exact ⟨back', by rw [hback, hin, List.append_assoc], hhead⟩
      · refine ⟨middle ++ textOf more', by rw [hin, List.append_assoc], ?_⟩
        rw [hout, List.head?_append, List.head?_append, head?_textOf_thinned hmore hothers]

end PlainSync.Source
