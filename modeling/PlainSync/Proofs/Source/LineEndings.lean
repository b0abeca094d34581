import PlainSync.Proofs.Source.Context
import PlainSync.Proofs.Source.PastWords

/-!
# Line endings

A text whose line ends are written with carriage returns is scanned like the text. Where a
scanner stops in front of a line end it takes the carriage return along. Only a literal that is
continued on the next line is read differently: its backslash takes the carriage return along and
leaves the line end, which ends the literal.
-/

namespace PlainSync.Source

open Bytes

/-- A text with carriage returns in front of some of the line ends of another, which has no
carriage returns. -/
inductive Returned : Bytes → Bytes → Prop
  | nil : Returned [] []
  | byte {b : UInt8} {text text' : Bytes} (hb : b ≠ Byte.carriageReturn)
    (hmore : Returned text text') : Returned (b :: text) (b :: text')
  | lineEnd {text text' : Bytes} (hmore : Returned text text') :
    Returned (Byte.newline :: text) (Byte.carriageReturn :: Byte.newline :: text')

namespace Returned

variable {text text' front front' : Bytes} {b : UInt8}

/-- Returns are put in front of line ends of one text behind the other. -/
theorem append (hfront : Returned front front') (hback : Returned text text') :
    Returned (front ++ text) (front' ++ text') := by
  induction hfront with
  | nil => exact hback
  | byte hb _ ih => exact .byte hb ih
  | lineEnd _ ih => exact .lineEnd ih

/-- A byte that ends no line is kept. -/
theorem exists_cons (hb : b ≠ Byte.newline) (hreturned : Returned (b :: text) text') :
    b ≠ Byte.carriageReturn ∧ ∃ more, text' = b :: more ∧ Returned text more := by
  cases hreturned with
  | byte hreturn hmore => exact ⟨hreturn, _, rfl, hmore⟩
  | lineEnd => exact absurd rfl hb

/-- Returns leave the number of lines. -/
theorem newlines_eq (hreturned : Returned text text') : newlines text' = newlines text := by
  induction hreturned with
  | nil => rfl
  | byte hb _ ih => rw [newlines_cons, ih, ← newlines_cons]
  | lineEnd _ ih => rw [newlines_cons_of_ne (by decide), newlines_cons, ih, ← newlines_cons]

/-- A text on one line is the same text. -/
theorem eq_of_not_mem (hreturned : Returned text text') (hline : Byte.newline ∉ text) :
    text' = text := by
  induction hreturned with
  | nil => rfl
  | byte hb _ ih => rw [ih fun hmem => hline (List.mem_cons_of_mem _ hmem)]
  | lineEnd => exact absurd List.mem_cons_self hline

/-- Returns leave every first byte that ends no line. -/
theorem head?_iff {c : UInt8} (hc : c ≠ Byte.newline) (hreturn : c ≠ Byte.carriageReturn)
    (hreturned : Returned text text') : text'.head? = some c ↔ text.head? = some c := by
  cases hreturned with
  | nil => exact Iff.rfl
  | byte => exact Iff.rfl
  | lineEnd =>
    simp only [List.head?_cons, Option.some.injEq]
    exact ⟨fun hsame => absurd hsame.symm hreturn, fun hsame => absurd hsame.symm hc⟩

/-- The first byte is the same as far as line breaks are alike. -/
theorem any_head? {p : UInt8 → Bool} (hp : p Byte.carriageReturn = p Byte.newline)
    (hreturned : Returned text text') : text'.head?.any p = text.head?.any p := by
  cases hreturned with
  | nil => rfl
  | byte => rfl
  | lineEnd => exact hp

/-- Bytes of a kind that no line end matters to are all of the text or not. -/
theorem all_eq {p : UInt8 → Bool} (hp : p Byte.carriageReturn = p Byte.newline)
    (hreturned : Returned text text') : text'.all p = text.all p := by
  induction hreturned with
  | nil => rfl
  | byte hb _ ih => rw [List.all_cons, List.all_cons, ih]
  | lineEnd _ ih => rw [List.all_cons, List.all_cons, List.all_cons, ih, hp, Bool.and_self_left]

/-- Bytes of a kind that no line end matters to are taken alike. -/
theorem takeWhile {p : UInt8 → Bool} (hp : p Byte.carriageReturn = p Byte.newline)
    (hreturned : Returned text text') : Returned (text.takeWhile p) (text'.takeWhile p) := by
  induction hreturned with
  | nil => exact .nil
  | @byte b _ _ hb _ ih =>
    rw [List.takeWhile_cons, List.takeWhile_cons]
    split
    · exact .byte hb ih
    · exact .nil
  | lineEnd _ ih =>
    simp only [List.takeWhile_cons, hp]
    split
    · exact .lineEnd ih
    · exact .nil

/-- Bytes of a kind that no line end matters to are dropped alike. -/
theorem dropWhile {p : UInt8 → Bool} (hp : p Byte.carriageReturn = p Byte.newline)
    (hreturned : Returned text text') : Returned (text.dropWhile p) (text'.dropWhile p) := by
  induction hreturned with
  | nil => exact .nil
  | @byte b _ _ hb hmore ih =>
    rw [List.dropWhile_cons, List.dropWhile_cons]
    split
    · exact ih
    · exact .byte hb hmore
  | lineEnd hmore ih =>
    simp only [List.dropWhile_cons, hp]
    split
    · exact ih
    · exact .lineEnd hmore

/-- A line starts alike behind both texts. -/
theorem atLineStart_eq {before before' : Bytes} (hreturned : Returned text text')
    (hstart : atLineStart before' = atLineStart before) :
    atLineStart (text'.reverse ++ before') = atLineStart (text.reverse ++ before) := by
  induction hreturned generalizing before before' with
  | nil => exact hstart
  | @byte b _ _ hb _ ih =>
    simp only [List.reverse_cons, List.append_assoc]
    exact ih (atLineStart_append hstart [b])
  | lineEnd _ ih =>
    simp only [List.reverse_cons, List.append_assoc]
    exact ih (by simp [atLineStart_cons])

end Returned

/-! ## Cuts -/

/-- The parts of a cut text. The carriage return of a line end that follows may belong to the
first part. -/
inductive ReturnedCut : Bytes × Bytes → Bytes × Bytes → Prop
  | apart {front front' behind behind' : Bytes} (hfront : Returned front front')
    (hbehind : Returned behind behind') : ReturnedCut (front, behind) (front', behind')
  | taken {front front' text text' : Bytes} (hfront : Returned front front')
    (hmore : Returned text text') :
    ReturnedCut (front, Byte.newline :: text)
      (front' ++ [Byte.carriageReturn], Byte.newline :: text')

namespace ReturnedCut

variable {cut cut' : Bytes × Bytes} {b : UInt8}

/-- Texts that are cut alike are alike behind the cut. -/
theorem behind (hcut : ReturnedCut cut cut') : Returned cut.2 cut'.2 := by
  cases hcut with
  | apart hfront hbehind => exact hbehind
  | taken hfront hmore => exact .byte (by decide) hmore

/-- A unit in front of a cut is one of both texts. -/
theorem append {front front' : Bytes} (hfront : Returned front front')
    (hcut : ReturnedCut cut cut') :
    ReturnedCut (front ++ cut.1, cut.2) (front' ++ cut'.1, cut'.2) := by
  cases hcut with
  | apart hmore hbehind => exact .apart (hfront.append hmore) hbehind
  | taken hmore hbehind =>
    rw [← List.append_assoc]
    exact .taken (hfront.append hmore) hbehind

/-- A byte in front of a cut is one of both texts. -/
theorem cons (hb : b ≠ Byte.carriageReturn) (hcut : ReturnedCut cut cut') :
    ReturnedCut (b :: cut.1, cut.2) (b :: cut'.1, cut'.2) :=
  hcut.append (.byte hb .nil)

/-- A line end in front of a cut gets its return. -/
theorem lineEnd (hcut : ReturnedCut cut cut') :
    ReturnedCut (Byte.newline :: cut.1, cut.2)
      (Byte.carriageReturn :: Byte.newline :: cut'.1, cut'.2) :=
  hcut.append (.lineEnd .nil)

/-- Units that are cut alike have as many lines. -/
theorem newlines_eq (hcut : ReturnedCut cut cut') : newlines cut'.1 = newlines cut.1 := by
  cases hcut with
  | apart hfront hbehind => exact hfront.newlines_eq
  | taken hfront hmore => rw [newlines_append, hfront.newlines_eq]; rfl

/-- The parts stand in front of what begins like the text that was cut. -/
theorem joined {part part' : Bytes} (hcut : ReturnedCut cut cut') (hpart : Returned part part')
    (hhead : cut'.2.head? = some Byte.newline → part'.head? = some Byte.newline) :
    Returned (cut.1 ++ part) (cut'.1 ++ part') := by
  cases hcut with
  | apart hfront hbehind => exact hfront.append hpart
  | taken hfront hmore =>
    obtain ⟨more', rfl⟩ := List.head?_eq_some_iff.mp (hhead rfl)
    rw [List.append_assoc]
    refine hfront.append ?_
    cases hpart with
    | byte hb hmore => exact .lineEnd hmore

end ReturnedCut

section Scanners

variable {text text' : Bytes}

/-- Block comments end alike. -/
theorem splitBlockCommentBody_returned (hreturned : Returned text text') :
    ReturnedCut (splitBlockCommentBody text) (splitBlockCommentBody text') := by
  induction hreturned with
  | nil => exact .apart .nil .nil
  | @byte b rest rest' hb hmore ih =>
    by_cases hclose : b = Byte.star ∧ rest.head? = some Byte.slash
    · obtain ⟨rfl, hslash⟩ := hclose
      obtain ⟨behind, rfl⟩ := List.head?_eq_some_iff.mp hslash
      obtain ⟨-, behind', rfl, hbehind⟩ := hmore.exists_cons (by decide)
      exact .apart (.byte (by decide) (.byte (by decide) .nil)) hbehind
    · have hclose' : ¬ (b = Byte.star ∧ rest'.head? = some Byte.slash) := by
        rwa [hmore.head?_iff (by decide) (by decide)]
      rw [splitBlockCommentBody_step rest hclose, splitBlockCommentBody_step rest' hclose']
      exact ih.cons hb
  | @lineEnd rest rest' hmore ih =>
    rw [splitBlockCommentBody_cons (by decide), splitBlockCommentBody_cons (by decide),
      splitBlockCommentBody_cons (by decide)]
    exact ih.lineEnd

/-- Any byte but a newline goes into the line. -/
theorem splitLine_cons {b : UInt8} (hb : b ≠ Byte.newline) (rest : Bytes) :
    splitLine (b :: rest) = (b :: (splitLine rest).1, (splitLine rest).2) := by
  rw [splitLine, List.takeWhile_cons_of_pos (by simpa using hb),
    List.dropWhile_cons_of_pos (by simpa using hb)]
  rfl

/-- Lines end alike. -/
theorem splitLine_returned (hreturned : Returned text text') :
    ReturnedCut (splitLine text) (splitLine text') := by
  induction hreturned with
  | nil => exact .apart .nil .nil
  | @byte b rest rest' hb hmore ih =>
    by_cases hnewline : b = Byte.newline
    · subst hnewline
      exact .apart .nil (.byte hb hmore)
    · rw [splitLine_cons hnewline, splitLine_cons hnewline]
      exact ih.cons hb
  | lineEnd hmore => exact .taken .nil hmore

/-- Numbers end alike. -/
theorem splitNumberBody_returned (previous : UInt8) (hreturned : Returned text text') :
    ReturnedCut (splitNumberBody previous text) (splitNumberBody previous text') := by
  induction hreturned generalizing previous with
  | nil => exact .apart .nil .nil
  | @byte b rest rest' hb hmore ih =>
    rw [splitNumberBody, splitNumberBody, hmore.any_head? (by decide)]
    split
    · exact (ih b).cons hb
    · exact .apart .nil (.byte hb hmore)
  | lineEnd hmore => exact .apart .nil (.lineEnd hmore)

/-- A literal that is not continued on the next line. -/
theorem splitLiteralBody_returned {mark : UInt8} (hmark : mark ≠ Byte.carriageReturn)
    (hreturned : Returned text text')
    (hline : Byte.newline ∉ (splitLiteralBody mark text).1) :
    ReturnedCut (splitLiteralBody mark text) (splitLiteralBody mark text') := by
  fun_induction splitLiteralBody mark text generalizing text' with
  | case1 =>
    cases hreturned
    exact .apart .nil .nil
  | case2 =>
    obtain ⟨-, more, rfl, hmore⟩ := hreturned.exists_cons (by decide)
    cases hmore
    exact .apart (.byte (by decide) .nil) .nil
  | case3 c rest body behind hbody ih =>
    simp only [List.mem_cons, not_or] at hline
    obtain ⟨-, more, rfl, hmore⟩ := hreturned.exists_cons (by decide)
    obtain ⟨hc, behind', rfl, hbehind⟩ := hmore.exists_cons fun hsame => hline.2.1 hsame.symm
    rw [hbody] at ih
    rw [splitLiteralBody, if_pos rfl]
    exact ((ih hbehind hline.2.2).cons hc).cons (by decide)
  | case4 rest hescape =>
    cases hreturned with
    | byte hb hmore =>
      rw [splitLiteralBody_cons mark (by decide), if_pos rfl]
      exact .apart .nil (.byte hb hmore)
    | lineEnd hmore =>
      rw [splitLiteralBody_cons mark (by decide), if_neg (by decide), if_neg hmark.symm,
        splitLiteralBody_cons mark (by decide), if_pos rfl]
      exact .taken .nil hmore
  | case5 rest hescape hnewline =>
    obtain ⟨hb, more, rfl, hmore⟩ := hreturned.exists_cons hnewline
    rw [splitLiteralBody_cons mark hescape, if_neg hnewline, if_pos rfl]
    exact .apart (.byte hb .nil) hmore
  | case6 b rest hescape hnewline hclose body behind hbody ih =>
    obtain ⟨hb, more, rfl, hmore⟩ := hreturned.exists_cons hnewline
    rw [hbody] at ih
    rw [splitLiteralBody_cons mark hescape, if_neg hnewline, if_neg hclose]
    exact (ih hmore fun hmem => hline (List.mem_cons_of_mem b hmem)).cons hb

/-- A backslash behind the same byte continues a directive alike. -/
theorem splitDirective_returned {c : UInt8} {before before' : Bytes}
    (hc : c ≠ Byte.carriageReturn) (hreturned : Returned text text') :
    ReturnedCut (splitDirective (c :: before) text) (splitDirective (c :: before') text') := by
  have hcontinued (c : UInt8) (hc : c ≠ Byte.carriageReturn) (before : Bytes) :
      isContinued (c :: before) = decide (c = Byte.backslash) := by
    simp [isContinued, hc]
  induction hreturned generalizing c before before' with
  | nil => exact .apart .nil .nil
  | @byte b rest rest' hb hmore ih =>
    rw [splitDirective, splitDirective, hcontinued c hc, hcontinued c hc]
    split
    · exact .apart .nil (.byte hb hmore)
    · exact (ih hb).cons hb
  | @lineEnd rest rest' hmore ih =>
    have hreturn : isContinued (Byte.carriageReturn :: c :: before') =
        decide (c = Byte.backslash) := by
      have hne : Byte.carriageReturn ≠ Byte.backslash := by decide
      simp [isContinued, hne]
    have hbehind (before' : Bytes) :
        ReturnedCut (splitDirective (Byte.newline :: c :: before) rest)
          (splitDirective (Byte.newline :: before') rest') := ih (by decide)
    have hstep (before text : Bytes) : splitDirective before (Byte.carriageReturn :: text) =
        (Byte.carriageReturn :: (splitDirective (Byte.carriageReturn :: before) text).1,
          (splitDirective (Byte.carriageReturn :: before) text).2) := by
      rw [splitDirective, if_neg fun hends => absurd hends.1 (by decide)]
    rw [hstep, splitDirective, splitDirective, hreturn, hcontinued c hc]
    split
    · exact .taken .nil hmore
    · exact (hbehind _).lineEnd

end Scanners

/-! ## Comments and literals -/

/-- A comment, or a literal that is not continued on the next line. -/
def StaysOnLine (unit : Bytes) : Prop :=
  unit.head? = some Byte.doubleQuote ∨ unit.head? = some Byte.quote → Byte.newline ∉ unit

instance (unit : Bytes) : Decidable (StaysOnLine unit) :=
  inferInstanceAs (Decidable (_ ∨ _ → _))

/-- A comment or literal begins in both texts, or in none. -/
theorem splitTrivia?_returned {text text' : Bytes} (hreturned : Returned text text') :
    (splitTrivia? text = none → splitTrivia? text' = none) ∧
      ∀ unit behind, splitTrivia? text = some (unit, behind) → StaysOnLine unit →
        ∃ unit' behind', splitTrivia? text' = some (unit', behind') ∧
          ReturnedCut (unit, behind) (unit', behind') := by
  cases hreturned with
  | nil => exact ⟨id, fun _ _ htrivia => by cases htrivia⟩
  | lineEnd => exact ⟨fun _ => rfl, fun _ _ htrivia => by cases htrivia⟩
  | @byte b rest rest' hb hmore =>
    by_cases hslash : b = Byte.slash
    · subst hslash
      cases hmore with
      | nil => exact ⟨id, fun _ _ htrivia => by cases htrivia⟩
      | lineEnd => exact ⟨fun _ => rfl, fun _ _ htrivia => by cases htrivia⟩
      | @byte c rest rest' hc hmore =>
        by_cases hstar : c = Byte.star
        · subst hstar
          refine ⟨fun hnone => (by cases hnone), fun unit behind htrivia _ => ?_⟩
          cases htrivia
          exact ⟨_, _, rfl, ((splitBlockCommentBody_returned hmore).cons hc).cons hb⟩
        · by_cases hslash : c = Byte.slash
          · subst hslash
            refine ⟨fun hnone => (by cases hnone), fun unit behind htrivia _ => ?_⟩
            cases htrivia
            exact ⟨_, _, rfl, ((splitLine_returned hmore).cons hc).cons hb⟩
          · simp [splitTrivia?, hstar, hslash]
    · by_cases hquote : b = Byte.doubleQuote ∨ b = Byte.quote
      · simp only [splitTrivia?, if_neg hslash, if_pos hquote, splitLiteral]
        refine ⟨fun hnone => (by cases hnone), fun unit behind htrivia hstays => ?_⟩
        cases htrivia
        have hline : Byte.newline ∉ (splitLiteralBody b rest).1 := fun hmem =>
          hstays (by simpa using hquote) (List.mem_cons_of_mem b hmem)
        exact ⟨_, _, rfl, (splitLiteralBody_returned hb hmore hline).cons hb⟩
      · simp [splitTrivia?, hslash, hquote]

end PlainSync.Source
