import PlainSync.Proofs.Source.Joined
import PlainSync.Proofs.Source.LineEndings
import PlainSync.Proofs.Source.SkippedUnits

/-!
# Dropping line comments

A text is read from left to right as line comments, units that are skipped as a whole, and single
bytes, in one way only. Dropping its line comments puts a space in the place of each and leaves
every other unit. The result is read as these units again: the space and the line end behind it end
a unit no later and no sooner than the comment did, so no line comment appears and nothing is left
to drop.
-/

namespace PlainSync.Source

open Bytes

/-- A unit of a text for a scan that is after line comments. -/
inductive ScanUnit where
  /-- Two slashes and the rest of their line. -/
  | lineComment (body : Bytes)
  /-- A block comment, a literal or a number. -/
  | whole (text : Bytes)
  /-- Any other byte. -/
  | byte (b : UInt8)
  deriving DecidableEq, Repr

namespace ScanUnit

/-- The text of a unit. -/
def text : ScanUnit → Bytes
  | lineComment body => Byte.slash :: Byte.slash :: body
  | whole text => text
  | byte b => [b]

/-- A space in the place of a line comment. -/
def blanked : ScanUnit → ScanUnit
  | lineComment _ => byte Byte.space
  | unit => unit

/-- The unit is the first one of a text, in front of what stands `behind` it. The bytes `before` the
text are given last one first. -/
inductive Begins (before : Bytes) : ScanUnit → Bytes → Prop
  | lineComment {body behind : Bytes} (hbody : Byte.newline ∉ body)
    (hend : ∀ b ∈ behind.head?, b = Byte.newline) : Begins before (lineComment body) behind
  | blockComment {text behind : Bytes} (hcomment : BlockComment text behind) :
    Begins before (whole text) behind
  | literal {text behind : Bytes} (hliteral : Literal text behind) :
    Begins before (whole text) behind
  | number {first : UInt8} {rest behind : Bytes} (hnumber : Number first rest behind)
    (hopens : opensNumber before) : Begins before (whole (first :: rest)) behind
  | byte {b : UInt8} {behind : Bytes}
    (hcomment : b = Byte.slash → ∀ c ∈ behind.head?, c ≠ Byte.slash ∧ c ≠ Byte.star)
    (hquote : b ≠ Byte.doubleQuote ∧ b ≠ Byte.quote)
    (hnumber : ¬ (Byte.isDigit b ∧ opensNumber before)) : Begins before (byte b) behind

end ScanUnit

/-- The text of a list of units. -/
def unitsText (units : List ScanUnit) : Bytes := units.flatMap ScanUnit.text

/-- Each unit is the first one of the text from there on. -/
inductive Scanned : Bytes → List ScanUnit → Prop
  | nil {before : Bytes} : Scanned before []
  | cons {before : Bytes} {unit : ScanUnit} {more : List ScanUnit}
    (hunit : unit.Begins before (unitsText more))
    (hmore : Scanned (unit.text.reverse ++ before) more) : Scanned before (unit :: more)

/-- The text is read as the units. -/
structure ReadAs (text : Bytes) (units : List ScanUnit) : Prop where
  unitsText_eq : unitsText units = text
  scanned : Scanned [] units

/-- No units make no text. -/
@[simp] theorem unitsText_nil : unitsText [] = [] := rfl

/-- The text of a unit comes in front of the others. -/
@[simp] theorem unitsText_cons (unit : ScanUnit) (more : List ScanUnit) :
    unitsText (unit :: more) = unit.text ++ unitsText more := rfl

/-! ## The first unit -/

section FirstUnit

variable {before rest behind : Bytes} {b : UInt8} {unit : ScanUnit}

/-- The first unit of the text `b :: rest`, and what stands behind it. -/
def firstUnit (before : Bytes) (b : UInt8) (rest : Bytes) : ScanUnit × Bytes :=
  if b = Byte.slash ∧ rest.head? = some Byte.slash then
    (.lineComment (splitLine rest.tail).1, (splitLine rest.tail).2)
  else if Byte.isDigit b ∧ opensNumber before then
    (.whole (b :: (splitNumberBody b rest).1), (splitNumberBody b rest).2)
  else
    match splitTrivia? (b :: rest) with
    | some (unit, behind) => (.whole unit, behind)
    | none => (.byte b, rest)

/-- The first unit and the rest make up the text. -/
theorem text_firstUnit (before : Bytes) (b : UInt8) (rest : Bytes) :
    (firstUnit before b rest).1.text ++ (firstUnit before b rest).2 = b :: rest := by
  unfold firstUnit
  split
  · next hcomment =>
    obtain ⟨rfl, hhead⟩ := hcomment
    obtain ⟨line, rfl⟩ := List.head?_eq_some_iff.mp hhead
    exact congrArg (Byte.slash :: Byte.slash :: ·) (splitLine_append line)
  · split
    · exact congrArg (b :: ·) (splitNumberBody_append b rest)
    · split
      · next htrivia => exact append_of_splitTrivia? htrivia
      · rfl

/-- The unit that is found first is the first one. -/
theorem begins_firstUnit (before : Bytes) (b : UInt8) (rest : Bytes) :
    (firstUnit before b rest).1.Begins before (firstUnit before b rest).2 := by
  unfold firstUnit
  split
  · exact .lineComment (newline_not_mem_splitLine _) (splitLine_end _)
  · next hline =>
    split
    · next hnumber => exact .number (number_splitNumberBody hnumber.1 rest) hnumber.2
    · next hnumber =>
      split
      · next htrivia =>
        exact (blockComment_or_literal_of_splitTrivia? hline htrivia).elim .blockComment .literal
      · next htrivia =>
        obtain ⟨hcomment, hquote⟩ := splitTrivia?_eq_none_iff.mp htrivia
        exact .byte hcomment hquote hnumber

/-- A block comment or literal is one unit. -/
theorem firstUnit_of_splitTrivia? {text : Bytes}
    (hline : ¬ (b = Byte.slash ∧ rest.head? = some Byte.slash))
    (htrivia : splitTrivia? (b :: rest) = some (text, behind)) :
    firstUnit before b rest = (.whole text, behind) := by
  have hdigit : ¬ Byte.isDigit b := fun hdigit => by
    rw [splitTrivia?_of_isPlain (isPlain_of_isDigit hdigit)] at htrivia
    cases htrivia
  rw [firstUnit, if_neg hline, if_neg fun hnumber => hdigit hnumber.1, htrivia]

/-- There is no other first unit. -/
theorem ScanUnit.Begins.firstUnit_eq (hunit : unit.Begins before behind)
    (hwhole : unit.text ++ behind = b :: rest) : firstUnit before b rest = (unit, behind) := by
  cases hunit with
  | @lineComment body _ hbody hend =>
    obtain ⟨rfl, rfl⟩ : Byte.slash = b ∧ Byte.slash :: (body ++ behind) = rest :=
      List.cons.inj hwhole
    rw [firstUnit, if_pos ⟨rfl, rfl⟩, List.tail_cons, splitLine_of_line hbody hend]
  | @blockComment text _ hcomment =>
    have htrivia := splitTrivia?_of_blockComment hcomment
    obtain ⟨body, rfl⟩ := hcomment.exists_eq
    obtain ⟨rfl, rfl⟩ := List.cons.inj hwhole
    exact firstUnit_of_splitTrivia? (by simp [show Byte.star ≠ Byte.slash by decide]) htrivia
  | literal hliteral =>
    have htrivia := splitTrivia?_of_literal hliteral
    obtain ⟨mark, body, hmark, rfl⟩ := hliteral.exists_eq
    obtain ⟨rfl, rfl⟩ := List.cons.inj hwhole
    have hslash : mark ≠ Byte.slash := by rcases hmark with rfl | rfl <;> decide
    exact firstUnit_of_splitTrivia? (fun hline => hslash hline.1) htrivia
  | @number first more _ hnumber hopens =>
    obtain ⟨rfl, rfl⟩ : first = b ∧ more ++ behind = rest := List.cons.inj hwhole
    have hslash : first ≠ Byte.slash := by
      rintro rfl
      exact absurd hnumber.isDigit_first (by decide)
    rw [firstUnit, if_neg fun hline => hslash hline.1, if_pos ⟨hnumber.isDigit_first, hopens⟩,
      splitNumberBody_of_number hnumber]
  | @byte c _ hcomment hquote hnumber =>
    obtain ⟨rfl, rfl⟩ : c = b ∧ behind = rest := List.cons.inj hwhole
    have htrivia := splitTrivia?_eq_none_iff.mpr ⟨hcomment, hquote⟩
    have hline : ¬ (c = Byte.slash ∧ behind.head? = some Byte.slash) := fun hline =>
      (hcomment hline.1 _ hline.2).1 rfl
    rw [firstUnit, if_neg hline, if_neg hnumber, htrivia]

/-- No unit is empty. -/
theorem ScanUnit.Begins.text_ne_nil (hunit : unit.Begins before behind) : unit.text ≠ [] := by
  cases hunit with
  | blockComment hcomment =>
    obtain ⟨body, rfl⟩ := hcomment.exists_eq
    exact List.cons_ne_nil _ _
  | literal hliteral =>
    obtain ⟨mark, body, -, rfl⟩ := hliteral.exists_eq
    exact List.cons_ne_nil _ _
  | _ => exact List.cons_ne_nil _ _

/-- A unit begins with a byte. -/
theorem ScanUnit.Begins.exists_text_append_eq (hunit : unit.Begins before behind) :
    ∃ b rest, unit.text ++ behind = b :: rest :=
  List.exists_cons_of_ne_nil (List.append_ne_nil_of_left_ne_nil hunit.text_ne_nil behind)

/-- Dropping line comments goes from unit to unit. -/
theorem withoutLineComments_firstUnit (before : Bytes) (b : UInt8) (rest : Bytes) :
    withoutLineComments before (b :: rest) =
      (firstUnit before b rest).1.blanked.text ++
        withoutLineComments ((firstUnit before b rest).1.text.reverse ++ before)
          (firstUnit before b rest).2 := by
  unfold firstUnit
  split
  · next hline =>
    obtain ⟨rfl, hhead⟩ := hline
    obtain ⟨line, rfl⟩ := List.head?_eq_some_iff.mp hhead
    rw [withoutLineComments_lineComment rfl, splitLine_cons (by decide)]
    simp [ScanUnit.text, ScanUnit.blanked]
  · next hline =>
    split
    · next hnumber =>
      rw [withoutLineComments_number hnumber.1 hnumber.2]
      simp [ScanUnit.text, ScanUnit.blanked]
    · next hnumber =>
      split
      · next htrivia => exact withoutLineComments_trivia hline htrivia
      · next htrivia => exact withoutLineComments_byte hnumber htrivia

end FirstUnit

/-! ## The scan -/

section Scan

variable {before before' text : Bytes} {units units' : List ScanUnit}

/-- Every text has a scan. -/
theorem exists_scanned (before text : Bytes) :
    ∃ units, unitsText units = text ∧ Scanned before units := by
  match text with
  | [] => exact ⟨[], rfl, .nil⟩
  | b :: rest =>
    have hunit := begins_firstUnit before b rest
    have hwhole := text_firstUnit before b rest
    have hless : (firstUnit before b rest).2.length < (b :: rest).length := by
      rw [← hwhole, List.length_append]
      exact Nat.lt_add_of_pos_left (List.length_pos_iff.mpr hunit.text_ne_nil)
    obtain ⟨more, htext, hmore⟩ := exists_scanned
      ((firstUnit before b rest).1.text.reverse ++ before) (firstUnit before b rest).2
    refine ⟨_ :: more, ?_, .cons ?_ hmore⟩
    · rw [unitsText_cons, htext, hwhole]
    · rwa [htext]
termination_by text.length
decreasing_by exact hless

/-- A text has one scan. -/
theorem Scanned.unique (hscanned : Scanned before units) (hscanned' : Scanned before units')
    (hsame : unitsText units = unitsText units') : units = units' := by
  induction hscanned generalizing units' with
  | nil =>
    cases hscanned' with
    | nil => rfl
    | cons hunit' _ =>
      obtain ⟨hnil, -⟩ := List.append_eq_nil_iff.mp hsame.symm
      exact absurd hnil hunit'.text_ne_nil
  | @cons before unit more hunit _ ih =>
    obtain ⟨b, rest, hwhole⟩ := hunit.exists_text_append_eq
    have hfirst := hunit.firstUnit_eq hwhole
    cases hscanned' with
    | nil =>
      obtain ⟨hnil, -⟩ := List.append_eq_nil_iff.mp hsame
      exact absurd hnil hunit.text_ne_nil
    | cons hunit' hmore' =>
      have hfirst' := hunit'.firstUnit_eq (hsame.symm.trans hwhole)
      obtain ⟨rfl, hbehind⟩ := Prod.mk.inj (hfirst.symm.trans hfirst')
      rw [ih hmore' hbehind]

/-- Dropping line comments blanks the units of the scan. -/
theorem Scanned.withoutLineComments_eq (hscanned : Scanned before units) :
    withoutLineComments before (unitsText units) = unitsText (units.map ScanUnit.blanked) := by
  induction hscanned with
  | nil => rw [unitsText_nil, withoutLineComments]; rfl
  | @cons before unit more hunit _ ih =>
    obtain ⟨b, rest, hwhole⟩ := hunit.exists_text_append_eq
    rw [unitsText_cons, hwhole, withoutLineComments_firstUnit, hunit.firstUnit_eq hwhole, ih]
    rfl

end Scan

/-! ## The result -/

section Result

variable {before before' behind behind' : Bytes} {unit : ScanUnit} {units : List ScanUnit}

/-- Texts that look alike to the unit in front of them, but for a space where a comment was. -/
def SeenAlike (behind behind' : Bytes) : Prop :=
  sight behind' = sight behind ∨
    behind.head? = some Byte.slash ∧ behind'.head? = some Byte.space

/-- Texts that are seen alike begin with a letter or digit or neither does. -/
theorem SeenAlike.any_isAlphanumeric (halike : SeenAlike behind behind') :
    behind'.head?.any Byte.isAlphanumeric = behind.head?.any Byte.isAlphanumeric := by
  rcases halike with hsight | ⟨hslash, hspace⟩
  · rw [head?_of_sight hsight]
  · rw [hslash, hspace]
    decide

/-- Texts are seen alike behind the same text. -/
theorem SeenAlike.append (halike : SeenAlike behind behind') (text : Bytes) :
    SeenAlike (text ++ behind) (text ++ behind') := by
  by_cases hnil : text = []
  · subst hnil
    exact halike
  · exact .inl (sight_append hnil halike.any_isAlphanumeric)

/-- A text is seen as it is with its line comments blanked. -/
theorem seenAlike_map_blanked (units : List ScanUnit) :
    SeenAlike (unitsText units) (unitsText (units.map ScanUnit.blanked)) := by
  induction units with
  | nil => exact .inl rfl
  | cons unit more ih =>
    cases unit with
    | lineComment body => exact .inr ⟨rfl, rfl⟩
    | whole text => exact ih.append text
    | byte b => exact ih.append [b]

/-- A text that is seen as the empty one is empty. -/
theorem SeenAlike.eq_nil (halike : SeenAlike behind behind') (hnil : behind = []) :
    behind' = [] := by
  subst hnil
  rcases halike with hsight | ⟨hslash, -⟩
  · exact List.head?_eq_none_iff.mp (head?_of_sight hsight)
  · cases hslash

/-- Texts that are seen alike end a line or neither does. -/
theorem SeenAlike.head?_eq (halike : SeenAlike behind behind')
    (hend : ∀ b ∈ behind.head?, b = Byte.newline) : behind'.head? = behind.head? := by
  rcases halike with hsight | ⟨hslash, -⟩
  · exact head?_of_sight hsight
  · exact absurd (hend _ hslash) (by decide)

/-- A number ends in front of a space, as it does in front of a slash. -/
theorem Number.exchange {first : UInt8} {rest : Bytes} (hnumber : Number first rest behind)
    (halike : SeenAlike behind behind') : Number first rest behind' := by
  have hends : ∀ previous, (splitNumberBody previous behind).1 = [] →
      (splitNumberBody previous behind').1 = [] := by
    rcases halike with hsight | ⟨-, hspace⟩
    · exact splitNumberBody_of_sight hsight
    · intro previous _
      refine splitNumberBody_of_endsWord previous fun c hc => ?_
      obtain rfl := Option.some.inj (hspace.symm.trans hc)
      decide
  have hsplit := splitNumberBody_exchange hends (splitNumberBody_of_number hnumber)
  have hnumber' := number_splitNumberBody hnumber.isDigit_first (rest ++ behind')
  rwa [hsplit] at hnumber'

/-- If a digit stands at the front of the text, it opens a number behind the one text as behind the
other. At the end of a line there is no digit. -/
def OpensAlike (before before' text : Bytes) : Prop :=
  opensNumber before' = opensNumber before ∨ ∀ c ∈ text.head?, c = Byte.newline

/-- A number opens behind both texts or behind neither. -/
theorem OpensAlike.opensNumber_eq {b : UInt8} {rest : Bytes}
    (hstart : OpensAlike before before' (b :: rest)) (hdigit : Byte.isDigit b) :
    opensNumber before' = opensNumber before := by
  refine hstart.resolve_right fun hline => ?_
  obtain rfl := hline b rfl
  exact absurd hdigit (by decide)

/-- A unit stays the first one when the line comments from there on are blanked. -/
theorem ScanUnit.Begins.blanked (hunit : unit.Begins before behind)
    (halike : SeenAlike behind behind') (hstart : OpensAlike before before' (unit.text ++ behind)) :
    unit.blanked.Begins before' behind' := by
  cases hunit with
  | lineComment _ _ =>
    -- A space opens nothing, whatever stands around it.
    exact .byte (fun hslash => absurd hslash (by decide)) (by decide)
      fun hnumber => absurd hnumber.1 (by decide)
  | blockComment hcomment => exact .blockComment (hcomment.exchange halike.eq_nil)
  | literal hliteral => exact .literal (hliteral.exchange halike.head?_eq)
  | number hnumber hopens =>
    rw [← hstart.opensNumber_eq hnumber.isDigit_first] at hopens
    exact .number (hnumber.exchange halike) hopens
  | byte hcomment hquote hnumber =>
    refine .byte (fun hslash c hc => ?_) hquote fun hnumber' => ?_
    · rcases halike with hsight | ⟨-, hspace⟩
      · rw [head?_of_sight hsight] at hc
        exact hcomment hslash c hc
      · -- In front of a space a slash opens nothing.
        obtain rfl := Option.some.inj (hspace.symm.trans hc)
        decide
    · have hopens := hnumber'.2
      rw [hstart.opensNumber_eq hnumber'.1] at hopens
      exact hnumber ⟨hnumber'.1, hopens⟩

/-- Whether a number opens is up to the last byte. -/
theorem opensNumber_reverse_append {text : Bytes} (htext : text ≠ []) :
    opensNumber (text.reverse ++ before') = opensNumber (text.reverse ++ before) := by
  have hreverse : text.reverse ≠ [] := List.reverse_ne_nil_iff.mpr htext
  rw [opensNumber, opensNumber, List.head?_append_of_ne_nil _ hreverse,
    List.head?_append_of_ne_nil _ hreverse]

/-- Behind a line comment the space is another byte before the text, but the line ends there. -/
theorem ScanUnit.Begins.opensAlike (hunit : unit.Begins before behind) :
    OpensAlike (unit.text.reverse ++ before) (unit.blanked.text.reverse ++ before') behind := by
  have hnonempty := hunit.text_ne_nil
  cases hunit with
  | lineComment _ hend => exact .inr hend
  | _ => exact .inl (opensNumber_reverse_append hnonempty)

/-- The units of a text stay the first ones when its line comments are blanked. -/
theorem Scanned.map_blanked (hscanned : Scanned before units)
    (hstart : OpensAlike before before' (unitsText units)) :
    Scanned before' (units.map ScanUnit.blanked) := by
  induction hscanned generalizing before' with
  | nil => exact .nil
  | @cons before unit more hunit _ ih =>
    exact .cons (hunit.blanked (seenAlike_map_blanked more) hstart) (ih hunit.opensAlike)

/-- No line comment is left. -/
theorem lineComment_notMem_map_blanked (units : List ScanUnit) (body : Bytes) :
    ScanUnit.lineComment body ∉ units.map ScanUnit.blanked := by
  intro hmem
  obtain ⟨unit, -, hunit⟩ := List.mem_map.mp hmem
  cases unit <;> cases hunit

/-- A blanked unit is blanked already. -/
theorem ScanUnit.blanked_blanked (unit : ScanUnit) : unit.blanked.blanked = unit.blanked := by
  cases unit <;> rfl

/-- A text is read in one way. -/
theorem ReadAs.iff_eq {text : Bytes} (hread : ReadAs text units) (other : List ScanUnit) :
    ReadAs text other ↔ other = units := by
  constructor
  · intro hother
    exact hother.scanned.unique hread.scanned (hother.unitsText_eq.trans hread.unitsText_eq.symm)
  · rintro rfl
    exact hread

/-- Dropping line comments puts a space in the place of each line comment of the only reading of a
text, and leaves the other units. The result is read as these units again, so it has no line
comment, and dropping line comments leaves it as it is. All lines stay. -/
theorem withoutLineComments_exact (text : Bytes) :
    ∃ units, (∀ other, ReadAs text other ↔ other = units) ∧
      withoutLineComments [] text = unitsText (units.map ScanUnit.blanked) ∧
      (∀ other, ReadAs (withoutLineComments [] text) other ↔
        other = units.map ScanUnit.blanked) ∧
      (∀ body, ScanUnit.lineComment body ∉ units.map ScanUnit.blanked) ∧
      newlines (withoutLineComments [] text) = newlines text ∧
      withoutLineComments [] (withoutLineComments [] text) = withoutLineComments [] text := by
  obtain ⟨units, rfl, hscanned⟩ := exists_scanned [] text
  have hread : ReadAs (unitsText units) units := ⟨rfl, hscanned⟩
  have hblanked := hscanned.map_blanked (.inl rfl)
  have hresult := hscanned.withoutLineComments_eq
  have hagain : ReadAs (withoutLineComments [] (unitsText units)) (units.map ScanUnit.blanked) :=
    ⟨hresult.symm, hblanked⟩
  have hidempotent : ScanUnit.blanked ∘ ScanUnit.blanked = ScanUnit.blanked :=
    funext ScanUnit.blanked_blanked
  refine ⟨units, hread.iff_eq, hresult, hagain.iff_eq, lineComment_notMem_map_blanked units,
    newlines_withoutLineComments [] _, ?_⟩
  rw [hresult, hblanked.withoutLineComments_eq, List.map_map, hidempotent]

/-- A digit separator opens no literal, and slashes inside other units begin no comment. -/
example : withoutLineComments [] (ofString "f(1'0 /*//*/, // y'\n\"//\")") =
    ofString "f(1'0 /*//*/,  \n\"//\")" := by cbv

end Result

end PlainSync.Source
