import PlainSync.Proofs.Source.Legible
import PlainSync.Proofs.Source.Trimming

/-!
# Trimmed units

Whole encodings of blank characters are trimmed from both ends of an argument. What C reads in it
stays the same if its units are legible and none of these encodings is more than one byte: blanks
go from the front, and from the end blanks and the end of a line comment.
-/

namespace PlainSync.Source

open Bytes

/-- Bytes that C reads in another way than they are trimmed or put on one line: a backslash in front
of a carriage return, and the encodings of blank characters that are not ASCII. -/
def strayStretches : List Bytes :=
  [Byte.backslash, Byte.carriageReturn] :: blankEncodings.filter (1 < ·.length)

/-- None of these bytes stand between the units. -/
def Strayless (list : List Lexeme) : Prop :=
  ∀ stretch ∈ strayStretches, ¬ stretch.map Lexeme.mark <:+: list

instance (list : List Lexeme) : Decidable (Strayless list) :=
  inferInstanceAs (Decidable (∀ stretch ∈ strayStretches, ¬ stretch.map Lexeme.mark <:+: list))

/-- A part of units without stray backslashes has none. -/
theorem Strayless.of_infix {list part : List Lexeme} (hstrayless : Strayless list)
    (hpart : part <:+: list) : Strayless part :=
  fun stretch hstretch hstray => hstrayless stretch hstretch (hstray.trans hpart)

/-- Encoded blanks consist of blank bytes. -/
theorem isBlankByte_of_encodings {encodings : List Bytes}
    (hencodings : ∀ encoding ∈ encodings, encoding ∈ blankEncodings) :
    ∀ b ∈ encodings.flatten, isBlankByte b := by
  intro b hb
  obtain ⟨encoding, hmem, hb⟩ := List.mem_flatten.mp hb
  exact isBlankByte_of_mem_blankEncodings encoding (hencodings encoding hmem) b hb

/-- The bytes of encoded blanks stand alone. -/
theorem standsAlone_of_encodings {encodings : List Bytes}
    (hencodings : ∀ encoding ∈ encodings, encoding ∈ blankEncodings) :
    ∀ b ∈ encodings.flatten, standsAlone b :=
  fun b hb => (standsAlone_of_isBlankByte (isBlankByte_of_encodings hencodings b hb)).1

/-- What is trimmed are blanks of C. -/
theorem isBlank_of_encodings {encodings : List Bytes}
    (hencodings : ∀ encoding ∈ encodings, encoding ∈ blankEncodings)
    (hstrayless : Strayless (encodings.flatten.map .mark)) :
    ∀ unit ∈ encodings.flatten.map Lexeme.mark, unit.isBlank := by
  intro unit hunit
  obtain ⟨b, hb, rfl⟩ := List.mem_map.mp hunit
  obtain ⟨encoding, hmem, hb⟩ := List.mem_flatten.mp hb
  have hascii : ∀ encoding ∈ blankEncodings, encoding.length ≤ 1 → ∀ b ∈ encoding, isSpace b := by
    decide +kernel
  refine hascii encoding (hencodings encoding hmem) ?_ b hb
  by_contra hlong
  have hstretch : encoding ∈ strayStretches :=
    List.mem_cons_of_mem _ (List.mem_filter.mpr ⟨hencodings encoding hmem, by simpa using hlong⟩)
  exact hstrayless encoding hstretch ((List.infix_of_mem_flatten hmem).map Lexeme.mark)

/-- A line end is no part of a longer encoding. -/
theorem exists_append_of_flatten {encodings : List Bytes}
    (hencodings : ∀ encoding ∈ encodings, encoding ∈ blankEncodings) {front back : Bytes}
    (hflatten : encodings.flatten = front ++ Byte.newline :: back) :
    ∃ left right, encodings = left ++ right ∧ left.flatten = front ∧
      right.flatten = Byte.newline :: back := by
  induction encodings generalizing front with
  | nil => exact absurd hflatten.symm (by simp)
  | cons encoding more ih =>
    obtain ⟨hfirst, hmore⟩ := List.forall_mem_cons.mp hencodings
    rw [List.flatten_cons] at hflatten
    rcases List.append_eq_append_iff.mp hflatten with ⟨front', rfl, hbehind⟩ | ⟨part, hpart, hback⟩
    · obtain ⟨left, right, rfl, rfl, hright⟩ := ih hmore hbehind
      exact ⟨encoding :: left, right, rfl, rfl, hright⟩
    · cases part with
      | nil =>
        rw [List.append_nil] at hpart
        exact ⟨[encoding], more, rfl, by rw [← hpart]; simp, hback.symm⟩
      | cons b part =>
        obtain ⟨rfl, -⟩ := List.cons.inj hback
        have hnewline : ∀ encoding ∈ blankEncodings, Byte.newline ∈ encoding →
            encoding.length = 1 := by decide +kernel
        have hlength := hnewline encoding hfirst (by rw [hpart]; simp)
        rw [hpart, List.length_append, List.length_cons] at hlength
        obtain rfl : front = [] := List.length_eq_zero_iff.mp (by omega)
        exact ⟨[], encoding :: more, rfl, rfl, hflatten⟩

section Trim

variable {white : Bool} {front back back' kept list : List Lexeme}

/-- Blanks at the end can be cut off, or a part of them. -/
theorem SettledApart.exchange_back (hread : ReadUpTo (textOf back) front)
    (hsettled : SettledApart white (front ++ back)) (hshort : textOf back' <+: textOf back)
    (hblank : ∀ unit ∈ back, unit.isBlank) (hback : ∀ white, SettledApart white back') :
    SettledApart white (front ++ back') := by
  induction front generalizing white with
  | nil => exact hback white
  | cons unit front ih =>
    rw [List.cons_append] at hsettled ⊢
    obtain ⟨hunit, hmore⟩ := hread
    obtain ⟨hsplice, hends, hmoreSettled⟩ := hsettled
    have hshorter : textOf (front ++ back') <+: textOf (front ++ back) := by
      rw [textOf_append, textOf_append]
      exact (List.prefix_append_right_inj _).mpr hshort
    refine ⟨fun hsame => ?_, hends.of_prefix hunit.ne_directive hshorter, ih hmore hmoreSettled⟩
    obtain ⟨rfl, hbeside, hinside⟩ := hsplice (hsame.of_prefix hshorter)
    have hnone : back.any (!·.isBlank) = false := by simpa using hblank
    rw [List.any_append, hnone, Bool.or_false] at hinside
    -- The line end of the splice and something behind it belong to the front.
    cases front with
    | nil => cases hinside
    | cons next front =>
      have hhead : (textOf (next :: front)).head? = some Byte.newline := by
        rw [← hsame.2, textOf_append]
        exact (List.head?_append_of_ne_nil _ (by simp [hmore.1.text_ne_nil])).symm
      obtain ⟨others, hnext⟩ := hmore.exists_newline hhead
      obtain ⟨rfl, rfl⟩ := List.cons.inj hnext
      cases front with
      | nil => cases hinside
      | cons other front =>
        refine ⟨rfl, hbeside, ?_⟩
        rw [List.any_append, hinside, Bool.true_or]

/-- Blanks in front of units are in no run. -/
theorem runsFrom_rejoined_left (hfront : ∀ unit ∈ front, unit.isBlank) :
    runsFrom [] (rejoined (front ++ kept)) = runsFrom [] (rejoined kept) := by
  rw [rejoined_append,
    runsFrom_append_left fun unit hunit => hfront unit (mem_of_mem_rejoined hunit)]
  rintro ⟨hlast, -⟩
  exact absurd (hfront _ (List.mem_of_getLast? hlast)) (by decide)

/-- Blanks behind units are in no run. -/
theorem runsFrom_rejoined_right (hsettled : SettledApart white (kept ++ back))
    (hback : ∀ unit ∈ back, unit.isBlank) :
    runsFrom [] (rejoined (kept ++ back)) = runsFrom [] (rejoined kept) := by
  rw [rejoined_append (hsettled.not_splice hback),
    runsFrom_append_right fun unit hunit => hback unit (mem_of_mem_rejoined hunit)]

/-- A unit that is no byte of its own belongs to no stray stretch. -/
theorem Strayless.concat {unit : Lexeme} (hstrayless : Strayless kept)
    (hunit : ∀ b, unit ≠ .mark b) : Strayless (kept ++ [unit]) := by
  intro stretch hstretch hstray
  rcases List.infix_concat_iff.mp hstray with hsuffix | hinside
  · rcases List.suffix_concat_iff.mp hsuffix with hnil | ⟨front, hfront, -⟩
    · have hsome : ∀ stretch ∈ strayStretches, stretch ≠ [] := by decide +kernel
      exact hsome stretch hstretch (List.map_eq_nil_iff.mp hnil)
    · have hmem : unit ∈ stretch.map Lexeme.mark := by
        rw [hfront]
        simp
      obtain ⟨b, -, hb⟩ := List.mem_map.mp hmem
      exact hunit b hb.symm
  · exact hstrayless stretch hstretch hinside

/-- A line comment is blank. -/
theorem isBlank_of_isLineComment {unit : Lexeme} {behind : Bytes} (hunit : unit.ReadBefore behind)
    (hcomment : isLineComment unit.text) : unit.isBlank := by
  obtain ⟨line, hline⟩ := hcomment
  rcases hunit with rfl | hstands
  · cases hline
  · cases hstands.ends with
    | trivia => exact decide_eq_true (congrArg List.head? hline.symm)
    | number hdigit =>
      obtain ⟨rfl, -⟩ := List.cons.inj hline
      exact absurd hdigit (by decide)
    | word hstarts =>
      obtain ⟨rfl, -⟩ := List.cons.inj hline
      exact absurd hstarts (by decide)
    | mark => cases hline

/-- Texts that are made of blanks are made of units that are blanks. -/
theorem isBlank_of_textOf {behind : Bytes} {encodings : List Bytes}
    (hread : ReadUpTo behind back) (htext : textOf back = encodings.flatten)
    (hencodings : ∀ encoding ∈ encodings, encoding ∈ blankEncodings)
    (hstrayless : Strayless back) : ∀ unit ∈ back, unit.isBlank := by
  obtain ⟨more, rfl, hmore⟩ := hread.exists_marks encodings.flatten
    (standsAlone_of_encodings hencodings) (htext.trans (List.append_nil _).symm)
  have hnil : more = [] := by
    cases more with
    | nil => rfl
    | cons unit more =>
      have hunit := (readUpTo_append.mp hread).2.1
      exact absurd (List.append_eq_nil_iff.mp hmore).1 hunit.text_ne_nil
  rw [hnil, List.append_nil] at hstrayless ⊢
  exact isBlank_of_encodings hencodings hstrayless

/-- A unit that is over is cut nowhere in front of a blank byte. -/
theorem not_over_of_blank_end {unit : Lexeme} {part rest : Bytes} (htext : unit.text = part ++ rest)
    (hpart : part ≠ []) (hrest : rest ≠ []) (hblank : ∀ b ∈ rest, isBlankByte b) : ¬ unit.Over := by
  rintro (rfl | hfirm)
  · obtain ⟨b, part, rfl⟩ := List.exists_cons_of_ne_nil hpart
    have hnone := (List.cons.inj htext).2
    exact hrest (List.append_eq_nil_iff.mp hnone.symm).2
  · exact not_firm_of_blank_end htext hpart hrest hblank hfirm

/-- Legible units are so without those in front of them. -/
theorem Legible.of_append_right (hlegible : Legible (front ++ back)) : Legible back where
  read := (readUpTo_append.mp hlegible.read).2
  sound := fun unit hunit => hlegible.sound unit (List.mem_append_right _ hunit)
  settled := hlegible.settled.of_append_right

/-- Blanks behind units can be cut off. -/
theorem Legible.of_append_left (hlegible : Legible (kept ++ back))
    (hblank : ∀ unit ∈ back, unit.isBlank) : Legible kept where
  read := (readUpTo_append.mp hlegible.read).1.cut
  sound := fun unit hunit => hlegible.sound unit (List.mem_append_left _ hunit)
  settled := by
    have hread := (readUpTo_append.mp hlegible.read).1
    rw [List.append_nil] at hread
    have hsettled : SettledApart true (kept ++ []) :=
      hlegible.settled.exchange_back hread List.nil_prefix hblank fun _ => trivial
    rwa [List.append_nil] at hsettled

/-- A line comment at the end can be cut, with the blanks behind it. -/
theorem Legible.shorten_comment {comment : Lexeme} {more : List Lexeme} {line rest : Bytes}
    (hlegible : Legible (kept ++ comment :: more))
    (htext : comment.text = Byte.slash :: Byte.slash :: line ++ rest)
    (hblank : ∀ unit ∈ comment :: more, unit.isBlank) :
    Legible (kept ++ [.trivia (Byte.slash :: Byte.slash :: line)]) := by
  have hread := readUpTo_append.mp hlegible.read
  rw [List.append_nil] at hread
  have hline : Byte.newline ∉ line := by
    rcases hread.2.1 with rfl | hstands
    · cases htext
    · exact newline_not_mem_of_isLineComment hstands ⟨rest, htext.symm⟩
  have hshort :
      textOf [.trivia (Byte.slash :: Byte.slash :: line)] <+: textOf (comment :: more) := by
    rw [textOf_cons comment, htext, List.append_assoc]
    simp [Lexeme.text]
  refine ⟨readUpTo_append.mpr ⟨hread.1.of_sight ?_, .inr (standsBefore_lineComment hline), trivial⟩,
    ?_, hlegible.settled.exchange_back hread.1 hshort hblank ?_⟩
  · rw [textOf_cons comment, htext]
    rfl
  · intro unit hunit
    rcases List.mem_append.mp hunit with hunit | hunit
    · exact hlegible.sound unit (List.mem_append_left _ hunit)
    · rw [List.mem_singleton.mp hunit]
      exact .inr ⟨line, rfl⟩
  · refine fun white => ⟨fun hsplice => absurd hsplice.2 (by simp), fun _ hstar => ?_, trivial⟩
    have hmem : Byte.newline ∈ Byte.slash :: Byte.slash :: line := hstar.subset (by simp)
    simp only [List.mem_cons] at hmem
    rcases hmem with hslash | hslash | hmem
    · exact absurd hslash (by decide)
    · exact absurd hslash (by decide)
    · exact hline hmem

/-- What is trimmed behind a line comment begins with a line end, so it is made of blanks. -/
theorem isBlank_behind_comment {comment : Lexeme} {rest behind : Bytes} {encodings : List Bytes}
    (hcomment : comment.ReadBefore (textOf back ++ behind)) (hline : isLineComment comment.text)
    (hread : ReadUpTo behind back) (hencodings : ∀ encoding ∈ encodings, encoding ∈ blankEncodings)
    (hflatten : rest ++ textOf back = encodings.flatten) (hstrayless : Strayless back) :
    ∀ unit ∈ back, unit.isBlank := by
  have hstands : comment.StandsBefore (textOf back ++ behind) := by
    refine hcomment.resolve_left ?_
    rintro rfl
    exact absurd hline (by decide)
  cases htext : textOf back with
  | nil => exact isBlank_of_textOf hread (htext.trans List.flatten_nil.symm) nofun hstrayless
  | cons b text =>
    have hhead := head?_of_isLineComment hstands hline
    rw [htext] at hhead hflatten
    obtain rfl := hhead b rfl
    obtain ⟨left, right, rfl, -, hright⟩ := exists_append_of_flatten hencodings hflatten.symm
    exact isBlank_of_textOf hread (htext.trans hright.symm)
      (fun encoding hmem => hencodings encoding (List.mem_append_right _ hmem)) hstrayless

/-- Trimmed units are legible, and all that is trimmed are blanks. -/
theorem Legible.exists_trimEnd {encodings : List Bytes} {text : Bytes} (hlegible : Legible list)
    (hstrayless : Strayless list) (hencodings : ∀ encoding ∈ encodings, encoding ∈ blankEncodings)
    (htext : textOf list = text ++ encodings.flatten) :
    ∃ list', textOf list' = text ∧ Legible list' ∧ Strayless list' ∧
      runsFrom [] (rejoined list') = runsFrom [] (rejoined list) ∧
      ((∀ unit ∈ list, unit.Over) → ∀ unit ∈ list', unit.Over) := by
  obtain ⟨kept, back, rfl, ⟨rfl, hback⟩ | ⟨unit, more, part, rest, rfl, hunit, hpart, hrest, rfl,
    hback⟩⟩ := exists_append_of_textOf_eq htext
  · have hread := (readUpTo_append.mp hlegible.read).2
    have hblank := isBlank_of_textOf hread hback hencodings
      (hstrayless.of_infix (List.suffix_append kept back).isInfix)
    refine ⟨kept, rfl, hlegible.of_append_left hblank,
      hstrayless.of_infix (List.prefix_append kept back).isInfix, ?_, fun hover other hother =>
        hover other (List.mem_append_left _ hother)⟩
    exact (runsFrom_rejoined_right hlegible.settled hblank).symm
  · have hblankRest : ∀ b ∈ rest, isBlankByte b := fun b hb =>
      isBlankByte_of_encodings hencodings b (hback ▸ List.mem_append_left _ hb)
    have hlong := not_over_of_blank_end hunit hpart hrest hblankRest
    have hcomment := (hlegible.sound unit (by simp)).resolve_left hlong
    obtain ⟨line, rfl⟩ := exists_line_of_cut hcomment hunit hpart hrest hblankRest
    obtain ⟨hcommentRead, hmoreRead⟩ := (readUpTo_append.mp hlegible.read).2
    have hmore := isBlank_behind_comment hcommentRead hcomment hmoreRead hencodings hback
      (hstrayless.of_infix ((List.suffix_cons unit more).trans (List.suffix_append kept _)).isInfix)
    have hblank : ∀ other ∈ unit :: more, other.isBlank :=
      List.forall_mem_cons.mpr ⟨isBlank_of_isLineComment hcommentRead hcomment, hmore⟩
    have hshorter := hlegible.shorten_comment hunit hblank
    refine ⟨_, ?_, hshorter, ?_, ?_, fun hover => absurd (hover unit (by simp)) hlong⟩
    · rw [textOf_append]
      simp [Lexeme.text]
    · exact (hstrayless.of_infix (List.prefix_append kept _).isInfix).concat fun b => by simp
    · rw [runsFrom_rejoined_right hlegible.settled hblank,
        runsFrom_rejoined_right hshorter.settled (by simp [Lexeme.isBlank])]

/-- Trimmed units are legible, and C reads the same runs in them. -/
theorem Legible.exists_trim (hlegible : Legible list) (hstrayless : Strayless list) :
    ∃ list', textOf list' = (textOf list).trim ∧ Legible list' ∧ Strayless list' ∧
      runsFrom [] (rejoined list') = runsFrom [] (rejoined list) ∧
      ((∀ unit ∈ list, unit.Over) → ∀ unit ∈ list', unit.Over) := by
  obtain ⟨front, back, hfront, hback, hwhole⟩ := exists_flatten_trim (textOf list)
  obtain ⟨more, hlist, hmore⟩ :=
    hlegible.read.exists_marks front.flatten (standsAlone_of_encodings hfront) hwhole.symm
  rw [hlist] at hlegible hstrayless
  have hblank := isBlank_of_encodings hfront
    (hstrayless.of_infix (List.prefix_append _ more).isInfix)
  obtain ⟨list', htext, hlegible', hstrayless', hruns, hover⟩ :=
    hlegible.of_append_right.exists_trimEnd
      (hstrayless.of_infix (List.suffix_append _ more).isInfix) hback hmore
  refine ⟨list', htext, hlegible', hstrayless', ?_, fun hlistOver => hover fun unit hunit =>
    hlistOver unit ?_⟩
  · rw [hruns, hlist, runsFrom_rejoined_left hblank]
  · rw [hlist]
    exact List.mem_append_right _ hunit

end Trim

end PlainSync.Source
