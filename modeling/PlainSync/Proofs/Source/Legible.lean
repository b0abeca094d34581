import PlainSync.Proofs.Normalize.TidyLexemes
import PlainSync.Proofs.Source.Tokens
import PlainSync.Proofs.Source.Trimming

/-!
# Texts that C reads as the scan does

An argument is scanned without directives: a hash mark in it is a byte like any other. If all its
literals are closed, and splices stand in literals, in block comments and beside white space only, C
reads the units of the scan in it, without their splices. In front of a closing parenthesis it reads
them again.
-/

namespace PlainSync.Source

open Bytes

/-! ## Units where no directive begins -/

namespace Lexeme

/-- The unit is read in front of a text, where no directive begins. -/
def ReadBefore (unit : Lexeme) (behind : Bytes) : Prop :=
  unit = .mark Byte.hash ∨ unit.StandsBefore behind

/-- The unit is over in front of a space. -/
def Over (unit : Lexeme) : Prop := unit.ReadBefore [Byte.space]

variable {unit : Lexeme} {behind behind' tail : Bytes}

/-- No empty unit is read. -/
theorem ReadBefore.text_ne_nil (hread : unit.ReadBefore behind) : unit.text ≠ [] := by
  rcases hread with rfl | hstands
  · exact List.cons_ne_nil _ _
  · exact hstands.text_ne_nil

/-- A unit is read in front of anything that looks the same. -/
theorem ReadBefore.of_sight (hread : unit.ReadBefore behind)
    (hsight : sight behind' = sight behind) : unit.ReadBefore behind' :=
  hread.imp_right fun hstands => hstands.of_sight hsight

/-- A unit is read in front of the beginning of what stands behind it. -/
theorem ReadBefore.cut (hread : unit.ReadBefore (behind ++ tail)) : unit.ReadBefore behind :=
  hread.imp_right fun hstands => hstands.cut

/-- A unit that is over is read in front of whatever separates. -/
theorem Over.readBefore (hover : unit.Over) (hhead : ∀ c ∈ behind.head?, separates c) :
    unit.ReadBefore behind :=
  hover.imp_right fun hfirm => Firm.standsBefore hfirm hhead

/-- No unit that is read is a directive. -/
theorem ReadBefore.ne_directive (hread : unit.ReadBefore behind) (text : Bytes) :
    unit ≠ .directive text := by
  rintro rfl
  rcases hread with hhash | hstands
  · cases hhash
  · cases hstands.ends

/-- A byte that stands alone is a unit. -/
theorem ReadBefore.eq_mark {b : UInt8} {rest : Bytes} (hread : unit.ReadBefore behind)
    (htext : unit.text = b :: rest) (hb : standsAlone b) : unit = .mark b ∧ rest = [] := by
  rcases hread with rfl | hstands
  · obtain ⟨rfl, -⟩ := List.cons.inj htext
    exact absurd hb (by decide)
  · have hmark := hstands.nextLexeme_eq htext []
    rw [nextLexeme_of_standsAlone hb, Prod.mk.injEq] at hmark
    obtain ⟨rfl, -⟩ := hmark
    exact ⟨rfl, (List.cons.inj htext).2.symm⟩

/-- Without its splices, a unit is a blank as it is with them. -/
theorem ReadBefore.isBlank_unspliced (hread : unit.ReadBefore behind) :
    unit.unspliced.isBlank = unit.isBlank := by
  rcases hread with rfl | hstands
  · rfl
  · cases hstands.ends with
    | @trivia b rest htrivia =>
      have hb : b ≠ Byte.backslash := by
        rintro rfl
        rw [splitTrivia?_of_standsAlone (by decide)] at htrivia
        cases htrivia
      rw [Lexeme.unspliced, unspliced_cons (not_splicedAt_of_ne hb rest)]
      rfl
    | number | word | mark => rfl

end Lexeme

/-- Every unit of a list is read in front of the next one, and the last one in front of `behind`. -/
def ReadUpTo (behind : Bytes) : List Lexeme → Prop
  | [] => True
  | unit :: more => unit.ReadBefore (textOf more ++ behind) ∧ ReadUpTo behind more

section ReadUpTo

variable {behind behind' : Bytes} {list front back : List Lexeme}

/-- Units are read in two lists one behind the other. -/
theorem readUpTo_append :
    ReadUpTo behind (front ++ back) ↔
      ReadUpTo (textOf back ++ behind) front ∧ ReadUpTo behind back := by
  induction front with
  | nil => exact ⟨fun hback => ⟨trivial, hback⟩, And.right⟩
  | cons unit front ih =>
    rw [List.cons_append, ReadUpTo, ReadUpTo, ih, textOf_append, List.append_assoc, and_assoc]

/-- Units are read up to the end of their text. -/
theorem ReadUpTo.cut (hread : ReadUpTo behind list) : ReadUpTo [] list := by
  induction list with
  | nil => trivial
  | cons unit more ih =>
    refine ⟨?_, ih hread.2⟩
    rw [List.append_nil]
    exact hread.1.cut

/-- Units are read in front of anything that looks the same. -/
theorem ReadUpTo.of_sight (hread : ReadUpTo behind list) (hsight : sight behind' = sight behind) :
    ReadUpTo behind' list := by
  induction list with
  | nil => trivial
  | cons unit more ih =>
    refine ⟨hread.1.of_sight ?_, ih hread.2⟩
    by_cases hnil : textOf more = []
    · rw [hnil]
      exact hsight
    · exact sight_append hnil (by rw [head?_of_sight hsight])

/-- Each unit is read in front of something. -/
theorem ReadUpTo.exists_readBefore (hread : ReadUpTo behind list) :
    ∀ unit ∈ list, ∃ rest, unit.ReadBefore rest := by
  induction list with
  | nil => exact fun unit hunit => absurd hunit List.not_mem_nil
  | cons unit more ih => exact List.forall_mem_cons.mpr ⟨⟨_, hread.1⟩, ih hread.2⟩

/-- Units that are over can be put in front of every byte that separates. -/
theorem ReadUpTo.of_separates (hread : ReadUpTo [] list) (hover : ∀ unit ∈ list, unit.Over)
    (hhead : ∀ c ∈ behind.head?, separates c) : ReadUpTo behind list := by
  induction list with
  | nil => trivial
  | cons unit more ih =>
    obtain ⟨hunit, hmore⟩ := List.forall_mem_cons.mp hover
    refine ⟨?_, ih hread.2 hmore⟩
    by_cases hnil : textOf more = []
    · rw [hnil]
      exact hunit.readBefore hhead
    · refine hread.1.of_sight (sight_append hnil ?_)
      cases behind with
      | nil => rfl
      | cons c behind =>
        obtain ⟨-, -, -, -, hword⟩ := ne_of_separates (hhead c rfl)
        rw [Byte.continuesIdentifier, Bool.or_eq_false_iff] at hword
        exact hword.2

/-- Bytes that stand alone at the front of a text are units. -/
theorem ReadUpTo.exists_marks (hread : ReadUpTo behind list) (bytes : Bytes) {kept : Bytes}
    (hbytes : ∀ b ∈ bytes, standsAlone b) (htext : textOf list = bytes ++ kept) :
    ∃ more, list = bytes.map .mark ++ more ∧ textOf more = kept := by
  induction bytes generalizing list with
  | nil => exact ⟨list, rfl, htext⟩
  | cons b bytes ih =>
    obtain ⟨hb, hmore⟩ := List.forall_mem_cons.mp hbytes
    cases list with
    | nil => cases htext
    | cons unit list =>
      obtain ⟨c, rest, hunit⟩ := List.exists_cons_of_ne_nil hread.1.text_ne_nil
      rw [textOf_cons, hunit, List.cons_append, List.cons_append, List.cons.injEq] at htext
      obtain ⟨rfl, htext⟩ := htext
      obtain ⟨rfl, rfl⟩ := hread.1.eq_mark hunit hb
      obtain ⟨more, rfl, hkept⟩ := ih hread.2 hmore htext
      exact ⟨more, rfl, hkept⟩

end ReadUpTo

/-! ## The units of an argument -/

/-- The units of a text for a scan that sees no directives. -/
def cutsOf (text : Bytes) : List Lexeme :=
  match text with
  | [] => []
  | b :: rest =>
    (nextLexeme [Byte.openParen] b rest).1 :: cutsOf (nextLexeme [Byte.openParen] b rest).2
termination_by text.length
decreasing_by exact length_lt_of_nextLexeme rfl

/-- The units of a text make up the text. -/
theorem textOf_cutsOf (text : Bytes) : textOf (cutsOf text) = text := by
  fun_induction cutsOf text with
  | case1 => rfl
  | case2 b rest ih =>
    rw [textOf_cons, ih]
    exact append_of_nextLexeme rfl

/-- The units of a text are read one after the other. -/
theorem readUpTo_cutsOf (text : Bytes) : ReadUpTo [] (cutsOf text) := by
  fun_induction cutsOf text with
  | case1 => trivial
  | case2 b rest ih =>
    refine ⟨?_, ih⟩
    rw [List.append_nil, textOf_cutsOf]
    by_cases hb : b = Byte.hash
    · subst hb
      exact .inl rfl
    · exact .inr (standsBefore_of_nextLexeme rfl hb)

/-! ## Splices between units -/

namespace Lexeme

/-- White space. -/
def isWhite : Lexeme → Bool
  | mark b => Byte.isWhiteSpace b
  | _ => false

/-- White space that does not end a line. -/
def isGap : Lexeme → Bool
  | mark b => Byte.isBlank b
  | _ => false

end Lexeme

/-- A backslash that is a unit of its own makes a splice with the line end behind it. White space
stands in front of it or a blank behind the line end, and not only blanks stand there. -/
def SpliceApart (white : Bool) (unit : Lexeme) (more : List Lexeme) : Prop :=
  unit = .mark Byte.backslash ∧ (white ∨ more.tail.head?.any Lexeme.isGap) ∧
    more.any (!·.isBlank)

instance (white : Bool) (unit : Lexeme) (more : List Lexeme) :
    Decidable (SpliceApart white unit more) :=
  inferInstanceAs (Decidable (_ ∧ _ ∧ _))

/-- No unit ends at a splice, splices that stand apart aside, and C ends all of them at the same
places. `white` tells whether white space or nothing stands in front. -/
def SettledApart (white : Bool) : List Lexeme → Prop
  | [] => True
  | unit :: more =>
    (SplicedAt unit.text (textOf more) → SpliceApart white unit more) ∧
      unit.SettledBefore (textOf more) ∧ SettledApart unit.isWhite more

instance decidableSettledApart : (white : Bool) → (list : List Lexeme) →
    Decidable (SettledApart white list)
  | _, [] => isTrue trivial
  | white, unit :: more =>
    have := decidableSettledApart unit.isWhite more
    inferInstanceAs (Decidable ((SplicedAt unit.text (textOf more) →
      SpliceApart white unit more) ∧ unit.SettledBefore (textOf more) ∧ _))

/-- The units without the splices between them. -/
def rejoined : List Lexeme → List Lexeme
  | [] => []
  | [unit] => [unit]
  | unit :: next :: more =>
    if unit = .mark Byte.backslash ∧ next = .mark Byte.newline then rejoined more
    else unit :: rejoined (next :: more)

/-- Units that C reads in a text, the splices between them aside. -/
structure Legible (list : List Lexeme) : Prop where
  read : ReadUpTo [] list
  sound : ∀ unit ∈ list, unit.Over ∨ isLineComment unit.text
  settled : SettledApart true list

section Rejoined

variable {white : Bool} {unit : Lexeme} {behind behind' : Bytes} {front back back' : List Lexeme}

/-- A lexeme that is settled is so in front of the beginning of the text. -/
theorem Lexeme.SettledBefore.of_prefix (hsettled : unit.SettledBefore behind)
    (hdirective : ∀ text, unit ≠ .directive text) (hshort : behind' <+: behind) :
    unit.SettledBefore behind' := by
  cases unit with
  | directive text => exact absurd rfl (hdirective text)
  | number text => exact fun hquote => hsettled (hquote.trans hshort)
  | trivia text => exact hsettled
  | word text => trivial
  | mark b => trivial

/-- A splice stands there whatever goes on behind it. -/
theorem SplicedAt.of_prefix {text : Bytes} (hsplice : SplicedAt text behind')
    (hshort : behind' <+: behind) : SplicedAt text behind := by
  obtain ⟨rest, rfl⟩ := hshort
  refine ⟨hsplice.1, ?_⟩
  rw [List.head?_append, hsplice.2]
  rfl

/-- Units behind white space are settled behind anything. -/
theorem SettledApart.of_white (hsettled : SettledApart white front) : SettledApart true front := by
  cases front with
  | nil => trivial
  | cons unit more =>
    refine ⟨fun hsplice => ?_, hsettled.2⟩
    obtain ⟨hunit, -, hinside⟩ := hsettled.1 hsplice
    exact ⟨hunit, .inl rfl, hinside⟩

/-- Settled units are so without those in front of them. -/
theorem SettledApart.of_append_right (hsettled : SettledApart white (front ++ back)) :
    SettledApart true back := by
  induction front generalizing white with
  | nil => exact hsettled.of_white
  | cons unit front ih => exact ih hsettled.2.2

/-- A line end at the front of a text is a unit. -/
theorem ReadUpTo.exists_newline (hread : ReadUpTo behind front)
    (hhead : (textOf front).head? = some Byte.newline) :
    ∃ more, front = .mark Byte.newline :: more := by
  obtain ⟨rest, htext⟩ := List.head?_eq_some_iff.mp hhead
  obtain ⟨more, rfl, -⟩ :=
    hread.exists_marks [Byte.newline] (List.forall_mem_singleton.mpr rfl) htext
  exact ⟨more, rfl⟩

/-- No splice stands in front of blanks at the end. -/
theorem SettledApart.not_splice (hsettled : SettledApart white (front ++ back))
    (hblank : ∀ unit ∈ back, unit.isBlank) :
    ¬ (front.getLast? = some (.mark Byte.backslash) ∧
      back.head? = some (.mark Byte.newline)) := by
  rintro ⟨hlast, hhead⟩
  obtain ⟨less, rfl⟩ := List.getLast?_eq_some_iff.mp hlast
  obtain ⟨more, rfl⟩ := List.head?_eq_some_iff.mp hhead
  rw [List.append_assoc] at hsettled
  obtain ⟨-, -, hinside⟩ := hsettled.of_append_right.1 ⟨rfl, rfl⟩
  obtain ⟨unit, hunit, hnot⟩ := List.any_eq_true.mp hinside
  rw [hblank unit hunit] at hnot
  cases hnot

/-- Splices are dropped on either side of a place where none stands. -/
theorem rejoined_append (hsplice : ¬ (front.getLast? = some (.mark Byte.backslash) ∧
      back.head? = some (.mark Byte.newline))) :
    rejoined (front ++ back) = rejoined front ++ rejoined back := by
  fun_induction rejoined front with
  | case1 => rfl
  | case2 unit =>
    cases back with
    | nil => rfl
    | cons next more =>
      rw [List.singleton_append, rejoined, if_neg]
      · rfl
      · rintro ⟨rfl, rfl⟩
        exact hsplice ⟨rfl, rfl⟩
  | case3 unit next more hpair ih =>
    rw [List.cons_append, List.cons_append, rejoined, if_pos hpair]
    refine ih fun hsame => hsplice ⟨?_, hsame.2⟩
    rw [List.getLast?_cons_cons, List.getLast?_cons, hsame.1]
    rfl
  | case4 unit next more hpair ih =>
    rw [List.cons_append, List.cons_append, rejoined, if_neg hpair, ← List.cons_append, ih,
      List.cons_append]
    intro hsame
    refine hsplice ⟨?_, hsame.2⟩
    rw [List.getLast?_cons_cons]
    exact hsame.1

/-- A unit that begins no splice is kept. -/
theorem rejoined_cons (hunit : unit ≠ .mark Byte.backslash) (more : List Lexeme) :
    rejoined (unit :: more) = unit :: rejoined more := by
  cases more with
  | nil => rfl
  | cons next more => rw [rejoined, if_neg fun hpair => hunit hpair.1]

/-- Where no line ends, there are no splices. -/
theorem rejoined_of_not_mem (hnewline : .mark Byte.newline ∉ front) : rejoined front = front := by
  fun_induction rejoined front with
  | case1 => rfl
  | case2 => rfl
  | case3 first next more hpair ih => exact absurd (by simp [hpair.2]) hnewline
  | case4 first next more hpair ih => rw [ih fun hmem => hnewline (List.mem_cons_of_mem _ hmem)]

/-- Dropping splices adds no unit. -/
theorem mem_of_mem_rejoined (hunit : unit ∈ rejoined front) : unit ∈ front := by
  fun_induction rejoined front with
  | case1 => exact hunit
  | case2 => exact hunit
  | case3 first next more hpair ih =>
    exact List.mem_cons_of_mem _ (List.mem_cons_of_mem _ (ih hunit))
  | case4 first next more hpair ih =>
    rcases List.mem_cons.mp hunit with rfl | hmore
    · exact List.mem_cons_self
    · exact List.mem_cons_of_mem _ (ih hmore)

end Rejoined

/-! ## What C reads -/

section Units

variable {white : Bool} {unit : Lexeme} {behind rest : Bytes} {list : List Lexeme}

/-- C reads a unit without its splices. -/
theorem unitsOf_unspliced_append (hunit : unit.ReadBefore rest)
    (hsplice : ¬ SplicedAt unit.text rest) (hnone : ¬ [Byte.backslash, Byte.newline] <+: rest)
    (hsettled : unit.SettledBefore rest) :
    unitsOf (unspliced (unit.text ++ rest)) = unit.unspliced :: unitsOf (unspliced rest) := by
  rcases id hunit with rfl | hstands
  · change unitsOf (unspliced (Byte.hash :: rest)) = _
    rw [unspliced_cons (not_splicedAt_of_ne (by decide) rest), unitsOf]
    rfl
  · obtain ⟨b, text, htext⟩ := List.exists_cons_of_ne_nil hunit.text_ne_nil
    have hnext := hstands.nextLexeme_eq htext []
    rw [htext, List.cons_append, unspliced_cons_of_nextLexeme hnext hsplice, unitsOf,
      nextUnit_unspliced hnext hunit.ne_directive hsplice hnone hsettled]

/-- White space is read whatever stands behind it. -/
theorem unitsOf_unspliced_white {b : UInt8} (hb : Byte.isWhiteSpace b) (rest : Bytes) :
    unitsOf (unspliced (b :: rest)) = .mark b :: unitsOf (unspliced rest) := by
  have hne : b ≠ Byte.backslash := by
    rintro rfl
    exact absurd hb (by decide)
  rw [unspliced_cons (not_splicedAt_of_ne hne rest), unitsOf, nextUnit_of_isWhiteSpace hb]

/-- A closing parenthesis ends what a text begins with. -/
theorem prefix_of_closed {pattern text : Bytes} (hpattern : Byte.closeParen ∉ pattern)
    (hbehind : ∀ c ∈ behind.head?, c = Byte.closeParen) (hbegins : pattern <+: text ++ behind) :
    pattern <+: text := by
  cases behind with
  | nil => rwa [List.append_nil] at hbegins
  | cons c behind =>
    obtain rfl := hbehind c rfl
    exact (prefix_append_cons_iff hpattern text behind).mp hbegins

/-- A parenthesis behind a text makes no splice. -/
theorem not_splicedAt_of_closed {text : Bytes} (hsplice : ¬ SplicedAt rest text)
    (hbehind : ∀ c ∈ behind.head?, c = Byte.closeParen) : ¬ SplicedAt rest (text ++ behind) := by
  rintro ⟨hlast, hhead⟩
  cases text with
  | nil => exact absurd (hbehind _ hhead) (by decide)
  | cons c text => exact hsplice ⟨hlast, hhead⟩

/-- A lexeme that is settled is so in front of a parenthesis behind the text. -/
theorem settledBefore_of_closed {text : Bytes} (hsettled : unit.SettledBefore text)
    (hdirective : ∀ text, unit ≠ .directive text)
    (hbehind : ∀ c ∈ behind.head?, c = Byte.closeParen) : unit.SettledBefore (text ++ behind) := by
  cases unit with
  | directive text => exact absurd rfl (hdirective text)
  | number text => exact fun hquote => hsettled (prefix_of_closed (by decide) hbehind hquote)
  | trivia text => exact hsettled
  | word text => trivial
  | mark b => trivial

/-- A line comment goes up to a line end. -/
theorem head?_of_isLineComment (hstands : unit.StandsBefore rest)
    (hcomment : isLineComment unit.text) : ∀ c ∈ rest.head?, c = Byte.newline := by
  obtain ⟨line, hline⟩ := hcomment
  have htext : unit.text = Byte.slash :: (Byte.slash :: line) := hline.symm
  have hnext := hstands.nextLexeme_eq htext []
  have hsplit : nextLexeme [] Byte.slash (Byte.slash :: line ++ rest) =
      (.trivia (Byte.slash :: Byte.slash :: (splitLine (line ++ rest)).1),
        (splitLine (line ++ rest)).2) := rfl
  rw [hnext, Prod.mk.injEq] at hsplit
  rw [hsplit.2]
  exact splitLine_end (line ++ rest)

/-- Blanks separate and mean nothing else. -/
theorem separates_of_isBlank {b : UInt8} (hb : Byte.isBlank b) :
    separates b ∧ b ≠ Byte.newline ∧ b ≠ Byte.backslash ∧ b ≠ Byte.quote := by
  simp only [Byte.isBlank, Bool.or_eq_true, decide_eq_true_eq] at hb
  rcases hb with rfl | rfl <;> decide

/-- C reads a unit that a splice and a blank stand behind. -/
theorem unitsOf_unspliced_splice {gap : UInt8} (hover : unit.Over) (hgap : Byte.isBlank gap)
    (hsettled : unit.SettledBefore (Byte.backslash :: Byte.newline :: gap :: rest)) :
    unitsOf (unspliced (unit.text ++ Byte.backslash :: Byte.newline :: gap :: rest)) =
      unit.unspliced :: unitsOf (unspliced (gap :: rest)) := by
  obtain ⟨hseparates, hnewline, hescape, hquote⟩ := separates_of_isBlank hgap
  have hhead : ∀ c ∈ (gap :: rest).head?, separates c := by
    intro c hc
    obtain rfl := Option.some.inj hc
    exact hseparates
  have hread := hover.readBefore hhead
  have hsplice : ¬ SplicedAt unit.text (gap :: rest) := fun hsame =>
    hnewline (Option.some.inj hsame.2)
  have hother : ¬ SplicedAt unit.text (Byte.backslash :: Byte.newline :: gap :: rest) :=
    fun hsame => absurd (Option.some.inj hsame.2) (by decide)
  have hsame : unspliced (unit.text ++ Byte.backslash :: Byte.newline :: gap :: rest) =
      unspliced (unit.text ++ gap :: rest) := by
    rw [unspliced_append hother, unspliced_append hsplice, unspliced_cons_cons, if_pos ⟨rfl, rfl⟩]
  rw [hsame]
  refine unitsOf_unspliced_append hread hsplice ?_ ?_
  · rintro ⟨more, hmore⟩
    exact hescape (List.cons.inj hmore).1.symm
  · cases unit with
    | directive text => exact absurd rfl (hread.ne_directive text)
    | number text => exact fun ⟨more, hmore⟩ => hquote (List.cons.inj hmore).1.symm
    | trivia text => exact hsettled
    | word text => trivial
    | mark b => trivial

/-- C reads the units of a text, without the splices in them and between them. -/
theorem unitsOf_unspliced (hread : ReadUpTo behind list)
    (hsound : ∀ unit ∈ list, unit.Over ∨ isLineComment unit.text)
    (hsettled : SettledApart white list) (hbehind : ∀ c ∈ behind.head?, c = Byte.closeParen) :
    unitsOf (unspliced (textOf list ++ behind)) =
      (rejoined list).map Lexeme.unspliced ++ unitsOf (unspliced behind) := by
  fun_induction rejoined list generalizing white with
  | case1 => rfl
  | case2 unit =>
    obtain ⟨hunit, -⟩ := hread
    obtain ⟨hsplice, hends, -⟩ := hsettled
    have hopen : ¬ SplicedAt unit.text ([] ++ behind) :=
      not_splicedAt_of_closed (fun hsame => by cases hsame.2) hbehind
    have hnone : ¬ [Byte.backslash, Byte.newline] <+: [] ++ behind := fun hbegins =>
      absurd (prefix_of_closed (by decide) hbehind hbegins) (by decide)
    have hends := settledBefore_of_closed hends hunit.ne_directive hbehind
    have hwhole := unitsOf_unspliced_append hunit hopen hnone hends
    rw [textOf_cons, textOf_nil, List.append_nil]
    exact hwhole
  | case3 unit next more hpair ih =>
    obtain ⟨rfl, rfl⟩ := hpair
    rw [← ih hread.2.2 (fun other hother => hsound other (by simp [hother])) hsettled.2.2.2.2]
    change unitsOf (unspliced (Byte.backslash :: Byte.newline :: (textOf more ++ behind))) = _
    rw [unspliced_cons_cons, if_pos ⟨rfl, rfl⟩]
  | case4 unit next more hpair ih =>
    obtain ⟨hunit, hmore⟩ := hread
    obtain ⟨hsplice, hends, hmoreSettled⟩ := hsettled
    obtain ⟨hunitSound, hmoreSound⟩ := List.forall_mem_cons.mp hsound
    rw [textOf_cons, List.append_assoc, List.map_cons, List.cons_append,
      ← ih hmore hmoreSound hmoreSettled]
    have hopen : ¬ SplicedAt unit.text (textOf (next :: more)) := by
      intro hsame
      obtain ⟨rfl, -⟩ := hsplice hsame
      obtain ⟨others, hnext⟩ := hmore.exists_newline hsame.2
      exact hpair ⟨rfl, (List.cons.inj hnext).1⟩
    have hends := settledBefore_of_closed hends hunit.ne_directive hbehind
    by_cases hnone : [Byte.backslash, Byte.newline] <+: textOf (next :: more) ++ behind
    · -- Either white space is read, or a blank comes to stand behind the unit.
      obtain ⟨rest, htext⟩ := prefix_of_closed (by decide) hbehind hnone
      obtain ⟨others, hlist, -⟩ :=
        hmore.exists_marks [Byte.backslash, Byte.newline]
          (List.forall_mem_cons.mpr ⟨rfl, List.forall_mem_singleton.mpr rfl⟩) htext.symm
      obtain ⟨rfl, rfl⟩ := List.cons.inj hlist
      obtain ⟨-, hbeside, -⟩ := hmoreSettled.1 ⟨rfl, rfl⟩
      rcases hbeside with hwhite | hgap
      · cases unit with
        | mark b => exact unitsOf_unspliced_white hwhite _
        | _ => cases hwhite
      · cases others with
        | nil => cases hgap
        | cons gap others =>
          cases gap with
          | mark b =>
            have hover : unit.Over := by
              refine hunitSound.resolve_right fun hcomment => ?_
              rcases hunit with rfl | hstands
              · exact absurd hcomment (by decide)
              · exact absurd (head?_of_isLineComment hstands hcomment _ rfl) (by decide)
            have hwhole := unitsOf_unspliced_splice hover hgap hends
            change _ = unit.unspliced :: unitsOf (unspliced (Byte.backslash :: Byte.newline ::
              (b :: (textOf others ++ behind))))
            rw [unspliced_cons_cons, if_pos ⟨rfl, rfl⟩]
            exact hwhole
          | _ => cases hgap
    · exact unitsOf_unspliced_append hunit (not_splicedAt_of_closed hopen hbehind) hnone hends

end Units

end PlainSync.Source
