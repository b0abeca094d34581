import PlainSync.Proofs.Normalize.BlankedLexemes
import PlainSync.Proofs.Normalize.TrimmedUnits

/-!
# Units of an operand

A trimmed argument loses its line comments, is trimmed again, and is put on one line inside
`typeof`. If its units are legible, C reads the same runs of units in what becomes of it: blanks are
taken away from the ends or exchanged for other blanks, and splices between units for blanks.
-/

namespace PlainSync.Source

open Bytes

/-! ## Blanking -/

/-- The units of a text, each exchanged as it stands in front of what is behind it. -/
def exchanged (exchange : Bytes → Lexeme → Lexeme) : List Lexeme → List Lexeme
  | [] => []
  | unit :: more => exchange (textOf more) unit :: exchanged exchange more

/-- The same unit, or a space in the place of one that fades. -/
def ClearsTo (unit unit' : Lexeme) : Prop :=
  unit' = unit ∨ fades unit.text ∧ unit' = .mark Byte.space

/-- A way of blanking exchanges unit by unit. -/
structure Exchanges (blank : Bytes → Bytes → Bytes) (exchange : Bytes → Lexeme → Lexeme) :
    Prop where
  nil : ∀ before, blank before [] = []
  step : ∀ {before behind : Bytes} {unit : Lexeme}, unit.ReadBefore behind →
    WordsEnd before unit.text → blank before (unit.text ++ behind) =
      (exchange behind unit).text ++ blank (unit.text.reverse ++ before) behind
  clears : ∀ {behind : Bytes} {unit : Lexeme}, unit.ReadBefore behind →
    ClearsTo unit (exchange behind unit)
  closes : ∀ {behind : Bytes} {unit : Lexeme}, unit.ReadBefore behind →
    unit.Over ∨ isLineComment unit.text → (exchange behind unit).Over

/-- A space is over. -/
theorem over_space : (Lexeme.mark Byte.space).Over := .inr (firm_mark (by decide))

/-- A unit that is over ends with its own bytes what a spliced literal begins with. -/
theorem Lexeme.Over.prefix_of_quote {unit : Lexeme} {rest : Bytes} (hover : unit.Over)
    (hbegins : [Byte.quote, Byte.backslash, Byte.newline] <+: unit.text ++ rest) :
    [Byte.quote, Byte.backslash, Byte.newline] <+: unit.text := by
  obtain ⟨more, hmore⟩ := hbegins
  rcases hover with rfl | hfirm
  · exact absurd (List.cons.inj hmore).1 (by decide)
  · cases hfirm.ends with
    | @trivia b text htrivia =>
      obtain ⟨rfl, hrest⟩ := List.cons.inj hmore
      cases text with
      | nil => exact absurd htrivia (by decide)
      | cons c text =>
        obtain ⟨rfl, hline⟩ := List.cons.inj hrest
        cases text with
        | nil => exact absurd htrivia (by decide)
        | cons d text =>
          obtain ⟨rfl, -⟩ := List.cons.inj hline
          exact ⟨text, rfl⟩
    | number hdigit =>
      obtain ⟨rfl, -⟩ := List.cons.inj hmore
      exact absurd hdigit (by decide)
    | word hstarts =>
      obtain ⟨rfl, -⟩ := List.cons.inj hmore
      exact absurd hstarts (by decide)
    | mark htrivia =>
      obtain ⟨rfl, -⟩ := List.cons.inj hmore
      exact absurd htrivia (by decide)

section Exchanges

variable {blank : Bytes → Bytes → Bytes} {exchange : Bytes → Lexeme → Lexeme}
  {list : List Lexeme}

/-- No identifier goes on behind a unit that is read. -/
theorem wordsEnd_of_readBefore {unit : Lexeme} {before behind : Bytes}
    (hunit : unit.ReadBefore behind) : WordsEnd (unit.text.reverse ++ before) behind := by
  rcases id hunit with rfl | hstands
  · intro b hb c _ hword
    obtain rfl := Option.some.inj hb
    exact absurd hword (by decide)
  · obtain ⟨b, rest, htext⟩ := List.exists_cons_of_ne_nil hunit.text_ne_nil
    exact wordsEnd_of_nextLexeme (hstands.nextLexeme_eq htext before)

/-- Exchanging the units of a text blanks the text. -/
theorem Exchanges.textOf_exchanged (hblank : Exchanges blank exchange) (hread : ReadUpTo [] list)
    {before : Bytes} (hends : WordsEnd before (textOf list)) :
    textOf (exchanged exchange list) = blank before (textOf list) := by
  induction list generalizing before with
  | nil => exact (hblank.nil before).symm
  | cons unit more ih =>
    obtain ⟨hunit, hmore⟩ := hread
    rw [List.append_nil] at hunit
    have hbegins : WordsEnd before unit.text := by
      obtain ⟨b, rest, htext⟩ := List.exists_cons_of_ne_nil hunit.text_ne_nil
      rw [textOf_cons, htext] at hends
      rw [htext]
      exact hends
    rw [exchanged, textOf_cons, textOf_cons, hblank.step hunit hbegins,
      ih hmore (wordsEnd_of_readBefore hunit)]

/-- Units that are exchanged are over. -/
theorem Exchanges.allOver (hblank : Exchanges blank exchange) (hread : ReadUpTo [] list)
    (hsound : ∀ unit ∈ list, unit.Over ∨ isLineComment unit.text) :
    ∀ unit ∈ exchanged exchange list, unit.Over := by
  induction list with
  | nil => exact fun unit hunit => absurd hunit List.not_mem_nil
  | cons unit more ih =>
    obtain ⟨hunit, hmore⟩ := hread
    rw [List.append_nil] at hunit
    obtain ⟨hunitSound, hmoreSound⟩ := List.forall_mem_cons.mp hsound
    exact List.forall_mem_cons.mpr ⟨hblank.closes hunit hunitSound, ih hmore hmoreSound⟩

/-- Exchanging units leaves whether a text begins with a letter or digit. -/
theorem Exchanges.head?_any (hblank : Exchanges blank exchange) (hread : ReadUpTo [] list) :
    (textOf (exchanged exchange list)).head?.any Byte.isAlphanumeric =
      (textOf list).head?.any Byte.isAlphanumeric := by
  cases list with
  | nil => rfl
  | cons unit more =>
    obtain ⟨hunit, -⟩ := hread
    rw [List.append_nil] at hunit
    rw [exchanged, textOf_cons, textOf_cons]
    rcases hblank.clears hunit with hsame | ⟨hfades, hspace⟩
    · obtain ⟨b, rest, htext⟩ := List.exists_cons_of_ne_nil hunit.text_ne_nil
      rw [hsame, htext]
      rfl
    · rw [hspace, head?_any_of_fades hfades]
      rfl

/-- Exchanged units are read where the units are. -/
theorem Exchanges.readUpTo (hblank : Exchanges blank exchange) (hread : ReadUpTo [] list)
    (hsound : ∀ unit ∈ list, unit.Over ∨ isLineComment unit.text) :
    ReadUpTo [] (exchanged exchange list) := by
  induction list with
  | nil => trivial
  | cons unit more ih =>
    obtain ⟨hunit, hmore⟩ := hread
    rw [List.append_nil] at hunit
    obtain ⟨hunitSound, hmoreSound⟩ := List.forall_mem_cons.mp hsound
    refine ⟨?_, ih hmore hmoreSound⟩
    rw [List.append_nil]
    rcases hblank.clears hunit with hsame | ⟨-, hspace⟩
    · rw [hsame]
      -- Either a space has come to stand behind the unit, or the same unit still does.
      cases more with
      | nil => exact hunit
      | cons next others =>
        obtain ⟨hnext, hothers⟩ := hmore
        rw [List.append_nil] at hnext
        rw [exchanged, textOf_cons]
        rcases hblank.clears hnext with hnextSame | ⟨-, hnextSpace⟩
        · rw [hnextSame]
          exact hunit.of_sight (sight_append hnext.text_ne_nil (hblank.head?_any hothers))
        · have hover := hblank.closes hunit hunitSound
          rw [hsame] at hover
          rw [hnextSpace]
          refine hover.readBefore fun c hc => ?_
          obtain rfl := Option.some.inj hc
          decide
    · rw [hspace]
      exact .inr (standsBefore_mark (by decide) _)

/-- C ends an exchanged unit where it ends the unit. -/
theorem Exchanges.settledBefore (hblank : Exchanges blank exchange) {unit : Lexeme}
    {more : List Lexeme} (hread : ReadUpTo [] (unit :: more))
    (hsound : ∀ other ∈ more, other.Over ∨ isLineComment other.text)
    (hsettled : unit.SettledBefore (textOf more)) :
    (exchange (textOf more) unit).SettledBefore (textOf (exchanged exchange more)) := by
  obtain ⟨hunit, hmore⟩ := hread
  rw [List.append_nil] at hunit
  rcases hblank.clears hunit with hsame | ⟨-, hspace⟩
  · rw [hsame]
    cases unit with
    | directive text => exact absurd rfl (hunit.ne_directive text)
    | number text =>
      intro hquote
      cases more with
      | nil => exact absurd (List.prefix_nil.mp hquote) (by decide)
      | cons next others =>
        obtain ⟨hnext, -⟩ := hmore
        rw [List.append_nil] at hnext
        have hover := hblank.closes hnext (hsound next List.mem_cons_self)
        rw [exchanged, textOf_cons] at hquote
        rcases hblank.clears hnext with hnextSame | ⟨-, hnextSpace⟩
        · rw [hnextSame] at hover hquote
          exact hsettled ((hover.prefix_of_quote hquote).trans (List.prefix_append _ _))
        · obtain ⟨rest, hrest⟩ := hquote
          rw [hnextSpace] at hrest
          exact absurd (List.cons.inj hrest).1 (by decide)
    | trivia text => exact hsettled
    | word text => trivial
    | mark b => trivial
  · rw [hspace]
    trivial

end Exchanges

/-! ## Line comments -/

/-- Line comments are dropped unit by unit. -/
theorem withoutLineComments_exchanges :
    Exchanges withoutLineComments fun _ => Lexeme.bare where
  nil := fun before => by rw [withoutLineComments]
  step := by
    intro before behind unit hunit hends
    rcases hunit with rfl | hstands
    · exact withoutLineComments_byte (fun hnumber => absurd hnumber.1 (by decide)) rfl
    · exact withoutLineComments_append hstands hends
  clears := by
    intro behind unit _
    by_cases hcomment : isLineComment unit.text
    · exact .inr ⟨fades_of_isLineComment hcomment, if_pos hcomment⟩
    · exact .inl (bare_eq_self unit hcomment)
  closes := by
    intro behind unit _ hsound
    by_cases hcomment : isLineComment unit.text
    · rw [Lexeme.bare, if_pos hcomment]
      exact over_space
    · rw [bare_eq_self unit hcomment]
      exact hsound.resolve_right hcomment

section Bare

variable {white white' : Bool} {list : List Lexeme}

/-- Units that are exchanged one by one. -/
theorem exchanged_const (f : Lexeme → Lexeme) (list : List Lexeme) :
    exchanged (fun _ => f) list = list.map f := by
  induction list with
  | nil => rfl
  | cons unit more ih => rw [exchanged, ih, List.map_cons]

/-- Bare units make up the text without line comments. -/
theorem textOf_map_bare (hread : ReadUpTo [] list) :
    textOf (list.map Lexeme.bare) = withoutLineComments [] (textOf list) := by
  rw [← exchanged_const]
  exact withoutLineComments_exchanges.textOf_exchanged hread (wordsEnd_nil _)

/-- Bare units are read one after the other. -/
theorem readUpTo_map_bare (hread : ReadUpTo [] list)
    (hsound : ∀ unit ∈ list, unit.Over ∨ isLineComment unit.text) :
    ReadUpTo [] (list.map Lexeme.bare) := by
  rw [← exchanged_const]
  exact withoutLineComments_exchanges.readUpTo hread hsound

/-- A byte of its own that is no space is not exchanged. -/
theorem eq_mark_of_bare {unit : Lexeme} {b : UInt8} (hb : b ≠ Byte.space)
    (hbare : unit.bare = .mark b) : unit = .mark b := by
  unfold Lexeme.bare at hbare
  split at hbare
  · exact absurd (Lexeme.mark.inj hbare).symm hb
  · exact hbare

/-- A byte of its own is bare. -/
theorem bare_mark (b : UInt8) : (Lexeme.mark b).bare = .mark b :=
  bare_eq_self (.mark b) fun ⟨_, hline⟩ => by cases hline

/-- Dropping splices and line comments can be done in either order. -/
theorem rejoined_map_bare (list : List Lexeme) :
    rejoined (list.map Lexeme.bare) = (rejoined list).map Lexeme.bare := by
  fun_induction rejoined list with
  | case1 => rfl
  | case2 => rfl
  | case3 unit next more hpair ih =>
    rw [hpair.1, hpair.2, List.map_cons, List.map_cons, rejoined, bare_mark, bare_mark,
      if_pos ⟨rfl, rfl⟩, ih]
  | case4 unit next more hpair ih =>
    rw [List.map_cons, List.map_cons, rejoined, if_neg, ← List.map_cons, ih, List.map_cons]
    rintro ⟨hunit, hnext⟩
    exact hpair ⟨eq_mark_of_bare (by decide) hunit, eq_mark_of_bare (by decide) hnext⟩

/-- Dropping line comments leaves the splices between the units. -/
theorem settledApart_map_bare (hread : ReadUpTo [] list)
    (hsound : ∀ unit ∈ list, unit.Over ∨ isLineComment unit.text)
    (hsettled : SettledApart white list) (hwhite : white → white') :
    SettledApart white' (list.map Lexeme.bare) := by
  induction list generalizing white white' with
  | nil => trivial
  | cons unit more ih =>
    obtain ⟨hsplice, hends, hmoreSettled⟩ := hsettled
    obtain ⟨hunitSound, hmoreSound⟩ := List.forall_mem_cons.mp hsound
    have hmoreRead := readUpTo_map_bare hread.2 hmoreSound
    have hsettledBefore := withoutLineComments_exchanges.settledBefore hread hmoreSound hends
    rw [exchanged_const] at hsettledBefore
    refine ⟨fun hsame => ?_, hsettledBefore, ih hread.2 hmoreSound hmoreSettled ?_⟩
    · have hunit : unit.bare = unit := by
        refine bare_eq_self unit fun hcomment => ?_
        rw [Lexeme.bare, if_pos hcomment] at hsame
        exact absurd hsame.1 (by decide)
      obtain ⟨others', hmap⟩ := hmoreRead.exists_newline hsame.2
      cases more with
      | nil => cases hmap
      | cons next others =>
        obtain rfl := eq_mark_of_bare (by decide) (List.cons.inj hmap).1
        rw [hunit] at hsame
        obtain ⟨rfl, hbeside, hinside⟩ := hsplice ⟨hsame.1, rfl⟩
        refine ⟨hunit, hbeside.imp hwhite fun hgap => ?_, ?_⟩
        · cases others with
          | nil => cases hgap
          | cons gap others =>
            cases gap with
            | mark b =>
              rw [List.map_cons, List.map_cons, bare_mark b]
              exact hgap
            | _ => cases hgap
        · obtain ⟨other, hother, hblank⟩ := List.any_eq_true.mp hinside
          have hkept : other.bare = other := by
            obtain ⟨rest, hotherRead⟩ := hread.2.exists_readBefore other hother
            refine bare_eq_self other fun hcomment => ?_
            rw [isBlank_of_isLineComment hotherRead hcomment] at hblank
            cases hblank
          refine List.any_eq_true.mpr ⟨other, ?_, hblank⟩
          rw [← hkept]
          exact List.mem_map_of_mem hother
    · intro hunit
      cases unit with
      | mark b =>
        rw [bare_mark]
        exact hunit
      | _ => cases hunit

/-- Units without line comments are legible, and C reads the same runs in them. -/
theorem Legible.exists_withoutLineComments (hlegible : Legible list) (hstrayless : Strayless list) :
    ∃ list', textOf list' = withoutLineComments [] (textOf list) ∧ Legible list' ∧
      Strayless list' ∧ runsFrom [] (rejoined list') = runsFrom [] (rejoined list) ∧
      ∀ unit ∈ list', unit.Over := by
  have hover := withoutLineComments_exchanges.allOver hlegible.read hlegible.sound
  rw [exchanged_const] at hover
  refine ⟨list.map Lexeme.bare, textOf_map_bare hlegible.read,
    ⟨readUpTo_map_bare hlegible.read hlegible.sound, fun unit hunit => .inl (hover unit hunit),
      settledApart_map_bare hlegible.read hlegible.sound hlegible.settled id⟩, ?_, ?_, hover⟩
  · rintro stretch hstretch ⟨front, back, hmap⟩
    obtain ⟨left, right, rfl, hleft, -⟩ := List.map_eq_append_iff.mp hmap.symm
    obtain ⟨first, stray, rfl, -, hstray⟩ := List.map_eq_append_iff.mp hleft
    have hspace : ∀ stretch ∈ strayStretches, Byte.space ∉ stretch := by decide +kernel
    have hsame : stray.map Lexeme.bare = stray.map id := by
      refine List.map_congr_left fun unit hunit => ?_
      obtain ⟨b, hb, hmark⟩ := List.mem_map.mp (hstray ▸ List.mem_map_of_mem hunit)
      have hne : b ≠ Byte.space := fun hsame => hspace stretch hstretch (hsame ▸ hb)
      exact hmark.symm.trans (eq_mark_of_bare hne hmark.symm).symm
    rw [hsame, List.map_id] at hstray
    refine hstrayless stretch hstretch ⟨first, right, ?_⟩
    rw [hstray]
  · rw [rejoined_map_bare]
    refine runsFrom_congr ?_
    rw [List.forall₂_map_right_iff]
    refine List.forall₂_same.mpr fun unit hunit => ?_
    obtain ⟨rest, hread⟩ := hlegible.read.exists_readBefore unit (mem_of_mem_rejoined hunit)
    by_cases hcomment : isLineComment unit.text
    · refine .inr ⟨isBlank_of_isLineComment hread hcomment, ?_⟩
      rw [Lexeme.bare, if_pos hcomment]
      rfl
    · exact .inl (bare_eq_self unit hcomment)

end Bare

/-! ## Text on one line -/

/-- Text is put on one line unit by unit. -/
theorem onOneLine_exchanges : Exchanges onOneLine Lexeme.flat where
  nil := fun before => by rw [onOneLine]
  step := by
    intro before behind unit hunit hends
    rcases hunit with rfl | hstands
    · have hbreak : ¬ (Byte.hash = Byte.backslash ∧ behind.head?.any Byte.breaksLine ∨
          Byte.breaksLine Byte.hash) := by
        rintro (⟨hsame, -⟩ | hbreaks)
        · exact absurd hsame (by decide)
        · exact absurd hbreaks (by decide)
      rw [Lexeme.flat, if_neg hbreak]
      exact onOneLine_byte (by decide) (fun hnumber => absurd hnumber.1 (by decide)) (by decide)
        hbreak
    · exact onOneLine_append hstands hends
  clears := by
    intro behind unit hunit
    rcases hunit with rfl | hstands
    · exact .inl rfl
    · rcases flat_eq_or hstands with ⟨hsame, -⟩ | hfades
      · exact .inl hsame
      · exact .inr hfades
  closes := by
    intro behind unit hunit hsound
    rcases hunit with rfl | hstands
    · exact .inl rfl
    · rcases flat_eq_or hstands with ⟨hsame, hcomment⟩ | ⟨-, hspace⟩
      · rw [hsame]
        exact hsound.resolve_right hcomment
      · rw [hspace]
        exact over_space

section Flat

variable {white : Bool} {list : List Lexeme}

/-- No newline is left between units on one line. -/
theorem newline_not_mem_exchanged_flat (list : List Lexeme) :
    .mark Byte.newline ∉ exchanged Lexeme.flat list := by
  induction list with
  | nil => exact List.not_mem_nil
  | cons unit more ih =>
    intro hmem
    rcases List.mem_cons.mp hmem with hunit | hmore
    · cases unit with
      | trivia text =>
        rw [Lexeme.flat] at hunit
        split at hunit <;> cases hunit
      | mark b =>
        rw [Lexeme.flat] at hunit
        split at hunit
        · cases hunit
        · next hbreak =>
          obtain rfl := Lexeme.mark.inj hunit
          exact hbreak (.inr rfl)
      | _ => cases hunit
    · exact ih hmore

/-- Text on one line has no splices between its units. -/
theorem settledApart_exchanged_flat (hread : ReadUpTo [] list)
    (hsound : ∀ unit ∈ list, unit.Over ∨ isLineComment unit.text)
    (hsettled : SettledApart white list) (white' : Bool) :
    SettledApart white' (exchanged Lexeme.flat list) := by
  induction list generalizing white white' with
  | nil => trivial
  | cons unit more ih =>
    obtain ⟨hunitSound, hmoreSound⟩ := List.forall_mem_cons.mp hsound
    refine ⟨fun hsame => ?_, onOneLine_exchanges.settledBefore hread hmoreSound hsettled.2.1,
      ih hread.2 hmoreSound hsettled.2.2 _⟩
    obtain ⟨others, hmore⟩ :=
      (onOneLine_exchanges.readUpTo hread.2 hmoreSound).exists_newline hsame.2
    exact absurd (by rw [hmore]; exact List.mem_cons_self) (newline_not_mem_exchanged_flat more)

/-- White units are blank. -/
theorem isBlank_of_isWhite {unit : Lexeme} (hunit : unit.isWhite) : unit.isBlank := by
  cases unit with
  | mark b => simp [Lexeme.isBlank, isSpace, show Byte.isWhiteSpace b from hunit]
  | _ => cases hunit

/-- Gaps are white. -/
theorem isWhite_of_isGap {unit : Lexeme} (hunit : unit.isGap) : unit.isWhite := by
  cases unit with
  | mark b =>
    simp only [Lexeme.isGap, Byte.isBlank, Bool.or_eq_true, decide_eq_true_eq] at hunit
    rcases hunit with rfl | rfl <;> rfl
  | _ => cases hunit

/-- Only blanks are exchanged where no splice is. -/
theorem flat_eq_or_isBlank {unit : Lexeme} {behind : Bytes}
    (hescape : unit = .mark Byte.backslash → behind.head?.any Byte.breaksLine = false) :
    unit.flat behind = unit ∨ unit.isBlank ∧ (unit.flat behind).isBlank := by
  cases unit with
  | trivia text =>
    rw [Lexeme.flat]
    split
    · next hslash => exact .inr ⟨decide_eq_true hslash, rfl⟩
    · exact .inl rfl
  | mark b =>
    rw [Lexeme.flat]
    split
    · next hbreak =>
      refine .inr ⟨?_, rfl⟩
      rcases hbreak with ⟨rfl, hbreaks⟩ | hbreaks
      · rw [hescape rfl] at hbreaks
        cases hbreaks
      · simp only [Byte.breaksLine, Bool.or_eq_true, decide_eq_true_eq] at hbreaks
        rcases hbreaks with rfl | rfl <;> rfl
    · exact .inl rfl
  | _ => exact .inl rfl

/-- A backslash in front of a line break makes a splice. -/
theorem not_breaksLine_of_strayless {unit next : Lexeme} {more : List Lexeme}
    (hread : ReadUpTo [] (next :: more)) (hstrayless : Strayless (unit :: next :: more))
    (hpair : ¬ (unit = .mark Byte.backslash ∧ next = .mark Byte.newline))
    (hunit : unit = .mark Byte.backslash) :
    (textOf (next :: more)).head?.any Byte.breaksLine = false := by
  cases htext : textOf (next :: more) with
  | nil => rfl
  | cons c rest =>
    rw [Bool.eq_false_iff]
    intro hbreaks
    simp only [List.head?_cons, Option.any_some, Byte.breaksLine, Bool.or_eq_true,
      decide_eq_true_eq] at hbreaks
    have hmark : next = .mark c := by
      have halone : standsAlone c := by
        rcases hbreaks with rfl | rfl <;> rfl
      obtain ⟨others, hlist, -⟩ :=
        hread.exists_marks [c] (List.forall_mem_singleton.mpr halone) htext
      exact (List.cons.inj hlist).1
    rcases hbreaks with rfl | rfl
    · exact hpair ⟨hunit, hmark⟩
    · refine hstrayless [Byte.backslash, Byte.carriageReturn] List.mem_cons_self ?_
      rw [hunit, hmark]
      exact (List.prefix_append _ more).isInfix

/-- On one line there are the same runs: where a splice went, there was white space. -/
theorem runsFrom_exchanged_flat {run : List Lexeme} (hread : ReadUpTo [] list)
    (hsettled : SettledApart white list) (hstrayless : Strayless list) (hrun : white → run = []) :
    runsFrom run (exchanged Lexeme.flat list) = runsFrom run (rejoined list) := by
  fun_induction rejoined list generalizing white run with
  | case1 => rfl
  | case2 unit =>
    exact runsFrom_congr (.cons (flat_eq_or_isBlank fun _ => rfl) .nil)
  | case3 unit next more hpair ih =>
    obtain ⟨rfl, rfl⟩ := hpair
    have hescape : (Lexeme.mark Byte.backslash).flat (textOf (.mark Byte.newline :: more)) =
        .mark Byte.space := rfl
    have hnewline : (Lexeme.mark Byte.newline).flat (textOf more) = .mark Byte.space := rfl
    have hmore := ih hread.2.2 hsettled.2.2.2.2
      (hstrayless.of_infix (List.suffix_append [_, _] more).isInfix) fun _ => rfl
    obtain ⟨-, hbeside, -⟩ := hsettled.1 ⟨rfl, rfl⟩
    have hspaces : runsFrom run (exchanged Lexeme.flat (.mark Byte.backslash ::
        .mark Byte.newline :: more)) = flush run ++ runsFrom [] (rejoined more) := by
      rw [exchanged, exchanged, hescape, hnewline, ← hmore]
      rfl
    rw [hspaces]
    rcases hbeside with hwhite | hgap
    · rw [hrun hwhite]
      rfl
    · cases more with
      | nil => cases hgap
      | cons gap more =>
        cases gap with
        | mark b =>
          obtain ⟨-, -, hescape, -⟩ := separates_of_isBlank hgap
          have hblank : (Lexeme.mark b).isBlank := isBlank_of_isWhite (isWhite_of_isGap hgap)
          rw [rejoined_cons fun hsame => hescape (Lexeme.mark.inj hsame), runsFrom, runsFrom,
            if_pos hblank, if_pos hblank]
          rfl
        | _ => cases hgap
  | case4 unit next more hpair ih =>
    have hunit := flat_eq_or_isBlank (not_breaksLine_of_strayless hread.2 hstrayless hpair)
    have hinside := hstrayless.of_infix (List.suffix_cons unit (next :: more)).isInfix
    rw [exchanged, runsFrom, runsFrom]
    by_cases hblank : unit.isBlank
    · have hflat : (unit.flat (textOf (next :: more))).isBlank := by
        rcases hunit with hsame | ⟨-, hflat⟩
        · rw [hsame]
          exact hblank
        · exact hflat
      rw [if_pos hblank, if_pos hflat, ih hread.2 hsettled.2.2 hinside fun _ => rfl]
    · have hsame := hunit.resolve_right fun hboth => hblank hboth.1
      rw [hsame, if_neg hblank, if_neg hblank, ih hread.2 hsettled.2.2 hinside]
      exact fun hwhite => absurd (isBlank_of_isWhite hwhite) hblank

/-- Text on one line is legible, and C reads the same runs in it. -/
theorem Legible.exists_onOneLine (hlegible : Legible list) (hstrayless : Strayless list) :
    ∃ list', textOf list' = onOneLine [] (textOf list) ∧ Legible list' ∧
      runsFrom [] (rejoined list') = runsFrom [] (rejoined list) ∧
      ∀ unit ∈ list', unit.Over := by
  have hover := onOneLine_exchanges.allOver hlegible.read hlegible.sound
  refine ⟨exchanged Lexeme.flat list,
    onOneLine_exchanges.textOf_exchanged hlegible.read (wordsEnd_nil _),
    ⟨onOneLine_exchanges.readUpTo hlegible.read hlegible.sound,
      fun unit hunit => .inl (hover unit hunit),
      settledApart_exchanged_flat hlegible.read hlegible.sound hlegible.settled true⟩, ?_, hover⟩
  rw [rejoined_of_not_mem (newline_not_mem_exchanged_flat list)]
  exact runsFrom_exchanged_flat hlegible.read hlegible.settled hstrayless fun _ => rfl

end Flat

/-! ## Operands -/

section Operands

variable {list : List Lexeme}

/-- The units of a legible text without its splices are its own without theirs. -/
theorem Legible.unitsOf (hlegible : Legible list) :
    unitsOf (unspliced (textOf list)) = (rejoined list).map Lexeme.unspliced := by
  have hunits := unitsOf_unspliced hlegible.read hlegible.sound hlegible.settled nofun
  have hnil : Source.unitsOf (unspliced []) = [] := by
    rw [unspliced, Source.unitsOf]
  rwa [List.append_nil, hnil, List.append_nil] at hunits

/-- C reads the runs of the units. -/
theorem Legible.runsOf (hlegible : Legible list) :
    runsOf (textOf list) = (runsFrom [] (rejoined list)).map (·.map Lexeme.unspliced) := by
  have hblank : ∀ unit ∈ rejoined list, unit.unspliced.isBlank = unit.isBlank := by
    intro unit hunit
    obtain ⟨rest, hread⟩ := hlegible.read.exists_readBefore unit (mem_of_mem_rejoined hunit)
    exact hread.isBlank_unspliced
  rw [Source.runsOf, hlegible.unitsOf, ← runsFrom_map hblank]
  rfl

/-- A parenthesis is a unit of its own. -/
theorem unitsOf_unspliced_paren {b : UInt8} (hb : b = Byte.openParen ∨ b = Byte.closeParen)
    (rest : Bytes) : unitsOf (unspliced (b :: rest)) = .mark b :: unitsOf (unspliced rest) := by
  rcases hb with rfl | rfl
  · rw [unspliced_cons (not_splicedAt_of_ne (by decide) rest), unitsOf]
    rfl
  · rw [unspliced_cons (not_splicedAt_of_ne (by decide) rest), unitsOf]
    rfl

/-- Between parentheses, C reads what it reads in a text of its own. -/
theorem Legible.unitsOf_parenthesized (hlegible : Legible list)
    (hover : ∀ unit ∈ list, unit.Over) (behind : Bytes) :
    Source.unitsOf (unspliced (Byte.openParen :: textOf list ++ Byte.closeParen :: behind)) =
      .mark Byte.openParen :: Source.unitsOf (unspliced (textOf list)) ++
        .mark Byte.closeParen :: Source.unitsOf (unspliced behind) := by
  have hclosed : ∀ c ∈ (Byte.closeParen :: behind).head?, c = Byte.closeParen := by
    intro c hc
    exact (Option.some.inj hc).symm
  have hread : ReadUpTo (Byte.closeParen :: behind) list := by
    refine hlegible.read.of_separates hover fun c hc => ?_
    rw [hclosed c hc]
    decide
  rw [List.cons_append, unitsOf_unspliced_paren (.inl rfl),
    unitsOf_unspliced hread hlegible.sound hlegible.settled hclosed, ← hlegible.unitsOf,
    unitsOf_unspliced_paren (.inr rfl)]
  rfl

/-- C reads an operand as it reads the argument, where it is evaluated and inside `typeof`. -/
theorem Legible.exists_operandText (hlegible : Legible list) (hstrayless : Strayless list) :
    ∃ list', textOf list' = operandText (textOf list) ∧ Legible list' ∧ Strayless list' ∧
      runsFrom [] (rejoined list') = runsFrom [] (rejoined list) ∧ ∀ unit ∈ list', unit.Over := by
  obtain ⟨trimmed, htrimmed, htrimmedLegible, htrimmedStrayless, htrimmedRuns, -⟩ :=
    hlegible.exists_trim hstrayless
  obtain ⟨bare, hbare, hbareLegible, hbareStrayless, hbareRuns, hbareOver⟩ :=
    htrimmedLegible.exists_withoutLineComments htrimmedStrayless
  obtain ⟨list', hlist', hlistLegible, hlistStrayless, hlistRuns, hlistOver⟩ :=
    hbareLegible.exists_trim hbareStrayless
  exact ⟨list', by rw [hlist', hbare, htrimmed]; rfl, hlistLegible, hlistStrayless,
    hlistRuns.trans (hbareRuns.trans htrimmedRuns), hlistOver hbareOver⟩

end Operands

end PlainSync.Source
