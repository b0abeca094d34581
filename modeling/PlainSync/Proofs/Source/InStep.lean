import PlainSync.Proofs.Source.Plain

/-!
# Scanners in step

The search for a directive and the cutting of an argument list move through a text by comments,
literals and bytes, not by lexemes. They meet the ends of all lexemes nevertheless, because the
bytes of words, and of numbers without digit separators, mean nothing to them.
-/

namespace PlainSync.Source

/-- The text of a number. -/
def Lexeme.number? : Lexeme → Option Bytes
  | number text => some text
  | _ => none

/-- What opens a call is no number. -/
theorem number?_of_opening {lexeme : Lexeme} {behind gap inner : Bytes} {builtin : Builtin}
    (hopening : opening? lexeme behind = some (builtin, gap, inner)) : lexeme.number? = none := by
  rw [(opening?_eq_some.mp hopening).1]
  rfl

/-- No number has digit separators. -/
def Undivided (list : List Lexeme) : Prop := ∀ text, .number text ∈ list → Byte.quote ∉ text

instance (list : List Lexeme) : Decidable (Undivided list) :=
  decidable_of_iff (∀ lexeme ∈ list, ∀ text ∈ lexeme.number?, Byte.quote ∉ text) <| by
    constructor
    · intro hall text htext
      exact hall _ htext text rfl
    · intro hundivided lexeme hlexeme text htext
      cases lexeme with
      | number other => exact hundivided text (Option.some.inj htext ▸ hlexeme)
      | _ => cases htext

/-- Undivided lexemes are so in front and behind. -/
theorem Undivided.of_append {front back : List Lexeme} (hundivided : Undivided (front ++ back)) :
    Undivided front ∧ Undivided back :=
  ⟨fun text htext => hundivided text (List.mem_append_left back htext),
    fun text htext => hundivided text (List.mem_append_right front htext)⟩

/-- A number with digit separators. -/
def Lexeme.isDivided : Lexeme → Bool
  | number text => text.contains Byte.quote
  | _ => false

/-- Where the numbers with digit separators begin, the text itself beginning at `offset`. -/
def dividedOf (offset : Nat) : List Lexeme → List Nat
  | [] => []
  | lexeme :: more =>
    if lexeme.isDivided then offset :: dividedOf (offset + lexeme.text.length) more
    else dividedOf (offset + lexeme.text.length) more

/-- The divided numbers of lexemes stand as far behind as the lexemes. -/
theorem dividedOf_eq_map (offset : Nat) (list : List Lexeme) :
    dividedOf offset list = (dividedOf 0 list).map (offset + ·) := by
  induction list generalizing offset with
  | nil => rfl
  | cons lexeme list ih =>
    have hshift (length : Nat) : dividedOf (offset + length) list =
        (dividedOf (0 + length) list).map (offset + ·) := by
      rw [ih (offset + length), ih (0 + length), List.map_map]
      refine List.map_congr_left fun position _ => ?_
      simp only [Function.comp_apply]
      omega
    rw [dividedOf, dividedOf, hshift]
    split <;> rfl

/-- No number that begins among the first `span` bytes has digit separators. -/
def UndividedUpTo (span : Nat) (list : List Lexeme) : Prop :=
  ∀ position ∈ dividedOf 0 list, span ≤ position

/-- The first lexeme is undivided if any of the text is. -/
theorem UndividedUpTo.head {span : Nat} {lexeme : Lexeme} {more : List Lexeme}
    (hundivided : UndividedUpTo span (lexeme :: more)) (hspan : span ≠ 0) :
    lexeme.isDivided = false := by
  refine Bool.eq_false_iff.mpr fun hdivided => hspan ?_
  exact Nat.le_zero.mp (hundivided 0 (by rw [dividedOf, if_pos hdivided]; exact List.mem_cons_self))

/-- Lexemes are undivided behind the first as far as the whole is. -/
theorem UndividedUpTo.tail {span : Nat} {lexeme : Lexeme} {more : List Lexeme}
    (hundivided : UndividedUpTo span (lexeme :: more)) :
    UndividedUpTo (span - lexeme.text.length) more := by
  intro position hposition
  have hmore : lexeme.text.length + position ∈ dividedOf (0 + lexeme.text.length) more := by
    rw [Nat.zero_add, dividedOf_eq_map]
    exact List.mem_map_of_mem hposition
  have hle := hundivided (lexeme.text.length + position) (by
    rw [dividedOf]
    split
    · exact List.mem_cons_of_mem _ hmore
    · exact hmore)
  omega

/-- Undivided lexemes are so up to any place. -/
theorem Undivided.upTo {list : List Lexeme} (hundivided : Undivided list) (span : Nat) :
    UndividedUpTo span list := by
  have hnil (offset : Nat) : dividedOf offset list = [] := by
    induction list generalizing offset with
    | nil => rfl
    | cons lexeme list ih =>
      have hlexeme : ¬ lexeme.isDivided = true := by
        cases lexeme with
        | number text =>
          intro hdivided
          exact hundivided text List.mem_cons_self (List.contains_iff_mem.mp hdivided)
        | _ => exact Bool.false_ne_true
      rw [dividedOf, if_neg hlexeme]
      exact ih (fun text htext => hundivided text (List.mem_cons_of_mem _ htext)) _
  rw [UndividedUpTo, hnil]
  exact nofun

/-- A number without digit separators goes on like a word. -/
theorem joinsWord_of_not_isDivided {b : UInt8} {rest : Bytes} (hdigit : Byte.isDigit b)
    (hdivided : (Lexeme.number (b :: (splitNumberBody b rest).1)).isDivided = false) :
    ∀ c ∈ b :: (splitNumberBody b rest).1, joinsWord c := by
  refine joinsWord_of_mem_number hdigit fun hquote => ?_
  rw [Lexeme.isDivided, List.contains_iff_mem.mpr (List.mem_cons_of_mem _ hquote)] at hdivided
  cases hdivided

/-! ## Directives -/

/-- Where the directives of a text begin, the text itself beginning at `offset`. -/
def directivesOf (offset : Nat) : List Lexeme → List Nat
  | [] => []
  | .directive text :: more => offset :: directivesOf (offset + text.length) more
  | lexeme :: more => directivesOf (offset + lexeme.text.length) more

/-- No other lexeme is a directive. -/
theorem directivesOf_cons_of_ne {offset : Nat} {lexeme : Lexeme} {more : List Lexeme}
    (hlexeme : ∀ text, lexeme ≠ .directive text) :
    directivesOf offset (lexeme :: more) = directivesOf (offset + lexeme.text.length) more := by
  cases lexeme with
  | directive text => exact absurd rfl (hlexeme text)
  | _ => rfl

/-- The directives of two lists of lexemes. -/
theorem directivesOf_append (offset : Nat) (front back : List Lexeme) :
    directivesOf offset (front ++ back) =
      directivesOf offset front ++ directivesOf (offset + (textOf front).length) back := by
  induction front generalizing offset with
  | nil => rfl
  | cons lexeme front ih =>
    rw [textOf_cons, List.length_append, ← Nat.add_assoc]
    cases lexeme with
    | directive text => exact congrArg (offset :: ·) (ih _)
    | _ => exact ih _

/-- The directives of lexemes stand as far behind as the lexemes. -/
theorem directivesOf_eq_map (offset : Nat) (list : List Lexeme) :
    directivesOf offset list = (directivesOf 0 list).map (offset + ·) := by
  induction list generalizing offset with
  | nil => rfl
  | cons lexeme list ih =>
    have hshift (length : Nat) : directivesOf (offset + length) list =
        (directivesOf (0 + length) list).map (offset + ·) := by
      rw [ih (offset + length), ih (0 + length), List.map_map]
      refine List.map_congr_left fun position _ => ?_
      simp only [Function.comp_apply]
      omega
    cases lexeme with
    | directive text => exact congrArg (offset :: ·) (hshift _)
    | _ => exact hshift _

/-- Directives begin inside their text. -/
theorem bounds_of_mem_directivesOf {offset position : Nat} {list : List Lexeme}
    (hlist : ∀ lexeme ∈ list, 0 < lexeme.text.length)
    (hposition : position ∈ directivesOf offset list) :
    offset ≤ position ∧ position < offset + (textOf list).length := by
  induction list generalizing offset with
  | nil => cases hposition
  | cons lexeme list ih =>
    rw [textOf_cons, List.length_append]
    have hmore := @ih (offset + lexeme.text.length)
      fun other hother => hlist other (List.mem_cons_of_mem _ hother)
    cases lexeme with
    | directive text =>
      have hpos := hlist _ List.mem_cons_self
      rcases List.mem_cons.mp hposition with rfl | hin
      · omega
      · have hbounds := hmore hin
        omega
    | _ =>
      have hbounds := hmore hposition
      omega

/-- Positions behind the first lexeme, found among the first bytes of a text. -/
theorem find?_directivesOf_shift (length span : Nat) (list : List Lexeme) :
    (directivesOf length list).find? (· < span) =
      ((directivesOf 0 list).find? (· < span - length)).map (length + ·) := by
  rw [directivesOf_eq_map, List.find?_map]
  congr 2
  funext position
  simp only [Function.comp_apply, decide_eq_decide]
  omega

/-- Positions in a part of a text, found among the first bytes of the part. -/
theorem find?_directivesOf_append {front list back : List Lexeme} {span : Nat}
    (hfront : ∀ lexeme ∈ front, 0 < lexeme.text.length)
    (hback : ∀ lexeme ∈ back, 0 < lexeme.text.length) (hspan : span ≤ (textOf list).length) :
    ((directivesOf 0 (front ++ list ++ back)).find? fun position =>
        (textOf front).length ≤ position && position < (textOf front).length + span) =
      ((directivesOf 0 list).find? (· < span)).map ((textOf front).length + ·) := by
  have hbefore : ((directivesOf 0 front).find? fun position =>
      (textOf front).length ≤ position && position < (textOf front).length + span) = none := by
    refine List.find?_eq_none.mpr fun position hposition => ?_
    have hbounds := bounds_of_mem_directivesOf hfront hposition
    simp only [Bool.and_eq_true, decide_eq_true_eq]
    omega
  have hbehind : ((directivesOf (textOf (front ++ list)).length back).find? fun position =>
      (textOf front).length ≤ position && position < (textOf front).length + span) = none := by
    refine List.find?_eq_none.mpr fun position hposition => ?_
    have hbounds := bounds_of_mem_directivesOf hback hposition
    rw [textOf_append, List.length_append] at hbounds
    simp only [Bool.and_eq_true, decide_eq_true_eq]
    omega
  rw [directivesOf_append, directivesOf_append, List.find?_append, List.find?_append, hbefore,
    Nat.zero_add, Nat.zero_add, hbehind, Option.none_or, Option.or_none, directivesOf_eq_map,
    List.find?_map]
  congr 2
  funext position
  simp

/-- The search for a directive finds the first one of the scan. -/
theorem findDirective?_eq_find?_of_upTo {before text : Bytes} {span : Nat}
    (hundivided : UndividedUpTo span (lexemes before text)) :
    findDirective? before text span =
      (directivesOf 0 (lexemes before text)).find? (· < span) := by
  induction before, text using lexemes_induction generalizing span with
  | nil before =>
    rw [lexemes_nil, findDirective?]
    split <;> rfl
  | @cons before b rest lexeme behind hnext ih =>
    rw [lexemes_cons hnext] at hundivided ⊢
    have hwhole := append_of_nextLexeme hnext
    have hbehind := ih hundivided.tail
    have hmore (hlexeme : ∀ text, lexeme ≠ .directive text) :
        (directivesOf 0 (lexeme :: lexemes (lexeme.text.reverse ++ before) behind)).find?
            (· < span) =
          (findDirective? (lexeme.text.reverse ++ before) behind
            (span - lexeme.text.length)).map (lexeme.text.length + ·) := by
      rw [directivesOf_cons_of_ne hlexeme, Nat.zero_add, find?_directivesOf_shift, hbehind]
    have hword (hjoins : ∀ c ∈ lexeme.text, joinsWord c) :
        findDirective? before (b :: rest) span =
          (findDirective? (lexeme.text.reverse ++ before) behind
            (span - lexeme.text.length)).map (lexeme.text.length + ·) := by
      rw [← hwhole, findDirective?_plain_append before behind span (plain_of_joinsWord hjoins)]
    cases span with
    | zero =>
      rw [findDirective?_zero]
      exact (List.find?_eq_none.mpr (by simp)).symm
    | succ span =>
      cases firstLexeme hnext with
      | trivia htrivia =>
        rw [hmore (by simp)]
        exact findDirective?_trivia (Nat.succ_ne_zero span) htrivia
      | directive htrivia hstart =>
        rw [findDirective?_cons htrivia, if_pos hstart]
        rfl
      | number htrivia hdigit =>
        rw [hmore (by simp)]
        exact hword (joinsWord_of_not_isDivided hdigit (hundivided.head (Nat.succ_ne_zero span)))
      | word htrivia hstarts =>
        rw [hmore (by simp)]
        exact hword (joinsWord_of_mem_word hstarts)
      | mark htrivia hstart =>
        rw [hmore (by simp), findDirective?_cons htrivia, if_neg hstart]
        rfl

/-- In undivided text the search finds the first directive of its lexemes. -/
theorem findDirective?_eq_find? {before text : Bytes} (span : Nat)
    (hundivided : Undivided (lexemes before text)) :
    findDirective? before text span =
      (directivesOf 0 (lexemes before text)).find? (· < span) :=
  findDirective?_eq_find?_of_upTo (hundivided.upTo span)

/-! ## Argument lists -/

/-- The lexemes of the stretches of an argument list, with the commas between them. -/
def insideOf (first : List Lexeme) (more : List (List Lexeme)) : List Lexeme :=
  first ++ more.flatMap (.mark Byte.comma :: ·)

/-- The text between the parentheses of a call. -/
theorem textOf_insideOf (first : List Lexeme) (more : List (List Lexeme)) :
    textOf (insideOf first more) = textOf first ++ (more.map textOf).flatMap (Byte.comma :: ·) := by
  rw [insideOf, textOf_append]
  congr 1
  induction more with
  | nil => rfl
  | cons second more ih =>
    rw [List.flatMap_cons, textOf_append, ih, List.map_cons, List.flatMap_cons]
    rfl

/-- The lexemes between the parentheses make up the argument list. -/
theorem textOf_insideOf_eq_inside {first : List Lexeme} {more : List (List Lexeme)}
    {list : ArgumentList} (hfirst : textOf first = list.first)
    (hmore : more.map textOf = list.more) : textOf (insideOf first more) = list.inside := by
  rw [textOf_insideOf, hfirst, hmore]
  rfl

/-- An argument list is cut between the lexemes of a text, and no directive is in it. -/
def CutsAt (list : ArgumentList) (whole : List Lexeme) : Prop :=
  ∃ first more back, whole = insideOf first more ++ .mark Byte.closeParen :: back ∧
    textOf first = list.first ∧ more.map textOf = list.more ∧
      ∀ text, .directive text ∉ insideOf first more

namespace CutsAt

variable {list : ArgumentList} {whole : List Lexeme}

/-- A parenthesis closes the list. -/
theorem close (rest : Bytes) (back : List Lexeme) :
    CutsAt ⟨[], [], rest⟩ (.mark Byte.closeParen :: back) :=
  ⟨[], [], back, rfl, rfl, rfl, fun _ => List.not_mem_nil⟩

/-- A lexeme that is no directive goes into the first argument. -/
theorem prepend {lexeme : Lexeme} (hlexeme : ∀ text, lexeme ≠ .directive text)
    (hcuts : CutsAt list whole) : CutsAt (list.prepend lexeme.text) (lexeme :: whole) := by
  obtain ⟨first, more, back, rfl, hfirst, hmore, hdirective⟩ := hcuts
  refine ⟨lexeme :: first, more, back, rfl, ?_, hmore, fun text hmem => ?_⟩
  · rw [textOf_cons, hfirst]
    rfl
  · rcases List.mem_cons.mp hmem with hsame | hmem
    · exact hlexeme text hsame.symm
    · exact hdirective text hmem

/-- A comma separates two arguments. -/
theorem separate (hcuts : CutsAt list whole) :
    CutsAt list.separate (.mark Byte.comma :: whole) := by
  obtain ⟨first, more, back, rfl, hfirst, hmore, hdirective⟩ := hcuts
  refine ⟨[], first :: more, back, rfl, rfl, ?_, fun text hmem => ?_⟩
  · rw [List.map_cons, hfirst, hmore]
    rfl
  · rcases List.mem_cons.mp hmem with hsame | hmem
    · cases hsame
    · exact hdirective text hmem

end CutsAt

/-- The argument list of a call without directives is cut between lexemes. -/
theorem cutsAt_of_splitArguments? {depth : Nat} {before text : Bytes} {list : ArgumentList}
    (hsplit : splitArguments? depth text = some list)
    (hundivided : UndividedUpTo list.inside.length (lexemes before text))
    (hdirectives : ∀ position ∈ directivesOf 0 (lexemes before text),
      list.inside.length ≤ position) :
    CutsAt list (lexemes before text) := by
  induction before, text using lexemes_induction generalizing depth list with
  | nil before =>
    rw [splitArguments?_nil] at hsplit
    cases hsplit
  | @cons before b rest lexeme behind hnext ih =>
    rw [lexemes_cons hnext] at hundivided hdirectives ⊢
    have hwhole := append_of_nextLexeme hnext
    have hmore {tail : ArgumentList} {depth : Nat} (hlexeme : ∀ text, lexeme ≠ .directive text)
        (hinside : list.inside.length = lexeme.text.length + tail.inside.length)
        (htail : splitArguments? depth behind = some tail) :
        CutsAt tail (lexemes (lexeme.text.reverse ++ before) behind) := by
      have htailUpTo := hundivided.tail
      rw [hinside, Nat.add_sub_cancel_left] at htailUpTo
      refine ih htail htailUpTo fun position hposition => ?_
      have hlater := hdirectives (lexeme.text.length + position) (by
        rw [directivesOf_cons_of_ne hlexeme, directivesOf_eq_map, Nat.zero_add]
        exact List.mem_map_of_mem hposition)
      omega
    -- A stretch of the list that begins with the lexeme.
    have hprepend {depth : Nat} (hlexeme : ∀ text, lexeme ≠ .directive text)
        (hfound : (splitArguments? depth behind).map (·.prepend lexeme.text) = some list) :
        CutsAt list (lexeme :: lexemes (lexeme.text.reverse ++ before) behind) := by
      obtain ⟨tail, htail, rfl⟩ := Option.map_eq_some_iff.mp hfound
      exact (hmore hlexeme (by simp) htail).prepend hlexeme
    have hword (hjoins : ∀ c ∈ lexeme.text, joinsWord c) :
        (splitArguments? depth behind).map (·.prepend lexeme.text) = some list := by
      have hpast := splitArguments?_plain_append depth behind (plain_of_joinsWord hjoins)
        (bracketDepth?_of_joinsWord hjoins : bracketDepth? 0 lexeme.text = some 0)
      rw [hwhole, Nat.add_zero, hsplit] at hpast
      exact hpast.symm
    cases firstLexeme hnext with
    | trivia htrivia =>
      rw [splitArguments?_trivia htrivia] at hsplit
      exact hprepend (by simp) hsplit
    | directive htrivia hstart =>
      -- The list would end in front of the hash mark.
      have hinside := append_of_splitArguments? hsplit
      have hzero := hdirectives 0 List.mem_cons_self
      rw [List.eq_nil_of_length_eq_zero (Nat.le_zero.mp hzero), hstart.1] at hinside
      exact absurd (List.cons.inj hinside).1 (by decide)
    | number htrivia hdigit =>
      refine hprepend (by simp) (hword (joinsWord_of_not_isDivided hdigit (hundivided.head ?_)))
      -- An empty list is closed at once.
      intro hempty
      have hinside := append_of_splitArguments? hsplit
      rw [List.eq_nil_of_length_eq_zero hempty] at hinside
      rw [← (List.cons.inj hinside).1] at hdigit
      exact absurd hdigit (by decide)
    | word htrivia hstarts => exact hprepend (by simp) (hword (joinsWord_of_mem_word hstarts))
    | mark htrivia hstart =>
      rw [splitArguments?_cons htrivia] at hsplit
      split at hsplit
      · next hclose =>
        cases hsplit
        rw [hclose.1]
        exact CutsAt.close _ _
      · split at hsplit
        · next hcomma =>
          obtain ⟨tail, htail, rfl⟩ := Option.map_eq_some_iff.mp hsplit
          have hcuts := hmore (by simp) (by simp [Lexeme.text, Nat.add_comm]) htail
          rw [hcomma.1] at hcuts ⊢
          exact hcuts.separate
        · split at hsplit
          · exact hprepend (by simp) hsplit
          · split at hsplit
            · exact hprepend (by simp) hsplit
            · exact hprepend (by simp) hsplit

end PlainSync.Source
