import PlainSync.Builtin
import PlainSync.Source.Directive

/-!
# Lexemes

One left-to-right scan cuts a source into comments and literals, directive lines, numbers,
words and single bytes. A word that is the name of a built-in opens a call if an opening
parenthesis stands behind it, white space aside. The scan of a stretch depends on what
stands before it only through the directive lines.
-/

namespace PlainSync.Source

/-- A unit of a source. -/
inductive Lexeme where
  /-- A comment or a literal. -/
  | trivia (text : Bytes)
  | directive (text : Bytes)
  | number (text : Bytes)
  | word (text : Bytes)
  /-- Any other byte. -/
  | mark (b : UInt8)
  deriving DecidableEq, Repr

/-- The text of a lexeme. -/
def Lexeme.text : Lexeme → Bytes
  | trivia text => text
  | directive text => text
  | number text => text
  | word text => text
  | mark b => [b]

/-- The lexeme that the text `b :: rest` begins with, and what stands behind it. -/
def nextLexeme (before : Bytes) (b : UInt8) (rest : Bytes) : Lexeme × Bytes :=
  match splitTrivia? (b :: rest) with
  | some (unit, behind) => (.trivia unit, behind)
  | none =>
    if b = Byte.hash ∧ atLineStart before then
      (.directive (b :: (splitDirective (b :: before) rest).1),
        (splitDirective (b :: before) rest).2)
    else if Byte.isDigit b then
      (.number (b :: (splitNumberBody b rest).1), (splitNumberBody b rest).2)
    else if Byte.startsIdentifier b then
      (.word (b :: rest.takeWhile Byte.continuesIdentifier),
        rest.dropWhile Byte.continuesIdentifier)
    else (.mark b, rest)

/-- What the first lexeme of a text can be, and what stands behind it. -/
inductive FirstLexeme (before : Bytes) (b : UInt8) (rest : Bytes) : Lexeme → Bytes → Prop
  | trivia {unit behind : Bytes} (htrivia : splitTrivia? (b :: rest) = some (unit, behind)) :
    FirstLexeme before b rest (.trivia unit) behind
  | directive (htrivia : splitTrivia? (b :: rest) = none)
    (hstart : b = Byte.hash ∧ atLineStart before) :
    FirstLexeme before b rest (.directive (b :: (splitDirective (b :: before) rest).1))
      (splitDirective (b :: before) rest).2
  | number (htrivia : splitTrivia? (b :: rest) = none) (hdigit : Byte.isDigit b) :
    FirstLexeme before b rest (.number (b :: (splitNumberBody b rest).1))
      (splitNumberBody b rest).2
  | word (htrivia : splitTrivia? (b :: rest) = none) (hstarts : Byte.startsIdentifier b) :
    FirstLexeme before b rest (.word (b :: rest.takeWhile Byte.continuesIdentifier))
      (rest.dropWhile Byte.continuesIdentifier)
  | mark (htrivia : splitTrivia? (b :: rest) = none)
    (hstart : ¬ (b = Byte.hash ∧ atLineStart before)) :
    FirstLexeme before b rest (.mark b) rest

/-- What the first lexeme of a text can be. -/
theorem firstLexeme {before rest behind : Bytes} {b : UInt8} {lexeme : Lexeme}
    (hnext : nextLexeme before b rest = (lexeme, behind)) :
    FirstLexeme before b rest lexeme behind := by
  unfold nextLexeme at hnext
  split at hnext
  · next htrivia =>
    cases hnext
    exact .trivia htrivia
  · next htrivia =>
    split at hnext
    · next hstart =>
      cases hnext
      exact .directive htrivia hstart
    · next hstart =>
      split at hnext
      · next hdigit =>
        cases hnext
        exact .number htrivia hdigit
      · split at hnext
        · next hstarts =>
          cases hnext
          exact .word htrivia hstarts
        · cases hnext
          exact .mark htrivia hstart

/-- Nothing is lost between a lexeme and what stands behind it. -/
theorem append_of_nextLexeme {before rest behind : Bytes} {b : UInt8} {lexeme : Lexeme}
    (hnext : nextLexeme before b rest = (lexeme, behind)) :
    lexeme.text ++ behind = b :: rest := by
  cases firstLexeme hnext with
  | trivia htrivia => exact append_of_splitTrivia? htrivia
  | directive => exact congrArg (b :: ·) (splitDirective_append (b :: before) rest)
  | number => exact congrArg (b :: ·) (splitNumberBody_append b rest)
  | word => exact congrArg (b :: ·) List.takeWhile_append_dropWhile
  | mark => rfl

/-- A lexeme is not empty. -/
theorem length_text_pos_of_nextLexeme {before rest behind : Bytes} {b : UInt8}
    {lexeme : Lexeme} (hnext : nextLexeme before b rest = (lexeme, behind)) :
    0 < lexeme.text.length := by
  cases firstLexeme hnext with
  | trivia htrivia => exact length_pos_of_splitTrivia? htrivia
  | _ => exact Nat.succ_pos _

/-- A lexeme begins with the first byte of the text. -/
theorem exists_text_eq_cons {before rest behind : Bytes} {b : UInt8} {lexeme : Lexeme}
    (hnext : nextLexeme before b rest = (lexeme, behind)) :
    ∃ text, lexeme.text = b :: text ∧ rest = text ++ behind := by
  have hwhole := append_of_nextLexeme hnext
  obtain ⟨c, text, htext⟩ := List.exists_cons_of_length_pos (length_text_pos_of_nextLexeme hnext)
  rw [htext, List.cons_append, List.cons.injEq] at hwhole
  exact ⟨text, by rw [htext, hwhole.1], hwhole.2.symm⟩

/-- A lexeme leaves less than the text, so splitting comes to an end. -/
theorem length_lt_of_nextLexeme {before rest behind : Bytes} {b : UInt8} {lexeme : Lexeme}
    (hnext : nextLexeme before b rest = (lexeme, behind)) :
    behind.length < (b :: rest).length := by
  have hpos := length_text_pos_of_nextLexeme hnext
  rw [← append_of_nextLexeme hnext, List.length_append]
  omega

/-- The lexemes of a text. The bytes `before` it are given last one first. -/
def lexemes (before text : Bytes) : List Lexeme :=
  match text with
  | [] => []
  | b :: rest =>
    (nextLexeme before b rest).1 ::
      lexemes ((nextLexeme before b rest).1.text.reverse ++ before) (nextLexeme before b rest).2
termination_by text.length
decreasing_by exact length_lt_of_nextLexeme rfl

/-- The text of a list of lexemes. -/
def textOf (list : List Lexeme) : Bytes := list.flatMap Lexeme.text

/-- No lexemes make no text. -/
@[simp] theorem textOf_nil : textOf [] = [] := rfl

/-- The text of a lexeme comes in front of the others. -/
@[simp] theorem textOf_cons (lexeme : Lexeme) (list : List Lexeme) :
    textOf (lexeme :: list) = lexeme.text ++ textOf list := rfl

/-- The texts of lexemes one behind the other. -/
@[simp] theorem textOf_append (front back : List Lexeme) :
    textOf (front ++ back) = textOf front ++ textOf back := by
  simp [textOf]

/-- The empty text has no lexemes. -/
@[simp] theorem lexemes_nil (before : Bytes) : lexemes before [] = [] := by
  rw [lexemes]

/-- The first lexeme comes in front of the others. -/
theorem lexemes_cons {before : Bytes} {b : UInt8} {rest behind : Bytes} {lexeme : Lexeme}
    (hnext : nextLexeme before b rest = (lexeme, behind)) :
    lexemes before (b :: rest) = lexeme :: lexemes (lexeme.text.reverse ++ before) behind := by
  rw [lexemes, hnext]

/-- What holds of the empty text and of a text whenever it holds behind the first lexeme,
holds of every text. -/
theorem lexemes_induction {motive : Bytes → Bytes → Prop}
    (nil : ∀ before, motive before [])
    (cons : ∀ {before b rest lexeme behind}, nextLexeme before b rest = (lexeme, behind) →
      motive (lexeme.text.reverse ++ before) behind → motive before (b :: rest))
    (before text : Bytes) : motive before text := by
  match text with
  | [] => exact nil before
  | b :: rest =>
    exact cons rfl (lexemes_induction nil cons _ (nextLexeme before b rest).2)
termination_by text.length
decreasing_by exact length_lt_of_nextLexeme rfl

/-- The scan loses nothing. -/
theorem textOf_lexemes (before text : Bytes) : textOf (lexemes before text) = text := by
  induction before, text using lexemes_induction with
  | nil before => simp
  | @cons before b rest lexeme behind hnext ih =>
    rw [lexemes_cons hnext, textOf_cons, ih]
    exact append_of_nextLexeme hnext

/-- No lexeme of a text is empty. -/
theorem length_text_pos_of_mem_lexemes {before text : Bytes} {lexeme : Lexeme}
    (hlexeme : lexeme ∈ lexemes before text) : 0 < lexeme.text.length := by
  induction before, text using lexemes_induction with
  | nil before =>
    rw [lexemes_nil] at hlexeme
    cases hlexeme
  | cons hnext ih =>
    rw [lexemes_cons hnext] at hlexeme
    rcases List.mem_cons.mp hlexeme with rfl | hmore
    · exact length_text_pos_of_nextLexeme hnext
    · exact ih hmore

/-! ## Calls -/

/-- The built-in that a call is of, the white space behind its name and what stands behind its
opening parenthesis, if a lexeme opens a call in front of `behind`. -/
def opening? (lexeme : Lexeme) (behind : Bytes) : Option (Builtin × Bytes × Bytes) :=
  match lexeme with
  | .word name =>
    match Builtin.ofSpelling? name, behind.dropWhile Byte.isWhiteSpace with
    | some builtin, c :: inner =>
      if c = Byte.openParen then some (builtin, behind.takeWhile Byte.isWhiteSpace, inner)
      else none
    | _, _ => none
  | _ => none

/-- A built-in is found by its name. -/
theorem ofSpelling?_spelling (builtin : Builtin) :
    Builtin.ofSpelling? builtin.spelling = some builtin := by
  cases builtin with
  | fetchAndOp update | opAndFetch update => cases update <;> decide
  | _ => decide

/-- An identifier names a built-in if it is the spelling of that built-in. -/
theorem ofSpelling?_eq_some {name : Bytes} {builtin : Builtin} :
    Builtin.ofSpelling? name = some builtin ↔ name = builtin.spelling := by
  constructor
  · intro hname
    obtain ⟨entry, hfound, rfl⟩ := Option.map_eq_some_iff.mp hname
    have hsame : entry.2 = name := by simpa using List.find?_some hfound
    obtain ⟨listed, -, rfl⟩ := List.mem_map.mp (List.mem_of_find?_eq_some hfound)
    exact hsame.symm
  · rintro rfl
    exact ofSpelling?_spelling builtin

/-- A call is opened by the name of its built-in, white space and a parenthesis. -/
theorem opening?_eq_some {lexeme : Lexeme} {behind gap inner : Bytes} {builtin : Builtin} :
    opening? lexeme behind = some (builtin, gap, inner) ↔
      lexeme = .word builtin.spelling ∧ behind = gap ++ Byte.openParen :: inner ∧
        ∀ b ∈ gap, Byte.isWhiteSpace b := by
  constructor
  · intro hopening
    cases lexeme with
    | word name =>
      simp only [opening?] at hopening
      split at hopening
      · next found c inner' hname hparen =>
        split at hopening
        · next hc =>
          simp only [Option.some.injEq, Prod.mk.injEq] at hopening
          obtain ⟨rfl, rfl, rfl⟩ := hopening
          refine ⟨by rw [ofSpelling?_eq_some.mp hname], ?_, ?_⟩
          · rw [← hc, ← hparen, List.takeWhile_append_dropWhile]
          · exact List.all_eq_true.mp List.all_takeWhile
        · cases hopening
      · cases hopening
    | _ => simp [opening?] at hopening
  · rintro ⟨rfl, rfl, hgap⟩
    have hparen : ¬ Byte.isWhiteSpace Byte.openParen := by decide
    simp [opening?, ofSpelling?_spelling, List.dropWhile_append_of_pos hgap,
      List.takeWhile_append_of_pos hgap, hparen]

/-- What opens a call is spelled like its built-in. -/
theorem text_of_opening {lexeme : Lexeme} {behind gap inner : Bytes} {builtin : Builtin}
    (hopening : opening? lexeme behind = some (builtin, gap, inner)) :
    lexeme.text = builtin.spelling := by
  rw [(opening?_eq_some.mp hopening).1]
  rfl

end PlainSync.Source
