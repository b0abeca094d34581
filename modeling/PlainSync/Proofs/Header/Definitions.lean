import PlainSync.Header
import PlainSync.Proofs.Normalize.FilledLexemes

/-!
# Definitions with parameters

A line that defines a name with parameters is read the way a C preprocessor reads it. In a use of
the name all parameters are exchanged for the arguments at once, and only whole identifiers are
exchanged. Where the identifiers of a text are kept apart from the rest by bytes that separate,
the exchanged text is cut into the lexemes that were put in, so that one exchange after another
is a single exchange.
-/

namespace PlainSync.Header

open Source Bytes

/-! ## Definitions -/

/-- The text of a lexeme, or the value of an identifier that has one. -/
def exchangedText (value? : Bytes → Option Bytes) : Lexeme → Bytes
  | .word name => (value? name).getD name
  | lexeme => lexeme.text

/-- A text with the identifiers that have a value exchanged for it. Values are not read again. -/
def exchange (value? : Bytes → Option Bytes) (text : Bytes) : Bytes :=
  (lexemes [] text).flatMap (exchangedText value?)

/-- What a line defines. -/
structure Definition where
  name : Bytes
  parameters : List Bytes
  /-- Whether a use may have more arguments than there are parameters. -/
  variadic : Bool
  body : Bytes
  deriving DecidableEq, Repr

namespace Definition

/-- Marks the place of any more arguments. -/
def ellipsis : Bytes := ofString "..."

/-- Whether a use only puts arguments in the place of parameters: no hash mark turns an argument
into a literal or joins it with what is around it, and the arguments behind the named ones are
left out. -/
def isSimple (body : Bytes) : Bool :=
  (lexemes [] body).all fun lexeme =>
    lexeme.text.head? ≠ some Byte.hash && lexeme ≠ .word (ofString "__VA_ARGS__")

/-- The definition in a line, if it has parameters behind its name and a simple body. -/
def ofLine? (line : Bytes) : Option Definition := do
  let signature ← (ofString "#define ").isPrefixOf? line
  let inner ← [Byte.openParen].isPrefixOf? (signature.dropWhile Byte.continuesIdentifier)
  let written := inner.takeWhile (· ≠ Byte.closeParen)
  let behind ← [Byte.closeParen].isPrefixOf? (inner.dropWhile (· ≠ Byte.closeParen))
  let stretches := (written.splitOnP (· = Byte.comma)).map trim
  let parameters := stretches.filter fun parameter => parameter ≠ [] ∧ parameter ≠ ellipsis
  let body := trim behind
  guard (isSimple body)
  return ⟨signature.takeWhile Byte.continuesIdentifier, parameters,
    stretches.getLast? = some ellipsis, body⟩

/-- The argument that stands for a parameter. -/
def argument? (definition : Definition) (arguments : List Bytes) (name : Bytes) : Option Bytes :=
  (definition.parameters.zip arguments).lookup name

/-- The text that a use of the name with arguments stands for, unless arguments are missing or
there are more than the definition takes. -/
def expand? (definition : Definition) (arguments : List Bytes) : Option Bytes :=
  if definition.parameters.length ≤ arguments.length ∧
      (definition.variadic ∨ arguments.length = definition.parameters.length) then
    some (exchange (definition.argument? arguments) definition.body)
  else none

/-- A macro with enough arguments is its body with these put in. -/
theorem expand?_of_variadic {definition : Definition} (hvariadic : definition.variadic = true)
    {arguments : List Bytes} (hcount : definition.parameters.length ≤ arguments.length) :
    definition.expand? arguments =
      some (exchange (definition.argument? arguments) definition.body) :=
  if_pos ⟨hcount, .inl hvariadic⟩

end Definition

/-! ## Exchanged lexemes -/

/-- The lexemes that stand for a lexeme of a text when its identifiers are exchanged. -/
def exchangedLexemes (value? : Bytes → Option Bytes) : Lexeme → List Lexeme
  | .word name => ((value? name).map (lexemes [])).getD [.word name]
  | lexeme => [lexeme]

/-- The lexemes that stand for a lexeme make up its text. -/
theorem textOf_exchangedLexemes (value? : Bytes → Option Bytes) (lexeme : Lexeme) :
    textOf (exchangedLexemes value? lexeme) = exchangedText value? lexeme := by
  cases lexeme with
  | word name =>
    rw [exchangedLexemes, exchangedText]
    cases value? name with
    | none => simp [Lexeme.text]
    | some value => simp [textOf_lexemes]
  | _ => exact List.append_nil _

/-- Whether every lexeme of a list is a byte of its own or has one behind it that separates. -/
def isApart : List Lexeme → Bool
  | [] => true
  | .mark b :: more => standsAlone b && isApart more
  | _ :: .mark b :: more => separates b && isApart (.mark b :: more)
  | _ => false

/-- A text that can be put in the place of an identifier: its lexemes end where the next one
begins, and each of them is over in front of a space. -/
structure Firm (text : Bytes) : Prop where
  joined : Joined [] (lexemes [] text)
  firm : AllFirm (lexemes [] text)

/-- Every lexeme of a plain text is over in front of a space. -/
theorem allFirm_lexemes_of_plain {before text : Bytes} (hplain : Plain text) :
    AllFirm (lexemes before text) := by
  induction before, text using lexemes_induction with
  | nil before =>
    rw [lexemes_nil]
    exact fun lexeme hlexeme => absurd hlexeme List.not_mem_nil
  | @cons before b rest lexeme behind hnext ih =>
    rw [lexemes_cons hnext]
    obtain ⟨hb, -⟩ := plain_cons.mp hplain
    obtain ⟨-, -, hdouble, hquote, hhash, hslash⟩ := ne_of_isPlain hb
    rw [← append_of_nextLexeme hnext] at hplain
    refine List.forall_mem_cons.mpr ⟨?_, ih (plain_append.mp hplain).2⟩
    cases firstLexeme hnext with
    | trivia htrivia =>
      rw [splitTrivia?_of_isPlain hb] at htrivia
      cases htrivia
    | directive _ hstart => exact absurd hstart.1 hhash
    | number _ hdigit =>
      have hspace (previous : UInt8) : (splitNumberBody previous [Byte.space]).1 = [] :=
        splitNumberBody_of_separates previous fun c hc => by cases hc; decide
      have hagain : splitNumberBody b ((splitNumberBody b rest).1 ++ (splitNumberBody b rest).2) =
          ((splitNumberBody b rest).1, (splitNumberBody b rest).2) := by
        rw [splitNumberBody_append]
      have hbody := splitNumberBody_exchange (fun previous _ => hspace previous) hagain
      refine ⟨b, (splitNumberBody b rest).1, rfl, hhash, ?_⟩
      simp only [nextLexeme, splitTrivia?_of_isPlain hb, hhash, false_and, if_false, if_pos hdigit,
        hbody]
    | word _ hstarts => exact firm_word hstarts (List.all_eq_true.mp List.all_takeWhile)
    | mark =>
      refine firm_mark ?_
      simp [standsAlone, hslash, hdouble, hquote, hhash, not_continuesIdentifier_of_mark hnext]

/-- Plain text can stand in the place of an identifier. -/
theorem firm_of_plain {text : Bytes} (hplain : Plain text) : Firm text := by
  refine ⟨joined_lexemes fun lexeme hlexeme hhash => ?_, allFirm_lexemes_of_plain hplain⟩
  have hmem : Byte.hash ∈ textOf (lexemes [] text) :=
    List.mem_flatMap.mpr ⟨lexeme, hlexeme, List.mem_of_head? hhash⟩
  rw [textOf_lexemes] at hmem
  exact absurd (hplain _ hmem) (by decide)

/-- An identifier is one lexeme. -/
theorem lexemes_of_firm_word {name : Bytes} (hname : (Lexeme.word name).Firm) (before : Bytes) :
    lexemes before name = [.word name] := by
  have hjoined : Joined [] [Lexeme.word name] := ⟨hname.standsBefore (by simp), trivial⟩
  simpa [Lexeme.text] using lexemes_of_joined hjoined before

section Exchange

variable {value? : Bytes → Option Bytes}

/-- Exchanged lexemes end where the next one begins. -/
theorem joined_exchanged {list : List Lexeme} (hapart : isApart list) (hfirm : AllFirm list)
    (hvalues : ∀ name, Lexeme.word name ∈ list → ∀ value ∈ value? name, Firm value) :
    Joined [] (list.flatMap (exchangedLexemes value?)) := by
  induction list with
  | nil => trivial
  | cons lexeme more ih =>
    obtain ⟨hlexeme, hmoreFirm⟩ := List.forall_mem_cons.mp hfirm
    have hmoreValues : ∀ name, Lexeme.word name ∈ more → ∀ value ∈ value? name, Firm value :=
      fun name hname => hvalues name (List.mem_cons_of_mem _ hname)
    -- A lexeme that is no byte of its own has a byte behind it that separates.
    have hbehind (hmark : ∀ b, lexeme ≠ .mark b) : isApart more ∧
        ∀ c ∈ (textOf (more.flatMap (exchangedLexemes value?)) ++ []).head?, separates c := by
      cases more with
      | nil => cases lexeme <;> simp_all [isApart]
      | cons next more =>
        cases next with
        | mark b =>
          have hsplit : separates b ∧ isApart (.mark b :: more) := by
            cases lexeme with
            | mark c => exact absurd rfl (hmark c)
            | _ => simpa [isApart] using hapart
          refine ⟨hsplit.2, fun c hc => ?_⟩
          obtain rfl : b = c := by simpa [exchangedLexemes, Lexeme.text] using hc
          exact hsplit.1
        | _ => cases lexeme <;> simp_all [isApart]
    rw [List.flatMap_cons]
    cases lexeme with
    | mark b =>
      obtain ⟨halone, hmore⟩ := (Bool.and_eq_true _ _).mp hapart
      exact ⟨standsBefore_mark halone _, ih hmore hmoreFirm hmoreValues⟩
    | word name =>
      obtain ⟨hmore, hhead⟩ := hbehind (fun b hmark => by cases hmark)
      refine joined_append.mpr ⟨?_, ih hmore hmoreFirm hmoreValues⟩
      cases hvalue : value? name with
      | none =>
        rw [exchangedLexemes, hvalue]
        exact ⟨hlexeme.standsBefore hhead, trivial⟩
      | some value =>
        obtain ⟨hjoined, hvalueFirm⟩ := hvalues name List.mem_cons_self value hvalue
        rw [exchangedLexemes, hvalue]
        exact hjoined.of_separates hvalueFirm hhead
    | trivia _ | directive _ | number _ =>
      obtain ⟨hmore, hhead⟩ := hbehind (fun b hmark => by cases hmark)
      exact ⟨hlexeme.standsBefore hhead, ih hmore hmoreFirm hmoreValues⟩

/-- The lexemes of a text with its identifiers exchanged are those that were put in. -/
theorem lexemes_exchange {text : Bytes} (hapart : isApart (lexemes [] text))
    (hfirm : AllFirm (lexemes [] text))
    (hvalues : ∀ name, Lexeme.word name ∈ lexemes [] text → ∀ value ∈ value? name, Firm value) :
    lexemes [] (exchange value? text) = (lexemes [] text).flatMap (exchangedLexemes value?) := by
  have htext : textOf ((lexemes [] text).flatMap (exchangedLexemes value?)) =
      exchange value? text := by
    rw [textOf, List.flatMap_assoc]
    exact congrArg (List.flatMap · (lexemes [] text)) (funext (textOf_exchangedLexemes value?))
  have hread := lexemes_of_joined (joined_exchanged hapart hfirm hvalues) []
  rwa [List.append_nil, lexemes_nil, List.append_nil, htext] at hread

/-- A second exchange goes through the values of the first one. -/
theorem exchange_exchange {text : Bytes} (hapart : isApart (lexemes [] text))
    (hfirm : AllFirm (lexemes [] text))
    (hvalues : ∀ name, Lexeme.word name ∈ lexemes [] text → ∀ value ∈ value? name, Firm value)
    (second? : Bytes → Option Bytes) :
    exchange second? (exchange value? text) =
      exchange (fun name => ((value? name).map (exchange second?)).or (second? name)) text := by
  rw [exchange, lexemes_exchange hapart hfirm hvalues, List.flatMap_assoc]
  refine congrArg (List.flatMap · (lexemes [] text)) (funext fun lexeme => ?_)
  cases lexeme with
  | word name =>
    cases hvalue : value? name with
    | none => simp [exchangedLexemes, exchangedText, hvalue]
    | some value => simp [exchangedLexemes, exchangedText, hvalue, exchange]
  | _ => exact List.append_nil _

/-- A text without an identifier that has a value stays as it is. -/
theorem exchange_eq_self {text : Bytes}
    (hnone : ∀ name, Lexeme.word name ∈ lexemes [] text → value? name = none) :
    exchange value? text = text := by
  have hsame : ∀ lexeme ∈ lexemes [] text, exchangedText value? lexeme = lexeme.text := by
    intro lexeme hlexeme
    cases lexeme with
    | word name => rw [exchangedText, hnone name hlexeme]; rfl
    | _ => rfl
  rw [exchange, List.flatMap_congr hsame]
  exact textOf_lexemes [] text

end Exchange

end PlainSync.Header
