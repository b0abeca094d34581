import PlainSync.Proofs.Normalize.BlankedLexemes
import PlainSync.Proofs.Normalize.LineNumbers
import PlainSync.Proofs.Normalize.TemporaryNames

/-!
# The lexemes of a replacement

The lexemes of an expansion are those of its template with the lexemes of the operands in between.
Parentheses keep the operands apart from what is around them, and so does the expansion with what
is around a replaced call.
-/

namespace PlainSync.Source

open Bytes Reading

/-! ## Templates -/

/-- The place of a temporary's name. -/
def isNamePlace : Slot → Bool
  | .pointerName | .savedName => true
  | _ => false

/-- Whether what a template is filled with stays apart from the rest, behind the part `word` of a
word of the template: names and words have a byte behind them that separates, operands a closing
parenthesis, and no word begins as the names of built-ins do. -/
def fits (word : Bytes) : List Symbol → Bool
  | [] => word.isEmpty
  | .slot place :: more =>
    word.isEmpty && fits [] more &&
      match more with
      | .byte b :: _ => separates b && (isNamePlace place || b = Byte.closeParen)
      | _ => false
  | .byte b :: more =>
    if Byte.continuesIdentifier b then fits (word ++ [b]) more
    else
      standsAlone b && fits [] more &&
        (word.isEmpty ||
          separates b && decide (Complete word) && word.head? ≠ some Byte.underscore)

/-- Names of built-ins begin with an underscore. -/
theorem head?_spelling (builtin : Builtin) : builtin.spelling.head? = some Byte.underscore := by
  cases builtin with
  | fetchAndOp update | opAndFetch update => cases update <;> rfl
  | _ => rfl

/-- A word that begins with no underscore names no built-in. -/
theorem ofSpelling?_of_head? {word : Bytes} (hword : word.head? ≠ some Byte.underscore) :
    Builtin.ofSpelling? word = none := by
  refine Option.eq_none_iff_forall_ne_some.mpr fun builtin hspelling => hword ?_
  rw [ofSpelling?_eq_some.mp hspelling, head?_spelling]

/-- The symbols of every expansion fit together. -/
theorem fits_template (builtin : Builtin) : fits [] (template builtin) := by
  cases builtin with
  | fetchAndOp update | opAndFetch update => cases update <;> decide +kernel
  | _ => decide +kernel

/-- Lexemes that are over, put together, whose names are apart: nothing but what stands in front
of them matters where they are read. -/
structure SelfContained (list : List Lexeme) : Prop where
  joined : ∀ behind, Joined behind list
  firm : AllFirm list
  apart : NamesApart fades (list.map Lexeme.text)

/-- A byte at the end that stands alone is a lexeme of its own. -/
theorem SelfContained.exists_last {list : List Lexeme} (hcontained : SelfContained list) {b : UInt8}
    (hlast : b ∈ (textOf list).getLast?) (halone : standsAlone b) (hdot : b ≠ Byte.dot) :
    ∃ front, list = front ++ [.mark b] := by
  rcases List.eq_nil_or_concat list with rfl | ⟨front, last, rfl⟩
  · cases hlast
  · have hfirm := hcontained.firm last (by simp)
    rw [List.concat_eq_append, textOf_append, textOf_cons, textOf_nil, List.append_nil,
      List.getLast?_append_of_ne_nil _ hfirm.text_ne_nil] at hlast
    rw [hfirm.eq_mark hlast halone hdot, List.concat_eq_append]
    exact ⟨front, rfl⟩

/-- The lexemes of a filled template. -/
theorem exists_lexemes_fill {operands : Operands} {names : Temporaries}
    (hslots : ∀ place : Slot, ∃ list, textOf list = place.text operands names ∧ Tidy list ∧
      AllFirm list ∧ (isNamePlace place → ∀ lexeme ∈ list, Builtin.ofSpelling? lexeme.text = none))
    {symbols : List Symbol} {word : Bytes} (hfits : fits word symbols) :
    ∃ list, textOf list = word ++ fill operands names symbols ∧ SelfContained list := by
  -- The word is what has been read of a lexeme that the symbols go on with.
  induction symbols generalizing word with
  | nil =>
    obtain rfl := List.isEmpty_iff.mp hfits
    exact ⟨[], rfl, fun _ => trivial, fun lexeme hlexeme => absurd hlexeme List.not_mem_nil,
      trivial⟩
  | cons symbol more ih =>
    cases symbol with
    | slot place =>
      simp only [fits, Bool.and_eq_true] at hfits
      obtain ⟨⟨hword, hmore⟩, hnext⟩ := hfits
      obtain rfl := List.isEmpty_iff.mp hword
      obtain ⟨filling, hfilling, htidy, hfirm, hnames⟩ := hslots place
      obtain ⟨list, hlist, hjoined, hlistFirm, happart⟩ := ih hmore
      match more with
      | .byte b :: more =>
        simp only [Bool.and_eq_true, Bool.or_eq_true, decide_eq_true_eq] at hnext
        obtain ⟨hseparates, hplace⟩ := hnext
        have htext : textOf list = b :: fill operands names more := hlist
        have hfill : fill operands names (.slot place :: .byte b :: more) =
            place.text operands names ++ b :: fill operands names more := rfl
        refine ⟨filling ++ list, ?_, fun behind => ?_, ?_, ?_⟩
        · rw [textOf_append, hfilling, htext, hfill]
          rfl
        · refine joined_append.mpr ⟨htidy.joined.of_separates hfirm fun c hc => ?_, hjoined behind⟩
          rw [htext] at hc
          obtain rfl := Option.some.inj hc
          exact hseparates
        · intro lexeme hlexeme
          exact (List.mem_append.mp hlexeme).elim (hfirm lexeme) (hlistFirm lexeme)
        · rw [List.map_append]
          rcases hplace with hname | rfl
          · refine (namesApart_append_of_nameless fun unit hunit => ?_).mpr happart
            obtain ⟨lexeme, hlexeme, rfl⟩ := List.mem_map.mp hunit
            exact hnames hname lexeme hlexeme
          · obtain ⟨rest, rfl, -⟩ := (hjoined []).exists_mark htext (by decide)
            exact htidy.apart.append rfl (by decide) happart
    | byte b =>
      rw [fits] at hfits
      split at hfits
      · obtain ⟨list, hlist, hcontained⟩ := ih hfits
        refine ⟨list, ?_, hcontained⟩
        rw [hlist, List.append_assoc]
        rfl
      · next hb =>
        simp only [Bool.and_eq_true, Bool.or_eq_true, decide_eq_true_eq] at hfits
        obtain ⟨⟨halone, hmore⟩, hword⟩ := hfits
        obtain ⟨list, hlist, hjoined, hfirm, happart⟩ := ih hmore
        have hmarkName : Builtin.ofSpelling? [b] = none := by
          refine ofSpelling?_of_not_startsIdentifier fun hstarts => ?_
          exact absurd (continuesIdentifier_of_startsIdentifier hstarts) hb
        have hmarked : SelfContained (.mark b :: list) := by
          refine ⟨fun behind => ⟨standsBefore_mark halone _, hjoined behind⟩,
            List.forall_mem_cons.mpr ⟨firm_mark halone, hfirm⟩, ?_⟩
          exact (namesApart_cons_of_nameless hmarkName).mpr happart
        have htext : textOf (.mark b :: list) = fill operands names (.byte b :: more) := by
          rw [textOf_cons, hlist]
          rfl
        rcases hword with hnil | ⟨⟨hseparates, hcomplete⟩, hname⟩
        · obtain rfl := List.isEmpty_iff.mp hnil
          exact ⟨.mark b :: list, htext, hmarked⟩
        · have hnone := ofSpelling?_of_head? hname
          obtain ⟨lexeme, rfl, hlexeme⟩ := hcomplete.exists_firm
          refine ⟨lexeme :: .mark b :: list, by rw [textOf_cons, htext], fun behind => ⟨?_, ?_⟩,
            List.forall_mem_cons.mpr ⟨hlexeme, hmarked.firm⟩,
            (namesApart_cons_of_nameless hnone).mpr hmarked.apart⟩
          · refine hlexeme.standsBefore fun c hc => ?_
            rw [htext] at hc
            obtain rfl := Option.some.inj hc
            exact hseparates
          · exact hmarked.joined behind

/-! ## Replacements -/

/-- An identifier is firm. -/
theorem firm_word {b : UInt8} {rest : Bytes} (hstarts : Byte.startsIdentifier b)
    (hrest : ∀ c ∈ rest, Byte.continuesIdentifier c) : (Lexeme.word (b :: rest)).Firm := by
  have hb : isPlain b :=
    isPlain_of_continuesIdentifier (continuesIdentifier_of_startsIdentifier hstarts)
  obtain ⟨-, -, -, -, hhash, -⟩ := ne_of_isPlain hb
  refine ⟨b, rest, rfl, hhash, ?_⟩
  have hspace : ¬ Byte.continuesIdentifier Byte.space := by decide
  rw [nextLexeme, splitTrivia?_of_isPlain hb]
  simp only [hhash, false_and, if_false, if_neg (not_isDigit_of_startsIdentifier hstarts),
    if_pos hstarts, List.takeWhile_append_of_pos hrest, List.dropWhile_append_of_pos hrest,
    List.takeWhile_cons_of_neg hspace, List.dropWhile_cons_of_neg hspace, List.append_nil]

/-- The name of a temporary is a word and not the name of a built-in. -/
theorem exists_word_temporaryName (site : Nat) (name : Temporary) :
    (Lexeme.word (temporaryName site name)).Firm ∧
      Builtin.ofSpelling? (temporaryName site name) = none := by
  constructor
  · obtain ⟨rest, hname⟩ := exists_temporaryName_eq site name
    have hword := wordBytes_temporaryName site name
    rw [hname] at hword ⊢
    exact firm_word (by decide) (wordBytes_cons.mp hword).2
  · refine Option.eq_none_iff_forall_ne_some.mpr fun builtin hspelling => ?_
    have htake := congrArg (List.take 3) (ofSpelling?_eq_some.mp hspelling)
    have hnames : (temporaryName site name).take 3 = ofString "__c" := by
      rw [temporaryName_eq]
      cases name <;> rfl
    have hbuiltins : builtin.spelling.take 3 = ofString "__s" := by
      cases builtin with
      | fetchAndOp update | opAndFetch update => cases update <;> decide
      | _ => decide
    rw [hnames, hbuiltins] at htake
    exact absurd htake (by decide)

/-- Self-contained lexemes in parentheses, perhaps with line ends behind them. -/
structure Enclosed (list : List Lexeme) : Prop extends SelfContained list where
  opens : ∃ rest, list = .mark Byte.openParen :: rest
  closes : ∃ front count, list =
    front ++ .mark Byte.closeParen :: List.replicate count (.mark Byte.newline)

/-- The text of an operand with its lexemes. -/
def OperandReads (text : Bytes) : Prop := ∃ list, textOf list = text ∧ Tidy list ∧ AllFirm list

/-- The empty operand has tidy lexemes. -/
theorem operandReads_nil : OperandReads [] :=
  ⟨[], rfl, ⟨trivial, fun _ hlexeme => absurd hlexeme List.not_mem_nil, trivial⟩,
    fun _ hlexeme => absurd hlexeme List.not_mem_nil⟩

/-- The text of repeated bytes. -/
theorem textOf_replicate_mark (count : Nat) (b : UInt8) :
    textOf (List.replicate count (.mark b)) = List.replicate count b := by
  induction count with
  | zero => rfl
  | succ count ih =>
    rw [List.replicate_succ, textOf_cons, ih, List.replicate_succ]
    rfl

/-- Bytes that stand alone are joined to one another. -/
theorem joined_replicate_mark {b : UInt8} (hb : standsAlone b) (count : Nat) (behind : Bytes) :
    Joined behind (List.replicate count (.mark b)) := by
  induction count with
  | zero => trivial
  | succ count ih => exact ⟨standsBefore_mark hb _, ih⟩

/-- The lexemes of an expansion whose operands are tidy. -/
theorem exists_lexemes_program (builtin : Builtin) (site : Nat) {texts : List Bytes}
    (htexts : ∀ text ∈ texts, OperandReads text) :
    ∃ list,
      textOf list = (Expansion.program builtin).text (callOperands texts) (.numbered site) ∧
        SelfContained list := by
  have hpointer : OperandReads (callOperands texts).pointer := by
    cases texts with
    | nil => exact operandReads_nil
    | cons pointer values => exact htexts pointer List.mem_cons_self
  have hname (name : Temporary) : ∃ list, textOf list = temporaryName site name ∧ Tidy list ∧
      AllFirm list ∧ ∀ lexeme ∈ list, Builtin.ofSpelling? lexeme.text = none := by
    obtain ⟨hfirm, hnone⟩ := exists_word_temporaryName site name
    have hjoined : (Lexeme.word (temporaryName site name)).StandsBefore [] :=
      hfirm.standsBefore fun c hc => absurd hc (by simp)
    refine ⟨[.word (temporaryName site name)], by simp [Lexeme.text], ⟨⟨hjoined, trivial⟩, ?_, ?_⟩,
      ?_, ?_⟩
    · simpa using .inl hfirm
    · exact (namesApart_cons_of_nameless hnone).mpr trivial
    · simpa [AllFirm] using hfirm
    · simpa [Lexeme.text] using hnone
  rw [← fill_template]
  refine exists_lexemes_fill (fun place => ?_) (fits_template builtin)
  cases place with
  | pointer =>
    obtain ⟨list, hlist, htidy, hfirm⟩ := hpointer
    exact ⟨list, hlist, htidy, hfirm, fun hplace => by cases hplace⟩
  | pointerType =>
    obtain ⟨list, hlist, htidy, -⟩ := hpointer
    obtain ⟨list', hlist', htidy', hfirm'⟩ := htidy.exists_blank onOneLine_goesByLexeme
    exact ⟨list', by rw [hlist', hlist]; rfl, htidy', hfirm', fun hplace => by cases hplace⟩
  | pointerName =>
    obtain ⟨list, hlist, htidy, hfirm, hnames⟩ := hname .pointer
    exact ⟨list, hlist, htidy, hfirm, fun _ => hnames⟩
  | savedName =>
    obtain ⟨list, hlist, htidy, hfirm, hnames⟩ := hname .saved
    exact ⟨list, hlist, htidy, hfirm, fun _ => hnames⟩
  | value index =>
    have hvalue : OperandReads ((callOperands texts).values[index]?.getD []) := by
      cases hget : (callOperands texts).values[index]? with
      | none => exact operandReads_nil
      | some value => exact htexts value (List.mem_of_mem_tail (List.mem_of_getElem? hget))
    obtain ⟨list, hlist, htidy, hfirm⟩ := hvalue
    exact ⟨list, hlist, htidy, hfirm, fun hplace => by cases hplace⟩

/-- The lexemes of a replacement whose operands are tidy. -/
theorem Rewriting.exists_enclosed (call : Rewriting)
    (htexts : ∀ text ∈ call.texts, OperandReads text) :
    ∃ list, textOf list = call.text ∧ Enclosed list := by
  obtain ⟨list, hlist, hcontained⟩ := exists_lexemes_program call.builtin
    (renderOperands call.site call.operands).2 htexts
  obtain ⟨hhead, hlast⟩ := program_parenthesized call.builtin (callOperands call.texts)
    (.numbered (renderOperands call.site call.operands).2)
  rw [← hlist] at hhead hlast
  obtain ⟨text, htext⟩ := List.head?_eq_some_iff.mp hhead
  obtain ⟨rest, hopens, -⟩ := (hcontained.joined []).exists_mark htext (by decide)
  obtain ⟨front, hcloses⟩ := hcontained.exists_last hlast (by decide) (by decide)
  let count := newlines call.written - newlines (textOf list)
  have hpadding : NamesApart fades
      ([Byte.closeParen] :: (List.replicate count (Lexeme.mark Byte.newline)).map Lexeme.text) := by
    rw [← List.append_nil (_ :: _), namesApart_append_of_nameless]
    · trivial
    · rw [List.map_replicate, List.forall_mem_cons]
      refine ⟨by decide, fun unit hunit => ?_⟩
      rw [List.eq_of_mem_replicate hunit]
      decide
  refine ⟨list ++ List.replicate count (.mark Byte.newline), ?_, ⟨fun behind => ?_, ?_, ?_⟩, ?_, ?_⟩
  · rw [textOf_append, textOf_replicate_mark, call.text_eq, padLines, ← hlist]
  · exact joined_append.mpr ⟨hcontained.joined _, joined_replicate_mark (by decide) count behind⟩
  · intro lexeme hlexeme
    rcases List.mem_append.mp hlexeme with hin | hpad
    · exact hcontained.firm lexeme hin
    · rw [List.eq_of_mem_replicate hpad]
      exact firm_mark (by decide)
  · have happart := hcontained.apart
    rw [hcloses, List.map_append] at happart
    rw [hcloses, List.append_assoc, List.map_append]
    exact happart.of_append.1.append rfl (by decide) hpadding
  · exact ⟨_, by rw [hopens]; rfl⟩
  · exact ⟨front, count, by rw [hcloses, List.append_assoc]; rfl⟩

end PlainSync.Source
