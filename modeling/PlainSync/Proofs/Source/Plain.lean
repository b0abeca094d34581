import PlainSync.Proofs.Source.Blanking
import PlainSync.Proofs.Source.Cut

/-!
# Plain text

Text without line breaks, quotes, hash marks and slashes: no scanner finds a comment, a literal
or a directive in it, and blanking leaves it as it is. What the scanners make of it depends on
what follows only where its last word or number might go on.
-/

namespace PlainSync.Source

open Bytes

/-- A byte that opens no comment, literal or directive and ends no line. -/
def isPlain (b : UInt8) : Bool :=
  !Byte.breaksLine b && b ≠ Byte.doubleQuote && b ≠ Byte.quote && b ≠ Byte.hash && b ≠ Byte.slash

/-- Text of such bytes. -/
def Plain (text : Bytes) : Prop := ∀ b ∈ text, isPlain b

instance (text : Bytes) : Decidable (Plain text) := List.decidableBAll _ text

/-- Texts are plain together if each is. -/
theorem plain_append {front back : Bytes} : Plain (front ++ back) ↔ Plain front ∧ Plain back := by
  simp only [Plain, List.mem_append]
  constructor
  · intro hplain
    exact ⟨fun b hb => hplain b (.inl hb), fun b hb => hplain b (.inr hb)⟩
  · rintro ⟨hfront, hback⟩ b (hb | hb)
    · exact hfront b hb
    · exact hback b hb

/-- A text is plain if each byte is. -/
theorem plain_cons {b : UInt8} {rest : Bytes} : Plain (b :: rest) ↔ isPlain b ∧ Plain rest := by
  simp [Plain]

/-- Every part of a plain text is plain. -/
theorem Plain.mono {part text : Bytes} (hplain : Plain text) (hpart : part <:+: text) :
    Plain part :=
  fun b hb => hplain b (hpart.subset hb)

/-- What a plain byte is not. -/
theorem ne_of_isPlain {b : UInt8} (hb : isPlain b) :
    b ≠ Byte.newline ∧ Byte.breaksLine b = false ∧ b ≠ Byte.doubleQuote ∧ b ≠ Byte.quote ∧
      b ≠ Byte.hash ∧ b ≠ Byte.slash := by
  simp only [isPlain, Bool.and_eq_true, Bool.not_eq_true', decide_eq_true_eq] at hb
  obtain ⟨⟨⟨⟨hline, hdouble⟩, hquote⟩, hhash⟩, hslash⟩ := hb
  refine ⟨?_, hline, hdouble, hquote, hhash, hslash⟩
  rintro rfl
  exact absurd hline (by decide)

/-- A plain text is one line. -/
theorem newlines_of_plain {text : Bytes} (hplain : Plain text) : newlines text = 0 :=
  newlines_eq_zero_of_all (by decide) hplain

/-- No comment or literal begins with a plain byte. -/
theorem splitTrivia?_of_isPlain {b : UInt8} (hb : isPlain b) (rest : Bytes) :
    splitTrivia? (b :: rest) = none := by
  obtain ⟨-, -, hdouble, hquote, -, hslash⟩ := ne_of_isPlain hb
  simp only [splitTrivia?, if_neg hslash, hdouble, hquote, or_self, if_false]

/-- Plain text stands on one line already. -/
theorem onOneLine_of_plain {before text : Bytes} (hplain : Plain text) :
    onOneLine before text = text := by
  fun_induction onOneLine before text with
  | case1 before => rfl
  | case2 before rest unit behind htrivia ih => exact absurd (plain_cons.mp hplain).1 (by decide)
  | case3 before rest htrivia ih => exact absurd (plain_cons.mp hplain).1 (by decide)
  | case4 before b rest hslash hdigit body ih =>
    have hwhole := splitNumberBody_append b rest
    have hbehind := (plain_cons.mp hplain).2
    rw [← hwhole] at hbehind
    rw [List.cons_append, ih (plain_append.mp hbehind).2, hwhole]
  | case5 before b rest hslash hdigit hquote body ih =>
    obtain ⟨-, -, hdouble, hsingle, -⟩ := ne_of_isPlain (plain_cons.mp hplain).1
    exact absurd hquote (not_or.mpr ⟨hdouble, hsingle⟩)
  | case6 before b rest hslash hdigit hquote hescape ih =>
    cases rest with
    | nil => exact absurd hescape.2 (by decide)
    | cons c rest =>
      obtain ⟨-, hc, -⟩ := ne_of_isPlain (plain_cons.mp (plain_cons.mp hplain).2).1
      exact absurd hescape.2 (by simp [hc])
  | case7 before b rest hslash hdigit hquote hescape hbreaks ih =>
    obtain ⟨-, hb, -⟩ := ne_of_isPlain (plain_cons.mp hplain).1
    rw [hb] at hbreaks
    cases hbreaks
  | case8 before b rest hslash hdigit hquote hescape hbreaks ih =>
    rw [ih (plain_cons.mp hplain).2]

/-- Plain text has no line comments. -/
theorem withoutLineComments_of_plain {before text : Bytes} (hplain : Plain text) :
    withoutLineComments before text = text := by
  fun_induction withoutLineComments before text with
  | case1 before => rfl
  | case2 before b rest hcomment ih =>
    obtain ⟨-, -, -, -, -, hslash⟩ := ne_of_isPlain (plain_cons.mp hplain).1
    exact absurd hcomment.1 hslash
  | case3 before b rest hcomment hdigit body ih =>
    have hwhole := splitNumberBody_append b rest
    have hbehind := (plain_cons.mp hplain).2
    rw [← hwhole] at hbehind
    rw [List.cons_append, ih (plain_append.mp hbehind).2, hwhole]
  | case4 before b rest hcomment hnumber unit behind htrivia ih =>
    rw [splitTrivia?_of_isPlain (plain_cons.mp hplain).1] at htrivia
    cases htrivia
  | case5 before b rest hcomment hnumber htrivia ih =>
    rw [ih (plain_cons.mp hplain).2]

/-- The search for a directive goes past plain text. -/
theorem findDirective?_plain_append {text : Bytes} (before tail : Bytes) (span : Nat)
    (hplain : Plain text) :
    findDirective? before (text ++ tail) span =
      (findDirective? (text.reverse ++ before) tail (span - text.length)).map
        (text.length + ·) := by
  induction text generalizing before span with
  | nil => simp
  | cons b rest ih =>
    obtain ⟨hb, hrest⟩ := plain_cons.mp hplain
    obtain ⟨-, -, -, -, hhash, -⟩ := ne_of_isPlain hb
    cases span with
    | zero => simp [findDirective?_zero]
    | succ span =>
      rw [List.cons_append, findDirective?_cons (splitTrivia?_of_isPlain hb _),
        if_neg fun hstart => hhash hstart.1, ih _ _ hrest, Option.map_map, List.length_cons,
        Nat.add_sub_add_right, List.reverse_cons, List.append_assoc, List.singleton_append]
      congr 1
      funext offset
      simp only [Function.comp_apply]
      omega

/-- No directive begins in plain text. -/
theorem findDirective?_of_plain {text : Bytes} (before tail : Bytes) (hplain : Plain text) :
    findDirective? before (text ++ tail) text.length = none := by
  rw [findDirective?_plain_append before tail _ hplain, Nat.sub_self, findDirective?_zero]
  rfl

/-! ## Lexemes of plain text -/

/-- A byte that a word or a number goes on with. -/
def joinsWord (b : UInt8) : Bool := Byte.continuesIdentifier b || b = Byte.dot

/-- A byte that such a byte is not. -/
theorem ne_of_joinsWord {b c : UInt8} (hb : joinsWord b) (hc : joinsWord c = false) : b ≠ c := by
  rintro rfl
  rw [hc] at hb
  cases hb

/-- No digit starts an identifier. -/
theorem not_isDigit_of_startsIdentifier {b : UInt8} (hb : Byte.startsIdentifier b) :
    ¬ Byte.isDigit b := by
  simp only [Byte.startsIdentifier, Byte.isLetter, Byte.isDigit, Bool.or_eq_true,
    Bool.and_eq_true, decide_eq_true_eq, UInt8.le_iff_toNat_le] at hb ⊢
  rcases hb with rfl | ⟨hlow, -⟩ | ⟨hlow, -⟩
  · decide
  · intro hdigit
    have hbound := Nat.le_trans hlow hdigit.2
    exact absurd hbound (by decide)
  · intro hdigit
    have hbound := Nat.le_trans hlow hdigit.2
    exact absurd hbound (by decide)

/-- What starts an identifier continues one. -/
theorem continuesIdentifier_of_startsIdentifier {b : UInt8} (hstarts : Byte.startsIdentifier b) :
    Byte.continuesIdentifier b := by
  simp only [Byte.startsIdentifier, Bool.or_eq_true, decide_eq_true_eq] at hstarts
  rcases hstarts with hunderscore | hletter
  · simp [Byte.continuesIdentifier, hunderscore]
  · simp [Byte.continuesIdentifier, Byte.isAlphanumeric, hletter]

/-- Digits continue identifiers. -/
theorem continuesIdentifier_of_isDigit {b : UInt8} (hdigit : Byte.isDigit b) :
    Byte.continuesIdentifier b := by
  simp [Byte.continuesIdentifier, Byte.isAlphanumeric, hdigit]

/-- What starts an identifier joins words. -/
theorem joinsWord_of_startsIdentifier {b : UInt8} (hstarts : Byte.startsIdentifier b) :
    joinsWord b := by
  simp [joinsWord, continuesIdentifier_of_startsIdentifier hstarts]

/-- Bytes of words are plain. -/
theorem plain_of_joinsWord {text : Bytes} (htext : ∀ b ∈ text, joinsWord b) : Plain text := by
  intro b hb
  have hne {c : UInt8} (hc : joinsWord c = false) : b ≠ c := ne_of_joinsWord (htext b hb) hc
  simp [isPlain, Byte.breaksLine, hne (c := Byte.newline) (by decide),
    hne (c := Byte.carriageReturn) (by decide), hne (c := Byte.doubleQuote) (by decide),
    hne (c := Byte.quote) (by decide), hne (c := Byte.hash) (by decide),
    hne (c := Byte.slash) (by decide)]

/-- Digits join words. -/
theorem joinsWord_of_isDigit {b : UInt8} (hdigit : Byte.isDigit b) : joinsWord b := by
  simp [joinsWord, Byte.continuesIdentifier, Byte.isAlphanumeric, hdigit]

/-- Digits are plain. -/
theorem isPlain_of_isDigit {b : UInt8} (hdigit : Byte.isDigit b) : isPlain b := by
  have hjoins : ∀ c ∈ [b], joinsWord c := by simp [joinsWord_of_isDigit hdigit]
  exact plain_of_joinsWord hjoins b List.mem_cons_self

/-- The name of a built-in is an identifier. -/
theorem spelling_shape (builtin : Builtin) :
    ∃ b rest, builtin.spelling = b :: rest ∧ Byte.startsIdentifier b ∧
      ∀ c ∈ rest, Byte.continuesIdentifier c := by
  have hshape : builtin.spelling = Byte.underscore :: builtin.spelling.tail ∧
      builtin.spelling.tail.all Byte.continuesIdentifier := by
    cases builtin with
    | fetchAndOp update | opAndFetch update => cases update <;> decide
    | _ => decide
  exact ⟨_, _, hshape.1, by decide, List.all_eq_true.mp hshape.2⟩

/-- Names of built-ins are words. -/
theorem joinsWord_of_mem_spelling {builtin : Builtin} :
    ∀ b ∈ builtin.spelling, joinsWord b := by
  obtain ⟨b, rest, hspelling, hstarts, hrest⟩ := spelling_shape builtin
  rw [hspelling]
  intro c hc
  rcases List.mem_cons.mp hc with rfl | hmore
  · exact joinsWord_of_startsIdentifier hstarts
  · simp [joinsWord, hrest c hmore]

/-- The last word or number of a text is over, whatever follows. -/
def EndsApart (text : Bytes) : Prop := ∀ b ∈ text.getLast?, joinsWord b = false

instance (text : Bytes) : Decidable (EndsApart text) := Option.decidableForallMem text.getLast?

/-- A number that ends in a plain text ends there whatever follows it. -/
theorem splitNumberBody_plain_append {previous : UInt8} {rest : Bytes} (tail : Bytes)
    (hplain : Plain rest) (hstop : (splitNumberBody previous rest).2 ≠ []) :
    splitNumberBody previous (rest ++ tail) =
      ((splitNumberBody previous rest).1, (splitNumberBody previous rest).2 ++ tail) := by
  induction rest generalizing previous with
  | nil => exact absurd rfl hstop
  | cons b rest ih =>
    obtain ⟨hb, hrest⟩ := plain_cons.mp hplain
    obtain ⟨-, -, -, hquote, -⟩ := ne_of_isPlain hb
    simp only [List.cons_append, splitNumberBody, hquote, false_and, or_false] at hstop ⊢
    by_cases hword : Byte.continuesIdentifier b ∨ b = Byte.dot
    · simp only [if_pos hword] at hstop ⊢
      rw [ih hrest hstop]
    · simp only [if_neg hword, List.cons_append]

/-- A number without separators is a word. -/
theorem joinsWord_of_mem_splitNumberBody {previous : UInt8} {rest : Bytes}
    (hquote : Byte.quote ∉ (splitNumberBody previous rest).1) :
    ∀ b ∈ (splitNumberBody previous rest).1, joinsWord b := by
  fun_induction splitNumberBody previous rest with
  | case1 previous => exact fun b hb => absurd hb List.not_mem_nil
  | case2 previous b rest hnumber body behind hsplit ih =>
    simp only [hsplit] at ih
    simp only [List.mem_cons, not_or] at hquote
    intro c hc
    rcases List.mem_cons.mp hc with rfl | hmore
    · rcases hnumber with hword | hdot | ⟨hsame, -⟩
      · simp [joinsWord, hword]
      · simp [joinsWord, hdot]
      · exact absurd hsame.symm hquote.1
    · exact ih hquote.2 c hmore
  | case3 => exact fun b hb => absurd hb List.not_mem_nil

/-- A number without digit separators. -/
theorem joinsWord_of_mem_number {b : UInt8} {rest : Bytes} (hdigit : Byte.isDigit b)
    (hquote : Byte.quote ∉ (splitNumberBody b rest).1) :
    ∀ c ∈ b :: (splitNumberBody b rest).1, joinsWord c := by
  intro c hc
  rcases List.mem_cons.mp hc with rfl | hmore
  · simp [joinsWord, Byte.continuesIdentifier, Byte.isAlphanumeric, hdigit]
  · exact joinsWord_of_mem_splitNumberBody hquote c hmore

/-- An identifier is a word. -/
theorem joinsWord_of_mem_word {b : UInt8} {rest : Bytes} (hstarts : Byte.startsIdentifier b) :
    ∀ c ∈ b :: rest.takeWhile Byte.continuesIdentifier, joinsWord c := by
  intro c hc
  rcases List.mem_cons.mp hc with rfl | hmore
  · exact joinsWord_of_startsIdentifier hstarts
  · simp [joinsWord, List.all_eq_true.mp List.all_takeWhile c hmore]

/-- Bytes of a kind that end in a text end there whatever follows it. -/
theorem takeWhile_append_of_stop {p : UInt8 → Bool} {rest : Bytes} (tail : Bytes)
    (hstop : rest.dropWhile p ≠ []) :
    (rest ++ tail).takeWhile p = rest.takeWhile p ∧
      (rest ++ tail).dropWhile p = rest.dropWhile p ++ tail := by
  induction rest with
  | nil => exact absurd rfl hstop
  | cons b rest ih =>
    by_cases hb : p b
    · rw [List.dropWhile_cons_of_pos hb] at hstop
      obtain ⟨htake, hdrop⟩ := ih hstop
      simp only [List.cons_append, List.takeWhile_cons_of_pos hb, List.dropWhile_cons_of_pos hb,
        htake, hdrop, and_self]
    · simp only [List.cons_append, List.takeWhile_cons_of_neg hb,
        List.dropWhile_cons_of_neg hb, and_self]

/-- A text that is all one word or number does not end apart. -/
theorem not_endsApart {b : UInt8} {rest : Bytes} (htext : ∀ c ∈ b :: rest, joinsWord c) :
    ¬ EndsApart (b :: rest) := by
  intro hapart
  have hlast := hapart ((b :: rest).getLast (by simp)) (by simp [List.getLast?_eq_some_getLast])
  rw [htext _ (List.getLast_mem _)] at hlast
  cases hlast

/-- The first lexeme of a plain text is the first lexeme of a longer text, too, if it does not
go on there. -/
theorem nextLexeme_plain_append {before rest tail behind : Bytes} {b : UInt8} {lexeme : Lexeme}
    (hplain : Plain (b :: rest)) (hapart : EndsApart (b :: rest))
    (hnext : nextLexeme before b rest = (lexeme, behind)) :
    nextLexeme before b (rest ++ tail) = (lexeme, behind ++ tail) := by
  obtain ⟨hb, hrest⟩ := plain_cons.mp hplain
  obtain ⟨-, -, -, -, hhash, -⟩ := ne_of_isPlain hb
  unfold nextLexeme at hnext ⊢
  rw [splitTrivia?_of_isPlain hb] at hnext ⊢
  simp only [hhash, false_and, if_false] at hnext ⊢
  by_cases hdigit : Byte.isDigit b
  · simp only [if_pos hdigit] at hnext ⊢
    have hstop : (splitNumberBody b rest).2 ≠ [] := by
      intro hall
      have hwhole := splitNumberBody_append b rest
      rw [hall, List.append_nil] at hwhole
      have hquote : Byte.quote ∉ (splitNumberBody b rest).1 := by
        rw [hwhole]
        exact fun hmem => absurd (hrest _ hmem) (by decide)
      have hnumber := joinsWord_of_mem_number hdigit hquote
      rw [hwhole] at hnumber
      exact not_endsApart hnumber hapart
    rw [Prod.mk.injEq] at hnext
    rw [splitNumberBody_plain_append tail hrest hstop, ← hnext.1, ← hnext.2]
  · simp only [if_neg hdigit] at hnext ⊢
    by_cases hstarts : Byte.startsIdentifier b
    · simp only [if_pos hstarts] at hnext ⊢
      have hstop : rest.dropWhile Byte.continuesIdentifier ≠ [] := by
        intro hall
        have hwhole := List.takeWhile_append_dropWhile (p := Byte.continuesIdentifier) (l := rest)
        rw [hall, List.append_nil] at hwhole
        have hword : ∀ c ∈ b :: rest.takeWhile Byte.continuesIdentifier, joinsWord c :=
          joinsWord_of_mem_word hstarts
        rw [hwhole] at hword
        exact not_endsApart hword hapart
      obtain ⟨htake, hdrop⟩ := takeWhile_append_of_stop tail hstop
      rw [Prod.mk.injEq] at hnext
      rw [htake, hdrop, ← hnext.1, ← hnext.2]
    · simp only [if_neg hstarts] at hnext ⊢
      rw [Prod.mk.injEq] at hnext
      rw [← hnext.1, ← hnext.2]

/-- Plain text has no hash marks. -/
theorem hashless_of_plain {before text : Bytes} (hplain : Plain text) :
    Hashless (lexemes before text) := by
  induction before, text using lexemes_induction with
  | nil before =>
    rw [lexemes_nil]
    exact fun lexeme hlexeme => absurd hlexeme List.not_mem_nil
  | @cons before b rest lexeme behind hnext ih =>
    rw [lexemes_cons hnext]
    have hb := (plain_cons.mp hplain).1
    obtain ⟨-, -, -, -, hhash, -⟩ := ne_of_isPlain hb
    rw [← append_of_nextLexeme hnext] at hplain
    intro other hother
    rcases List.mem_cons.mp hother with rfl | hmore
    · cases firstLexeme hnext with
      | trivia htrivia =>
        rw [splitTrivia?_of_isPlain hb] at htrivia
        cases htrivia
      | directive htrivia hstart => exact absurd hstart.1 hhash
      | mark => exact ⟨fun hsame => hhash (Lexeme.mark.inj hsame), nofun⟩
      | _ => exact ⟨nofun, nofun⟩
    · exact ih (plain_append.mp hplain).2 other hmore

/-- Text that ends apart does so without its front. -/
theorem EndsApart.of_append {front back : Bytes} (hapart : EndsApart (front ++ back)) :
    EndsApart back := by
  intro b hb
  refine hapart b ?_
  rw [List.getLast?_append, Option.mem_def.mp hb]
  rfl

/-- No word of the text is the name of a built-in. -/
def Callless (list : List Lexeme) : Prop :=
  ∀ builtin : Builtin, Lexeme.word builtin.spelling ∉ list

/-- Every built-in is listed. -/
theorem mem_all (builtin : Builtin) : builtin ∈ Builtin.all := by
  cases builtin with
  | fetchAndOp update | opAndFetch update => cases update <;> decide
  | _ => decide

instance (list : List Lexeme) : Decidable (Callless list) :=
  decidable_of_iff (∀ builtin ∈ Builtin.all, Lexeme.word builtin.spelling ∉ list)
    ⟨fun hall builtin => hall builtin (mem_all builtin), fun hall builtin _ => hall builtin⟩

/-- Plain text without the names of built-ins is copied lexeme by lexeme. -/
theorem outline_plain_append {line : Nat} {before text tail : Bytes} (hplain : Plain text)
    (hcallless : Callless (lexemes before text)) (hapart : tail = [] ∨ EndsApart text) :
    outline line before (text ++ tail) =
      (lexemes before text).map (fun lexeme => Piece.verbatim lexeme.text) ++
        outline line (text.reverse ++ before) tail := by
  induction before, text using lexemes_induction with
  | nil before => rw [lexemes_nil]; rfl
  | @cons before b rest lexeme behind hnext ih =>
    have hwhole := append_of_nextLexeme hnext
    rw [lexemes_cons hnext] at hcallless ⊢
    have hlonger : nextLexeme before b (rest ++ tail) = (lexeme, behind ++ tail) := by
      rcases hapart with rfl | hapart
      · rw [List.append_nil, List.append_nil]
        exact hnext
      · exact nextLexeme_plain_append hplain hapart hnext
    have hopening : opening? lexeme (behind ++ tail) = none := by
      cases hfound : opening? lexeme (behind ++ tail) with
      | none => rfl
      | some opened =>
        obtain ⟨builtin, gap, inner⟩ := opened
        obtain ⟨rfl, -⟩ := opening?_eq_some.mp hfound
        exact absurd List.mem_cons_self (hcallless builtin)
    rw [← hwhole] at hplain hapart
    rw [List.cons_append, outline_copied hlonger hopening,
      newlines_of_plain (plain_append.mp hplain).1, Nat.add_zero,
      ih (plain_append.mp hplain).2
        (fun builtin hmem => hcallless builtin (List.mem_cons_of_mem _ hmem))
        (hapart.imp_right EndsApart.of_append), ← hwhole, List.reverse_append, List.append_assoc]
    rfl

/-! ## Brackets of plain text -/

/-- The number of groups that are open behind a text, if none is closed that is not open and no
comma stands outside all groups. -/
def bracketDepth? (depth : Nat) : Bytes → Option Nat
  | [] => some depth
  | b :: rest =>
    if Byte.opensGroup b then bracketDepth? (depth + 1) rest
    else if Byte.closesGroup b then if depth = 0 then none else bracketDepth? (depth - 1) rest
    else if b = Byte.comma ∧ depth = 0 then none
    else bracketDepth? depth rest

/-- No text in front changes nothing. -/
theorem map_prepend_nil (found : Option ArgumentList) : found.map (·.prepend []) = found := by
  cases found <;> rfl

/-- Texts are put in front one after the other. -/
theorem map_prepend_prepend (front back : Bytes) (found : Option ArgumentList) :
    (found.map (·.prepend back)).map (·.prepend front) =
      found.map (·.prepend (front ++ back)) := by
  cases found <;> simp [ArgumentList.prepend]

/-- Plain text with its brackets in order belongs to one argument. -/
theorem splitArguments?_plain_append {depth depth' : Nat} {text : Bytes} (outer : Nat)
    (tail : Bytes) (hplain : Plain text) (hdepth : bracketDepth? depth text = some depth') :
    splitArguments? (outer + depth) (text ++ tail) =
      (splitArguments? (outer + depth') tail).map (·.prepend text) := by
  induction text generalizing depth with
  | nil =>
    cases hdepth
    exact (map_prepend_nil _).symm
  | cons b rest ih =>
    obtain ⟨hb, hrest⟩ := plain_cons.mp hplain
    have hprepend := map_prepend_prepend [b] rest (splitArguments? (outer + depth') tail)
    rw [List.singleton_append] at hprepend
    rw [List.cons_append, splitArguments?_cons (splitTrivia?_of_isPlain hb _)]
    rw [bracketDepth?] at hdepth
    by_cases hopens : Byte.opensGroup b
    · have hclose : b ≠ Byte.closeParen := by rintro rfl; exact absurd hopens (by decide)
      have hcomma : b ≠ Byte.comma := by rintro rfl; exact absurd hopens (by decide)
      rw [if_pos hopens] at hdepth
      simp only [hclose, hcomma, false_and, if_false, if_pos hopens]
      rw [Nat.add_assoc, ih hrest hdepth, hprepend]
    · rw [if_neg hopens] at hdepth
      by_cases hcloses : Byte.closesGroup b
      · rw [if_pos hcloses] at hdepth
        by_cases hzero : depth = 0
        · rw [if_pos hzero] at hdepth
          cases hdepth
        · have hcomma : b ≠ Byte.comma := by rintro rfl; exact absurd hcloses (by decide)
          have hsome : outer + depth ≠ 0 := by omega
          rw [if_neg hzero] at hdepth
          simp only [hsome, hcomma, and_false, if_false, if_neg hopens, if_pos hcloses]
          rw [Nat.add_sub_assoc (by omega), ih hrest hdepth, hprepend]
      · rw [if_neg hcloses] at hdepth
        have hclose : b ≠ Byte.closeParen := by rintro rfl; exact hcloses (by decide)
        by_cases hcomma : b = Byte.comma ∧ depth = 0
        · rw [if_pos hcomma] at hdepth
          cases hdepth
        · have hinner : ¬ (b = Byte.comma ∧ outer + depth = 0) := by
            rintro ⟨hb, hzero⟩
            exact hcomma ⟨hb, by omega⟩
          rw [if_neg hcomma] at hdepth
          simp only [hclose, false_and, if_false, if_neg hinner, if_neg hopens, if_neg hcloses]
          rw [ih hrest hdepth, hprepend]

/-- A word opens and closes no bracket. -/
theorem bracketDepth?_of_joinsWord {depth : Nat} {text : Bytes}
    (htext : ∀ b ∈ text, joinsWord b) : bracketDepth? depth text = some depth := by
  induction text with
  | nil => rfl
  | cons b rest ih =>
    have hne {c : UInt8} (hc : joinsWord c = false) : b ≠ c :=
      ne_of_joinsWord (htext b (by simp)) hc
    have hopens : Byte.opensGroup b = false := by
      simp [Byte.opensGroup, hne (c := Byte.openParen) (by decide),
        hne (c := Byte.openBracket) (by decide), hne (c := Byte.openBrace) (by decide)]
    have hcloses : Byte.closesGroup b = false := by
      simp [Byte.closesGroup, hne (c := Byte.closeParen) (by decide),
        hne (c := Byte.closeBracket) (by decide), hne (c := Byte.closeBrace) (by decide)]
    simp only [bracketDepth?, hopens, hcloses, hne (c := Byte.comma) (by decide), false_and,
      if_false, Bool.false_eq_true]
    exact ih fun c hc => htext c (by simp [hc])

end PlainSync.Source
