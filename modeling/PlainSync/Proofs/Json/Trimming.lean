import PlainSync.Json.Reader
import PlainSync.Proofs.Json.Spelling
import PlainSync.Text.Blank

/-!
# Blanks around a text

A reader of a token looks at what it takes and at the next character, and what it takes ends in no
blank. So a text that spells a value spells it without the blanks at its ends, too: these are the
blanks of the grammar, since any other one would begin no token.
-/

namespace PlainSync.Json

/-! ## Readers that look one character ahead -/

/-- A text is empty or begins as another one does. -/
def BeginsAs (other text : List Char) : Prop := ∀ c ∈ other.head?, text.head? = some c

/-- Texts that begin alike do so behind the same characters. -/
theorem BeginsAs.append {other text : List Char} (h : BeginsAs other text) (taken : List Char) :
    BeginsAs (taken ++ other) (taken ++ text) := by
  cases taken with
  | nil => exact h
  | cons c more => exact fun _ hfirst => hfirst

/-- A text that begins as another does not begin with what that one does not. -/
theorem BeginsAs.head?_ne {other text : List Char} (h : BeginsAs other text) {c : Char}
    (hc : text.head? ≠ some c) : other.head? ≠ some c :=
  fun hother => hc (h c hother)

/-- What a reader takes off a text ends in no blank, and it takes the same off every text in which
what stands behind it is exchanged for nothing or for what begins alike. -/
def LooksAheadAt {α : Type} (read : List Char → Option (α × List Char)) (text : List Char) :
    Prop :=
  ∀ value behind, read text = some (value, behind) →
    ∃ taken, text = taken ++ behind ∧ (∀ c ∈ taken.getLast?, isBlankChar c = false) ∧
      ∀ other, BeginsAs other behind → read (taken ++ other) = some (value, other)

/-- A reader looks at what it takes and at the next character only. -/
def LooksAhead {α : Type} (read : List Char → Option (α × List Char)) : Prop :=
  ∀ text, LooksAheadAt read text

section Readers

variable {α β : Type} {read : List Char → Option (α × List Char)}

/-- What reads nothing looks no further than its text. -/
theorem looksAhead_pure (value : α) : LooksAhead fun text => some (value, text) := by
  rintro text value behind ⟨⟩
  exact ⟨[], rfl, nofun, fun _ _ => rfl⟩

/-- One reader behind another one. -/
theorem LooksAhead.bind {next : α → List Char → Option (β × List Char)} (hread : LooksAhead read)
    (hnext : ∀ value, LooksAhead (next value)) :
    LooksAhead fun text => (read text).bind fun found => next found.1 found.2 := by
  intro text value behind hfound
  obtain ⟨⟨first, middle⟩, hfirst, hsecond⟩ := Option.bind_eq_some_iff.mp hfound
  obtain ⟨taken, rfl, htaken, hreads⟩ := hread text first middle hfirst
  obtain ⟨more, rfl, hmore, hreadsMore⟩ := hnext first middle value behind hsecond
  refine ⟨taken ++ more, (List.append_assoc ..).symm, ?_, ?_⟩
  · intro c hlast
    rw [List.getLast?_append] at hlast
    cases hend : more.getLast? with
    | none => exact htaken c (by rwa [hend, Option.none_or] at hlast)
    | some last => exact hmore c (by rwa [hend, Option.some_or, ← hend] at hlast)
  · intro other hother
    have hmiddle := hreads (more ++ other) (hother.append more)
    simp only [List.append_assoc, hmiddle, Option.bind_some, hreadsMore other hother]

/-- What is made of what is read does not matter. -/
theorem LooksAhead.map (hread : LooksAhead read) (f : α → β) :
    LooksAhead fun text => (read text).map fun found => (f found.1, found.2) := by
  have hbind := hread.bind fun value => looksAhead_pure (f value)
  intro text value behind hfound
  simp only [Option.map_eq_bind] at hfound ⊢
  exact hbind text value behind hfound

/-- What is kept of what is read does not matter. -/
theorem LooksAhead.filter (hread : LooksAhead read) (p : α → Bool) :
    LooksAhead fun text => (read text).filter fun found => p found.1 := by
  intro text value behind hfound
  obtain ⟨hfirst, hp⟩ := Option.filter_eq_some_iff.mp hfound
  obtain ⟨taken, htext, htaken, hreads⟩ := hread text value behind hfirst
  refine ⟨taken, htext, htaken, fun other hother => ?_⟩
  simp only [hreads other hother, Option.filter_some, hp, if_true]

/-- The first character tells how to go on. -/
theorem LooksAheadAt.congr {read' : List Char → Option (α × List Char)} {text : List Char}
    (hread : LooksAheadAt read text)
    (hsame : ∀ other, BeginsAs other text → read' other = read other) :
    LooksAheadAt read' text := by
  intro value behind hfound
  rw [hsame text fun _ hfirst => hfirst] at hfound
  obtain ⟨taken, rfl, htaken, hreads⟩ := hread value behind hfound
  refine ⟨taken, rfl, htaken, fun other hother => ?_⟩
  rw [hsame _ (hother.append taken), hreads other hother]

/-- Behind a first character that is no blank the reading goes on. -/
theorem LooksAheadAt.cons {read' : List Char → Option (α × List Char)} {c : Char}
    {rest : List Char} (hread : LooksAheadAt read rest) (hc : isBlankChar c = false)
    (hsame : ∀ rest, read' (c :: rest) = read rest) : LooksAheadAt read' (c :: rest) := by
  intro value behind hfound
  rw [hsame] at hfound
  obtain ⟨taken, rfl, htaken, hreads⟩ := hread value behind hfound
  refine ⟨c :: taken, rfl, ?_, fun other hother => ?_⟩
  · intro last hlast
    cases hend : taken.getLast? with
    | none =>
      rw [List.getLast?_cons, hend] at hlast
      cases hlast
      exact hc
    | some end' =>
      rw [List.getLast?_cons, hend] at hlast
      cases hlast
      exact htaken end' hend
  · rw [List.cons_append, hsame, hreads other hother]

/-- The reading goes on behind a certain first character that is no blank, or there is another
one. -/
theorem LooksAheadAt.of_head? {read' : List Char → Option (α × List Char)} {text : List Char}
    (c : Char) (hc : isBlankChar c = false) (hread : LooksAhead read)
    (hsame : ∀ rest, read' (c :: rest) = read rest)
    (hother : text.head? ≠ some c → LooksAheadAt read' text) : LooksAheadAt read' text := by
  by_cases hfirst : text.head? = some c
  · obtain ⟨rest, rfl⟩ := List.head?_eq_some_iff.mp hfirst
    exact (hread rest).cons hc hsame
  · exact hother hfirst

end Readers

/-! ## Numbers -/

/-- No digit is a blank. -/
theorem isBlankChar_of_isDigit {c : Char} (hc : c.isDigit = true) : isBlankChar c = false := by
  have hrange : 48 ≤ c.toNat ∧ c.toNat ≤ 57 := Char.isDigit_iff_toNat.mp hc
  simp only [isBlankChar, blankCodePoints, List.contains_eq_mem, decide_eq_false_iff_not,
    List.mem_cons, List.not_mem_nil, or_false]
  omega

/-- Digits are read alike in front of texts that begin alike. -/
theorem looksAhead_readSomeDigits? : LooksAhead readSomeDigits? := by
  intro text digits behind hread
  unfold readSomeDigits? at hread
  split at hread
  · cases hread
  · next hnonempty =>
    cases hread
    have hall : ∀ c ∈ text.takeWhile Char.isDigit, c.isDigit = true :=
      List.all_eq_true.mp List.all_takeWhile
    refine ⟨text.takeWhile Char.isDigit, List.takeWhile_append_dropWhile.symm, ?_, ?_⟩
    · exact fun c hlast => isBlankChar_of_isDigit (hall c (List.mem_of_getLast? hlast))
    · intro other hother
      have hstop : NoDigit other := by
        intro c hfirst
        have hbehind := List.head?_dropWhile_not Char.isDigit text
        rw [hother c hfirst] at hbehind
        exact hbehind
      obtain ⟨htake, hdrop⟩ := dropWhile_of_noDigit hstop
      have hdigits : readDigits (text.takeWhile Char.isDigit ++ other) =
          ((readDigits text).1, other) := by
        unfold readDigits
        rw [List.takeWhile_append_of_pos hall, List.dropWhile_append_of_pos hall, htake, hdrop,
          List.append_nil]
      unfold readSomeDigits?
      rw [hdigits, if_neg hnonempty]
      rfl

/-- The whole part of a numeral is read alike in front of texts that begin alike. -/
theorem looksAhead_readWhole? : LooksAhead readWhole? :=
  looksAhead_readSomeDigits?.filter fun digits => digits.head? ≠ some 0 || digits.length = 1

/-- A sign is read alike in front of texts that begin alike. -/
theorem looksAhead_readMinus : LooksAhead fun text => some (readMinus text) := by
  intro text
  refine .of_head? '-' (by decide) (looksAhead_pure true) (fun _ => rfl) fun hminus => ?_
  refine (looksAhead_pure false text).congr fun other hother => ?_
  have hother := hother.head?_ne hminus
  unfold readMinus
  split
  · exact absurd rfl hother
  · rfl

/-- A fraction is read alike in front of texts that begin alike. -/
theorem looksAhead_readFraction? : LooksAhead readFraction? := by
  intro text
  refine .of_head? '.' (by decide) (looksAhead_readSomeDigits?.map some) (fun _ => rfl)
    fun hpoint => ?_
  refine (looksAhead_pure none text).congr fun other hother => ?_
  have hother := hother.head?_ne hpoint
  unfold readFraction?
  split
  · exact absurd rfl hother
  · rfl

/-- The digits of an exponent are read alike in front of texts that begin alike. -/
theorem looksAhead_readPower? : LooksAhead readPower? := by
  have hdigits (f : List Nat → Int) := looksAhead_readSomeDigits?.map f
  intro text
  refine .of_head? '+' (by decide) (hdigits fun digits => digitsValue digits) (fun _ => rfl)
    fun hplus => ?_
  refine .of_head? '-' (by decide) (hdigits fun digits => -digitsValue digits) (fun _ => rfl)
    fun hminus => ?_
  refine (hdigits (fun digits => digitsValue digits) text).congr fun other hother => ?_
  have hnotPlus := hother.head?_ne hplus
  have hnotMinus := hother.head?_ne hminus
  unfold readPower?
  split
  · exact absurd rfl hnotPlus
  · exact absurd rfl hnotMinus
  · rfl

/-- An exponent is read alike in front of texts that begin alike. -/
theorem looksAhead_readExponent? : LooksAhead readExponent? := by
  have hpower := looksAhead_readPower?.map some
  intro text
  refine .of_head? 'e' (by decide) hpower (fun _ => rfl) fun hsmall => ?_
  refine .of_head? 'E' (by decide) hpower (fun _ => rfl) fun hlarge => ?_
  refine (looksAhead_pure none text).congr fun other hother => ?_
  have hnotSmall := hother.head?_ne hsmall
  have hnotLarge := hother.head?_ne hlarge
  unfold readExponent?
  split
  · exact absurd rfl hnotSmall
  · exact absurd rfl hnotLarge
  · rfl

/-- A numeral is read alike in front of texts that begin alike. -/
theorem looksAhead_readNumeral? : LooksAhead readNumeral? := by
  have hparts := looksAhead_readMinus.bind fun negative => looksAhead_readWhole?.bind fun whole =>
    looksAhead_readFraction?.bind fun fraction => looksAhead_readExponent?.bind fun exponent =>
      looksAhead_pure (Numeral.mk negative whole fraction exponent)
  exact hparts

/-! ## Strings and words -/

/-- What a reader of strings takes up to the closing quote, whatever stands behind that. -/
def ReadsTo (text chars behind : List Char) : Prop :=
  ∃ taken, text = taken ++ '"' :: behind ∧
    ∀ other, readString? (taken ++ '"' :: other) = some (chars, other)

/-- A string is read to its end behind one more character. -/
theorem ReadsTo.append {c : Char} (front : List Char) {rest : List Char}
    (hfront : ∀ rest, readString? (front ++ rest) = consRead c (readString? rest))
    (hrest : ∀ {chars behind}, readString? rest = some (chars, behind) → ReadsTo rest chars behind)
    {chars behind : List Char} (hread : consRead c (readString? rest) = some (chars, behind)) :
    ReadsTo (front ++ rest) chars behind := by
  obtain ⟨⟨more, stop⟩, hmore, hpair⟩ := Option.map_eq_some_iff.mp hread
  cases hpair
  obtain ⟨taken, rfl, hreads⟩ := hrest hmore
  refine ⟨front ++ taken, (List.append_assoc ..).symm, fun other => ?_⟩
  rw [List.append_assoc, hfront, hreads]
  rfl

/-- A string is read to its end whatever stands behind it. -/
theorem readsTo_of_readString? {text chars behind : List Char}
    (hread : readString? text = some (chars, behind)) : ReadsTo text chars behind := by
  fun_induction readString? text generalizing chars behind with
  | case1 => cases hread
  | case2 rest =>
    cases hread
    exact ⟨[], rfl, fun _ => rfl⟩
  | case3 => cases hread
  | case4 => cases hread
  | case5 a b c d unit hunit hleading e f g h rest trailing htrailing hhalf ih =>
    refine ReadsTo.append ['\\', 'u', a, b, c, d, '\\', 'u', e, f, g, h]
      (fun rest => ?_) ih hread
    simp [readString?, hunit, hleading, htrailing, hhalf]
  | case6 => cases hread
  | case7 => cases hread
  | case8 => cases hread
  | case9 a b c d rest unit hunit hleading htrailing ih =>
    refine ReadsTo.append ['\\', 'u', a, b, c, d] (fun rest => ?_) ih hread
    simp [readString?, hunit, hleading, htrailing]
  | case10 => cases hread
  | case11 c rest hnotUnit c' hescaped ih =>
    refine ReadsTo.append ['\\', c] (fun rest => ?_) ih hread
    have hletter : c ≠ 'u' := by
      rintro rfl
      cases hescaped
    simp [readString?, hletter, hescaped]
  | case12 => cases hread
  | case13 c rest hquote hunit hescape hplain ih =>
    refine ReadsTo.append [c] (fun rest => ?_) ih hread
    obtain ⟨hbackslash, hcontrol⟩ := not_or.mp hplain
    simp [readString?, hbackslash, hcontrol]

/-- A string is read alike in front of texts that begin alike. -/
theorem looksAhead_string :
    LooksAhead fun text => (readString? text).map fun (chars, behind) =>
      (Token.string (String.ofList chars), behind) := by
  intro text value behind hread
  obtain ⟨⟨chars, stop⟩, hstring, hpair⟩ := Option.map_eq_some_iff.mp hread
  cases hpair
  obtain ⟨taken, rfl, hreads⟩ := readsTo_of_readString? hstring
  refine ⟨taken ++ ['"'], by rw [List.append_assoc, List.singleton_append], ?_, ?_⟩
  · intro c hlast
    rw [List.getLast?_concat] at hlast
    cases hlast
    decide
  · intro other _
    simp only [List.append_assoc, List.singleton_append, hreads, Option.map_some]

/-- A word is read alike in front of texts that begin alike. -/
theorem looksAhead_readWord? {letters : List Char}
    (hletters : ∀ c ∈ letters.getLast?, isBlankChar c = false) (token : Token) :
    LooksAhead (readWord? letters token) := by
  intro text value behind hread
  unfold readWord? at hread
  split at hread
  · next hword =>
    obtain ⟨rest, rfl⟩ := List.isPrefixOf_iff_prefix.mp hword
    rw [List.drop_left] at hread
    cases hread
    exact ⟨letters, rfl, hletters, fun other _ => readWord?_append letters other token⟩
  · cases hread

/-! ## Tokens -/

/-- The characters that tell of which kind a token is. With any other one begins a number. -/
def tokenChars : List Char := ['\x7b', '\x7d', '[', ']', ':', ',', 'n', 't', 'f', '"']

/-- Every other character can only begin a numeral. -/
theorem readToken?_of_notMem {c : Char} (hc : c ∉ tokenChars) (rest : List Char) :
    readToken? c rest = (readNumeral? (c :: rest)).bind fun found =>
      found.1.token?.bind fun token => some (token, found.2) := by
  unfold readToken?
  split
  iterate 10
    · exact absurd hc (by decide)
  · rfl

/-- What a numeral means does not depend on the text. -/
theorem looksAhead_token? (numeral : Numeral) :
    LooksAhead fun text => numeral.token?.bind fun token => some (token, text) := by
  intro text token behind hfound
  obtain ⟨value, hvalue, hpair⟩ := Option.bind_eq_some_iff.mp hfound
  cases hpair
  refine ⟨[], rfl, nofun, fun other _ => ?_⟩
  simp only [List.nil_append, hvalue, Option.bind_some]

/-- A token is read with one look ahead behind the character that it begins with. -/
theorem looksAhead_readToken? (c : Char) : LooksAhead (readToken? c) := by
  by_cases hc : c ∈ tokenChars
  · simp only [tokenChars, List.mem_cons, List.not_mem_nil, or_false] at hc
    rcases hc with rfl | rfl | rfl | rfl | rfl | rfl | rfl | rfl | rfl | rfl
    · exact looksAhead_pure Token.openBrace
    · exact looksAhead_pure Token.closeBrace
    · exact looksAhead_pure Token.openBracket
    · exact looksAhead_pure Token.closeBracket
    · exact looksAhead_pure Token.colon
    · exact looksAhead_pure Token.comma
    · exact looksAhead_readWord? (by rintro c ⟨⟩; decide) .null
    · exact looksAhead_readWord? (by rintro c ⟨⟩; decide) (.bool true)
    · exact looksAhead_readWord? (by rintro c ⟨⟩; decide) (.bool false)
    · exact looksAhead_string
  · intro rest token behind hread
    have hshorter := length_le_of_readToken? hread
    rw [readToken?_of_notMem hc] at hread
    obtain ⟨taken, htext, htaken, hreads⟩ :=
      looksAhead_readNumeral?.bind looksAhead_token? (c :: rest) token behind hread
    cases taken with
    | nil =>
      rw [List.nil_append] at htext
      rw [← htext, List.length_cons] at hshorter
      omega
    | cons first taken =>
      obtain ⟨rfl, rfl⟩ := List.cons.inj htext
      refine ⟨taken, rfl, fun last hlast => htaken last ?_, fun other hother => ?_⟩
      · rw [List.getLast?_cons, hlast]
        rfl
      · rw [readToken?_of_notMem hc]
        exact hreads other hother

/-- No token begins with a blank. -/
theorem readToken?_of_isBlankChar {c : Char} (hc : isBlankChar c = true) (rest : List Char) :
    readToken? c rest = none := by
  have hchars : ∀ d ∈ tokenChars, isBlankChar d = false := by
    simp only [tokenChars, List.forall_mem_cons, List.not_mem_nil, false_imp_iff, implies_true]
    decide
  have hne {d : Char} (hd : isBlankChar d = false) : c ≠ d := by
    rintro rfl
    exact absurd hc (Bool.eq_false_iff.mp hd)
  have hdigit : ¬ c.isDigit = true := fun hdigit => hne (isBlankChar_of_isDigit hdigit) rfl
  have hminus : readMinus (c :: rest) = (false, c :: rest) := by
    unfold readMinus
    split
    · next hhead => exact absurd (List.cons.inj hhead).1 (hne (by decide))
    · rfl
  have hwhole : readWhole? (c :: rest) = none := by
    unfold readWhole? readSomeDigits? readDigits
    rw [List.takeWhile_cons_of_neg hdigit]
    rfl
  rw [readToken?_of_notMem fun hmem => hne (hchars c hmem) rfl, readNumeral?, hminus, hwhole]
  rfl

/-! ## Texts -/

section Texts

variable {text front back : List Char}

/-- Where no token can be read the tokens end with a bad one. -/
theorem tokens_of_readToken?_eq_none {c : Char} {rest : List Char} (hc : isBlank c = false)
    (hread : readToken? c rest = none) : tokens (c :: rest) = [.bad] := by
  rw [tokens, if_neg (Bool.eq_false_iff.mp hc)]
  split
  · rfl
  · next hsome =>
    rw [hread] at hsome
    cases hsome

/-- Blanks in front of a text begin no token of it. -/
theorem tokens_append_of_front (hfront : ∀ c ∈ front, isBlankChar c = true)
    (hgood : .bad ∉ tokens (front ++ text)) : tokens (front ++ text) = tokens text := by
  induction front with
  | nil => rfl
  | cons c more ih =>
    obtain ⟨hc, hmore⟩ := List.forall_mem_cons.mp hfront
    rw [List.cons_append] at hgood ⊢
    cases hblank : isBlank c with
    | true =>
      rw [tokens_blank hblank] at hgood ⊢
      exact ih hmore hgood
    | false =>
      rw [tokens_of_readToken?_eq_none hblank (readToken?_of_isBlankChar hc _)] at hgood
      exact absurd List.mem_cons_self hgood

/-- What a token takes off a text with blanks at its end, it takes off the text. -/
theorem readToken?_append_of_back (hback : ∀ c ∈ back, isBlankChar c = true) {c : Char}
    {token : Token} {behind : List Char}
    (hread : readToken? c (text ++ back) = some (token, behind)) :
    ∃ rest, behind = rest ++ back ∧ readToken? c text = some (token, rest) := by
  obtain ⟨taken, htext, htaken, hreads⟩ := looksAhead_readToken? c _ token behind hread
  rcases List.append_eq_append_iff.mp htext with ⟨more, rfl, hmore⟩ | ⟨rest, rfl, rfl⟩
  · cases hend : more.getLast? with
    | none =>
      rw [List.getLast?_eq_none_iff.mp hend, List.nil_append] at hmore
      rw [List.getLast?_eq_none_iff.mp hend, List.append_nil] at hreads
      refine ⟨[], hmore.symm, ?_⟩
      have hnothing := hreads [] nofun
      rwa [List.append_nil] at hnothing
    | some last =>
      have hlast := htaken last (by rw [List.getLast?_append, hend, Option.some_or]; rfl)
      have hmem : last ∈ back :=
        hmore ▸ List.mem_append_left behind (List.mem_of_getLast? hend)
      rw [hback last hmem] at hlast
      cases hlast
  · refine ⟨rest, rfl, hreads rest fun first hfirst => ?_⟩
    rw [List.head?_append, Option.mem_def.mp hfirst, Option.some_or]

/-- Blanks at the end of a text carry no token of it on. -/
theorem tokens_append_of_back (text : List Char) (hback : ∀ c ∈ back, isBlankChar c = true)
    (hgood : .bad ∉ tokens (text ++ back)) : tokens (text ++ back) = tokens text := by
  match text with
  | [] =>
    have hnothing : .bad ∉ tokens (back ++ []) → tokens (back ++ []) = tokens [] :=
      tokens_append_of_front hback
    rw [List.append_nil] at hnothing
    exact hnothing hgood
  | c :: rest =>
    rw [List.cons_append] at hgood ⊢
    cases hblank : isBlank c with
    | true =>
      rw [tokens_blank hblank] at hgood
      rw [tokens_blank hblank, tokens_blank hblank, tokens_append_of_back rest hback hgood]
    | false =>
      cases hread : readToken? c (rest ++ back) with
      | none =>
        rw [tokens_of_readToken?_eq_none hblank hread] at hgood
        exact absurd List.mem_cons_self hgood
      | some found =>
        obtain ⟨token, behind⟩ := found
        obtain ⟨more, rfl, hmore⟩ := readToken?_append_of_back hback hread
        have hshorter := length_le_of_readToken? hmore
        rw [tokens_cons hblank hread] at hgood
        rw [tokens_cons hblank hread, tokens_cons hblank hmore,
          tokens_append_of_back more hback fun hbad => hgood (List.mem_cons_of_mem token hbad)]
termination_by text.length

end Texts

namespace ReadState

/-- No value goes on with a bad token. -/
theorem step_bad (state : ReadState) : state.step .bad = none := by
  cases state with
  | behind frames value =>
    cases frames with
    | nil => rfl
    | cons frame more => cases frame <;> rfl
  | _ => rfl

/-- Nothing is read from tokens one of which is bad. -/
theorem run_of_bad {list : List Token} (hbad : .bad ∈ list) (state : ReadState) :
    state.run list = none := by
  induction list generalizing state with
  | nil => cases hbad
  | cons token more ih =>
    rw [run]
    rcases List.mem_cons.mp hbad with rfl | hmore
    · rw [step_bad, Option.bind_none]
    · rw [Option.bind_eq_none_iff]
      exact fun next _ => ih hmore next

end ReadState

/-- A text is what is left of it between blanks. -/
theorem exists_trimBlanks (text : List Char) :
    ∃ front back, text = front ++ trimBlanks text ++ back ∧
      (∀ c ∈ front, isBlankChar c = true) ∧ ∀ c ∈ back, isBlankChar c = true := by
  refine ⟨text.takeWhile isBlankChar,
    ((text.dropWhile isBlankChar).reverse.takeWhile isBlankChar).reverse, ?_,
    List.all_eq_true.mp List.all_takeWhile, fun c hc => ?_⟩
  · rw [List.append_assoc, trimBlanks, ← List.reverse_append, List.takeWhile_append_dropWhile,
      List.reverse_reverse, List.takeWhile_append_dropWhile]
  · exact List.all_eq_true.mp List.all_takeWhile c (List.mem_reverse.mp hc)

/-- A text that spells a value spells it without the blanks around it. -/
theorem parse?_trimString {s : String} {value : Json} (hvalue : parse? s = some value) :
    parse? (trimString s) = some value := by
  obtain ⟨front, back, htext, hfront, hback⟩ := exists_trimBlanks s.toList
  unfold parse? ofChars? at hvalue ⊢
  rw [trimString, String.toList_ofList]
  have hgood : .bad ∉ tokens s.toList := by
    intro hbad
    rw [ofTokens?, ReadState.run_of_bad hbad, Option.bind_none] at hvalue
    cases hvalue
  rw [htext, List.append_assoc] at hgood
  have hwhole := tokens_append_of_front hfront hgood
  rw [hwhole] at hgood
  rw [← tokens_append_of_back _ hback hgood, ← hwhole, ← List.append_assoc, ← htext, hvalue]

end PlainSync.Json
