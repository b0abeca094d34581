import PlainSync.Proofs.Json.Numerals

/-!
# How JSON is spelled

The grammar of texts as a relation between tokens and the characters that may spell them: blanks
between tokens, characters of a string plain or escaped in any of the ways that there are, and
numbers in decimal. The tokens of a text of the grammar are the ones that it spells.
-/

namespace PlainSync.Json

/-! ## Strings -/

/-- The letters behind a backslash, with the characters they stand for. -/
def letterEscapes : List (Char × Char) :=
  [('"', '"'), ('\\', '\\'), ('/', '/'), ('b', '\x08'), ('f', '\x0c'), ('n', '\n'), ('r', '\r'),
    ('t', '\t')]

/-- The hexadecimal digits for a number below 16, of either case. -/
def hexSpellings (n : Nat) : List Char := [n.digitChar, n.digitChar.toUpper]

/-- Four hexadecimal digits that write a number of 16 bits. -/
structure SpellsUnit (unit : Nat) (a b c d : Char) : Prop where
  fits : unit < 0x10000
  first : a ∈ hexSpellings (unit / 4096)
  second : b ∈ hexSpellings (unit / 256 % 16)
  third : c ∈ hexSpellings (unit / 16 % 16)
  fourth : d ∈ hexSpellings (unit % 16)

/-- A way to write a character inside a string. -/
inductive SpellsChar : Char → List Char → Prop where
  /-- As it is, unless it is a quote, a backslash or a control character. -/
  | plain {c : Char} (hquote : c ≠ '"') (hbackslash : c ≠ '\\') (hcontrol : 0x20 ≤ c.toNat) :
    SpellsChar c [c]
  /-- By a letter behind a backslash. -/
  | letter {letter c : Char} (hletter : (letter, c) ∈ letterEscapes) :
    SpellsChar c ['\\', letter]
  /-- By its code point. -/
  | unit {char a b c d : Char} (hunit : SpellsUnit char.toNat a b c d) :
    SpellsChar char ['\\', 'u', a, b, c, d]
  /-- By the two halves of a surrogate pair. -/
  | pair {char a b c d e f g h : Char} (hlarge : 0x10000 ≤ char.toNat)
    (hleading : SpellsUnit (0xD800 + (char.toNat - 0x10000) / 0x400) a b c d)
    (htrailing : SpellsUnit (0xDC00 + (char.toNat - 0x10000) % 0x400) e f g h) :
    SpellsChar char ['\\', 'u', a, b, c, d, '\\', 'u', e, f, g, h]

/-- The characters of a string, one after the other. -/
inductive SpellsChars : List Char → List Char → Prop where
  | nil : SpellsChars [] []
  | cons {c : Char} {chars text texts : List Char} (hc : SpellsChar c text)
    (hchars : SpellsChars chars texts) : SpellsChars (c :: chars) (text ++ texts)

/-- A digit that spells a value is read as it. -/
theorem hexValue?_of_mem : ∀ n < 16, ∀ c ∈ hexSpellings n, hexValue? c = some n := by
  have hall : ((List.range 16).all fun n => (hexSpellings n).all fun c =>
      hexValue? c == some n) = true := by decide
  intro n hn c hc
  have hspellings := List.all_eq_true.mp hall n (List.mem_range.mpr hn)
  exact eq_of_beq (List.all_eq_true.mp hspellings c hc)

/-- Four digits that spell a unit are read as it. -/
theorem SpellsUnit.codeUnit? {unit : Nat} {a b c d : Char} (hunit : SpellsUnit unit a b c d) :
    codeUnit? a b c d = some unit := by
  have hfits := hunit.fits
  unfold Json.codeUnit?
  rw [hexValue?_of_mem _ (by omega) a hunit.first, hexValue?_of_mem _ (by omega) b hunit.second,
    hexValue?_of_mem _ (by omega) c hunit.third, hexValue?_of_mem _ (by omega) d hunit.fourth]
  simp only [Option.bind_eq_bind, Option.bind_some, Option.pure_def, Option.some.injEq]
  omega

/-- A character is no half of a surrogate pair. -/
theorem toNat_lt_or_le (c : Char) : c.toNat < 0xD800 ∨ 0xE000 ≤ c.toNat := by
  rcases c.valid with hlow | hhigh
  · exact Or.inl hlow
  · exact Or.inr (Nat.succ_le_of_lt hhigh.1)

/-- The largest code of a character. -/
theorem toNat_lt_limit (c : Char) : c.toNat < 0x110000 := by
  rcases c.valid with hlow | hhigh
  · change c.toNat < 0xD800 at hlow
    omega
  · exact hhigh.2

/-- A character is made again of its halves. -/
theorem pairedChar_halves {c : Char} (hlarge : 0x10000 ≤ c.toNat) :
    pairedChar (0xD800 + (c.toNat - 0x10000) / 0x400) (0xDC00 + (c.toNat - 0x10000) % 0x400) =
      c := by
  have hvalue : 0x10000 + (0xD800 + (c.toNat - 0x10000) / 0x400 - 0xD800) * 0x400 +
      (0xDC00 + (c.toNat - 0x10000) % 0x400 - 0xDC00) = c.toNat := by
    omega
  unfold pairedChar
  rw [hvalue, Char.ofNat_toNat]

/-- However a character is written, it is read as itself. -/
theorem SpellsChar.readString? {c : Char} {text : List Char} (hc : SpellsChar c text)
    (rest : List Char) : readString? (text ++ rest) = consRead c (Json.readString? rest) := by
  cases hc with
  | plain hquote hbackslash hcontrol =>
    rw [List.singleton_append, Json.readString?]
    · rw [if_neg]
      intro hrefused
      rcases hrefused with hsame | hsmall
      · exact hbackslash hsame
      · omega
    · exact hquote
    · intro _ _ _ _ _ hsame
      exact absurd hsame hbackslash
    · intro _ _ hsame
      exact absurd hsame hbackslash
  | letter hletter =>
    simp only [letterEscapes, List.mem_cons, Prod.mk.injEq, List.not_mem_nil, or_false] at hletter
    rcases hletter with ⟨rfl, rfl⟩ | ⟨rfl, rfl⟩ | ⟨rfl, rfl⟩ | ⟨rfl, rfl⟩ | ⟨rfl, rfl⟩ |
      ⟨rfl, rfl⟩ | ⟨rfl, rfl⟩ | ⟨rfl, rfl⟩
    all_goals simp [Json.readString?, escaped?]
  | unit hunit =>
    have hhalf := toNat_lt_or_le c
    have hleading : isLeadingHalf c.toNat = false := by
      simp only [isLeadingHalf, Bool.and_eq_false_iff, decide_eq_false_iff_not]
      omega
    have htrailing : isTrailingHalf c.toNat = false := by
      simp only [isTrailingHalf, Bool.and_eq_false_iff, decide_eq_false_iff_not]
      omega
    simp only [List.cons_append, List.nil_append, Json.readString?, hunit.codeUnit?, hleading,
      htrailing, Bool.false_eq_true, if_false, Char.ofNat_toNat]
  | pair hlarge hleading htrailing =>
    have hlimit := toNat_lt_limit c
    have hfirst : isLeadingHalf (0xD800 + (c.toNat - 0x10000) / 0x400) = true := by
      simp only [isLeadingHalf, Bool.and_eq_true, decide_eq_true_eq]
      omega
    have hsecond : isTrailingHalf (0xDC00 + (c.toNat - 0x10000) % 0x400) = true := by
      simp only [isTrailingHalf, Bool.and_eq_true, decide_eq_true_eq]
      omega
    simp only [List.cons_append, List.nil_append, Json.readString?, hleading.codeUnit?,
      htrailing.codeUnit?, hfirst, hsecond, if_true, pairedChar_halves hlarge]

/-- A string is read up to its closing quote. -/
theorem SpellsChars.readString? {chars text : List Char} (hchars : SpellsChars chars text)
    (rest : List Char) :
    Json.readString? (text ++ '"' :: rest) = some (chars, rest) := by
  induction hchars with
  | nil => rfl
  | cons hc hmore ih =>
    rw [List.append_assoc, hc.readString?, ih]
    rfl

/-! ## Tokens -/

/-- A way to write a token. -/
inductive SpellsToken : Token → List Char → Prop where
  | openBrace : SpellsToken .openBrace ['\x7b']
  | closeBrace : SpellsToken .closeBrace ['\x7d']
  | openBracket : SpellsToken .openBracket ['[']
  | closeBracket : SpellsToken .closeBracket [']']
  | colon : SpellsToken .colon [':']
  | comma : SpellsToken .comma [',']
  | nullWord : SpellsToken .null "null".toList
  | trueWord : SpellsToken (.bool true) "true".toList
  | falseWord : SpellsToken (.bool false) "false".toList
  | integer {n : Int} (hrange : IntegerRange n) : SpellsToken (.integer n) (toString n).toList
  | real {numeral : Numeral} {x : Double} {text : List Char}
    (hnumeral : SpellsNumeral numeral text) (hvalue : numeral.token? = some (.real x)) :
    SpellsToken (.real x) text
  | string {s : String} {text : List Char} (hchars : SpellsChars s.toList text) :
    SpellsToken (.string s) ('"' :: text ++ ['"'])

/-- What may stand directly behind a token: a number must not be carried on. -/
def Token.EndsBefore (token : Token) (text : List Char) : Prop :=
  match token with
  | .integer _ | .real _ => EndsNumber text
  | _ => True

/-- A text that spells tokens, with blanks in front of each, between them and at the end. -/
inductive Spells : List Token → List Char → Prop where
  | nil : Spells [] []
  | blank {c : Char} {tokens : List Token} {text : List Char} (hc : isBlank c = true)
    (htext : Spells tokens text) : Spells tokens (c :: text)
  | token {token : Token} {tokens : List Token} {piece text : List Char}
    (htoken : SpellsToken token piece) (hends : token.EndsBefore text)
    (htext : Spells tokens text) : Spells (token :: tokens) (piece ++ text)

/-- The empty text has no tokens. -/
theorem tokens_nil : tokens [] = [] := by
  rw [tokens]

/-- Blanks between tokens are passed over. -/
theorem tokens_blank {c : Char} (hc : isBlank c = true) (rest : List Char) :
    tokens (c :: rest) = tokens rest := by
  rw [tokens, if_pos hc]

/-- A token that can be read comes first. -/
theorem tokens_cons {c : Char} {rest behind : List Char} {token : Token}
    (hc : isBlank c = false) (hread : readToken? c rest = some (token, behind)) :
    tokens (c :: rest) = token :: tokens behind := by
  rw [tokens, if_neg (by rw [hc]; decide)]
  split
  · next hnone => rw [hread] at hnone; cases hnone
  · next hsome =>
    rw [hread] at hsome
    cases hsome
    rfl

/-- A number begins with a minus sign or a digit. -/
theorem SpellsNumeral.exists_cons {numeral : Numeral} {text : List Char}
    (hspells : SpellsNumeral numeral text) :
    ∃ first more, text = first :: more ∧ (first = '-' ∨ first.isDigit = true) := by
  obtain ⟨fraction, exponent, -, -, rfl⟩ := hspells.parts
  cases numeral.negative with
  | true => exact ⟨'-', _, rfl, Or.inl rfl⟩
  | false =>
    obtain ⟨first, more, hwhole⟩ := List.exists_cons_of_ne_nil hspells.whole.1
    refine ⟨first.digitChar, digitChars more ++ fraction ++ exponent, ?_, Or.inr ?_⟩
    · rw [hwhole]
      simp [digitChars]
    · rw [Nat.isDigit_digitChar, decide_eq_true (hspells.whole.2 first (by simp [hwhole]))]

/-- A number is read as the token of its numeral. -/
theorem readToken?_numeral {numeral : Numeral} {token : Token} {first : Char}
    {more rest : List Char} (hspells : SpellsNumeral numeral (first :: more))
    (hfirst : first = '-' ∨ first.isDigit = true) (hvalue : numeral.token? = some token)
    (hends : EndsNumber rest) :
    isBlank first = false ∧ readToken? first (more ++ rest) = some (token, rest) := by
  have hread := readNumeral?_append hspells hends
  have hne (c : Char) (hc : c ≠ '-' ∧ c.isDigit = false) : first ≠ c := by
    rintro rfl
    rcases hfirst with hminus | hdigit
    · exact hc.1 hminus
    · rw [hc.2] at hdigit
      cases hdigit
  constructor
  · unfold isBlank
    simp only [Bool.or_eq_false_iff, decide_eq_false_iff_not]
    refine ⟨⟨⟨hne ' ' (by decide), hne '\n' (by decide)⟩, hne '\t' (by decide)⟩,
      hne '\r' (by decide)⟩
  · unfold readToken?
    split
    · exact absurd rfl (hne '\x7b' (by decide))
    · exact absurd rfl (hne '\x7d' (by decide))
    · exact absurd rfl (hne '[' (by decide))
    · exact absurd rfl (hne ']' (by decide))
    · exact absurd rfl (hne ':' (by decide))
    · exact absurd rfl (hne ',' (by decide))
    · exact absurd rfl (hne 'n' (by decide))
    · exact absurd rfl (hne 't' (by decide))
    · exact absurd rfl (hne 'f' (by decide))
    · exact absurd rfl (hne '"' (by decide))
    · rw [← List.cons_append, hread]
      simp only [Option.bind_eq_bind, Option.bind_some, hvalue, Option.pure_def]

/-- A word is read by its letters. -/
theorem readWord?_append (letters rest : List Char) (token : Token) :
    readWord? letters token (letters ++ rest) = some (token, rest) := by
  unfold readWord?
  rw [if_pos (List.isPrefixOf_iff_prefix.mpr (List.prefix_append letters rest)),
    List.drop_left]

/-- A token of the grammar is the first token of its text. -/
theorem SpellsToken.tokens_append {token : Token} {piece text : List Char}
    (htoken : SpellsToken token piece) (hends : token.EndsBefore text) :
    tokens (piece ++ text) = token :: tokens text := by
  cases htoken with
  | openBrace => exact tokens_cons (by decide) rfl
  | closeBrace => exact tokens_cons (by decide) rfl
  | openBracket => exact tokens_cons (by decide) rfl
  | closeBracket => exact tokens_cons (by decide) rfl
  | colon => exact tokens_cons (by decide) rfl
  | comma => exact tokens_cons (by decide) rfl
  | nullWord => exact tokens_cons (c := 'n') (by decide) (readWord?_append "ull".toList text .null)
  | trueWord =>
    exact tokens_cons (c := 't') (by decide) (readWord?_append "rue".toList text (.bool true))
  | falseWord =>
    exact tokens_cons (c := 'f') (by decide) (readWord?_append "alse".toList text (.bool false))
  | @integer n hrange =>
    have hspells := spellsNumeral_integer n
    obtain ⟨first, more, htext, hfirst⟩ := hspells.exists_cons
    rw [htext] at hspells ⊢
    obtain ⟨hblank, hread⟩ :=
      readToken?_numeral hspells hfirst (token?_integerNumeral hrange) hends
    exact tokens_cons hblank hread
  | real hspells hvalue =>
    obtain ⟨first, more, rfl, hfirst⟩ := hspells.exists_cons
    obtain ⟨hblank, hread⟩ := readToken?_numeral hspells hfirst hvalue hends
    exact tokens_cons hblank hread
  | @string s chars hchars =>
    have hread := hchars.readString? text
    have hjoin : ('"' :: chars ++ ['"']) ++ text = '"' :: (chars ++ '"' :: text) := by
      rw [List.append_assoc, List.cons_append, List.singleton_append]
    rw [hjoin]
    apply tokens_cons (by decide)
    simp only [readToken?, hread, Option.map_some, String.ofList_toList]

/-- The tokens of a text of the grammar are the ones that it spells. -/
theorem Spells.tokens_eq {spelled : List Token} {text : List Char} (htext : Spells spelled text) :
    tokens text = spelled := by
  induction htext with
  | nil => exact tokens_nil
  | blank hc htext ih => rw [tokens_blank hc, ih]
  | token htoken hends htext ih => rw [htoken.tokens_append hends, ih]

end PlainSync.Json
