import PlainSync.Proofs.Source.Plain

/-!
# Going past words

The bytes of an identifier mean nothing inside a literal, a comment or a number, and blanking
copies them. So every scanner goes past a word and then on as if it had begun behind it.
-/

namespace PlainSync.Source

/-- Text of bytes that may stand inside an identifier. -/
def WordBytes (text : Bytes) : Prop := ∀ b ∈ text, Byte.continuesIdentifier b

instance (text : Bytes) : Decidable (WordBytes text) := List.decidableBAll _ text

/-- The bytes of a word one by one. -/
theorem wordBytes_cons {b : UInt8} {rest : Bytes} :
    WordBytes (b :: rest) ↔ Byte.continuesIdentifier b ∧ WordBytes rest := by
  simp [WordBytes]

/-- Bytes of two words together. -/
theorem wordBytes_append {front back : Bytes} :
    WordBytes (front ++ back) ↔ WordBytes front ∧ WordBytes back := by
  simp only [WordBytes, List.mem_append]
  constructor
  · intro hwords
    exact ⟨fun b hb => hwords b (.inl hb), fun b hb => hwords b (.inr hb)⟩
  · rintro ⟨hfront, hback⟩ b (hb | hb)
    · exact hfront b hb
    · exact hback b hb

/-- Text without a byte of an identifier. -/
def Wordless (text : Bytes) : Prop := ∀ b ∈ text, Byte.continuesIdentifier b = false

instance (text : Bytes) : Decidable (Wordless text) := List.decidableBAll _ text

/-- The empty text has no byte of a word. -/
theorem wordless_nil : Wordless [] := fun _ hb => absurd hb List.not_mem_nil

/-- The encodings of blank characters have no byte of an identifier. -/
theorem wordless_blankEncodings :
    (∀ pattern ∈ blankEncodings, Wordless pattern) ∧
      ∀ pattern ∈ blankEncodings.map List.reverse, Wordless pattern := by
  constructor <;> decide +kernel

/-- A byte of an identifier is none that continues none. -/
theorem ne_of_continuesIdentifier {b c : UInt8} (hb : Byte.continuesIdentifier b)
    (hc : Byte.continuesIdentifier c = false) : b ≠ c := by
  rintro rfl
  rw [hc] at hb
  cases hb

/-- A byte of an identifier means nothing to any scanner. -/
theorem isPlain_of_continuesIdentifier {b : UInt8} (hb : Byte.continuesIdentifier b) :
    isPlain b :=
  @plain_of_joinsWord [b] (by simp [joinsWord, hb]) b List.mem_cons_self

section PastWords

variable {word : Bytes} (tail : Bytes)

/-- No word ends a literal. -/
theorem splitLiteralBody_word_append {mark : UInt8} (hmark : Byte.continuesIdentifier mark = false)
    (hword : WordBytes word) :
    splitLiteralBody mark (word ++ tail) =
      (word ++ (splitLiteralBody mark tail).1, (splitLiteralBody mark tail).2) := by
  induction word with
  | nil => rfl
  | cons b word ih =>
    obtain ⟨hb, hmore⟩ := wordBytes_cons.mp hword
    have hescape : b ≠ Byte.backslash := ne_of_continuesIdentifier hb (by decide)
    have hnewline : b ≠ Byte.newline := ne_of_continuesIdentifier hb (by decide)
    have hclose : b ≠ mark := ne_of_continuesIdentifier hb hmark
    rw [List.cons_append, splitLiteralBody_cons mark hescape, if_neg hnewline, if_neg hclose,
      ih hmore]
    rfl

/-- A block comment goes on behind a byte that does not begin its end. -/
theorem splitBlockCommentBody_step {b : UInt8} (rest : Bytes)
    (hopen : ¬ (b = Byte.star ∧ rest.head? = some Byte.slash)) :
    splitBlockCommentBody (b :: rest) =
      (b :: (splitBlockCommentBody rest).1, (splitBlockCommentBody rest).2) := by
  cases rest with
  | nil => rfl
  | cons c rest =>
    have hpair : ¬ (b = Byte.star ∧ c = Byte.slash) := fun hpair =>
      hopen ⟨hpair.1, congrArg some hpair.2⟩
    rw [splitBlockCommentBody, if_neg hpair]

/-- No word ends a block comment. -/
theorem splitBlockCommentBody_word_append (hword : WordBytes word) :
    splitBlockCommentBody (word ++ tail) =
      (word ++ (splitBlockCommentBody tail).1, (splitBlockCommentBody tail).2) := by
  induction word with
  | nil => rfl
  | cons b word ih =>
    obtain ⟨hb, hmore⟩ := wordBytes_cons.mp hword
    have hstar : b ≠ Byte.star := ne_of_continuesIdentifier hb (by decide)
    rw [List.cons_append, splitBlockCommentBody_cons hstar, ih hmore]
    rfl

/-- No word ends a line. -/
theorem splitLine_word_append (hword : WordBytes word) :
    splitLine (word ++ tail) = (word ++ (splitLine tail).1, (splitLine tail).2) := by
  have hline : ∀ b ∈ word, decide (b ≠ Byte.newline) = true := fun b hb =>
    decide_eq_true (ne_of_continuesIdentifier (hword b hb) (by decide))
  rw [splitLine, List.takeWhile_append_of_pos hline, List.dropWhile_append_of_pos hline]
  rfl

/-- No word ends a number. -/
theorem splitNumberBody_word_append (previous : UInt8) (hword : WordBytes word) :
    splitNumberBody previous (word ++ tail) =
      (word ++ (splitNumberBody (word.getLastD previous) tail).1,
        (splitNumberBody (word.getLastD previous) tail).2) := by
  induction word generalizing previous with
  | nil => rfl
  | cons b word ih =>
    obtain ⟨hb, hmore⟩ := wordBytes_cons.mp hword
    rw [List.cons_append, splitNumberBody, if_pos (.inl hb), ih b hmore, List.getLastD_cons]
    rfl

/-- A number goes on alike behind letters and digits, and alike behind other bytes. -/
theorem splitNumberBody_congr {previous previous' : UInt8}
    (hsame : Byte.isAlphanumeric previous' = Byte.isAlphanumeric previous) (text : Bytes) :
    splitNumberBody previous' text = splitNumberBody previous text := by
  cases text with
  | nil => rfl
  | cons b rest => rw [splitNumberBody, splitNumberBody, hsame]

/-- A word does not begin with a digit that would open a number. -/
def BeginsWord (before word : Bytes) : Prop :=
  ∀ b ∈ word.head?, Byte.isDigit b → opensNumber before = false

/-- No number opens behind a byte of an identifier. -/
theorem opensNumber_cons {b : UInt8} (hb : Byte.continuesIdentifier b) (before : Bytes) :
    opensNumber (b :: before) = false := by
  simp [opensNumber, hb]

end PastWords

/-! ## Steps of blanking -/

section Steps

variable {before rest unit behind : Bytes} {b : UInt8}

/-- A line comment is exchanged for a space. -/
theorem withoutLineComments_lineComment (hcomment : rest.head? = some Byte.slash) :
    withoutLineComments before (Byte.slash :: rest) =
      Byte.space :: withoutLineComments ((splitLine rest).1.reverse ++ Byte.slash :: before)
        (splitLine rest).2 := by
  rw [withoutLineComments, if_pos ⟨rfl, hcomment⟩]

/-- A number is copied as a whole. -/
theorem withoutLineComments_number (hdigit : Byte.isDigit b) (hopens : opensNumber before) :
    withoutLineComments before (b :: rest) =
      b :: (splitNumberBody b rest).1 ++
        withoutLineComments ((splitNumberBody b rest).1.reverse ++ b :: before)
          (splitNumberBody b rest).2 := by
  have hslash : b ≠ Byte.slash := by
    rintro rfl
    exact absurd hdigit (by decide)
  rw [withoutLineComments, if_neg fun hcomment => hslash hcomment.1, if_pos ⟨hdigit, hopens⟩]

/-- A block comment or literal is copied as a whole. -/
theorem withoutLineComments_trivia (hcomment : ¬ (b = Byte.slash ∧ rest.head? = some Byte.slash))
    (htrivia : splitTrivia? (b :: rest) = some (unit, behind)) :
    withoutLineComments before (b :: rest) =
      unit ++ withoutLineComments (unit.reverse ++ before) behind := by
  have hdigit : ¬ Byte.isDigit b := fun hdigit => by
    rw [splitTrivia?_of_isPlain (isPlain_of_isDigit hdigit)] at htrivia
    cases htrivia
  rw [withoutLineComments, if_neg hcomment, if_neg fun hnumber => hdigit hnumber.1]
  split
  · next found =>
    rw [htrivia] at found
    cases found
    rfl
  · next found =>
    rw [htrivia] at found
    cases found

/-- Every other byte is copied. -/
theorem withoutLineComments_byte (hnumber : ¬ (Byte.isDigit b ∧ opensNumber before))
    (htrivia : splitTrivia? (b :: rest) = none) :
    withoutLineComments before (b :: rest) = b :: withoutLineComments (b :: before) rest := by
  have hcomment : ¬ (b = Byte.slash ∧ rest.head? = some Byte.slash) := by
    rintro ⟨rfl, hhead⟩
    obtain ⟨more, rfl⟩ := List.head?_eq_some_iff.mp hhead
    cases htrivia
  rw [withoutLineComments, if_neg hcomment, if_neg hnumber]
  split
  · next found =>
    rw [htrivia] at found
    cases found
  · rfl

/-- A comment is exchanged for a space. -/
theorem onOneLine_comment (htrivia : splitTrivia? (Byte.slash :: rest) = some (unit, behind)) :
    onOneLine before (Byte.slash :: rest) =
      Byte.space :: onOneLine (unit.reverse ++ before) behind := by
  rw [onOneLine, if_pos rfl]
  split
  · next found =>
    rw [htrivia] at found
    cases found
    rfl
  · next found =>
    rw [htrivia] at found
    cases found

/-- A slash that opens no comment is copied. -/
theorem onOneLine_slash (htrivia : splitTrivia? (Byte.slash :: rest) = none) :
    onOneLine before (Byte.slash :: rest) =
      Byte.slash :: onOneLine (Byte.slash :: before) rest := by
  rw [onOneLine, if_pos rfl]
  split
  · next found =>
    rw [htrivia] at found
    cases found
  · rfl

/-- A number is copied as a whole. -/
theorem onOneLine_number (hdigit : Byte.isDigit b) (hopens : opensNumber before) :
    onOneLine before (b :: rest) =
      b :: (splitNumberBody b rest).1 ++
        onOneLine ((splitNumberBody b rest).1.reverse ++ b :: before)
          (splitNumberBody b rest).2 := by
  have hslash : b ≠ Byte.slash := by
    rintro rfl
    exact absurd hdigit (by decide)
  rw [onOneLine, if_neg hslash, if_pos ⟨hdigit, hopens⟩]

/-- A literal is copied as a whole. -/
theorem onOneLine_literal (hquote : b = Byte.doubleQuote ∨ b = Byte.quote) :
    onOneLine before (b :: rest) =
      b :: (splitLiteralBody b rest).1 ++
        onOneLine ((splitLiteralBody b rest).1.reverse ++ b :: before)
          (splitLiteralBody b rest).2 := by
  have hslash : b ≠ Byte.slash := by rcases hquote with rfl | rfl <;> decide
  have hdigit : ¬ Byte.isDigit b := by rcases hquote with rfl | rfl <;> decide
  rw [onOneLine, if_neg hslash, if_neg fun hnumber => hdigit hnumber.1, if_pos hquote]

/-- Line breaks, and backslashes in front of them, become spaces. -/
theorem onOneLine_break
    (hbreak : b = Byte.backslash ∧ rest.head?.any Byte.breaksLine ∨ Byte.breaksLine b) :
    onOneLine before (b :: rest) = Byte.space :: onOneLine (b :: before) rest := by
  have hb : b = Byte.backslash ∨ b = Byte.newline ∨ b = Byte.carriageReturn := by
    rcases hbreak with hescape | hbreak
    · exact .inl hescape.1
    · simpa [Byte.breaksLine] using Or.inr hbreak
  have hslash : b ≠ Byte.slash := by rcases hb with rfl | rfl | rfl <;> decide
  have hdigit : ¬ Byte.isDigit b := by rcases hb with rfl | rfl | rfl <;> decide
  have hquote : ¬ (b = Byte.doubleQuote ∨ b = Byte.quote) := by
    rcases hb with rfl | rfl | rfl <;> decide
  rw [onOneLine, if_neg hslash, if_neg fun hnumber => hdigit hnumber.1, if_neg hquote]
  rcases hbreak with hescape | hbreak
  · rw [if_pos hescape]
  · rw [if_pos hbreak, ite_self]

/-- A byte that breaks no line is copied. -/
theorem onOneLine_byte (hslash : b ≠ Byte.slash)
    (hnumber : ¬ (Byte.isDigit b ∧ opensNumber before))
    (hquote : ¬ (b = Byte.doubleQuote ∨ b = Byte.quote))
    (hbreak : ¬ (b = Byte.backslash ∧ rest.head?.any Byte.breaksLine ∨ Byte.breaksLine b)) :
    onOneLine before (b :: rest) = b :: onOneLine (b :: before) rest := by
  rw [not_or] at hbreak
  rw [onOneLine, if_neg hslash, if_neg hnumber, if_neg hquote, if_neg hbreak.1, if_neg hbreak.2]

end Steps

section PastWords

variable {word : Bytes} (tail : Bytes)

/-- A word is copied before the line comments behind it are dropped. -/
theorem withoutLineComments_word_append {before : Bytes} (hword : WordBytes word)
    (hbegins : BeginsWord before word) :
    withoutLineComments before (word ++ tail) =
      word ++ withoutLineComments (word.reverse ++ before) tail := by
  induction word generalizing before with
  | nil => rfl
  | cons b word ih =>
    obtain ⟨hb, hmore⟩ := wordBytes_cons.mp hword
    have hnumber : ¬ (Byte.isDigit b ∧ opensNumber before) := by
      rintro ⟨hdigit, hopens⟩
      rw [hbegins b rfl hdigit] at hopens
      cases hopens
    rw [List.cons_append, withoutLineComments_byte hnumber
      (splitTrivia?_of_isPlain (isPlain_of_continuesIdentifier hb) _),
      ih hmore fun c _ _ => opensNumber_cons hb before, List.reverse_cons, List.append_assoc]
    rfl

/-- A word is copied before the comments behind it are dropped. -/
theorem onOneLine_word_append {before : Bytes} (hword : WordBytes word)
    (hbegins : BeginsWord before word) :
    onOneLine before (word ++ tail) = word ++ onOneLine (word.reverse ++ before) tail := by
  induction word generalizing before with
  | nil => rfl
  | cons b word ih =>
    obtain ⟨hb, hmore⟩ := wordBytes_cons.mp hword
    have hne {c : UInt8} (hc : Byte.continuesIdentifier c = false) : b ≠ c :=
      ne_of_continuesIdentifier hb hc
    have hnumber : ¬ (Byte.isDigit b ∧ opensNumber before) := by
      rintro ⟨hdigit, hopens⟩
      rw [hbegins b rfl hdigit] at hopens
      cases hopens
    have hquote : ¬ (b = Byte.doubleQuote ∨ b = Byte.quote) :=
      not_or.mpr ⟨hne (by decide), hne (by decide)⟩
    have hbreak : ¬ (b = Byte.backslash ∧ (word ++ tail).head?.any Byte.breaksLine ∨
        Byte.breaksLine b) := by
      simp [Byte.breaksLine, hne (c := Byte.newline) (by decide),
        hne (c := Byte.carriageReturn) (by decide), hne (c := Byte.backslash) (by decide)]
    rw [List.cons_append, onOneLine_byte (hne (by decide)) hnumber hquote hbreak,
      ih hmore fun c _ _ => opensNumber_cons hb before, List.reverse_cons, List.append_assoc]
    rfl

end PastWords

end PlainSync.Source
