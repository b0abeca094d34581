import PlainSync.Proofs.Source.Exchange
import PlainSync.Proofs.Source.InStep

/-!
# What a lexeme reads

Of the text before a lexeme only matters whether a line starts there. Of the text behind it only
the next byte matters, unless it is a number: a number reads two bytes at a quote.
-/

namespace PlainSync.Source

/-! ## Starts of lines -/

/-- A line starts behind a newline and goes on starting behind blanks. -/
theorem atLineStart_cons (b : UInt8) (before : Bytes) :
    atLineStart (b :: before) = (b = Byte.newline || Byte.isBlank b && atLineStart before) := by
  by_cases hb : b = Byte.newline
  · simp [atLineStart, hb]
  · simp [atLineStart, hb]

/-- Lines start alike behind a text if they do so in front of it. -/
theorem atLineStart_append {before before' : Bytes}
    (hstart : atLineStart before' = atLineStart before) (front : Bytes) :
    atLineStart (front ++ before') = atLineStart (front ++ before) := by
  induction front with
  | nil => exact hstart
  | cons b front ih =>
    rw [List.cons_append, List.cons_append, atLineStart_cons, atLineStart_cons, ih]

/-- No line starts behind a text on one line that begins with a byte that is not blank. -/
theorem atLineStart_reverse_append {b : UInt8} (hblank : Byte.isBlank b = false)
    {text : Bytes} (hnewline : Byte.newline ∉ b :: text) (before : Bytes) :
    atLineStart ((b :: text).reverse ++ before) = false := by
  rw [Bool.eq_false_iff]
  intro hstart
  rw [atLineStart, List.takeWhile_append_of_pos, List.all_append, Bool.and_eq_true] at hstart
  · have hb := List.all_eq_true.mp hstart.1 b (by simp)
    rw [hblank] at hb
    cases hb
  · intro c hc
    refine decide_eq_true fun hsame => hnewline ?_
    rw [← hsame]
    exact List.mem_reverse.mp hc

/-- No line starts behind a parenthesis. -/
theorem atLineStart_paren {b : UInt8} (hb : b = Byte.openParen ∨ b = Byte.closeParen)
    (before : Bytes) : atLineStart (b :: before) = false := by
  have hbreak : b ≠ Byte.newline := by rcases hb with rfl | rfl <;> decide
  have hblank : Byte.isBlank b = false := by rcases hb with rfl | rfl <;> decide
  simp [atLineStart_cons, hbreak, hblank]

/-- No line starts behind a call. -/
theorem atLineStart_callTail (gap : Bytes) (list : ArgumentList) (before : Bytes) :
    atLineStart ((callTail gap list).reverse ++ before) = false := by
  rw [callTail, List.reverse_append]
  exact atLineStart_paren (.inr rfl) _

/-- No byte of a word is blank. -/
theorem not_isBlank_of_joinsWord {b : UInt8} (hb : joinsWord b) : Byte.isBlank b = false := by
  simp [Byte.isBlank, ne_of_joinsWord hb (show joinsWord Byte.space = false by decide),
    ne_of_joinsWord hb (show joinsWord Byte.tab = false by decide)]

/-- No digit is blank. -/
theorem not_isBlank_of_isDigit {b : UInt8} (hdigit : Byte.isDigit b) : Byte.isBlank b = false :=
  not_isBlank_of_joinsWord (joinsWord_of_isDigit hdigit)

/-! ## The text before -/

/-- A directive ends alike behind texts that end alike. -/
theorem splitDirective_congr {before before' : Bytes} (text : Bytes)
    (hhead : before'.head? = before.head?) (hcontinued : isContinued before' = isContinued before) :
    splitDirective before' text = splitDirective before text := by
  induction text generalizing before before' with
  | nil => rfl
  | cons b rest ih =>
    rw [splitDirective, splitDirective, hcontinued,
      @ih (b :: before) (b :: before') rfl (by simp only [isContinued, hhead])]

/-- Only the start of the line matters of what stands before a lexeme. -/
theorem nextLexeme_of_atLineStart {before before' : Bytes}
    (hstart : atLineStart before' = atLineStart before) (b : UInt8) (rest : Bytes) :
    nextLexeme before' b rest = nextLexeme before b rest := by
  unfold nextLexeme
  cases splitTrivia? (b :: rest) with
  | some split => rfl
  | none =>
    dsimp only
    rw [hstart]
    by_cases hhash : b = Byte.hash ∧ atLineStart before
    · obtain ⟨rfl, -⟩ := hhash
      have hsplit : splitDirective (Byte.hash :: before') rest =
          splitDirective (Byte.hash :: before) rest := splitDirective_congr rest rfl rfl
      rw [hsplit]
    · rw [if_neg hhash, if_neg hhash]

/-- A directive is found alike where a line starts alike. -/
theorem findDirective?_of_atLineStart {before before' : Bytes}
    (hstart : atLineStart before' = atLineStart before)
    (text : Bytes) (span : Nat) :
    findDirective? before' text span = findDirective? before text span := by
  induction before, text, span using findDirective?.induct generalizing before' with
  | case1 before text => rw [findDirective?_zero, findDirective?_zero]
  | case2 before text span hspan unit behind htrivia ih =>
    rw [findDirective?_trivia hspan htrivia, findDirective?_trivia hspan htrivia,
      ih (atLineStart_append hstart _)]
  | case3 before span hspan htrivia =>
    rw [findDirective?, findDirective?]
    split <;> rfl
  | case4 before span hspan b rest htrivia hhash =>
    obtain ⟨span, rfl⟩ := Nat.exists_eq_succ_of_ne_zero hspan
    rw [findDirective?_cons htrivia, findDirective?_cons htrivia, hstart, if_pos hhash,
      if_pos hhash]
  | case5 before span hspan b rest htrivia hhash ih =>
    obtain ⟨span, rfl⟩ := Nat.exists_eq_succ_of_ne_zero hspan
    have hbehind := ih (atLineStart_append hstart [b])
    rw [Nat.succ_eq_add_one, Nat.add_sub_cancel, List.singleton_append] at hbehind
    rw [findDirective?_cons htrivia, findDirective?_cons htrivia, hstart, if_neg hhash,
      if_neg hhash, hbehind]

/-- A call is judged by what stands behind its parenthesis and whether a line starts there. -/
theorem judge_of_atLineStart {before before' : Bytes}
    (hstart : atLineStart before' = atLineStart before)
    (builtin : Builtin) (line : Nat) (text : Bytes) :
    judge builtin line before' text = judge builtin line before text := by
  unfold judge
  simp only [findDirective?_of_atLineStart hstart]

/-- No line starts behind the parenthesis of a call, whatever stands in front of it. -/
theorem judge_behind_openParen (before before' : Bytes) (builtin : Builtin) (line : Nat)
    (text : Bytes) :
    judge builtin line (Byte.openParen :: before') text =
      judge builtin line (Byte.openParen :: before) text :=
  judge_of_atLineStart (by rw [atLineStart_paren (.inl rfl), atLineStart_paren (.inl rfl)]) _ _ _

/-! ## The text behind -/

/-- A directive that ends in a text ends there whatever follows it. -/
theorem splitDirective_append_of_stop {before text : Bytes} (tail : Bytes)
    (hstop : (splitDirective before text).2 ≠ []) :
    splitDirective before (text ++ tail) =
      ((splitDirective before text).1, (splitDirective before text).2 ++ tail) := by
  fun_induction splitDirective before text with
  | case1 => exact absurd rfl hstop
  | case2 before b rest hends => simp only [List.cons_append, splitDirective, if_pos hends]
  | case3 before b rest hends body behind hbody ih =>
    rw [hbody] at ih
    simp only [List.cons_append, splitDirective, if_neg hends, ih hstop]

/-- A lexeme with text behind it is the same in front of a longer text. -/
theorem nextLexeme_append_of_stop {before rest behind : Bytes} {b : UInt8} {lexeme : Lexeme}
    (tail : Bytes) (hnext : nextLexeme before b rest = (lexeme, behind))
    (hnumber : lexeme.number? = none) (hbehind : behind ≠ []) :
    nextLexeme before b (rest ++ tail) = (lexeme, behind ++ tail) := by
  have hrest : rest ≠ [] := by
    rintro rfl
    have hwhole := congrArg List.length (append_of_nextLexeme hnext)
    have hpos := length_text_pos_of_nextLexeme hnext
    rw [List.length_append, List.length_singleton] at hwhole
    exact hbehind (List.eq_nil_of_length_eq_zero (by omega))
  unfold nextLexeme at hnext ⊢
  cases htrivia : splitTrivia? (b :: rest) with
  | some split =>
    rw [htrivia] at hnext
    cases hnext
    rw [← List.cons_append, splitTrivia?_append_of_stop tail htrivia hbehind]
  | none =>
    rw [htrivia] at hnext
    rw [splitTrivia?_append_none tail htrivia hrest]
    dsimp only at hnext ⊢
    by_cases hhash : b = Byte.hash ∧ atLineStart before
    · rw [if_pos hhash] at hnext ⊢
      cases hnext
      rw [splitDirective_append_of_stop tail hbehind]
    · rw [if_neg hhash] at hnext ⊢
      by_cases hdigit : Byte.isDigit b
      · rw [if_pos hdigit] at hnext
        cases hnext
        cases hnumber
      · rw [if_neg hdigit] at hnext ⊢
        by_cases hstarts : Byte.startsIdentifier b
        · rw [if_pos hstarts] at hnext ⊢
          cases hnext
          obtain ⟨htake, hdrop⟩ := takeWhile_append_of_stop tail hbehind
          rw [htake, hdrop]
        · rw [if_neg hstarts] at hnext ⊢
          cases hnext
          rfl

/-- Behind a lexeme that is not a number, all but the next byte can be exchanged. -/
theorem nextLexeme_exchange {before text behind behind' : Bytes} {b : UInt8} {lexeme : Lexeme}
    (hnext : nextLexeme before b (text ++ behind) = (lexeme, behind))
    (hnumber : lexeme.number? = none) (hhead : behind'.head? = behind.head?) :
    nextLexeme before b (text ++ behind') = (lexeme, behind') := by
  cases behind with
  | nil =>
    rw [List.head?_nil, List.head?_eq_none_iff] at hhead
    rw [hhead]
    exact hnext
  | cons c behind =>
    obtain ⟨more, rfl⟩ : ∃ more, behind' = c :: more := List.head?_eq_some_iff.mp hhead
    have hsplit (tail : Bytes) : text ++ c :: tail = text ++ [c] ++ tail := by simp
    rw [hsplit] at hnext ⊢
    have hfront : nextLexeme before b (text ++ [c]) = (lexeme, [c]) := nextLexeme_cut hnext
    exact nextLexeme_append_of_stop more hfront hnumber (List.cons_ne_nil c [])

end PlainSync.Source
