import PlainSync.Proofs.Source.Splices

/-!
# Regions that are not code

The comments, literals and directives of a source as C delimits them: first the splices are
deleted, then the text is read from left to right. A directive begins at a hash mark in front of
which only blanks and comments stand on its line, and goes up to the first line end that is in no
comment. If the scan of the source ends its lexemes nowhere at a splice and its directives where C
ends them, every such region lies in one comment, literal or directive of the scan.
-/

namespace PlainSync.Source

open Bytes

/-! ## Units of C -/

/-- The comment, literal, number, word or byte that a text without splices begins with. -/
def nextUnit (b : UInt8) (rest : Bytes) : Lexeme × Bytes :=
  if b = Byte.doubleQuote ∨ b = Byte.quote then
    (.trivia (b :: (splitLineLiteral b rest).1), (splitLineLiteral b rest).2)
  else
    match splitTrivia? (b :: rest) with
    | some (unit, behind) => (.trivia unit, behind)
    | none =>
      if Byte.isDigit b then
        (.number (b :: (splitNumberBody b rest).1), (splitNumberBody b rest).2)
      else if Byte.startsIdentifier b then
        (.word (b :: rest.takeWhile Byte.continuesIdentifier),
          rest.dropWhile Byte.continuesIdentifier)
      else (.mark b, rest)

/-- A literal leaves no more than the text. -/
theorem length_splitLineLiteral (mark : UInt8) (text : Bytes) :
    (splitLineLiteral mark text).2.length ≤ text.length := by
  fun_induction splitLineLiteral mark text with
  | case1 => exact Nat.le_refl _
  | case2 => exact Nat.le_refl _
  | case3 => exact Nat.zero_le _
  | case4 => exact Nat.le_refl _
  | case5 => exact Nat.le_succ _
  | case6 b c rest hnewline hmark hescape ih =>
    simp only [List.length_cons]
    omega
  | case7 b c rest hnewline hmark hescape ih => exact Nat.le_trans ih (by simp)

/-- A unit leaves less than the text. -/
theorem length_nextUnit_lt (b : UInt8) (rest : Bytes) :
    (nextUnit b rest).2.length < (b :: rest).length := by
  rw [List.length_cons, nextUnit]
  split
  · exact Nat.lt_succ_of_le (length_splitLineLiteral b rest)
  · split
    · next htrivia => exact length_lt_of_splitTrivia? htrivia
    · split
      · have hwhole := congrArg List.length (splitNumberBody_append b rest)
        rw [List.length_append] at hwhole
        dsimp only
        omega
      · split
        · exact Nat.lt_succ_of_le (List.dropWhile_sublist _).length_le
        · exact Nat.lt_succ_self _

/-- The rest of the line of a directive, up to the first line end that is in no comment. -/
def splitDirectiveLine (text : Bytes) : Bytes × Bytes :=
  match text with
  | [] => ([], [])
  | b :: rest =>
    if b = Byte.newline then ([], b :: rest)
    else
      ((nextUnit b rest).1.text ++ (splitDirectiveLine (nextUnit b rest).2).1,
        (splitDirectiveLine (nextUnit b rest).2).2)
termination_by text.length
decreasing_by all_goals exact length_nextUnit_lt b rest

/-- A directive line leaves no more than the text. -/
theorem length_splitDirectiveLine (text : Bytes) :
    (splitDirectiveLine text).2.length ≤ text.length := by
  fun_induction splitDirectiveLine text with
  | case1 => exact Nat.le_refl _
  | case2 => exact Nat.le_refl _
  | case3 b rest hnewline ih => exact Nat.le_trans ih (Nat.le_of_lt (length_nextUnit_lt b rest))

/-- Whether only blanks and comments stand on the line behind a unit, `fresh` telling whether it was
so in front of the unit. A comment is a blank, line ends in it or not. -/
def isFreshBehind (fresh : Bool) : Lexeme → Bool
  | .trivia text => fresh && text.head? = some Byte.slash
  | .mark b => b = Byte.newline || fresh && Byte.isBlank b
  | _ => false

/-- The units of a text without splices, `fresh` telling whether only blanks and comments stand in
front of it on its line. -/
def units (fresh : Bool) (text : Bytes) : List Lexeme :=
  match text with
  | [] => []
  | b :: rest =>
    if b = Byte.hash ∧ fresh then
      .directive (b :: (splitDirectiveLine rest).1) :: units false (splitDirectiveLine rest).2
    else
      (nextUnit b rest).1 :: units (isFreshBehind fresh (nextUnit b rest).1) (nextUnit b rest).2
termination_by text.length
decreasing_by
  · exact Nat.lt_succ_of_le (length_splitDirectiveLine rest)
  · exact length_nextUnit_lt b rest

/-- Comments, literals and directives. -/
def Lexeme.isRegion : Lexeme → Bool
  | trivia _ => true
  | directive _ => true
  | _ => false

/-- A stretch of a source. -/
structure Region where
  start : Nat
  stop : Nat
  deriving DecidableEq, Repr

/-- Where a stretch of the source without splices stands in the source, from its first byte up to
its last one. -/
def regionAt (source : Bytes) (index length : Nat) : Region :=
  ⟨origin source index, origin source (index + length - 1) + 1⟩

/-- The comments, literals and directives of a list of units, the first unit standing at `index` in
the source without splices. -/
def regionsOf (source : Bytes) (index : Nat) : List Lexeme → List Region
  | [] => []
  | unit :: more =>
    (if unit.isRegion then [regionAt source index unit.text.length] else []) ++
      regionsOf source (index + unit.text.length) more

/-- The comments, literals and directives of a source as C delimits them. -/
def regions (source : Bytes) : List Region := regionsOf source 0 (units true (unspliced source))

/-! ## Settled scans -/

/-- A lexeme without its splices. -/
def Lexeme.unspliced : Lexeme → Lexeme
  | trivia text => trivia (Source.unspliced text)
  | directive text => directive (Source.unspliced text)
  | number text => number (Source.unspliced text)
  | word text => word (Source.unspliced text)
  | mark b => mark b

/-- C ends a lexeme in front of the same text. No star of a comment stands directly before a splice,
no splice stands directly behind a quote behind a number, and a directive goes up to the end of its
line. -/
def Lexeme.SettledBefore (behind : Bytes) : Lexeme → Prop
  | trivia text => text.head? = some Byte.slash → ¬ StarSpliced text
  | directive text =>
    splitDirectiveLine (Source.unspliced text.tail ++ Source.unspliced behind) =
      (Source.unspliced text.tail, Source.unspliced behind)
  | number _ => ¬ [Byte.quote, Byte.backslash, Byte.newline] <+: behind
  | _ => True

/-- No lexeme ends at a splice, and C ends all of them at the same places. -/
def Settled : List Lexeme → Prop
  | [] => True
  | lexeme :: more =>
    ¬ SplicedAt lexeme.text (textOf more) ∧ lexeme.SettledBefore (textOf more) ∧ Settled more

instance (behind : Bytes) : (lexeme : Lexeme) → Decidable (lexeme.SettledBefore behind)
  | .trivia text =>
    inferInstanceAs (Decidable (text.head? = some Byte.slash → ¬ StarSpliced text))
  | .directive text =>
    inferInstanceAs (Decidable
      (splitDirectiveLine (unspliced text.tail ++ unspliced behind) =
        (unspliced text.tail, unspliced behind)))
  | .number _ =>
    inferInstanceAs (Decidable (¬ [Byte.quote, Byte.backslash, Byte.newline] <+: behind))
  | .word _ => isTrue trivial
  | .mark _ => isTrue trivial

instance decidableSettled : (list : List Lexeme) → Decidable (Settled list)
  | [] => isTrue trivial
  | lexeme :: more =>
    have := decidableSettled more
    inferInstanceAs (Decidable (¬ SplicedAt lexeme.text (textOf more) ∧
      lexeme.SettledBefore (textOf more) ∧ Settled more))

section Units

variable {before rest behind : Bytes} {b : UInt8} {lexeme : Lexeme}

/-- Outside literals and directives the scan and C read the same unit. -/
theorem nextUnit_of_nextLexeme (hnext : nextLexeme before b rest = (lexeme, behind))
    (hquote : ¬ (b = Byte.doubleQuote ∨ b = Byte.quote))
    (hdirective : ∀ text, lexeme ≠ .directive text) : nextUnit b rest = (lexeme, behind) := by
  unfold nextLexeme at hnext
  rw [nextUnit, if_neg hquote]
  cases htrivia : splitTrivia? (b :: rest) with
  | some split =>
    rw [htrivia] at hnext
    exact hnext
  | none =>
    rw [htrivia] at hnext
    dsimp only at hnext ⊢
    by_cases hhash : b = Byte.hash ∧ atLineStart before
    · rw [if_pos hhash] at hnext
      exact absurd (Prod.ext_iff.mp hnext).1.symm (hdirective _)
    · rwa [if_neg hhash] at hnext

/-- C reads the same literal without its splices. -/
theorem nextUnit_literal (hquote : b = Byte.doubleQuote ∨ b = Byte.quote)
    (hnext : nextLexeme before b rest = (lexeme, behind))
    (hsplice : ¬ SplicedAt lexeme.text behind) :
    nextUnit b (unspliced rest) = (lexeme.unspliced, unspliced behind) := by
  have hslash : b ≠ Byte.slash := by rcases hquote with rfl | rfl <;> decide
  have hescape : b ≠ Byte.backslash := by rcases hquote with rfl | rfl <;> decide
  have hlexeme : nextLexeme before b rest =
      (.trivia (b :: (splitLiteralBody b rest).1), (splitLiteralBody b rest).2) := by
    have htrivia : splitTrivia? (b :: rest) = some (splitLiteral (b :: rest)) := by
      simp only [splitTrivia?, if_neg hslash, if_pos hquote]
    rw [nextLexeme, htrivia]
    rfl
  rw [hlexeme] at hnext
  cases hnext
  rw [nextUnit, if_pos hquote,
    splitLineLiteral_unspliced hquote fun hbody => hsplice (hbody.cons b), Lexeme.unspliced,
    unspliced_cons (not_splicedAt_of_ne hescape _)]

/-- C reads the same number, whose end is not spliced. -/
theorem nextUnit_number {text : Bytes}
    (hnext : nextLexeme before b rest = (.number text, behind))
    (hbehind : ¬ [Byte.backslash, Byte.newline] <+: behind)
    (hquote : ¬ [Byte.quote, Byte.backslash, Byte.newline] <+: behind) :
    nextUnit b (text.tail ++ unspliced behind) = (.number text, unspliced behind) := by
  cases firstLexeme hnext with
  | number htrivia hdigit =>
    have hsplit := splitNumberBody_thinned (.inl rfl) (.refl (splitNumberBody b rest).1)
      fun last hends => splitNumberBody_unspliced hends hbehind hquote
    have hplain := isPlain_of_isDigit hdigit
    obtain ⟨-, -, hdouble, hsingle, -⟩ := ne_of_isPlain hplain
    rw [nextUnit, if_neg (not_or.mpr ⟨hdouble, hsingle⟩), splitTrivia?_of_isPlain hplain]
    simp only [hdigit, if_true, List.tail_cons, hsplit]

/-- C reads the same comment without its splices. -/
theorem nextUnit_blockComment (hstar : rest.head? = some Byte.star)
    (hnext : nextLexeme before Byte.slash rest = (lexeme, behind))
    (hsettled : ¬ StarSpliced lexeme.text) :
    nextUnit Byte.slash (unspliced rest) = (lexeme.unspliced, unspliced behind) := by
  obtain ⟨rest, rfl⟩ := List.head?_eq_some_iff.mp hstar
  have hlexeme : nextLexeme before Byte.slash (Byte.star :: rest) =
      (.trivia (Byte.slash :: Byte.star :: (splitBlockCommentBody rest).1),
        (splitBlockCommentBody rest).2) := rfl
  rw [hlexeme] at hnext
  cases hnext
  have hbody : ¬ StarSpliced (splitBlockCommentBody rest).1 :=
    fun hbody => hsettled ((hbody.cons _).cons _)
  have hcons (text : Bytes) : unspliced (Byte.star :: text) = Byte.star :: unspliced text :=
    unspliced_cons (not_splicedAt_of_ne (by decide) text)
  rw [hcons, Lexeme.unspliced, unspliced_cons (not_splicedAt_of_ne (by decide) _), hcons]
  change (Lexeme.trivia (Byte.slash :: Byte.star :: (splitBlockCommentBody (unspliced rest)).1),
    (splitBlockCommentBody (unspliced rest)).2) = _
  rw [splitBlockCommentBody_unspliced hbody]

/-- The text of a lexeme without its splices. -/
theorem Lexeme.text_unspliced (lexeme : Lexeme) :
    lexeme.unspliced.text = Source.unspliced lexeme.text := by
  cases lexeme <;> rfl

/-- A lexeme is a region with and without its splices. -/
theorem Lexeme.isRegion_unspliced (lexeme : Lexeme) :
    lexeme.unspliced.isRegion = lexeme.isRegion := by
  cases lexeme <;> rfl

/-- A lexeme without splices stays as it is. -/
theorem Lexeme.unspliced_eq_self (htext : Source.unspliced lexeme.text = lexeme.text) :
    lexeme.unspliced = lexeme := by
  cases lexeme with
  | mark b => rfl
  | _ => exact congrArg _ htext

/-- A line has no newline. -/
theorem newline_not_mem_splitLine (text : Bytes) : Byte.newline ∉ (splitLine text).1 := by
  intro hmem
  have hne := List.all_eq_true.mp List.all_takeWhile _ hmem
  exact of_decide_eq_true hne rfl

/-- Apart from literals, block comments and directives, a lexeme stands on one line. -/
theorem newline_not_mem_text {text : Bytes} (hnext : nextLexeme before b rest = (lexeme, behind))
    (hquote : ¬ (b = Byte.doubleQuote ∨ b = Byte.quote))
    (hcomment : ¬ (b = Byte.slash ∧ rest.head? = some Byte.star))
    (hdirective : ∀ text, lexeme ≠ .directive text) (htext : lexeme.text = b :: text) :
    Byte.newline ∉ text := by
  cases firstLexeme hnext with
  | trivia htrivia =>
    simp only [splitTrivia?, if_neg hquote] at htrivia
    split at htrivia
    · next hslash =>
      split at htrivia
      · cases htrivia
      · next c others =>
        split at htrivia
        · next hstar => exact absurd ⟨hslash, congrArg some hstar⟩ hcomment
        · split at htrivia
          · next hline =>
            cases htrivia
            cases htext
            intro hmem
            rcases List.mem_cons.mp hmem with hfirst | hmore
            · rw [hline] at hfirst
              cases hfirst
            · exact newline_not_mem_splitLine others hmore
          · cases htrivia
    · cases htrivia
  | directive => exact absurd rfl (hdirective _)
  | number htrivia hdigit =>
    cases htext
    exact List.count_eq_zero.mp (newlines_splitNumberBody b rest)
  | word htrivia hstarts =>
    cases htext
    exact fun hmem => absurd (List.all_eq_true.mp List.all_takeWhile _ hmem) (by decide)
  | mark =>
    cases htext
    exact List.not_mem_nil

/-- No splice stands behind a lexeme of a settled scan. -/
theorem not_prefix_of_settled {text : Bytes} (hsettled : Settled (lexemes before text)) :
    ¬ [Byte.backslash, Byte.newline] <+: text := by
  rintro ⟨rest, rfl⟩
  have hnext : nextLexeme before Byte.backslash (Byte.newline :: rest) =
      (.mark Byte.backslash, Byte.newline :: rest) := rfl
  have hlexemes := lexemes_cons hnext
  rw [List.cons_append, List.singleton_append, hlexemes] at hsettled
  refine hsettled.1 ⟨rfl, ?_⟩
  rw [textOf_lexemes]
  rfl

/-- C reads the lexeme without its splices. -/
theorem nextUnit_unspliced (hnext : nextLexeme before b rest = (lexeme, behind))
    (hdirective : ∀ text, lexeme ≠ .directive text) (hsplice : ¬ SplicedAt lexeme.text behind)
    (hbehind : ¬ [Byte.backslash, Byte.newline] <+: behind)
    (hsettled : lexeme.SettledBefore behind) :
    nextUnit b (unspliced rest) = (lexeme.unspliced, unspliced behind) := by
  by_cases hquote : b = Byte.doubleQuote ∨ b = Byte.quote
  · exact nextUnit_literal hquote hnext hsplice
  by_cases hcomment : b = Byte.slash ∧ rest.head? = some Byte.star
  · obtain ⟨rfl, hstar⟩ := hcomment
    refine nextUnit_blockComment hstar hnext ?_
    obtain ⟨text, htext, -⟩ := exists_text_eq_cons hnext
    cases lexeme with
    | trivia other => exact hsettled (by rw [show other = _ from htext]; rfl)
    | _ =>
      obtain ⟨others, rfl⟩ := List.head?_eq_some_iff.mp hstar
      cases hnext
  obtain ⟨text, htext, rfl⟩ := exists_text_eq_cons hnext
  have hnewline := newline_not_mem_text hnext hquote hcomment hdirective htext
  have hrest : unspliced (text ++ behind) = text ++ unspliced behind := by
    rw [unspliced_append fun hsame => hsplice (htext ▸ hsame.cons b),
      unspliced_of_not_mem hnewline]
  have hself : lexeme.unspliced = lexeme := by
    refine lexeme.unspliced_eq_self ?_
    rw [htext, unspliced_cons fun hsame => hnewline (List.mem_of_mem_head? hsame.2),
      unspliced_of_not_mem hnewline]
  rw [hrest, hself]
  cases hnumber : lexeme.number? with
  | none =>
    exact nextUnit_of_nextLexeme (nextLexeme_exchange hnext hnumber (head?_unspliced hbehind))
      hquote hdirective
  | some number =>
    cases lexeme with
    | number other =>
      obtain rfl : other = b :: text := htext
      exact nextUnit_number hnext hbehind hsettled
    | _ => cases hnumber

/-- The first byte of a lexeme is not that of a splice. -/
theorem unspliced_cons_of_nextLexeme (hnext : nextLexeme before b rest = (lexeme, behind))
    (hsplice : ¬ SplicedAt lexeme.text behind) :
    unspliced (b :: rest) = b :: unspliced rest := by
  refine unspliced_cons fun hsame => ?_
  obtain rfl : b = Byte.backslash := Option.some.inj hsame.1
  cases hnext
  exact hsplice hsame

/-- A lexeme is not all splices. -/
theorem length_unspliced_pos (hnext : nextLexeme before b rest = (lexeme, behind)) :
    0 < (unspliced lexeme.text).length := by
  obtain ⟨text, htext, -⟩ := exists_text_eq_cons hnext
  rw [htext, unspliced_cons, List.length_cons]
  · exact Nat.succ_pos _
  · intro hsame
    obtain rfl : b = Byte.backslash := Option.some.inj hsame.1
    cases hnext
    cases htext
    cases hsame.2

/-! ## The units of a settled scan -/

/-- Behind a lexeme a line starts for the scan only if it does for C, or a line end is next. -/
theorem isFreshBehind_of_atLineStart {fresh : Bool}
    (hnext : nextLexeme before b rest = (lexeme, behind))
    (hfresh : (∀ c ∈ (b :: rest).head?, c = Byte.newline) ∨ (atLineStart before → fresh)) :
    (∀ c ∈ behind.head?, c = Byte.newline) ∨
      (atLineStart (lexeme.text.reverse ++ before) → isFreshBehind fresh lexeme.unspliced) := by
  cases firstLexeme hnext with
  | @trivia unit _ htrivia =>
    refine (splitTrivia?_end htrivia).imp_right ?_
    rintro ⟨c, hc, hend⟩ hstart
    obtain ⟨front, rfl⟩ := List.getLast?_eq_some_iff.mp hc
    rw [Lexeme.text, List.reverse_append, List.append_assoc, List.reverse_singleton,
      List.singleton_append, atLineStart_cons] at hstart
    rcases hend with rfl | rfl | rfl <;> cases hstart
  | directive => exact .inl (splitDirective_end _ _)
  | number htrivia hdigit =>
    have hnewlines := List.count_eq_zero.mp (newlines_number hdigit rest)
    refine .inr fun hstart => ?_
    rw [Lexeme.text, atLineStart_reverse_append (not_isBlank_of_isDigit hdigit) hnewlines] at hstart
    cases hstart
  | word htrivia hstarts =>
    have hnewlines := List.count_eq_zero.mp (newlines_word hstarts rest)
    have hblank := not_isBlank_of_joinsWord (joinsWord_of_startsIdentifier hstarts)
    refine .inr fun hstart => ?_
    rw [Lexeme.text, atLineStart_reverse_append hblank hnewlines] at hstart
    cases hstart
  | mark =>
    refine .inr fun hstart => ?_
    rw [Lexeme.text, List.reverse_singleton, List.singleton_append, atLineStart_cons] at hstart
    simp only [Lexeme.unspliced, isFreshBehind, Bool.or_eq_true, Bool.and_eq_true,
      decide_eq_true_eq] at hstart ⊢
    refine hstart.imp_right fun hblank => ⟨?_, hblank.1⟩
    rcases hfresh with hnewline | hfresh
    · rw [hnewline b rfl] at hblank
      exact absurd hblank.1 (by decide)
    · exact hfresh hblank.2

/-- The head of a settled scan, without its splices. -/
theorem units_cons_unspliced {fresh : Bool} (hnext : nextLexeme before b rest = (lexeme, behind))
    (hhash : lexeme ≠ .mark Byte.hash) (hsplice : ¬ SplicedAt lexeme.text behind)
    (hbehind : ¬ [Byte.backslash, Byte.newline] <+: behind)
    (hsettled : lexeme.SettledBefore behind)
    (hfresh : (∀ c ∈ (b :: rest).head?, c = Byte.newline) ∨ (atLineStart before → fresh)) :
    ∃ fresh', units fresh (unspliced (b :: rest)) =
        lexeme.unspliced :: units fresh' (unspliced behind) ∧
      ((∀ c ∈ behind.head?, c = Byte.newline) ∨
        (atLineStart (lexeme.text.reverse ++ before) → fresh')) := by
  have hbehind' := isFreshBehind_of_atLineStart hnext hfresh
  rw [unspliced_cons_of_nextLexeme hnext hsplice]
  by_cases hdirective : ∃ text, lexeme = .directive text
  · obtain ⟨text, rfl⟩ := hdirective
    cases firstLexeme hnext with
    | directive htrivia hstart =>
      obtain ⟨rfl, hline⟩ := hstart
      -- No line end is next, so the line starts for C, too.
      have hclean : fresh = true := hfresh.elim
        (fun hnewline => absurd (hnewline Byte.hash rfl) (by decide)) fun hfresh => hfresh hline
      have hwhole := splitDirective_append (Byte.hash :: before) rest
      have hbody : ¬ SplicedAt (splitDirective (Byte.hash :: before) rest).1
          (splitDirective (Byte.hash :: before) rest).2 := fun hsame => hsplice (hsame.cons _)
      have hrest := unspliced_append hbody
      rw [hwhole] at hrest
      have hsplit : splitDirectiveLine (unspliced rest) =
          (unspliced (splitDirective (Byte.hash :: before) rest).1,
            unspliced (splitDirective (Byte.hash :: before) rest).2) := by
        rw [hrest]
        exact hsettled
      have hhead : ¬ SplicedAt [Byte.hash] (splitDirective (Byte.hash :: before) rest).1 :=
        not_splicedAt_of_ne (by decide) _
      refine ⟨false, ?_, .inl (splitDirective_end _ _)⟩
      rw [units, if_pos ⟨rfl, hclean⟩, hsplit, Lexeme.unspliced, unspliced_cons hhead]
  · have hnot : ∀ text, lexeme ≠ .directive text := fun text hsame => hdirective ⟨text, hsame⟩
    -- Only a directive begins with a hash mark, the scan has no single ones.
    have hopen : ¬ (b = Byte.hash ∧ fresh) := by
      rintro ⟨rfl, -⟩
      cases firstLexeme hnext with
      | trivia htrivia => cases htrivia
      | directive => exact hnot _ rfl
      | number htrivia hdigit => exact absurd hdigit (by decide)
      | word htrivia hstarts => exact absurd hstarts (by decide)
      | mark => exact hhash rfl
    refine ⟨_, ?_, hbehind'⟩
    rw [units, if_neg hopen, nextUnit_unspliced hnext hnot hsplice hbehind hsettled]

/-- The units of C are the lexemes of a settled scan, without their splices. -/
theorem units_unspliced {before text : Bytes} {fresh : Bool}
    (hhash : .mark Byte.hash ∉ lexemes before text) (hsettled : Settled (lexemes before text))
    (hfresh : (∀ c ∈ text.head?, c = Byte.newline) ∨ (atLineStart before → fresh)) :
    units fresh (unspliced text) = (lexemes before text).map Lexeme.unspliced := by
  induction before, text using lexemes_induction generalizing fresh with
  | nil before =>
    rw [lexemes_nil]
    exact units.eq_1 fresh
  | @cons before b rest lexeme behind hnext ih =>
    rw [lexemes_cons hnext] at hhash hsettled ⊢
    obtain ⟨hsplice, hends, hmore⟩ := hsettled
    rw [textOf_lexemes] at hsplice hends
    rw [List.mem_cons, not_or] at hhash
    obtain ⟨fresh', hunits, hfresh'⟩ := units_cons_unspliced hnext (Ne.symm hhash.1) hsplice
      (not_prefix_of_settled hmore) hends hfresh
    rw [hunits, ih hhash.2 hmore hfresh', List.map_cons]

/-! ## Where the regions stand -/

/-- A stretch whose ends are not spliced comes from the text that it is without its splices. -/
theorem bounds_regionAt {front text behind : Bytes} (hfront : ¬ SplicedAt front (text ++ behind))
    (hbehind : ¬ SplicedAt text behind) (hpos : 0 < (unspliced text).length) {region : Region}
    (hregion : region = regionAt (front ++ (text ++ behind)) (unspliced front).length
      (unspliced text).length) :
    front.length ≤ region.start ∧ region.start < region.stop ∧
      region.stop ≤ front.length + text.length := by
  have hstart := origin_append_right hfront 0
  have hstop := origin_append_right hfront ((unspliced text).length - 1)
  have hlast := origin_append_lt hbehind (Nat.sub_lt hpos Nat.one_pos)
  have hmono := origin_mono (text ++ behind) (Nat.zero_le ((unspliced text).length - 1))
  rw [Nat.add_zero] at hstart
  rw [hregion, regionAt, Nat.add_sub_assoc hpos, hstart, hstop]
  dsimp only
  omega

/-- Every region of C lies in one comment, literal or directive of a settled scan. -/
theorem exists_lexeme_of_mem_regionsOf {before text : Bytes} {region : Region}
    (hsettled : Settled (lexemes before text)) (hsplice : ¬ SplicedAt before.reverse text)
    (hregion : region ∈ regionsOf (before.reverse ++ text) (unspliced before.reverse).length
      ((lexemes before text).map Lexeme.unspliced)) :
    ∃ front lexeme back, lexemes before text = front ++ lexeme :: back ∧ lexeme.isRegion ∧
      before.length + (textOf front).length ≤ region.start ∧ region.start < region.stop ∧
      region.stop ≤ before.length + (textOf front).length + lexeme.text.length := by
  induction before, text using lexemes_induction with
  | nil before =>
    rw [lexemes_nil] at hregion
    cases hregion
  | @cons before b rest lexeme behind hnext ih =>
    rw [lexemes_cons hnext] at hsettled hregion ⊢
    obtain ⟨hends, -, hmore⟩ := hsettled
    rw [textOf_lexemes] at hends
    obtain ⟨text, htext, -⟩ := exists_text_eq_cons hnext
    have hfront : ¬ SplicedAt before.reverse lexeme.text := by
      rintro ⟨hlast, hhead⟩
      rw [htext] at hhead
      exact hsplice ⟨hlast, hhead⟩
    rw [List.map_cons, regionsOf, Lexeme.text_unspliced, Lexeme.isRegion_unspliced] at hregion
    rw [← append_of_nextLexeme hnext] at hsplice hregion
    rcases List.mem_append.mp hregion with hfirst | hothers
    · cases hkind : lexeme.isRegion with
      | false =>
        rw [hkind] at hfirst
        cases hfirst
      | true =>
        rw [hkind, if_pos rfl, List.mem_singleton] at hfirst
        have hbounds := bounds_regionAt hsplice hends (length_unspliced_pos hnext) hfirst
        rw [List.length_reverse] at hbounds
        exact ⟨[], lexeme, _, rfl, hkind, hbounds⟩
    · have hbefore : (lexeme.text.reverse ++ before).reverse = before.reverse ++ lexeme.text := by
        simp
      have hbehind : ¬ SplicedAt (before.reverse ++ lexeme.text) behind := by
        rintro ⟨hlast, hhead⟩
        rw [List.getLast?_append_of_ne_nil _ (by simp [htext])] at hlast
        exact hends ⟨hlast, hhead⟩
      rw [hbefore] at ih
      rw [← List.append_assoc, ← List.length_append, ← unspliced_append hfront] at hothers
      obtain ⟨front, other, back, hlexemes, hkind, hstart, hlt, hstop⟩ := ih hmore hbehind hothers
      refine ⟨lexeme :: front, other, back, by rw [hlexemes]; rfl, hkind, ?_⟩
      simp only [textOf_cons, List.length_append, List.length_reverse] at hstart hstop ⊢
      omega

/-- Every region of C lies in one comment, literal or directive of the scan. -/
theorem exists_lexeme_of_mem_regions {source : Bytes} {region : Region}
    (hhash : .mark Byte.hash ∉ lexemes [] source) (hsettled : Settled (lexemes [] source))
    (hregion : region ∈ regions source) :
    ∃ front lexeme back, lexemes [] source = front ++ lexeme :: back ∧ lexeme.isRegion ∧
      (textOf front).length ≤ region.start ∧ region.start < region.stop ∧
      region.stop ≤ (textOf front).length + lexeme.text.length := by
  rw [regions, units_unspliced hhash hsettled (.inr fun _ => rfl)] at hregion
  have hfound := exists_lexeme_of_mem_regionsOf hsettled (fun hsplice => nomatch hsplice.1) hregion
  simpa using hfound

end Units

example : regions (ofString "/* c */ # if x \\\n/*\n*/ y\nz") = [⟨0, 7⟩, ⟨8, 24⟩] := by
  decide +kernel

end PlainSync.Source
