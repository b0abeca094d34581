import PlainSync.Proofs.Source.Context
import PlainSync.Proofs.Source.Words

/-!
# Lexemes that are put together

A text put together from lexemes is cut into the same lexemes again if each of them ends where
the next one begins. A lexeme that is over in front of a space is over in front of every byte
that neither goes on with a lexeme nor makes a comment with the byte in front of it.
-/

namespace PlainSync.Source

open Bytes

/-! ## Bytes that end a lexeme -/

/-- A byte that is a lexeme of its own, whatever stands around it. -/
def standsAlone (b : UInt8) : Bool :=
  b ≠ Byte.slash && b ≠ Byte.doubleQuote && b ≠ Byte.quote && b ≠ Byte.hash &&
    !Byte.continuesIdentifier b

/-- A byte of its own that ends every lexeme in front of it. -/
def separates (b : UInt8) : Bool := standsAlone b && b ≠ Byte.dot && b ≠ Byte.star

/-- No comment or literal begins with a byte that stands alone. -/
theorem splitTrivia?_of_standsAlone {b : UInt8} (hb : standsAlone b) (rest : Bytes) :
    splitTrivia? (b :: rest) = none := by
  simp only [standsAlone, Bool.and_eq_true, decide_eq_true_eq] at hb
  simp only [splitTrivia?, if_neg hb.1.1.1.1, hb.1.1.1.2, hb.1.1.2, or_self, if_false]

/-- A byte that stands alone is a lexeme of its own. -/
theorem nextLexeme_of_standsAlone {b : UInt8} (hb : standsAlone b) (before rest : Bytes) :
    nextLexeme before b rest = (.mark b, rest) := by
  have htrivia := splitTrivia?_of_standsAlone hb rest
  simp only [standsAlone, Bool.and_eq_true, decide_eq_true_eq, Bool.not_eq_true'] at hb
  obtain ⟨⟨-, hhash⟩, hword⟩ := hb
  have hdigit : ¬ Byte.isDigit b := by
    intro hdigit
    rw [Byte.continuesIdentifier, Byte.isAlphanumeric, hdigit, Bool.or_true, Bool.or_true] at hword
    cases hword
  have hstarts : ¬ Byte.startsIdentifier b := by
    intro hstarts
    simp only [Byte.startsIdentifier, Bool.or_eq_true, decide_eq_true_eq] at hstarts
    rcases hstarts with hunderscore | hletter
    · simp [Byte.continuesIdentifier, hunderscore] at hword
    · simp [Byte.continuesIdentifier, Byte.isAlphanumeric, hletter] at hword
  rw [nextLexeme, htrivia]
  simp only [hhash, false_and, if_false, if_neg hdigit, if_neg hstarts]

/-- What a byte that separates is not. -/
theorem ne_of_separates {b : UInt8} (hb : separates b) :
    b ≠ Byte.slash ∧ b ≠ Byte.star ∧ b ≠ Byte.dot ∧ b ≠ Byte.quote ∧
      Byte.continuesIdentifier b = false := by
  simp only [separates, standsAlone, Bool.and_eq_true, decide_eq_true_eq, Bool.not_eq_true'] at hb
  obtain ⟨⟨⟨⟨⟨⟨hslash, -⟩, hquote⟩, -⟩, hword⟩, hdot⟩, hstar⟩ := hb
  exact ⟨hslash, hstar, hdot, hquote, hword⟩

/-! ## Units that are over -/

section Over

variable {c : UInt8} {body unit : Bytes}

/-- A literal that is over ends there whatever follows it. -/
theorem splitLiteralBody_of_over {mark : UInt8} (hc : c ≠ Byte.newline)
    (hbody : splitLiteralBody mark (body ++ [c]) = (body, [c])) (behind : Bytes) :
    splitLiteralBody mark (body ++ behind) = (body, behind) := by
  fun_induction splitLiteralBody mark body with
  | case1 =>
    rw [List.nil_append, splitLiteralBody.eq_def] at hbody
    simp only [if_neg hc] at hbody
    split at hbody
    · cases hbody
    · split at hbody <;> cases hbody
  | case2 => cases hbody
  | case3 c rest body behind' hsplit ih =>
    simp only [List.cons_append, splitLiteralBody, if_true, Prod.mk.injEq, List.cons.injEq,
      true_and] at hbody ⊢
    have hrest := ih (Prod.ext hbody.1 hbody.2)
    rw [hrest]
    exact ⟨rfl, rfl⟩
  | case4 rest hescape =>
    rw [List.cons_append, splitLiteralBody_cons mark hescape, if_pos rfl] at hbody
    cases hbody
  | case5 rest hescape hnewline =>
    rw [List.cons_append, splitLiteralBody_cons _ hescape, if_neg hnewline, if_pos rfl,
      Prod.mk.injEq, List.cons.injEq] at hbody
    rw [← hbody.1.2, List.cons_append, splitLiteralBody_cons _ hescape, if_neg hnewline, if_pos rfl]
    rfl
  | case6 b rest hescape hnewline hmark body behind' hsplit ih =>
    rw [List.cons_append, splitLiteralBody_cons _ hescape, if_neg hnewline, if_neg hmark,
      Prod.mk.injEq, List.cons.injEq] at hbody
    have hrest := ih (Prod.ext hbody.1.2 hbody.2)
    rw [List.cons_append, splitLiteralBody_cons _ hescape, if_neg hnewline, if_neg hmark, hrest]

/-- A block comment that is over ends there whatever follows it. -/
theorem splitBlockCommentBody_of_over
    (hbody : splitBlockCommentBody (body ++ [c]) = (body, [c])) (behind : Bytes) :
    splitBlockCommentBody (body ++ behind) = (body, behind) := by
  fun_induction splitBlockCommentBody body with
  | case1 => cases hbody
  | case2 b =>
    rw [List.cons_append, List.nil_append, splitBlockCommentBody] at hbody
    split at hbody <;> cases hbody
  | case3 b c rest hclose =>
    rw [List.cons_append, List.cons_append, splitBlockCommentBody, if_pos hclose, Prod.mk.injEq,
      List.cons.injEq, List.cons.injEq] at hbody
    rw [← hbody.1.2.2, List.cons_append, List.cons_append, splitBlockCommentBody, if_pos hclose]
    rfl
  | case4 b c rest hclose body behind' hsplit ih =>
    rw [List.cons_append, List.cons_append, splitBlockCommentBody, if_neg hclose, Prod.mk.injEq,
      List.cons.injEq] at hbody
    have hrest := ih (Prod.ext hbody.1.2 hbody.2)
    rw [List.cons_append] at hrest
    rw [List.cons_append, List.cons_append, splitBlockCommentBody, if_neg hclose, hrest]

/-- A comment or literal that is over in front of a byte of its line reads nothing of what stands
behind it. -/
theorem splitTrivia?_of_over (hc : c ≠ Byte.newline)
    (hunit : splitTrivia? (unit ++ [c]) = some (unit, [c])) (behind : Bytes) :
    splitTrivia? (unit ++ behind) = some (unit, behind) := by
  cases unit with
  | nil => exact absurd (length_pos_of_splitTrivia? hunit) (by decide)
  | cons b rest =>
    by_cases hslash : b = Byte.slash
    · subst hslash
      cases rest with
      | nil => exact absurd (two_le_of_splitTrivia? hunit) (by decide)
      | cons d rest =>
        simp only [List.cons_append, splitTrivia?, if_true] at hunit ⊢
        by_cases hstar : d = Byte.star
        · simp only [if_pos hstar, Option.some.injEq, Prod.mk.injEq, List.cons.injEq,
            true_and] at hunit ⊢
          rw [splitBlockCommentBody_of_over (Prod.ext hunit.1 hunit.2)]
          exact ⟨rfl, rfl⟩
        · simp only [if_neg hstar] at hunit ⊢
          split at hunit
          · -- A line comment takes the byte along.
            have hend := splitLine_end (rest ++ [c])
            rw [Option.some.injEq, Prod.mk.injEq] at hunit
            rw [hunit.2] at hend
            exact absurd (hend _ rfl) hc
          · cases hunit
    · simp only [List.cons_append, splitTrivia?, if_neg hslash] at hunit ⊢
      by_cases hquote : b = Byte.doubleQuote ∨ b = Byte.quote
      · simp only [if_pos hquote, splitLiteral, Option.some.injEq, Prod.mk.injEq, List.cons.injEq,
          true_and] at hunit ⊢
        rw [splitLiteralBody_of_over hc (Prod.ext hunit.1 hunit.2)]
        exact ⟨rfl, rfl⟩
      · rw [if_neg hquote] at hunit
        cases hunit

end Over

/-- A number stays the same if it also ends in front of the other text. -/
theorem splitNumberBody_exchange {behind behind' : Bytes}
    (hends : ∀ previous, (splitNumberBody previous behind).1 = [] →
      (splitNumberBody previous behind').1 = [])
    {previous : UInt8} {body : Bytes}
    (hbody : splitNumberBody previous (body ++ behind) = (body, behind)) :
    splitNumberBody previous (body ++ behind') = (body, behind') := by
  induction body generalizing previous with
  | nil =>
    have hnone := hends previous (congrArg Prod.fst hbody)
    have hwhole := splitNumberBody_append previous behind'
    rw [hnone, List.nil_append] at hwhole
    exact Prod.ext hnone hwhole
  | cons b body ih =>
    rw [List.cons_append, splitNumberBody] at hbody ⊢
    split at hbody
    · next hnumber =>
      rw [Prod.mk.injEq, List.cons.injEq] at hbody
      have hmore : splitNumberBody b (body ++ behind) = (body, behind) :=
        Prod.ext hbody.1.2 hbody.2
      have hsame : Byte.continuesIdentifier b ∨ b = Byte.dot ∨ (b = Byte.quote ∧
          Byte.isAlphanumeric previous ∧ (body ++ behind').head?.any Byte.isAlphanumeric) := by
        refine hnumber.imp_right (Or.imp_right fun hquote => ⟨hquote.1, hquote.2.1, ?_⟩)
        cases body with
        | cons c body => exact hquote.2.2
        | nil =>
          -- A letter or digit behind the quote would belong to the number.
          cases behind with
          | nil => exact absurd hquote.2.2 (by decide)
          | cons c behind =>
            have hc : Byte.continuesIdentifier c := by
              simp [Byte.continuesIdentifier, show Byte.isAlphanumeric c from hquote.2.2]
            have hfirst := congrArg Prod.fst hmore
            rw [List.nil_append, splitNumberBody, if_pos (.inl hc)] at hfirst
            cases hfirst
      rw [if_pos hsame, ih hmore]
    · cases hbody

/-- A byte that goes on with no word and no number. -/
def endsWord (b : UInt8) : Bool :=
  b ≠ Byte.dot && b ≠ Byte.quote && !Byte.continuesIdentifier b

/-- What separates ends words. -/
theorem endsWord_of_separates {b : UInt8} (hb : separates b) : endsWord b := by
  obtain ⟨-, -, hdot, hquote, hword⟩ := ne_of_separates hb
  simp [endsWord, hdot, hquote, hword]

/-- What ends words continues no identifier. -/
theorem not_continuesIdentifier_of_endsWord {b : UInt8} (hb : endsWord b) :
    ¬ Byte.continuesIdentifier b := by
  simp only [endsWord, Bool.and_eq_true, Bool.not_eq_true'] at hb
  simp [hb.2]

/-- No number goes on with what ends words. -/
theorem splitNumberBody_of_endsWord (previous : UInt8) {behind : Bytes}
    (hhead : ∀ c ∈ behind.head?, endsWord c) : (splitNumberBody previous behind).1 = [] := by
  cases behind with
  | nil => rfl
  | cons c behind =>
    have hc := hhead c rfl
    have hword := not_continuesIdentifier_of_endsWord hc
    simp only [endsWord, Bool.and_eq_true, decide_eq_true_eq] at hc
    rw [splitNumberBody, if_neg]
    rintro (hcontinues | hsame | ⟨hsame, -⟩)
    · exact hword hcontinues
    · exact hc.1.1 hsame
    · exact hc.1.2 hsame

/-- No number goes on with what separates. -/
theorem splitNumberBody_of_separates (previous : UInt8) {behind : Bytes}
    (hhead : ∀ c ∈ behind.head?, separates c) : (splitNumberBody previous behind).1 = [] :=
  splitNumberBody_of_endsWord previous fun c hc => endsWord_of_separates (hhead c hc)

/-! ## A lexeme and what stands behind it -/

/-- The lexeme is read in front of a text, whatever stands before it. -/
def Lexeme.StandsBefore (lexeme : Lexeme) (behind : Bytes) : Prop :=
  ∃ b rest, lexeme.text = b :: rest ∧ b ≠ Byte.hash ∧
    nextLexeme [] b (rest ++ behind) = (lexeme, behind)

/-- A lexeme that is over in front of a space. -/
def Lexeme.Firm (lexeme : Lexeme) : Prop := lexeme.StandsBefore [Byte.space]

/-- What stands in front of a lexeme matters to hash marks only. -/
theorem nextLexeme_of_ne_hash {b : UInt8} (hb : b ≠ Byte.hash) (before before' rest : Bytes) :
    nextLexeme before' b rest = nextLexeme before b rest := by
  unfold nextLexeme
  simp only [hb, false_and, if_false]

/-- A lexeme that stands before a text is read there. -/
theorem Lexeme.StandsBefore.nextLexeme_eq {lexeme : Lexeme} {behind rest : Bytes} {b : UInt8}
    (hstands : lexeme.StandsBefore behind) (htext : lexeme.text = b :: rest) (before : Bytes) :
    nextLexeme before b (rest ++ behind) = (lexeme, behind) := by
  obtain ⟨c, more, hcons, hhash, hnext⟩ := hstands
  rw [htext, List.cons.injEq] at hcons
  obtain ⟨rfl, rfl⟩ := hcons
  rw [nextLexeme_of_ne_hash hhash, hnext]

/-- A lexeme that is read stands before the rest. -/
theorem standsBefore_of_nextLexeme {lexeme : Lexeme} {before behind rest : Bytes} {b : UInt8}
    (hnext : nextLexeme before b rest = (lexeme, behind)) (hb : b ≠ Byte.hash) :
    lexeme.StandsBefore behind := by
  obtain ⟨text, htext, rfl⟩ := exists_text_eq_cons hnext
  exact ⟨b, text, htext, hb, by rw [nextLexeme_of_ne_hash hb before, hnext]⟩

/-- A byte that stands alone does so before any text. -/
theorem standsBefore_mark {b : UInt8} (hb : standsAlone b) (behind : Bytes) :
    (Lexeme.mark b).StandsBefore behind := by
  refine ⟨b, [], rfl, ?_, nextLexeme_of_standsAlone hb [] behind⟩
  rintro rfl
  exact absurd hb (by decide)

/-- A byte that stands alone is firm. -/
theorem firm_mark {b : UInt8} (hb : standsAlone b) : (Lexeme.mark b).Firm :=
  standsBefore_mark hb _

/-- A lexeme that is over in front of a byte of its line is over in front of every byte that ends
words, unless it is a slash that begins a comment there. -/
theorem nextLexeme_of_endsWord {before text behind : Bytes} {b c : UInt8} {lexeme : Lexeme}
    (hnext : nextLexeme before b (text ++ [c]) = (lexeme, [c])) (hc : c ≠ Byte.newline)
    (hhead : ∀ d ∈ behind.head?, endsWord d)
    (hslash : b :: text = [Byte.slash] → splitTrivia? (Byte.slash :: behind) = none) :
    nextLexeme before b (text ++ behind) = (lexeme, behind) := by
  have htext : lexeme.text = b :: text := by
    have hwhole := append_of_nextLexeme hnext
    rw [← List.cons_append] at hwhole
    exact List.append_cancel_right hwhole
  unfold nextLexeme at hnext ⊢
  cases htrivia : splitTrivia? (b :: (text ++ [c])) with
  | some split =>
    obtain ⟨unit, rest⟩ := split
    rw [htrivia, Prod.mk.injEq] at hnext
    obtain ⟨rfl, rfl⟩ := hnext
    simp only [Lexeme.text] at htext
    rw [htext, ← List.cons_append] at htrivia
    rw [← List.cons_append, splitTrivia?_of_over hc htrivia, htext]
  | none =>
    rw [htrivia] at hnext
    dsimp only at hnext
    have hnone : splitTrivia? (b :: (text ++ behind)) = none := by
      by_cases hnil : text = []
      · subst hnil
        by_cases hb : b = Byte.slash
        · subst hb
          exact hslash rfl
        · simp only [List.nil_append, splitTrivia?, if_neg hb] at htrivia ⊢
          split at htrivia
          · cases htrivia
          · next hquote => rw [if_neg hquote]
      · exact splitTrivia?_append_none behind (splitTrivia?_cut_none htrivia) hnil
    rw [hnone]
    dsimp only
    by_cases hhash : b = Byte.hash ∧ atLineStart before
    · -- A directive ends in front of a line end.
      rw [if_pos hhash, Prod.mk.injEq] at hnext
      have hend := splitDirective_end (b :: before) (text ++ [c])
      rw [hnext.2] at hend
      exact absurd (hend c rfl) hc
    rw [if_neg hhash] at hnext ⊢
    by_cases hdigit : Byte.isDigit b
    · simp only [if_pos hdigit, Prod.mk.injEq] at hnext ⊢
      obtain ⟨rfl, hbehind⟩ := hnext
      simp only [Lexeme.text, List.cons.injEq, true_and] at htext
      rw [splitNumberBody_exchange (fun previous _ => splitNumberBody_of_endsWord previous hhead)
        (Prod.ext htext hbehind), htext]
      exact ⟨rfl, rfl⟩
    · simp only [if_neg hdigit] at hnext ⊢
      by_cases hstarts : Byte.startsIdentifier b
      · simp only [if_pos hstarts, Prod.mk.injEq] at hnext ⊢
        obtain ⟨rfl, hbehind⟩ := hnext
        simp only [Lexeme.text, List.cons.injEq, true_and] at htext
        have hall : ∀ d ∈ text, Byte.continuesIdentifier d := by
          rw [← htext]
          exact List.all_eq_true.mp List.all_takeWhile
        have hstop : behind.takeWhile Byte.continuesIdentifier = [] ∧
            behind.dropWhile Byte.continuesIdentifier = behind := by
          cases behind with
          | nil => exact ⟨rfl, rfl⟩
          | cons d behind =>
            have hword := not_continuesIdentifier_of_endsWord (hhead d rfl)
            exact ⟨List.takeWhile_cons_of_neg hword, List.dropWhile_cons_of_neg hword⟩
        rw [List.takeWhile_append_of_pos hall, List.dropWhile_append_of_pos hall, hstop.1,
          hstop.2, htext, List.append_nil]
        exact ⟨rfl, rfl⟩
      · simp only [if_neg hstarts, Prod.mk.injEq] at hnext ⊢
        rw [List.append_cancel_right (hnext.2.trans (List.nil_append [c]).symm)]
        exact ⟨hnext.1, rfl⟩

/-- A lexeme that is over in front of a byte of its line is over in front of every byte that
separates. -/
theorem nextLexeme_of_separates {before text behind : Bytes} {b c : UInt8} {lexeme : Lexeme}
    (hnext : nextLexeme before b (text ++ [c]) = (lexeme, [c])) (hc : c ≠ Byte.newline)
    (hhead : ∀ d ∈ behind.head?, separates d) :
    nextLexeme before b (text ++ behind) = (lexeme, behind) := by
  have hword : ∀ d ∈ behind.head?, endsWord d := fun d hd => endsWord_of_separates (hhead d hd)
  refine nextLexeme_of_endsWord hnext hc hword fun _ => ?_
  cases behind with
  | nil => rfl
  | cons d behind =>
    obtain ⟨hline, hstar, -⟩ := ne_of_separates (hhead d rfl)
    simp only [splitTrivia?, if_true, if_neg hstar, if_neg hline]

/-- A firm lexeme stands before whatever separates. -/
theorem Lexeme.Firm.standsBefore {lexeme : Lexeme} {behind : Bytes} (hfirm : lexeme.Firm)
    (hhead : ∀ c ∈ behind.head?, separates c) : lexeme.StandsBefore behind := by
  obtain ⟨b, rest, htext, hhash, hnext⟩ := hfirm
  exact ⟨b, rest, htext, hhash, nextLexeme_of_separates hnext (by decide) hhead⟩

/-- What a lexeme can see of the text behind it: the next byte, and whether a letter or digit
stands behind that. -/
def sight (text : Bytes) : Option UInt8 × Bool :=
  (text.head?, text.tail.head?.any Byte.isAlphanumeric)

/-- Texts that look the same begin with the same byte. -/
theorem head?_of_sight {text text' : Bytes} (hsight : sight text' = sight text) :
    text'.head? = text.head? := congrArg Prod.fst hsight

/-- Behind a text that is not empty, only letters and digits can be seen. -/
theorem sight_append {text behind behind' : Bytes} (htext : text ≠ [])
    (hhead : behind'.head?.any Byte.isAlphanumeric = behind.head?.any Byte.isAlphanumeric) :
    sight (text ++ behind') = sight (text ++ behind) := by
  match text with
  | [b] => exact Prod.ext rfl hhead
  | b :: c :: text => rfl

/-- A number ends alike in front of texts that look alike. -/
theorem splitNumberBody_of_sight {behind behind' : Bytes} (hsight : sight behind' = sight behind)
    (previous : UInt8) (hends : (splitNumberBody previous behind).1 = []) :
    (splitNumberBody previous behind').1 = [] := by
  cases behind with
  | nil =>
    have hnil := head?_of_sight hsight
    rw [List.head?_nil, List.head?_eq_none_iff] at hnil
    rw [hnil]
    rfl
  | cons c behind =>
    obtain ⟨more, rfl⟩ := List.head?_eq_some_iff.mp (head?_of_sight hsight)
    have hsecond : more.head?.any Byte.isAlphanumeric = behind.head?.any Byte.isAlphanumeric :=
      congrArg Prod.snd hsight
    rw [splitNumberBody] at hends ⊢
    rw [hsecond]
    split at hends
    · cases hends
    · next hnumber => rw [if_neg hnumber]

/-- What stands behind a lexeme can be exchanged for a text that looks alike. -/
theorem nextLexeme_of_sight {before text behind behind' : Bytes} {b : UInt8} {lexeme : Lexeme}
    (hnext : nextLexeme before b (text ++ behind) = (lexeme, behind))
    (hsight : sight behind' = sight behind) :
    nextLexeme before b (text ++ behind') = (lexeme, behind') := by
  cases hnumber : lexeme.number? with
  | none => exact nextLexeme_exchange hnext hnumber (head?_of_sight hsight)
  | some body =>
    have htext : lexeme.text = b :: text := by
      have hwhole := append_of_nextLexeme hnext
      rw [← List.cons_append] at hwhole
      exact List.append_cancel_right hwhole
    cases lexeme with
    | number digits =>
      unfold nextLexeme at hnext ⊢
      split at hnext
      · cases hnext
      · split at hnext
        · cases hnext
        · next hhash =>
          split at hnext
          · next hdigit =>
            rw [splitTrivia?_of_isPlain (isPlain_of_isDigit hdigit)]
            rw [Prod.mk.injEq, Lexeme.number.injEq] at hnext
            simp only [Lexeme.text] at htext
            rw [htext, List.cons.injEq] at hnext
            simp only [if_neg hhash, if_pos hdigit, splitNumberBody_exchange
              (splitNumberBody_of_sight hsight) (Prod.ext hnext.1.2 hnext.2), htext]
          · split at hnext <;> cases hnext
    | _ => cases hnumber

/-- A lexeme stands before anything that looks the same. -/
theorem Lexeme.StandsBefore.of_sight {lexeme : Lexeme} {behind behind' : Bytes}
    (hstands : lexeme.StandsBefore behind) (hsight : sight behind' = sight behind) :
    lexeme.StandsBefore behind' := by
  obtain ⟨b, rest, htext, hhash, hnext⟩ := hstands
  exact ⟨b, rest, htext, hhash, nextLexeme_of_sight hnext hsight⟩

/-- What stands behind a lexeme can be cut off. -/
theorem Lexeme.StandsBefore.cut {lexeme : Lexeme} {behind tail : Bytes}
    (hstands : lexeme.StandsBefore (behind ++ tail)) : lexeme.StandsBefore behind := by
  obtain ⟨b, rest, htext, hhash, hnext⟩ := hstands
  rw [← List.append_assoc] at hnext
  exact ⟨b, rest, htext, hhash, nextLexeme_cut hnext⟩

/-- No empty lexeme stands anywhere. -/
theorem Lexeme.StandsBefore.text_ne_nil {lexeme : Lexeme} {behind : Bytes}
    (hstands : lexeme.StandsBefore behind) : lexeme.text ≠ [] := by
  obtain ⟨b, rest, htext, -⟩ := hstands
  rw [htext]
  exact List.cons_ne_nil b rest

/-- What kind a lexeme is of, and why it ends in front of `behind`. -/
inductive Ends (behind : Bytes) : Lexeme → Prop
  | trivia {b : UInt8} {rest : Bytes}
    (htrivia : splitTrivia? (b :: (rest ++ behind)) = some (b :: rest, behind)) :
    Ends behind (.trivia (b :: rest))
  | number {b : UInt8} {body : Bytes} (hdigit : Byte.isDigit b)
    (hbody : splitNumberBody b (body ++ behind) = (body, behind)) :
    Ends behind (.number (b :: body))
  | word {b : UInt8} {rest : Bytes} (hstarts : Byte.startsIdentifier b)
    (hrest : ∀ c ∈ rest, Byte.continuesIdentifier c) : Ends behind (.word (b :: rest))
  | mark {b : UInt8} (htrivia : splitTrivia? (b :: behind) = none)
    (hword : Byte.continuesIdentifier b = false) : Ends behind (.mark b)

/-- A lexeme that stands before a text ends there. -/
theorem Lexeme.StandsBefore.ends {lexeme : Lexeme} {behind : Bytes}
    (hstands : lexeme.StandsBefore behind) : Ends behind lexeme := by
  obtain ⟨b, rest, htext, hhash, hnext⟩ := hstands
  generalize htail : rest ++ behind = tail at hnext
  cases firstLexeme hnext with
  | @trivia unit _ htrivia =>
    simp only [Lexeme.text] at htext
    rw [htext, ← htail] at htrivia
    rw [htext]
    exact .trivia htrivia
  | directive _ hstart => exact absurd hstart.1 hhash
  | number _ hdigit => exact .number hdigit (by rw [splitNumberBody_append])
  | word _ hstarts => exact .word hstarts (List.all_eq_true.mp List.all_takeWhile)
  | mark htrivia => exact .mark htrivia (not_continuesIdentifier_of_mark hnext)

/-- A number has word bytes and separators. -/
theorem mem_splitNumberBody (previous : UInt8) (text : Bytes) :
    ∀ c ∈ (splitNumberBody previous text).1, joinsWord c ∨ c = Byte.quote := by
  fun_induction splitNumberBody previous text with
  | case1 => exact fun c hc => absurd hc List.not_mem_nil
  | case2 previous b rest hnumber body behind hsplit ih =>
    rw [hsplit] at ih
    refine List.forall_mem_cons.mpr ⟨?_, ih⟩
    rcases hnumber with hword | hdot | ⟨hquote, -⟩
    · simp [joinsWord, hword]
    · simp [joinsWord, hdot]
    · exact .inr hquote
  | case3 => exact fun c hc => absurd hc List.not_mem_nil

/-- A byte of its own does not end a longer lexeme that is over. -/
theorem Lexeme.Firm.eq_mark {lexeme : Lexeme} (hfirm : lexeme.Firm) {b : UInt8}
    (hlast : b ∈ lexeme.text.getLast?) (hb : standsAlone b) (hdot : b ≠ Byte.dot) :
    lexeme = .mark b := by
  have hmem := List.mem_of_getLast? hlast
  simp only [standsAlone, Bool.and_eq_true, decide_eq_true_eq, Bool.not_eq_true'] at hb
  obtain ⟨⟨⟨⟨hslash, hdouble⟩, hquote⟩, -⟩, hword⟩ := hb
  have hjoins : ¬ joinsWord b := by simp [joinsWord, hword, hdot]
  cases hfirm.ends with
  | trivia htrivia =>
    rcases splitTrivia?_end htrivia with hnewline | ⟨c, hc, hclose⟩
    · exact absurd (hnewline _ rfl) (by decide)
    · obtain rfl := Option.some.inj (hc.symm.trans hlast)
      rcases hclose with hsame | hsame | hsame
      · exact absurd hsame hslash
      · exact absurd hsame hdouble
      · exact absurd hsame hquote
  | @number first body hdigit hbody =>
    have hall := mem_splitNumberBody first (body ++ [Byte.space])
    rw [hbody] at hall
    rcases List.mem_cons.mp hmem with rfl | hin
    · exact absurd (joinsWord_of_isDigit hdigit) hjoins
    · exact ((hall b hin).resolve_left hjoins |> hquote).elim
  | word hstarts hrest =>
    rcases List.mem_cons.mp hmem with rfl | hin
    · exact absurd (joinsWord_of_startsIdentifier hstarts) hjoins
    · rw [hrest b hin] at hword
      cases hword
  | mark => rw [List.mem_singleton.mp hmem]

/-! ## Lists of lexemes -/

/-- Every lexeme of a list ends where the next one begins, and the last one in front of
`behind`. -/
def Joined (behind : Bytes) : List Lexeme → Prop
  | [] => True
  | lexeme :: more => lexeme.StandsBefore (textOf more ++ behind) ∧ Joined behind more

/-- Lexemes are joined in two lists one behind the other. -/
theorem joined_append {behind : Bytes} {front back : List Lexeme} :
    Joined behind (front ++ back) ↔ Joined (textOf back ++ behind) front ∧ Joined behind back := by
  induction front with
  | nil => exact ⟨fun hback => ⟨trivial, hback⟩, And.right⟩
  | cons lexeme front ih =>
    rw [List.cons_append, Joined, Joined, ih, textOf_append, List.append_assoc, and_assoc]

/-- Joined lexemes are so at the end of their text. -/
theorem Joined.cut {behind : Bytes} {list : List Lexeme} (hjoined : Joined behind list) :
    Joined [] list := by
  induction list with
  | nil => trivial
  | cons lexeme more ih =>
    refine ⟨?_, ih hjoined.2⟩
    rw [List.append_nil]
    exact hjoined.1.cut

/-- Joined lexemes are so in front of anything that looks the same. -/
theorem Joined.of_sight {behind behind' : Bytes} {list : List Lexeme}
    (hjoined : Joined behind list) (hsight : sight behind' = sight behind) :
    Joined behind' list := by
  induction list with
  | nil => trivial
  | cons lexeme more ih =>
    refine ⟨hjoined.1.of_sight ?_, ih hjoined.2⟩
    by_cases hnil : textOf more = []
    · rw [hnil]
      exact hsight
    · exact sight_append hnil (by rw [head?_of_sight hsight])

/-- A list of lexemes is read back from its text. -/
theorem lexemes_of_joined {behind : Bytes} {list : List Lexeme} (hjoined : Joined behind list)
    (before : Bytes) :
    lexemes before (textOf list ++ behind) =
      list ++ lexemes ((textOf list).reverse ++ before) behind := by
  induction list generalizing before with
  | nil => rfl
  | cons lexeme more ih =>
    obtain ⟨hstands, hmore⟩ := hjoined
    obtain ⟨b, rest, htext⟩ := List.exists_cons_of_ne_nil hstands.text_ne_nil
    have hnext := hstands.nextLexeme_eq htext before
    rw [textOf_cons, List.append_assoc, htext, List.cons_append, lexemes_cons hnext, ← htext,
      ih hmore, List.reverse_append, List.append_assoc, List.cons_append]

/-- A byte of its own at the front of a text is the first of its lexemes. -/
theorem Joined.exists_mark {behind : Bytes} {list : List Lexeme} (hjoined : Joined behind list)
    {b : UInt8} {rest : Bytes} (htext : textOf list = b :: rest) (hb : standsAlone b) :
    ∃ more, list = .mark b :: more ∧ textOf more = rest := by
  cases list with
  | nil => cases htext
  | cons lexeme more =>
    obtain ⟨c, text, hcons⟩ := List.exists_cons_of_ne_nil hjoined.1.text_ne_nil
    rw [textOf_cons, hcons, List.cons_append, List.cons.injEq] at htext
    obtain ⟨rfl, rfl⟩ := htext
    have hmark := hjoined.1.nextLexeme_eq hcons []
    rw [nextLexeme_of_standsAlone hb, Prod.mk.injEq] at hmark
    obtain ⟨rfl, -⟩ := hmark
    obtain rfl : [] = text := (List.cons.inj hcons).2
    exact ⟨more, rfl, rfl⟩

/-- The lexemes of a text without hash marks are put together so. -/
theorem joined_lexemes {before text : Bytes}
    (hhash : ∀ lexeme ∈ lexemes before text, lexeme.text.head? ≠ some Byte.hash) :
    Joined [] (lexemes before text) := by
  induction before, text using lexemes_induction with
  | nil before => rw [lexemes_nil]; trivial
  | @cons before b rest lexeme behind hnext ih =>
    rw [lexemes_cons hnext] at hhash ⊢
    obtain ⟨text, htext, -⟩ := exists_text_eq_cons hnext
    have hb : b ≠ Byte.hash := by
      have hfirst := hhash lexeme List.mem_cons_self
      rw [htext] at hfirst
      exact fun hsame => hfirst (congrArg some hsame)
    refine ⟨?_, ih fun other hother => hhash other (List.mem_cons_of_mem _ hother)⟩
    rw [textOf_lexemes, List.append_nil]
    exact standsBefore_of_nextLexeme hnext hb

/-- A list of lexemes that are over can be put in front of every byte that separates. -/
theorem Joined.of_separates {behind : Bytes} {list : List Lexeme} (hjoined : Joined [] list)
    (hfirm : ∀ lexeme ∈ list, lexeme.Firm) (hhead : ∀ c ∈ behind.head?, separates c) :
    Joined behind list := by
  induction list with
  | nil => trivial
  | cons lexeme more ih =>
    obtain ⟨hstands, hmore⟩ := hjoined
    have hmoreFirm : ∀ other ∈ more, other.Firm := fun other hother =>
      hfirm other (List.mem_cons_of_mem _ hother)
    refine ⟨?_, ih hmore hmoreFirm⟩
    by_cases hnil : textOf more = []
    · rw [hnil]
      exact (hfirm lexeme List.mem_cons_self).standsBefore hhead
    · refine hstands.of_sight (sight_append hnil ?_)
      cases behind with
      | nil => rfl
      | cons c behind =>
        obtain ⟨-, -, -, -, hword⟩ := ne_of_separates (hhead c rfl)
        have halphanumeric : Byte.isAlphanumeric c = false := by
          rw [Byte.continuesIdentifier, Bool.or_eq_false_iff] at hword
          exact hword.2
        exact halphanumeric

end PlainSync.Source
