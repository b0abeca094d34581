import PlainSync.Proofs.Source.Lexeme
import PlainSync.Source.Outline

/-!
# Outlines lexeme by lexeme

The outline of a source moves on by one lexeme, or by a whole call if the lexeme opens one
that can be expanded. Induction over these steps reaches the operands of the calls as well.
-/

namespace PlainSync.Source

open Bytes

/-- The names and numbers of a source stay on one line. -/
theorem newlines_eq_zero_of_all {text : Bytes} {p : UInt8 → Bool} (hp : p Byte.newline = false)
    (htext : ∀ b ∈ text, p b = true) : newlines text = 0 := by
  rw [newlines, List.count_eq_zero]
  intro hnewline
  have htrue := htext _ hnewline
  rw [hp] at htrue
  exact Bool.false_ne_true htrue

/-- Any other byte is no line end. -/
theorem newlines_cons_of_ne {b : UInt8} (hb : b ≠ Byte.newline) (rest : Bytes) :
    newlines (b :: rest) = newlines rest := by
  rw [newlines, List.count_cons_of_ne hb]
  rfl

/-- No number goes over a line end. -/
theorem newlines_splitNumberBody (previous : UInt8) (text : Bytes) :
    newlines (splitNumberBody previous text).1 = 0 := by
  fun_induction splitNumberBody previous text with
  | case1 previous => rfl
  | case2 previous b rest hnumber body behind hsplit ih =>
    have hb : b ≠ Byte.newline := by
      rintro rfl
      rcases hnumber with hword | hdot | ⟨hquote, -⟩
      · exact absurd hword (by decide)
      · exact absurd hdot (by decide)
      · exact absurd hquote (by decide)
    simp only [hsplit] at ih
    simpa [newlines, List.count_cons, hb] using ih
  | case3 => rfl

/-- A number is on one line. -/
theorem newlines_number {b : UInt8} (hdigit : Byte.isDigit b) (rest : Bytes) :
    newlines (b :: (splitNumberBody b rest).1) = 0 := by
  have hb : b ≠ Byte.newline := by
    rintro rfl
    exact absurd hdigit (by decide)
  rw [newlines_cons_of_ne hb, newlines_splitNumberBody]

/-- A word is on one line. -/
theorem newlines_word {b : UInt8} (hstarts : Byte.startsIdentifier b) (rest : Bytes) :
    newlines (b :: rest.takeWhile Byte.continuesIdentifier) = 0 := by
  have hb : b ≠ Byte.newline := by
    rintro rfl
    exact absurd hstarts (by decide)
  rw [newlines_cons_of_ne hb]
  exact newlines_eq_zero_of_all (by decide) (List.all_eq_true.mp List.all_takeWhile)

/-- An outline moves on by one lexeme, or by a call that can be expanded. -/
theorem outline_cons (line : Nat) (before : Bytes) (b : UInt8) (rest : Bytes) :
    outline line before (b :: rest) =
      match nextLexeme before b rest with
      | (lexeme, behind) =>
        match opening? lexeme behind with
        | none =>
          .verbatim lexeme.text ::
            outline (line + newlines lexeme.text) (lexeme.text.reverse ++ before) behind
        | some (builtin, gap, inner) =>
          match judge builtin (line + newlines gap)
              (Byte.openParen :: gap.reverse ++ lexeme.text.reverse ++ before) inner with
          | .error reason =>
            .kept builtin line reason :: outline line (lexeme.text.reverse ++ before) behind
          | .ok list =>
            .call builtin gap list
                (outlineOperands (line + newlines gap)
                  (list.arguments.take builtin.operandCount)) ::
              outline (line + newlines (callTail gap list))
                ((callTail gap list).reverse ++ lexeme.text.reverse ++ before) list.behind := by
  rw [outline, nextLexeme]
  cases htrivia : splitTrivia? (b :: rest) with
  | some split => rfl
  | none =>
    by_cases hhash : b = Byte.hash ∧ atLineStart before
    · have hline := newlines_cons_of_ne (show b ≠ Byte.newline by rw [hhash.1]; decide)
        (splitDirective (b :: before) rest).1
      simp only [hhash, and_self, if_true, Lexeme.text, opening?]
      simp only [← hhash.1, hline, List.reverse_cons, List.append_assoc, List.singleton_append]
    · by_cases hdigit : Byte.isDigit b
      · have hline := newlines_number hdigit rest
        simp only [if_neg hhash, hdigit, if_true, Lexeme.text, opening?, hline, Nat.add_zero,
          List.reverse_cons, List.append_assoc, List.singleton_append]
      · by_cases hstarts : Byte.startsIdentifier b
        · have hline : newlines (b :: rest.takeWhile Byte.continuesIdentifier) = 0 :=
            newlines_word hstarts rest
          simp only [if_neg hhash, if_neg hdigit, hstarts, if_true, Lexeme.text, opening?, hline,
            Nat.add_zero]
          cases hname : Builtin.ofSpelling? (b :: rest.takeWhile Byte.continuesIdentifier) with
          | none => rfl
          | some builtin =>
            dsimp only
            split
            · next hopened => simp only [hopened]
            · next c inner hopened =>
              by_cases hparen : c = Byte.openParen
              · subst hparen
                simp only [hopened, if_true]
                split
                · next reason hjudged => simp only [hjudged]
                · next list hjudged => simp only [hjudged]
              · simp only [hopened, if_neg hparen]
        · simp [if_neg hhash, hdigit, hstarts, Lexeme.text, opening?]

section Steps

variable {line : Nat} {before rest behind gap inner : Bytes} {b : UInt8} {lexeme : Lexeme}
  {builtin : Builtin} {reason : KeepReason} {list : ArgumentList}

/-- A lexeme that opens no call is copied. -/
theorem outline_copied (hnext : nextLexeme before b rest = (lexeme, behind))
    (hopening : opening? lexeme behind = none) :
    outline line before (b :: rest) =
      .verbatim lexeme.text ::
        outline (line + newlines lexeme.text) (lexeme.text.reverse ++ before) behind := by
  rw [outline_cons, hnext]
  simp only [hopening]

/-- Behind the name of a call that is kept, the outline goes on. -/
theorem outline_kept (hnext : nextLexeme before b rest = (lexeme, behind))
    (hopening : opening? lexeme behind = some (builtin, gap, inner))
    (hjudge : judge builtin (line + newlines gap)
      (Byte.openParen :: gap.reverse ++ lexeme.text.reverse ++ before) inner = .error reason) :
    outline line before (b :: rest) =
      .kept builtin line reason :: outline line (lexeme.text.reverse ++ before) behind := by
  rw [outline_cons, hnext]
  simp only [hopening, hjudge]

/-- The outline goes on behind a call that is expanded. -/
theorem outline_expanded (hnext : nextLexeme before b rest = (lexeme, behind))
    (hopening : opening? lexeme behind = some (builtin, gap, inner))
    (hjudge : judge builtin (line + newlines gap)
      (Byte.openParen :: gap.reverse ++ lexeme.text.reverse ++ before) inner = .ok list) :
    outline line before (b :: rest) =
      .call builtin gap list
          (outlineOperands (line + newlines gap) (list.arguments.take builtin.operandCount)) ::
        outline (line + newlines (callTail gap list))
          ((callTail gap list).reverse ++ lexeme.text.reverse ++ before) list.behind := by
  rw [outline_cons, hnext]
  simp only [hopening, hjudge]

/-- The text of a call that is expanded, from its name to its closing parenthesis. -/
theorem append_callTail {line' : Nat} {before' : Bytes}
    (hnext : nextLexeme before b rest = (lexeme, behind))
    (hopening : opening? lexeme behind = some (builtin, gap, inner))
    (hjudge : judge builtin line' before' inner = .ok list) :
    builtin.spelling ++ callTail gap list ++ list.behind = b :: rest := by
  obtain ⟨rfl, hbehind, -⟩ := opening?_eq_some.mp hopening
  have hinner := append_of_judge hjudge
  have hwhole := append_of_nextLexeme hnext
  rw [← hwhole, hbehind, ← hinner]
  simp [callTail, Lexeme.text]

end Steps

/-- An argument of a call is a part of what stands between its parentheses. -/
theorem infix_of_mem_arguments {list : ArgumentList} {argument : Bytes}
    (hargument : argument ∈ list.arguments) : argument <:+: list.inside := by
  have hcases : argument = list.first ∨ argument ∈ list.more := by
    unfold ArgumentList.arguments at hargument
    split at hargument
    · cases hargument
    · simpa using hargument
  rcases hcases with rfl | hmore
  · exact (List.prefix_append _ _).isInfix
  · obtain ⟨front, back, hsplit⟩ := List.append_of_mem hmore
    refine ⟨list.first ++ front.flatMap (Byte.comma :: ·) ++ [Byte.comma],
      back.flatMap (Byte.comma :: ·), ?_⟩
    simp [ArgumentList.inside, hsplit]

/-- Induction along an outline, into the operands of its calls. -/
theorem outline_induction {motive : Nat → Bytes → Bytes → Prop}
    (nil : ∀ line before, motive line before [])
    (copied : ∀ {line before b rest lexeme behind},
      nextLexeme before b rest = (lexeme, behind) → opening? lexeme behind = none →
      motive (line + newlines lexeme.text) (lexeme.text.reverse ++ before) behind →
      motive line before (b :: rest))
    (kept : ∀ {line before b rest lexeme behind builtin gap inner reason},
      nextLexeme before b rest = (lexeme, behind) →
      opening? lexeme behind = some (builtin, gap, inner) →
      judge builtin (line + newlines gap)
        (Byte.openParen :: gap.reverse ++ lexeme.text.reverse ++ before) inner = .error reason →
      motive line (lexeme.text.reverse ++ before) behind →
      motive line before (b :: rest))
    (expanded : ∀ {line before b rest lexeme behind builtin gap inner list},
      nextLexeme before b rest = (lexeme, behind) →
      opening? lexeme behind = some (builtin, gap, inner) →
      judge builtin (line + newlines gap)
        (Byte.openParen :: gap.reverse ++ lexeme.text.reverse ++ before) inner = .ok list →
      (∀ argument ∈ list.arguments.take builtin.operandCount, ∀ line, motive line [] argument) →
      motive (line + newlines (callTail gap list))
        ((callTail gap list).reverse ++ lexeme.text.reverse ++ before) list.behind →
      motive line before (b :: rest))
    (line : Nat) (before text : Bytes) : motive line before text := by
  match text with
  | [] => exact nil line before
  | b :: rest =>
    cases hnext : nextLexeme before b rest with
    | mk lexeme behind =>
      have hshort := length_lt_of_nextLexeme hnext
      cases hopening : opening? lexeme behind with
      | none => exact copied hnext hopening (outline_induction nil copied kept expanded _ _ _)
      | some opened =>
        obtain ⟨builtin, gap, inner⟩ := opened
        cases hjudge : judge builtin (line + newlines gap)
            (Byte.openParen :: gap.reverse ++ lexeme.text.reverse ++ before) inner with
        | error reason =>
          exact kept hnext hopening hjudge (outline_induction nil copied kept expanded _ _ _)
        | ok list =>
          have hparts : list.inside.length + list.behind.length < (b :: rest).length := by
            rw [← append_callTail hnext hopening hjudge]
            simp only [callTail, List.length_append, List.length_cons]
            omega
          have hbehind : list.behind.length < (b :: rest).length := by omega
          refine expanded hnext hopening hjudge (fun argument hargument line => ?_)
            (outline_induction nil copied kept expanded _ _ _)
          have hfits := (infix_of_mem_arguments (List.mem_of_mem_take hargument)).length_le
          have hless : argument.length < (b :: rest).length := by omega
          exact outline_induction nil copied kept expanded _ _ _
termination_by text.length
decreasing_by
  all_goals assumption

/-- An outline stands for its whole text. -/
theorem source_outline (line : Nat) (before text : Bytes) :
    (outline line before text).flatMap Piece.source = text := by
  induction line, before, text using outline_induction with
  | nil line before => rw [outline]; rfl
  | copied hnext hopening ih =>
    rw [outline_copied hnext hopening, List.flatMap_cons, ih]
    exact append_of_nextLexeme hnext
  | kept hnext hopening hjudge ih =>
    rw [outline_kept hnext hopening hjudge, List.flatMap_cons, ih]
    obtain ⟨rfl, -, -⟩ := opening?_eq_some.mp hopening
    exact append_of_nextLexeme hnext
  | expanded hnext hopening hjudge _ ih =>
    rw [outline_expanded hnext hopening hjudge, List.flatMap_cons, ih]
    exact append_callTail hnext hopening hjudge

/-- A call that can be expanded has a closing parenthesis, and no directive in front of it. -/
theorem split_of_judge {builtin : Builtin} {line : Nat} {before inner : Bytes}
    {list : ArgumentList} (hjudge : judge builtin line before inner = .ok list) :
    splitArguments? 0 inner = some list ∧
      findDirective? before inner list.inside.length = none := by
  unfold judge at hjudge
  split at hjudge
  · cases hjudge
  · next hsplit =>
    split at hjudge
    · cases hjudge
    · next hdirective =>
      split at hjudge
      · cases hjudge
      · cases hjudge
        exact ⟨hsplit, hdirective⟩

/-- A call that can be expanded has the arguments it needs. -/
theorem operandCount_le_of_judge {builtin : Builtin} {line : Nat} {before inner : Bytes}
    {list : ArgumentList} (hjudge : judge builtin line before inner = .ok list) :
    builtin.operandCount ≤ list.arguments.length := by
  unfold judge at hjudge
  split at hjudge
  · cases hjudge
  · split at hjudge
    · cases hjudge
    · split at hjudge
      · cases hjudge
      · next hcount =>
        cases hjudge
        omega

/-- Every argument is outlined. -/
theorem length_outlineOperands (line : Nat) (arguments : List Bytes) :
    (outlineOperands line arguments).length = arguments.length := by
  induction arguments generalizing line with
  | nil => simp [outlineOperands]
  | cons argument more ih => rw [outlineOperands, List.length_cons, ih, List.length_cons]

end PlainSync.Source
