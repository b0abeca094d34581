import PlainSync.Proofs.Cursor.Calls
import PlainSync.Proofs.Normalize.Lines

/-!
# Normalizing with a cursor

The normalization of a source as one loop over an index that copies what stands between the calls,
and calls itself for the operands. It reads no byte that is not there, cuts no character, moves on
in every step and gives every expansion the operands it needs, and its result is that of the
outline.
-/

namespace PlainSync.Cursor

open Bytes Source

/-- What a loop has done so far. -/
structure Progress where
  /-- The number of the next site. -/
  site : Nat
  expanded : List Builtin := []
  kept : List KeptCall := []

namespace Progress

def keep (progress : Progress) (line : Nat) (builtin : Builtin) (reason : KeepReason) : Progress :=
  { progress with kept := progress.kept ++ [⟨line, builtin, reason⟩] }

def expand (progress : Progress) (builtin : Builtin) : Progress :=
  { progress with site := progress.site + 1, expanded := progress.expanded ++ [builtin] }

/-- What is done when the pieces of an outline have been rendered as well. -/
def after (progress : Progress) (pieces : List Piece) : Progress where
  site := (renderPieces progress.site pieces).2
  expanded := progress.expanded ++ expandedPieces pieces
  kept := progress.kept ++ keptInPieces pieces

/-- What is done when the operands of a call have been rendered as well. -/
def afterOperands (progress : Progress) (operands : List (List Piece)) : Progress where
  site := (renderOperands progress.site operands).2
  expanded := progress.expanded ++ expandedOperands operands
  kept := progress.kept ++ keptInOperands operands

end Progress

/-- The byte at an index opens a directive. -/
def opensDirectiveAt (text : Bytes) (i : Nat) (b : UInt8) : Option Bool := do
  if b = Byte.hash then isLineStart text i else return false

/-- A part of a text that is rewritten as a text of its own, if it is shorter. -/
def shorter? (text part : Bytes) : Option { part : Bytes // part.length < text.length } :=
  if h : part.length < text.length then some ⟨part, h⟩ else none

mutual

/-- Rewrite a text from an index on, `out` being the result for what stands in front of `copied`. -/
def rewriteFrom (text : Bytes) (firstLine : Nat) (out : Bytes) (copied i : Nat)
    (progress : Progress) : Option (Bytes × Progress) := do
  if hi : i < text.length then
    match ← skipTrivia text i with
    | some next =>
      let ⟨next, _⟩ ← ahead? i next
      rewriteFrom text firstLine out copied next progress
    | none =>
      let b ← text[i]?
      if ← opensDirectiveAt text i b then
        let ⟨next, _⟩ ← ahead? i (← directiveEnd text i)
        rewriteFrom text firstLine out copied next progress
      else if Byte.isDigit b then
        let ⟨next, _⟩ ← ahead? i (← numberEnd text i i)
        rewriteFrom text firstLine out copied next progress
      else if !Byte.startsIdentifier b then
        rewriteFrom text firstLine out copied (i + 1) progress
      else
        let ⟨stop, hstop⟩ ← ahead? i (← skipWhile Byte.continuesIdentifier text i)
        match ← callAt text i stop with
        | none => rewriteFrom text firstLine out copied stop progress
        | some (builtin, opened) =>
          rewriteCall text firstLine out copied i stop hi hstop builtin opened progress
  else return (out ++ (← slice? text copied text.length), progress)
termination_by (text.length, text.length - i, 1)

/-- Rewrite a text from a call on, whose name stands between two indices and whose parenthesis
stands at a third. -/
def rewriteCall (text : Bytes) (firstLine : Nat) (out : Bytes) (copied start stop : Nat)
    (_hstart : start < text.length) (_hstop : start < stop) (builtin : Builtin) (opened : Nat)
    (progress : Progress) : Option (Bytes × Progress) := do
  let line := firstLine + newlines (← slice? text 0 start)
  match ← judgeAt text firstLine builtin opened with
  | .error reason =>
    rewriteFrom text firstLine out copied stop (progress.keep line builtin reason)
  | .ok (ranges, close) =>
    let (texts, progress) ←
      rewriteRanges text start line (ranges.take builtin.operandCount) progress
    let written ← slice? text start (close + 1)
    let replacement ← expandAt builtin written texts progress.site
    let piece ← slice? text copied start
    let ⟨next, _⟩ ← ahead? start (close + 1)
    rewriteFrom text firstLine (out ++ piece ++ replacement) next next (progress.expand builtin)
termination_by (text.length, text.length - start, 0)

/-- Rewrite the arguments of a call that begins at `start`, on the given line. -/
def rewriteRanges (text : Bytes) (start line : Nat) (ranges : List (Nat × Nat))
    (progress : Progress) : Option (List Bytes × Progress) := do
  match ranges with
  | [] => return ([], progress)
  | range :: more =>
    let argumentLine := line + newlines (← slice? text start range.1)
    let ⟨argument, _⟩ ← shorter? text (← slice? text range.1 range.2)
    let (rewritten, progress) ← rewriteFrom argument argumentLine [] 0 0 progress
    let operand ← finishOperand rewritten
    let (operands, progress) ← rewriteRanges text start line more progress
    return (operand :: operands, progress)
termination_by (text.length, 0, ranges.length)

end

/-- Normalize a source in a session. -/
def rewrite (session : Session) (source : Bytes) : Option (Normalized × Session) := do
  if session.config.normalizeAtomics then
    let (text, progress) ← rewriteFrom source 1 [] 0 0 { site := session.site }
    return (⟨text, { expanded := progress.expanded, kept := progress.kept }⟩,
      { session with site := progress.site })
  else return (⟨source, { passthrough := true }⟩, session)

variable {text before rest behind out : Bytes} {b : UInt8} {i copied : Nat}

/-! ## Lexemes -/

section Step

variable {firstLine : Nat} {progress : Progress} {lexeme : Lexeme}

/-- A directive opens at a hash mark that starts a line. -/
theorem opensDirectiveAt_eq (h : Between text before (b :: rest) i) :
    opensDirectiveAt text i b = some (decide (b = Byte.hash ∧ atLineStart before)) := by
  rw [opensDirectiveAt, isLineStart_eq h]
  by_cases hhash : b = Byte.hash <;> simp [hhash]

/-- An identifier is skipped as a whole. -/
theorem skipWhile_of_startsIdentifier (h : Between text before (b :: rest) i)
    (hstarts : Byte.startsIdentifier b) :
    skipWhile Byte.continuesIdentifier text i =
      some (i + (b :: rest.takeWhile Byte.continuesIdentifier).length) := by
  rw [skipWhile_eq h, List.takeWhile_cons_of_pos (continuesIdentifier_of_startsIdentifier hstarts)]

/-- What the next byte means to the rewritten text. -/
theorem rewriteFrom_cons (h : Between text before (b :: rest) i)
    (htrivia : splitTrivia? (b :: rest) = none) :
    rewriteFrom text firstLine out copied i progress =
      if b = Byte.hash ∧ atLineStart before then do
        let ⟨next, _⟩ ← ahead? i (← directiveEnd text i)
        rewriteFrom text firstLine out copied next progress
      else if Byte.isDigit b then do
        let ⟨next, _⟩ ← ahead? i (← numberEnd text i i)
        rewriteFrom text firstLine out copied next progress
      else if !Byte.startsIdentifier b then
        rewriteFrom text firstLine out copied (i + 1) progress
      else (do
        let ⟨stop, hstop⟩ ← ahead? i (← skipWhile Byte.continuesIdentifier text i)
        match ← callAt text i stop with
        | none => rewriteFrom text firstLine out copied stop progress
        | some (builtin, opened) =>
          rewriteCall text firstLine out copied i stop h.lt hstop builtin opened progress) := by
  rw [rewriteFrom, dif_pos h.lt, skipTrivia_none h htrivia, h.getElem?_cons]
  simp only [Option.bind_eq_bind, Option.bind_some, opensDirectiveAt_eq h, decide_eq_true_eq]

/-- The end of a directive that begins at a hash mark. -/
theorem directiveEnd_of_hash (h : Between text before (b :: rest) i) (hhash : b = Byte.hash) :
    directiveEnd text i = some (i + 1 + (splitDirective (b :: before) rest).1.length) := by
  have hopen : ¬ (b = Byte.newline ∧ !isContinued before) := by
    rw [hhash]
    exact fun hends => absurd hends.1 (by decide)
  rw [directiveEnd_cons h, if_neg hopen, directiveEnd_eq h.cons]

/-- A word may open a call. -/
theorem rewriteFrom_word (h : Between text before (b :: rest) i) (htext : IsUtf8 text)
    (htrivia : splitTrivia? (b :: rest) = none) (hstarts : Byte.startsIdentifier b)
    (hstop : i < i + (b :: rest.takeWhile Byte.continuesIdentifier).length) :
    rewriteFrom text firstLine out copied i progress =
      match opening? (.word (b :: rest.takeWhile Byte.continuesIdentifier))
        (rest.dropWhile Byte.continuesIdentifier) with
      | none =>
        rewriteFrom text firstLine out copied
          (i + (b :: rest.takeWhile Byte.continuesIdentifier).length) progress
      | some (builtin, gap, _) =>
        rewriteCall text firstLine out copied i
          (i + (b :: rest.takeWhile Byte.continuesIdentifier).length) h.lt hstop builtin
          (i + (b :: rest.takeWhile Byte.continuesIdentifier).length + gap.length) progress := by
  have hhash : ¬ (b = Byte.hash ∧ atLineStart before) := by
    rintro ⟨rfl, -⟩
    exact absurd hstarts (by decide)
  have hname := h.split (append_of_word b rest)
  have hcut := h.isBoundary_of_ascii (lt_of_startsIdentifier hstarts)
  have hbehind := (hname.isUtf8_of_isBoundary htext hcut).2.of_ascii_append
    (lt_of_mem_word hstarts)
  have hpos : 0 < (b :: rest.takeWhile Byte.continuesIdentifier).length := Nat.succ_pos _
  rw [rewriteFrom_cons h htrivia, if_neg hhash, if_neg (not_isDigit_of_startsIdentifier hstarts),
    if_neg (by simpa using hstarts), skipWhile_of_startsIdentifier h hstarts]
  simp only [Option.bind_eq_bind, Option.bind_some, ahead?_add i hpos,
    callAt_eq hname hcut hbehind]
  cases opening? _ _ <;> rfl

/-- The loop moves on by one lexeme, unless that opens a call. -/
theorem rewriteFrom_lexeme (h : Between text before (b :: rest) i) (htext : IsUtf8 text)
    (hnext : nextLexeme before b rest = (lexeme, behind)) :
    rewriteFrom text firstLine out copied i progress =
      match opening? lexeme behind with
      | none => rewriteFrom text firstLine out copied (i + lexeme.text.length) progress
      | some (builtin, gap, _) =>
        rewriteCall text firstLine out copied i (i + lexeme.text.length) h.lt
          (Nat.lt_add_of_pos_right (length_text_pos_of_nextLexeme hnext)) builtin
          (i + lexeme.text.length + gap.length) progress := by
  unfold nextLexeme at hnext
  split at hnext
  · next htrivia =>
    cases hnext
    rw [rewriteFrom, dif_pos h.lt, skipTrivia_some h htrivia]
    simp only [Option.bind_eq_bind, Option.bind_some,
      ahead?_add i (length_pos_of_splitTrivia? htrivia)]
    rfl
  · next htrivia =>
    split at hnext
    · next hhash =>
      cases hnext
      rw [rewriteFrom_cons h htrivia, if_pos hhash, directiveEnd_of_hash h hhash.1]
      simp only [Option.bind_eq_bind, Option.bind_some, ahead?_succ_add]
      rw [Nat.add_right_comm]
      rfl
    · next hhash =>
      split at hnext
      · next hdigit =>
        cases hnext
        rw [rewriteFrom_cons h htrivia, if_neg hhash, if_pos hdigit, numberEnd_of_isDigit h hdigit]
        simp only [Option.bind_eq_bind, Option.bind_some, ahead?_succ_add]
        rw [Nat.add_right_comm]
        rfl
      · next hdigit =>
        split at hnext
        · next hstarts =>
          cases hnext
          exact rewriteFrom_word h htext htrivia hstarts _
        · next hstarts =>
          cases hnext
          rw [rewriteFrom_cons h htrivia, if_neg hhash, if_neg hdigit,
            if_pos (by simpa using hstarts)]
          rfl

end Step

/-! ## Outlines -/

/-- A loop renders the pieces of an outline behind what it has copied. -/
structure Renders (result : Option (Bytes × Progress)) (front : Bytes) (progress : Progress)
    (pieces : List Piece) : Prop where
  eq_some : result =
    some (front ++ (renderPieces progress.site pieces).1, progress.after pieces)
  isUtf8 : IsUtf8 (front ++ (renderPieces progress.site pieces).1)

/-- A loop renders the operands of a call. -/
structure RendersOperands (result : Option (List Bytes × Progress)) (progress : Progress)
    (operands : List (List Piece)) : Prop where
  eq_some : result =
    some ((renderOperands progress.site operands).1, progress.afterOperands operands)
  isUtf8 : ∀ operand ∈ (renderOperands progress.site operands).1, IsUtf8 operand

section Renders

variable {result : Option (Bytes × Progress)} {front text : Bytes} {progress : Progress}
  {pieces : List Piece} {line : Nat} {builtin : Builtin} {reason : KeepReason} {gap : Bytes}
  {list : ArgumentList} {operands : List (List Piece)}

/-- Nothing is left to render. -/
theorem Renders.nil (hfront : IsUtf8 front) :
    Renders (some (front, progress)) front progress [] := by
  have hutf8 : IsUtf8 (front ++ (renderPieces progress.site []).1) := by
    rwa [renderPieces, List.append_nil]
  refine ⟨?_, hutf8⟩
  simp [renderPieces, Progress.after, expandedPieces, keptInPieces]

/-- Text that is copied is rendered in front of the rest. -/
theorem Renders.verbatim (h : Renders result (front ++ text) progress pieces) :
    Renders result front progress (.verbatim text :: pieces) := by
  obtain ⟨hresult, hutf8⟩ := h
  rw [List.append_assoc] at hresult hutf8
  refine ⟨hresult.trans ?_, hutf8⟩
  simp [renderPieces, Piece.render, Progress.after, expandedPieces, keptInPieces, Piece.expanded,
    Piece.keptCalls]

/-- A call that is kept is rendered by its name in front of the rest. -/
theorem Renders.kept
    (h : Renders result (front ++ builtin.spelling) (progress.keep line builtin reason) pieces) :
    Renders result front progress (.kept builtin line reason :: pieces) := by
  obtain ⟨hresult, hutf8⟩ := h
  rw [List.append_assoc] at hresult hutf8
  refine ⟨hresult.trans ?_, hutf8⟩
  simp [renderPieces, Piece.render, Progress.after, Progress.keep, expandedPieces, keptInPieces,
    Piece.expanded, Piece.keptCalls]

/-- A call that is replaced is rendered in front of the rest. -/
theorem Renders.call
    (h : Renders result
      (front ++ callText builtin gap list (renderOperands progress.site operands).1
        (progress.afterOperands operands).site)
      ((progress.afterOperands operands).expand builtin) pieces) :
    Renders result front progress (.call builtin gap list operands :: pieces) := by
  obtain ⟨hresult, hutf8⟩ := h
  rw [List.append_assoc] at hresult hutf8
  refine ⟨hresult.trans ?_, hutf8⟩
  simp [renderPieces, Piece.render, Progress.after, Progress.afterOperands, Progress.expand,
    expandedPieces, keptInPieces, Piece.expanded, Piece.keptCalls]

end Renders

/-- The loop renders the outline of a text of its own. -/
def RendersWhole (text : Bytes) : Prop :=
  ∀ line progress, IsUtf8 text →
    Renders (rewriteFrom text line [] 0 0 progress) [] progress (outline line [] text)

section Loops

variable {firstLine line start : Nat} {progress : Progress} {arguments : List Bytes}

/-- No operands are left to render. -/
theorem RendersOperands.nil :
    RendersOperands (rewriteRanges text start line [] progress) progress [] := by
  refine ⟨?_, ?_⟩
  · rw [rewriteRanges]
    simp [renderOperands, Progress.afterOperands, expandedOperands, keptInOperands]
  · intro operand hoperand
    rw [renderOperands] at hoperand
    cases hoperand

/-- The loop renders the first argument and then the others. -/
theorem RendersOperands.cons {range : Nat × Nat} {ranges : List (Nat × Nat)}
    {front argument : Bytes} {pieces : List Piece} {operands : List (List Piece)}
    (hline : slice? text start range.1 = some front)
    (hslice : slice? text range.1 range.2 = some argument) (hshort : argument.length < text.length)
    (hfirst : Renders (rewriteFrom argument (line + newlines front) [] 0 0 progress) [] progress
      pieces)
    (hmore : RendersOperands (rewriteRanges text start line ranges (progress.after pieces))
      (progress.after pieces) operands) :
    RendersOperands (rewriteRanges text start line (range :: ranges) progress) progress
      (pieces :: operands) := by
  obtain ⟨hrewritten, hutf8⟩ := hfirst
  obtain ⟨hoperands, hall⟩ := hmore
  obtain ⟨hfinish, hoperand⟩ := finishOperand_eq hutf8
  refine ⟨?_, ?_⟩
  · rw [rewriteRanges, hline, hslice]
    simp only [Option.bind_eq_bind, Option.bind_some, shorter?, dif_pos hshort, hrewritten, hfinish,
      hoperands]
    simp [renderOperands, Progress.after, Progress.afterOperands, expandedOperands, keptInOperands]
  · rw [renderOperands]
    exact List.forall_mem_cons.mpr ⟨hoperand, hall⟩

/-- The loop renders stretches of a text, of which it renders each as a text of its own. -/
theorem rewriteRanges_eq (h : Stretches text before i arguments) (htext : IsUtf8 text)
    (hstart : isBoundary text start) (hle : start ≤ i) (hcut : isBoundary text i)
    (harguments : ∀ argument ∈ arguments, RendersWhole argument) :
    RendersOperands (rewriteRanges text start line (stretchRanges i arguments) progress) progress
      (outlineOperands (line + newlines (before.reverse.drop start)) arguments) := by
  induction h generalizing progress with
  | nil =>
    rw [outlineOperands]
    exact .nil
  | @cons before stretch rest b i more h hascii hline hmore ih =>
    obtain ⟨hstretch, hothers⟩ := List.forall_mem_cons.mp harguments
    have hslice := h.slice?_append hcut (h.append.isBoundary_of_ascii hascii)
    have hnext := h.append.cons.isBoundary_of_isUtf8 (h.append.isUtf8_of_ascii htext hascii)
    have hlines : newlines ((b :: (stretch.reverse ++ before)).reverse.drop start) =
        newlines (before.reverse.drop start) + newlines stretch := by
      have hlength : start ≤ before.reverse.length := by
        rw [List.length_reverse, h.index]
        exact hle
      rw [List.reverse_cons, List.reverse_append, List.reverse_reverse, List.append_assoc,
        List.drop_append_of_le_length hlength, newlines_append, newlines_append,
        newlines_cons_of_ne hline]
      rfl
    rw [outlineOperands, Nat.add_assoc, ← hlines]
    have hshort : stretch.length < text.length := by
      rw [h.length_eq, List.length_append, List.length_cons]
      omega
    exact .cons (h.slice?_eq hle hstart hcut) hslice hshort
      (hstretch _ _ (isUtf8_of_slice? htext hslice)) (ih (by omega) hnext hothers)

/-- At the end of a text what is left of it is copied. -/
theorem rewriteFrom_nil (h : Copying text out before [] copied i) :
    Renders (rewriteFrom text firstLine out copied i progress) (copiedText out before copied)
      progress [] := by
  rw [rewriteFrom, dif_neg h.not_lt, h.slice?_end]
  exact .nil (h.isUtf8_copiedText h.isBoundary_end)

end Loops

section Calls

variable {firstLine line : Nat} {progress : Progress} {lexeme : Lexeme} {builtin : Builtin}
  {gap inner : Bytes} {reason : KeepReason} {list : ArgumentList} {pieces : List Piece}
  {hstart : i < text.length} {hstop : i < i + builtin.spelling.length}

/-- Names of built-ins are on one line. -/
theorem newlines_spelling (builtin : Builtin) : newlines builtin.spelling = 0 :=
  newlines_eq_zero_of_all (by decide) joinsWord_of_mem_spelling

/-- A text can be cut in front of the name of a built-in. -/
theorem isBoundary_of_spelling (h : Between text before (builtin.spelling ++ rest) i) :
    isBoundary text i := by
  obtain ⟨b, tail, hspelling, hstarts, -⟩ := spelling_shape builtin
  rw [hspelling] at h
  exact h.isBoundary_of_ascii (lt_of_startsIdentifier hstarts)

/-- A call is judged by the loop as by the outline. -/
theorem judgeAt_opening
    (h : Between text before (builtin.spelling ++ (gap ++ Byte.openParen :: inner)) i) :
    judgeAt text firstLine builtin (i + builtin.spelling.length + gap.length) =
      some ((judge builtin (firstLine + newlines before.reverse + newlines gap)
        (Byte.openParen :: gap.reverse ++ builtin.spelling.reverse ++ before) inner).map
          (rangesOf [] (i + builtin.spelling.length + gap.length + 1) [])) := by
  have hinner := h.append.append.cons
  rw [← List.append_assoc] at hinner
  have hlines : newlines (Byte.openParen ::
      ((gap.reverse ++ builtin.spelling.reverse) ++ before)).reverse =
        newlines before.reverse + newlines gap := by
    simp only [List.reverse_cons, List.reverse_append, List.reverse_reverse, newlines_append,
      newlines_spelling, Nat.zero_add]
    rfl
  rw [judgeAt_eq hinner, hlines, ← Nat.add_assoc]
  rfl

/-- The loop keeps a call that the outline keeps. -/
theorem rewriteCall_kept
    (h : Between text before (builtin.spelling ++ (gap ++ Byte.openParen :: inner)) i)
    (hline : line = firstLine + newlines before.reverse)
    (hjudge : judge builtin (line + newlines gap)
      (Byte.openParen :: gap.reverse ++ builtin.spelling.reverse ++ before) inner = .error reason) :
    rewriteCall text firstLine out copied i (i + builtin.spelling.length) hstart hstop builtin
        (i + builtin.spelling.length + gap.length) progress =
      rewriteFrom text firstLine out copied (i + builtin.spelling.length)
        (progress.keep line builtin reason) := by
  subst hline
  rw [rewriteCall, h.slice?_zero (isBoundary_of_spelling h), judgeAt_opening h, hjudge]
  rfl

/-- A call stands at a position with its parts. -/
theorem between_call
    (h : Between text before (builtin.spelling ++ callTail gap list ++ list.behind) i) :
    Between text before (builtin.spelling ++
      (gap ++ Byte.openParen :: (list.inside ++ Byte.closeParen :: list.behind))) i := by
  have hwhole : builtin.spelling ++ callTail gap list ++ list.behind = builtin.spelling ++
      (gap ++ Byte.openParen :: (list.inside ++ Byte.closeParen :: list.behind)) := by
    simp [callTail]
  rwa [hwhole] at h

/-- The loop renders the operands of a call that the outline expands. -/
theorem rewriteRanges_call
    (h : Between text before (builtin.spelling ++ callTail gap list ++ list.behind) i)
    (htext : IsUtf8 text)
    (harguments : ∀ argument ∈ list.arguments.take builtin.operandCount, RendersWhole argument) :
    RendersOperands
      (rewriteRanges text i line
        ((rangesOf [] (i + builtin.spelling.length + gap.length + 1) [] list).1.take
          builtin.operandCount) progress)
      progress
      (outlineOperands (line + newlines gap) (list.arguments.take builtin.operandCount)) := by
  have hcall := between_call h
  have hparen := hcall.append.append
  have hinner := hparen.cons
  have hlines : newlines ((Byte.openParen ::
      (gap.reverse ++ (builtin.spelling.reverse ++ before))).reverse.drop i) = newlines gap := by
    have hlength : before.reverse.length = i := (List.length_reverse).trans hcall.index
    simp only [List.reverse_cons, List.reverse_append, List.reverse_reverse, List.append_assoc,
      ← hlength, List.drop_left, newlines_append, newlines_spelling, Nat.zero_add]
    rfl
  rw [rangesOf_nil, take_stretchRanges, ← hlines]
  have hutf8 := hparen.isUtf8_of_ascii htext (by decide)
  exact rewriteRanges_eq ((stretches_arguments hinner).take _) htext (isBoundary_of_spelling hcall)
    (by omega) (hinner.isBoundary_of_isUtf8 hutf8) harguments

/-- The loop puts the text of a call in its place when its operands are rendered. -/
theorem rewriteCall_of_operands {operands : List (List Piece)}
    (h : Copying text out before (builtin.spelling ++ callTail gap list ++ list.behind) copied i)
    (hline : line = firstLine + newlines before.reverse)
    (hjudge : judge builtin (line + newlines gap)
      (Byte.openParen :: gap.reverse ++ builtin.spelling.reverse ++ before) inner = .ok list)
    (hoperands : RendersOperands
      (rewriteRanges text i line
        ((rangesOf [] (i + builtin.spelling.length + gap.length + 1) [] list).1.take
          builtin.operandCount) progress)
      progress operands)
    (hcount : operands.length = builtin.operandCount) :
    ∃ out', Copying text out' ((builtin.spelling ++ callTail gap list).reverse ++ before)
        list.behind (i + (builtin.spelling ++ callTail gap list).length)
        (i + (builtin.spelling ++ callTail gap list).length) ∧
      out' = copiedText out before copied ++ callText builtin gap list
        (renderOperands progress.site operands).1 (progress.afterOperands operands).site ∧
      rewriteCall text firstLine out copied i (i + builtin.spelling.length) hstart hstop builtin
          (i + builtin.spelling.length + gap.length) progress =
        rewriteFrom text firstLine out' (i + (builtin.spelling ++ callTail gap list).length)
          (i + (builtin.spelling ++ callTail gap list).length)
          ((progress.afterOperands operands).expand builtin) := by
  have hcall := between_call h.toBetween
  have hcut := isBoundary_of_spelling hcall
  have hclosed := hcall.append.append.cons.append.isUtf8_of_ascii h.isUtf8_text (by decide)
  have hclose : (rangesOf [] (i + builtin.spelling.length + gap.length + 1) [] list).2 + 1 =
      i + (builtin.spelling ++ callTail gap list).length := by
    simp only [rangesOf, callTail, List.length_append, List.length_cons, List.length_nil]
    omega
  have hpos : 0 < (builtin.spelling ++ callTail gap list).length := by
    simp only [callTail, List.length_append, List.length_cons]
    omega
  have hwritten := h.slice?_append hcut (h.append.isBoundary_of_isUtf8 hclosed)
  have hpiece := hcall.slice?_eq h.copied_le h.isBoundary_copied hcut
  rw [append_of_judge hjudge] at hcall
  subst hline
  obtain ⟨hranges, htexts⟩ := hoperands
  have hlength := (length_renderOperands progress.site operands).trans hcount
  obtain ⟨hreplacement, hutf8⟩ : Makes
      (expandAt builtin (builtin.spelling ++ callTail gap list)
        (renderOperands progress.site operands).1 (progress.afterOperands operands).site) _ :=
    expandAt_eq hlength htexts
  refine ⟨_, h.replace hcut hclosed hutf8, rfl, ?_⟩
  rw [rewriteCall, hcall.slice?_zero hcut, judgeAt_opening hcall, hjudge]
  simp only [Option.bind_eq_bind, Option.bind_some, Except.map, hranges, hclose, hwritten,
    hreplacement, hpiece, ahead?_add i hpos]
  rfl

/-- The loop replaces a call that the outline expands. -/
theorem rewriteCall_expanded
    (h : Copying text out before (builtin.spelling ++ callTail gap list ++ list.behind) copied i)
    (hline : line = firstLine + newlines before.reverse)
    (hjudge : judge builtin (line + newlines gap)
      (Byte.openParen :: gap.reverse ++ builtin.spelling.reverse ++ before) inner = .ok list)
    (harguments : ∀ argument ∈ list.arguments.take builtin.operandCount, RendersWhole argument)
    (hbehind : ∀ {out close progress}, Copying text out
      ((callTail gap list).reverse ++ builtin.spelling.reverse ++ before) list.behind close close →
      Renders (rewriteFrom text firstLine out close close progress) out progress pieces) :
    Renders
      (rewriteCall text firstLine out copied i (i + builtin.spelling.length) hstart hstop builtin
        (i + builtin.spelling.length + gap.length) progress)
      (copiedText out before copied) progress
      (.call builtin gap list
        (outlineOperands (line + newlines gap) (list.arguments.take builtin.operandCount)) ::
          pieces) := by
  have hcount := operandCount_le_of_judge hjudge
  have hlength : (outlineOperands (line + newlines gap)
      (list.arguments.take builtin.operandCount)).length = builtin.operandCount := by
    rw [length_outlineOperands, List.length_take, Nat.min_eq_left hcount]
  obtain ⟨out', hcopying, hout, hrewrite⟩ := rewriteCall_of_operands h hline hjudge
    (rewriteRanges_call h.toBetween h.isUtf8_text harguments) hlength
  rw [List.reverse_append] at hcopying
  refine Renders.call ?_
  rw [hrewrite, ← hout]
  exact hbehind hcopying

end Calls

/-- The loop renders the outline of a text. -/
theorem rewriteFrom_eq (h : Copying text out before rest copied i) {firstLine line : Nat}
    (hline : line = firstLine + newlines before.reverse) (progress : Progress) :
    Renders (rewriteFrom text firstLine out copied i progress) (copiedText out before copied)
      progress (outline line before rest) := by
  induction line, before, rest using outline_induction generalizing text out copied i firstLine
      progress with
  | nil line before =>
    rw [outline]
    exact rewriteFrom_nil h
  | copied hnext hopening ih =>
    rw [outline_copied hnext hopening, rewriteFrom_lexeme h.toBetween h.isUtf8_text hnext, hopening]
    have hlexeme := h.split (append_of_nextLexeme hnext)
    refine Renders.verbatim ?_
    rw [← hlexeme.copiedText_append]
    refine ih hlexeme.append ?_ progress
    rw [hline, List.reverse_append, List.reverse_reverse, newlines_append, Nat.add_assoc]
  | @kept line before b rest lexeme behind builtin gap inner reason hnext hopening hjudge ih =>
    rw [outline_kept hnext hopening hjudge, rewriteFrom_lexeme h.toBetween h.isUtf8_text hnext,
      hopening]
    have hname := h.split (append_of_nextLexeme hnext)
    obtain ⟨rfl, rfl, -⟩ := opening?_eq_some.mp hopening
    simp only [Lexeme.text] at hname hjudge ih ⊢
    rw [rewriteCall_kept hname.toBetween hline hjudge]
    refine Renders.kept ?_
    rw [← hname.copiedText_append]
    refine ih hname.append ?_ _
    rw [hline, List.reverse_append, List.reverse_reverse, newlines_append, newlines_spelling]
    rfl
  | @expanded line before b rest lexeme behind builtin gap inner list hnext hopening hjudge
      harguments ih =>
    rw [outline_expanded hnext hopening hjudge, rewriteFrom_lexeme h.toBetween h.isUtf8_text hnext,
      hopening]
    have hcall := h.split (append_callTail hnext hopening hjudge)
    obtain ⟨rfl, rfl, -⟩ := opening?_eq_some.mp hopening
    simp only [Lexeme.text] at hjudge ih ⊢
    refine rewriteCall_expanded hcall hline hjudge ?arguments ?behind
    case arguments =>
      intro argument hargument line progress hutf8
      have hline : line = line + newlines [].reverse := (Nat.add_zero line).symm
      exact harguments argument hargument line (Copying.start hutf8) hline progress
    case behind =>
      intro out close progress hcopying
      have hlines : line + newlines (callTail gap list) =
          firstLine + newlines ((callTail gap list).reverse ++ builtin.spelling.reverse ++
            before).reverse := by
        simp only [List.reverse_append, List.reverse_reverse, newlines_append, newlines_spelling,
          hline, Nat.zero_add, Nat.add_assoc]
      have hbehind := ih hcopying hlines progress
      rwa [Copying.copiedText_self hcopying.toBetween] at hbehind

/-- Every text is normalized without reading a byte that is not there, cutting a stretch that is not
there or that begins or ends inside a character, or expanding a call with too few operands, and the
result is a text. -/
theorem rewrite_eq_normalize (session : Session) (source : String) :
    rewrite session (ofString source) = some (session.normalize (ofString source)) ∧
      ∃ text, (session.normalize (ofString source)).1.text = ofString text := by
  have hline : 1 = 1 + newlines [].reverse := rfl
  obtain ⟨hresult, hutf8⟩ :=
    rewriteFrom_eq (Copying.start (isUtf8_ofString source)) hline { site := session.site }
  unfold rewrite Session.normalize
  by_cases hnormalize : session.config.normalizeAtomics
  · rw [if_pos hnormalize, if_pos hnormalize, hresult]
    refine ⟨?_, hutf8.exists_ofString⟩
    simp [Progress.after, copiedText]
  · rw [if_neg hnormalize, if_neg hnormalize]
    exact ⟨rfl, source, rfl⟩

end PlainSync.Cursor
