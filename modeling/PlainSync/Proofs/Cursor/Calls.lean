import PlainSync.Proofs.Cursor.ArgumentLists
import PlainSync.Proofs.Cursor.Blanking
import PlainSync.Proofs.Expansion.Encodings
import PlainSync.Proofs.Source.Exchange

/-!
# Calls with a cursor

A call of a built-in is found behind its name, judged by the ranges of its arguments and replaced by
an expansion that has the operands it needs.
-/

namespace PlainSync.Cursor

open Bytes Source

/-- The built-in that an identifier names and the index of the parenthesis behind it, if it opens a
call. -/
def callAt (text : Bytes) (start stop : Nat) : Option (Option (Builtin × Nat)) := do
  match Builtin.ofSpelling? (← slice? text start stop) with
  | none => return none
  | some builtin =>
    let opened ← skipWhile Byte.isWhiteSpace text stop
    if text[opened]? = some Byte.openParen then return some (builtin, opened) else return none

/-- The ranges of the arguments of a call and the index of its closing parenthesis, or the reason to
keep it. The text begins on the given line. -/
def judgeAt (text : Bytes) (firstLine : Nat) (builtin : Builtin) (opened : Nat) :
    Option (Except KeepReason (List (Nat × Nat) × Nat)) := do
  match ← splitRanges text 0 [] (opened + 1) (opened + 1) with
  | none => return .error .unterminated
  | some (ranges, close) =>
    match ← findDirective text (opened + 1) close with
    | some hash => return .error (.directive (firstLine + newlines (← slice? text 0 hash)))
    | none =>
      if ranges.length < builtin.operandCount then
        return .error (.arity builtin.operandCount ranges.length)
      else return .ok (ranges, close)

/-- An operand from the text that its argument was rewritten to. -/
def finishOperand (rewritten : Bytes) : Option Bytes :=
  return (← dropLineComments rewritten.trim [] 0 0).trim

/-- The text that replaces a call which stands in the text as `written`. -/
def expandAt (builtin : Builtin) (written : Bytes) (texts : List Bytes) (site : Nat) :
    Option Bytes := do
  let pointer := texts.head?.getD []
  let operands : Operands := ⟨pointer, ← flatten pointer [] 0 0, texts.tail⟩
  return padLines written (← expand? builtin operands (.numbered site))

variable {text before rest behind inner : Bytes} {b : UInt8} {i : Nat}

/-! ## Names -/

/-- A byte of an identifier is a character of its own. -/
theorem lt_of_continuesIdentifier (hcontinues : Byte.continuesIdentifier b) : b < 128 := by
  simp only [Byte.continuesIdentifier, Byte.isAlphanumeric, Byte.isLetter, Byte.isDigit,
    Bool.or_eq_true, Bool.and_eq_true, decide_eq_true_eq] at hcontinues
  rcases hcontinues with rfl | (⟨-, hle⟩ | ⟨-, hle⟩) | ⟨-, hle⟩
  · decide
  · exact UInt8.lt_of_le_of_lt hle (by decide)
  · exact UInt8.lt_of_le_of_lt hle (by decide)
  · exact UInt8.lt_of_le_of_lt hle (by decide)

/-- The first byte of an identifier is a character of its own. -/
theorem lt_of_startsIdentifier (hstarts : Byte.startsIdentifier b) : b < 128 :=
  lt_of_continuesIdentifier (continuesIdentifier_of_startsIdentifier hstarts)

/-- An identifier and what stands behind it make up the text. -/
theorem append_of_word (b : UInt8) (rest : Bytes) :
    (b :: rest.takeWhile Byte.continuesIdentifier) ++ rest.dropWhile Byte.continuesIdentifier =
      b :: rest :=
  congrArg (b :: ·) List.takeWhile_append_dropWhile

/-- Every byte of an identifier is a character of its own. -/
theorem lt_of_mem_word (hstarts : Byte.startsIdentifier b) :
    ∀ c ∈ b :: rest.takeWhile Byte.continuesIdentifier, c < 128 := by
  intro c hc
  rcases List.mem_cons.mp hc with rfl | hmore
  · exact lt_of_startsIdentifier hstarts
  · exact lt_of_continuesIdentifier (List.all_eq_true.mp List.all_takeWhile c hmore)

/-- The position of a call is found where its parenthesis opens. -/
theorem callAt_eq {name : Bytes} (h : Between text before (name ++ behind) i)
    (hcut : isBoundary text i) (hbehind : IsUtf8 behind) :
    callAt text i (i + name.length) =
      some ((opening? (.word name) behind).map fun opened =>
        (opened.1, i + name.length + opened.2.1.length)) := by
  rw [callAt, h.slice?_append hcut (h.append.isBoundary_of_isUtf8 hbehind)]
  simp only [Option.bind_eq_bind, Option.bind_some, opening?]
  cases Builtin.ofSpelling? name with
  | none => rfl
  | some builtin =>
    have hgap := List.takeWhile_append_dropWhile (p := Byte.isWhiteSpace) (l := behind)
    have hopened := (h.append.split hgap).append
    rw [skipWhile_eq h.append]
    simp only [Option.bind_some]
    cases hinner : behind.dropWhile Byte.isWhiteSpace with
    | nil =>
      rw [hinner] at hopened
      rw [List.getElem?_eq_none (Nat.not_lt.mp hopened.not_lt)]
      rfl
    | cons c inner =>
      rw [hinner] at hopened
      rw [hopened.getElem?_cons]
      simp only [Option.some.injEq]
      split <;> rfl

/-! ## Arguments -/

/-- An argument list that is read from its start stands where its arguments do. -/
theorem rangesOf_nil (start : Nat) (list : ArgumentList) :
    rangesOf [] start [] list =
      (stretchRanges start list.arguments, start + list.inside.length) := by
  rw [← argumentRanges_nil]
  rfl

/-- A call is judged by positions as it is judged by its text. -/
theorem judgeAt_eq {firstLine opened : Nat} {builtin : Builtin}
    (h : Between text before inner (opened + 1)) :
    judgeAt text firstLine builtin opened =
      some ((judge builtin (firstLine + newlines before.reverse) before inner).map
        (rangesOf [] (opened + 1) [])) := by
  have hstretch : Between text before ([] ++ inner) (opened + 1) := h
  have hranges : splitRanges text 0 [] (opened + 1) (opened + 1) = _ := splitRanges_eq hstretch
  unfold judgeAt judge
  rw [hranges]
  cases hsplit : splitArguments? 0 inner with
  | none => rfl
  | some list =>
    have hwhole := congrArg List.length (append_of_splitArguments? hsplit)
    rw [List.length_append, List.length_cons] at hwhole
    have hlength := h.length_eq
    have hspan : opened + 1 + list.inside.length - (opened + 1) = list.inside.length :=
      Nat.add_sub_cancel_left _ _
    have hstop : opened + 1 + list.inside.length ≤ text.length := by omega
    have hsearch := findDirective_eq h hstop
    rw [hspan] at hsearch
    simp only [Option.map_some, Option.bind_eq_bind, Option.bind_some, rangesOf_nil, hsearch]
    cases hfound : findDirective? before inner list.inside.length with
    | some offset =>
      obtain ⟨hless, hhash⟩ := lt_and_getElem?_of_findDirective? hfound
      obtain ⟨tail, htail⟩ : ∃ tail, inner.drop offset = Byte.hash :: tail := by
        rw [List.getElem?_eq_some_iff] at hhash
        obtain ⟨hlt, hhash⟩ := hhash
        exact ⟨_, by rw [List.drop_eq_getElem_cons hlt, hhash]⟩
      have hfront := (h.split (List.take_append_drop offset inner)).append
      rw [htail, List.length_take_of_le (by omega)] at hfront
      have hcut := hfront.isBoundary_of_ascii (by decide)
      have hline : firstLine + newlines ((inner.take offset).reverse ++ before).reverse =
          firstLine + newlines before.reverse + newlines (inner.take offset) := by
        rw [List.reverse_append, List.reverse_reverse, newlines_append, Nat.add_assoc]
      simp only [Option.map_some, hfront.slice?_zero hcut, Option.bind_some, hline]
      rfl
    | none =>
      simp only [Option.map_none, length_stretchRanges]
      split
      · rfl
      · exact congrArg (some ∘ Except.ok) (rangesOf_nil _ list).symm

/-! ## Expansions -/

/-- An operand is finished as its text is. -/
theorem finishOperand_eq {rewritten : Bytes} (hrewritten : IsUtf8 rewritten) :
    Makes (finishOperand rewritten) (operandText rewritten) := by
  obtain ⟨hdropped, hutf8⟩ := dropLineComments_eq (Copying.start hrewritten.trim)
  rw [finishOperand, hdropped]
  exact ⟨rfl, hutf8.trim⟩

/-- Padding keeps a replacement well encoded. -/
theorem isUtf8_padLines {replacement : Bytes} (written : Bytes)
    (hreplacement : IsUtf8 replacement) : IsUtf8 (padLines written replacement) := by
  refine hreplacement.append ?_
  generalize newlines written - newlines replacement = count
  induction count with
  | zero => exact isUtf8_nil
  | succ count ih => exact (isUtf8_char '\n').append ih

/-- An expansion has the operands it needs. -/
theorem expandAt_eq {builtin : Builtin} {gap : Bytes} {list : ArgumentList} {texts : List Bytes}
    {site : Nat} (hcount : texts.length = builtin.operandCount)
    (htexts : ∀ operand ∈ texts, IsUtf8 operand) :
    Makes (expandAt builtin (builtin.spelling ++ callTail gap list) texts site)
      (callText builtin gap list texts site) := by
  have hpointer : IsUtf8 (texts.head?.getD []) := by
    cases texts with
    | nil => exact isUtf8_nil
    | cons pointer values => exact htexts pointer List.mem_cons_self
  obtain ⟨hflat, htype⟩ := flatten_eq (Copying.start hpointer)
  have henough : ¬ texts.tail.length < builtin.valueCount := by
    rw [List.length_tail, hcount, Builtin.valueCount]
    omega
  have hfilled : FilledWithUtf8 (callOperands texts) (.numbered site) :=
    ⟨hpointer, htype, fun value hvalue => htexts value (List.mem_of_mem_tail hvalue),
      isUtf8_ofString _, isUtf8_ofString _⟩
  have hexpand : expand? builtin (callOperands texts) (.numbered site) =
      some ((Expansion.program builtin).text (callOperands texts) (.numbered site)) :=
    if_neg henough
  refine ⟨?_, isUtf8_padLines _ (hfilled.program _)⟩
  rw [expandAt, hflat]
  change (do return padLines _ (← expand? builtin (callOperands texts) (.numbered site))) = _
  rw [hexpand]
  rfl

end PlainSync.Cursor
