import PlainSync.Normalize
import PlainSync.Proofs.Source.Outline

/-!
# The extent of reports

A report accounts for no more calls than the source has bytes, and no number in it is larger than
the source allows: no line that the source does not reach, and no more arguments than a built-in
takes.
-/

namespace PlainSync

namespace Source

open Bytes (newlines)

/-- The numbers in a reason are not larger than a limit. -/
def KeepReason.Within (limit : Nat) : KeepReason → Prop
  | arity expected found => expected ≤ limit ∧ found ≤ limit
  | unterminated => True
  | directive line => line ≤ limit

end Source

/-- The numbers in the entry of a call that is kept are not larger than a limit. -/
structure KeptCall.Within (limit : Nat) (call : KeptCall) : Prop where
  line : call.line ≤ limit
  reason : call.reason.Within limit

namespace Source

open Bytes (newlines)

/-- The calls of an outline are no more than its text has bytes, and the numbers in the entries of
those that are kept are not larger than a limit. -/
structure Bounded (limit size : Nat) (expanded : List Builtin) (kept : List KeptCall) : Prop where
  count : expanded.length + kept.length ≤ size
  within : ∀ call ∈ kept, call.Within limit

/-- A text has no more line ends than bytes. -/
theorem newlines_le_length (text : Bytes) : newlines text ≤ text.length := List.count_le_length

namespace Bounded

variable {limit size size' : Nat} {expanded expanded' : List Builtin} {kept kept' : List KeptCall}

/-- No calls are bounded by anything. -/
theorem nil (limit size : Nat) : Bounded limit size [] [] where
  count := Nat.zero_le size
  within := nofun

/-- Calls are bounded in two texts one behind the other. -/
theorem append (hfront : Bounded limit size expanded kept)
    (hback : Bounded limit size' expanded' kept') :
    Bounded limit (size + size') (expanded ++ expanded') (kept ++ kept') where
  count := by
    have hfewer := hfront.count
    have hothers := hback.count
    simp only [List.length_append]
    omega
  within := List.forall_mem_append.mpr ⟨hfront.within, hback.within⟩

/-- Calls are bounded by anything larger. -/
theorem mono (h : Bounded limit size expanded kept) (hsize : size ≤ size') :
    Bounded limit size' expanded kept :=
  { h with count := Nat.le_trans h.count hsize }

end Bounded

/-- A built-in takes no more arguments than its name has letters. -/
theorem operandCount_le_length_spelling (builtin : Builtin) :
    builtin.operandCount ≤ builtin.spelling.length := by
  cases builtin with
  | fetchAndOp update => cases update <;> decide
  | opAndFetch update => cases update <;> decide
  | _ => decide

/-- The reason to keep a call has no larger numbers than the text behind its parenthesis allows. -/
theorem within_of_judge {builtin : Builtin} {line limit : Nat} {before text : Bytes}
    {reason : KeepReason} (hjudge : judge builtin line before text = .error reason)
    (hbuiltin : builtin.operandCount ≤ limit) (hline : line + text.length ≤ limit) :
    reason.Within limit := by
  unfold judge at hjudge
  split at hjudge
  · cases hjudge
    trivial
  · split at hjudge
    · next offset _ =>
      cases hjudge
      have hnewlines := newlines_le_length (text.take offset)
      have htake := List.length_take_le' offset text
      unfold KeepReason.Within
      omega
    · split at hjudge
      · next hfewer =>
        cases hjudge
        exact ⟨hbuiltin, Nat.le_trans (Nat.le_of_lt hfewer) hbuiltin⟩
      · cases hjudge

/-- The operands of a call are bounded by the arguments that they are outlined from. -/
theorem bounded_operands {arguments : List Bytes} {limit : Nat}
    (harguments : ∀ argument ∈ arguments, ∀ line, line + argument.length ≤ limit →
      Bounded limit argument.length (expandedPieces (outline line [] argument))
        (keptInPieces (outline line [] argument)))
    (line : Nat) (hline : line + outlineSize arguments ≤ limit + 1) :
    Bounded limit (outlineSize arguments) (expandedOperands (outlineOperands line arguments))
      (keptInOperands (outlineOperands line arguments)) := by
  induction arguments generalizing line with
  | nil =>
    rw [outlineOperands]
    exact .nil limit _
  | cons argument more ih =>
    obtain ⟨hargument, hmore⟩ := List.forall_mem_cons.mp harguments
    have hfewer := newlines_le_length argument
    rw [outlineSize] at hline ⊢
    have hboth := ((hargument line (by omega)).mono (Nat.le_succ _)).append
      (ih hmore (line + newlines argument) (by omega))
    rw [outlineOperands, expandedOperands, keptInOperands]
    exact hboth

/-- A call that is expanded is bounded by its text. -/
theorem bounded_call {builtin : Builtin} {gap : Bytes} {list : ArgumentList} {line limit : Nat}
    (hline : line + (builtin.spelling ++ callTail gap list).length ≤ limit)
    (harguments : ∀ argument ∈ list.arguments.take builtin.operandCount, ∀ line,
      line + argument.length ≤ limit →
        Bounded limit argument.length (expandedPieces (outline line [] argument))
          (keptInPieces (outline line [] argument))) :
    Bounded limit (builtin.spelling ++ callTail gap list).length
      (Piece.call builtin gap list (outlineOperands (line + newlines gap)
        (list.arguments.take builtin.operandCount))).expanded
      (Piece.call builtin gap list (outlineOperands (line + newlines gap)
        (list.arguments.take builtin.operandCount))).keptCalls := by
  have hsize := outlineSize_arguments_le list builtin.operandCount
  have hgap := newlines_le_length gap
  have hlength : (builtin.spelling ++ callTail gap list).length =
      builtin.spelling.length + (gap.length + (list.inside.length + 2)) := by
    simp only [callTail, List.length_append, List.length_cons, List.length_nil]
    omega
  have hoperands := bounded_operands harguments (line + newlines gap) (by omega)
  rw [Piece.expanded, Piece.keptCalls]
  refine ⟨?_, hoperands.within⟩
  have hcount := hoperands.count
  rw [hlength, List.length_append, List.length_singleton]
  omega

/-- The calls of an outline are bounded by its text and by the line on which this ends. -/
theorem bounded_outline {limit : Nat} (line : Nat) (before text : Bytes)
    (hline : line + text.length ≤ limit) :
    Bounded limit text.length (expandedPieces (outline line before text))
      (keptInPieces (outline line before text)) := by
  induction line, before, text using outline_induction with
  | nil line before =>
    rw [outline]
    exact .nil limit _
  | copied hnext hopening ih =>
    rename_i line before b rest lexeme behind
    have hfewer := newlines_le_length lexeme.text
    rw [← append_of_nextLexeme hnext, List.length_append] at hline
    have hboth := (Bounded.nil limit lexeme.text.length).append (ih (by omega))
    rw [outline_copied hnext hopening, ← append_of_nextLexeme hnext, List.length_append]
    exact hboth
  | kept hnext hopening hjudge ih =>
    rename_i line before b rest lexeme behind builtin gap inner reason
    rw [← append_of_nextLexeme hnext, List.length_append] at hline
    have hreason : reason.Within limit := by
      have hgap := newlines_le_length gap
      have hbuiltin := operandCount_le_length_spelling builtin
      obtain ⟨rfl, hbehind, -⟩ := opening?_eq_some.mp hopening
      rw [hbehind, Lexeme.text, List.length_append, List.length_cons] at hline
      exact within_of_judge hjudge (by omega) (by omega)
    have hcall : Bounded limit lexeme.text.length [] [⟨line, builtin, reason⟩] := by
      refine ⟨length_text_pos_of_nextLexeme hnext, List.forall_mem_singleton.mpr ⟨?_, hreason⟩⟩
      exact Nat.le_trans (Nat.le_add_right line _) hline
    rw [outline_kept hnext hopening hjudge, ← append_of_nextLexeme hnext, List.length_append]
    exact hcall.append (ih (by omega))
  | expanded hnext hopening hjudge harguments ih =>
    rename_i line before b rest lexeme behind builtin gap inner list
    have hfewer := newlines_le_length (callTail gap list)
    have htail : (callTail gap list).length ≤ (builtin.spelling ++ callTail gap list).length := by
      rw [List.length_append]
      exact Nat.le_add_left _ _
    rw [← append_callTail hnext hopening hjudge, List.length_append] at hline
    rw [outline_expanded hnext hopening hjudge, ← append_callTail hnext hopening hjudge,
      List.length_append]
    exact (bounded_call (by omega) harguments).append (ih (by omega))

/-- The report of a source is bounded by the source. -/
theorem bounded_report (session : Session) (source : Bytes) :
    Bounded (1 + source.length) source.length (session.normalize source).1.report.expanded
      (session.normalize source).1.report.kept := by
  by_cases henabled : session.config.normalizeAtomics = true
  · simp only [Session.normalize, henabled, if_true]
    exact bounded_outline 1 [] source (Nat.le_refl _)
  · simp only [Session.normalize, if_neg henabled]
    exact .nil _ _

end Source

end PlainSync
