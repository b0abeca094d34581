import PlainSync.Log.Emitter
import PlainSync.Log.Validation
import PlainSync.Proofs.Text.PaddedDecimal

/-!
# The parts of a trace identifier

A trace identifier is cut at its double colons, and has one part more than there are separators.
The identifiers that an emitter gives have the stage, the run and the number for their parts,
unless the name of the run has separators of its own.
-/

namespace PlainSync

/-- The parts of a text between double colons, cut from the left. -/
def separatedParts : List Char → List (List Char)
  | ':' :: ':' :: rest => [] :: separatedParts rest
  | c :: rest => (separatedParts rest).modifyHead (c :: ·)
  | [] => [[]]

/-- There is one part more than there are separators. -/
theorem length_separatedParts (text : List Char) :
    (separatedParts text).length = countSeparators text + 1 := by
  fun_induction separatedParts text with
  | case1 rest ih => rw [List.length_cons, ih, countSeparators]
  | case2 c rest hfirst ih =>
    rw [List.length_modifyHead, ih, countSeparators]
    exact hfirst
  | case3 => rfl

/-! ## Counting separators -/

/-- Only a colon begins a separator. -/
theorem countSeparators_cons_of_ne {c : Char} (hc : c ≠ ':') (rest : List Char) :
    countSeparators (c :: rest) = countSeparators rest := by
  rw [countSeparators]
  exact fun _ hcolon _ => hc hcolon

/-- A text without colons adds no separators to what stands behind it. -/
theorem countSeparators_append_of_notMem {text : List Char} (htext : ':' ∉ text)
    (rest : List Char) : countSeparators (text ++ rest) = countSeparators rest := by
  induction text with
  | nil => rfl
  | cons c more ih =>
    rw [List.mem_cons, not_or] at htext
    rw [List.cons_append, countSeparators_cons_of_ne (Ne.symm htext.1), ih htext.2]

/-- A separator in front of a text without colons is one more, even if colons stand before it. -/
theorem countSeparators_append_separator (text : List Char) {rest : List Char}
    (hrest : ':' ∉ rest) :
    countSeparators (text ++ ':' :: ':' :: rest) = countSeparators text + 1 := by
  have hnone : countSeparators rest = 0 := by
    have happend := countSeparators_append_of_notMem hrest []
    rwa [List.append_nil, countSeparators] at happend
  fun_induction countSeparators text with
  | case1 more ih => rw [List.cons_append, List.cons_append, countSeparators, ih]
  | case2 c more hfirst ih =>
    by_cases hc : c = ':'
    · cases more with
      | nil =>
        -- The colon takes the first one of the separator with it.
        rw [hc, List.singleton_append, countSeparators, countSeparators, hnone, countSeparators]
        rintro rest' - rfl
        exact hrest List.mem_cons_self
      | cons next more =>
        rw [List.cons_append, countSeparators, ih]
        intro rest' hcolon hsame
        rw [List.cons_append] at hsame
        exact hfirst more hcolon (by rw [(List.cons.inj hsame).1])
    · rw [List.cons_append, countSeparators_cons_of_ne hc, ih]
  | case3 => rw [List.nil_append, countSeparators, hnone]

/-! ## The identifiers of an emitter -/

/-- A padded number has no colon. -/
theorem colon_notMem_paddedDecimal (width n : Nat) : ':' ∉ (paddedDecimal width n).toList :=
  fun hcolon => absurd (isDigit_of_mem_paddedDecimal ':' hcolon) (by decide)

/-- The characters of an identifier. -/
theorem toList_traceId (stage : Stage) (runId : String) (number : Nat) :
    (traceId stage runId number).toList =
      stage.name.toList ++ ':' :: ':' ::
        (runId.toList ++ ':' :: ':' :: (paddedDecimal 3 number).toList) := by
  simp [traceId]

/-- No name of a stage has a colon. -/
theorem colon_notMem_name (stage : Stage) : ':' ∉ stage.name.toList := by
  cases stage with
  | header | normalize | verify => decide

/-- The identifiers of a run have the separators of its name beside the two that set the name
off. -/
theorem countSeparators_traceId (stage : Stage) (runId : String) (number : Nat) :
    countSeparators (traceId stage runId number).toList = countSeparators runId.toList + 2 := by
  have hnumber := colon_notMem_paddedDecimal 3 number
  rw [toList_traceId, countSeparators_append_of_notMem (colon_notMem_name stage), countSeparators,
    countSeparators_append_separator runId.toList hnumber]

end PlainSync
