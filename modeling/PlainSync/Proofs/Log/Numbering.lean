import Mathlib.Data.List.Nodup
import PlainSync.Proofs.Log.TraceIds

/-!
# What identifiers identify

An identifier tells the stage, the run and the number that it was made of, whatever colons the
name of the run has. Since an emitter counts the identifiers that it gives and nothing else, no
two of its entries get the same one, and neither do entries of different runs.
-/

namespace PlainSync

/-! ## Reading an identifier -/

/-- What stands in front of the first occurrence of a character, and what stands behind it. -/
theorem eq_of_append_cons_eq {c : Char} {front front' rest rest' : List Char}
    (hfront : c ∉ front) (hfront' : c ∉ front')
    (hsame : front ++ c :: rest = front' ++ c :: rest') : front = front' ∧ rest = rest' := by
  induction front generalizing front' with
  | nil =>
    cases front' with
    | nil => exact ⟨rfl, (List.cons.inj hsame).2⟩
    | cons first' more' =>
      rw [(List.cons.inj hsame).1] at hfront'
      exact absurd List.mem_cons_self hfront'
  | cons first more ih =>
    cases front' with
    | nil =>
      rw [← (List.cons.inj hsame).1] at hfront
      exact absurd List.mem_cons_self hfront
    | cons first' more' =>
      rw [List.mem_cons, not_or] at hfront hfront'
      obtain ⟨hfirst, hmore⟩ := List.cons.inj hsame
      obtain ⟨rfl, hrest⟩ := ih hfront.2 hfront'.2 hmore
      exact ⟨by rw [hfirst], hrest⟩

/-- What stands in front of the last occurrence of a character, and what stands behind it. -/
theorem eq_of_append_cons_eq_back {c : Char} {front front' rest rest' : List Char}
    (hrest : c ∉ rest) (hrest' : c ∉ rest')
    (hsame : front ++ c :: rest = front' ++ c :: rest') : front = front' ∧ rest = rest' := by
  have hreversed : rest.reverse ++ c :: front.reverse = rest'.reverse ++ c :: front'.reverse := by
    simpa using congrArg List.reverse hsame
  obtain ⟨hback, hfront⟩ := eq_of_append_cons_eq (by rwa [List.mem_reverse])
    (by rwa [List.mem_reverse]) hreversed
  exact ⟨List.reverse_injective hfront, List.reverse_injective hback⟩

/-- A stage can be told from its name. -/
theorem Stage.name_injective {stage stage' : Stage} (hsame : stage.name = stage'.name) :
    stage = stage' := by
  revert hsame
  cases stage <;> cases stage' <;> decide

/-- The name of a stage and a number have no colons, so the first colon of an identifier ends the
stage and the last one begins the number. What is left in the middle is the name of the run. -/
theorem traceId_inj {stage stage' : Stage} {runId runId' : String} {number number' : Nat} :
    traceId stage runId number = traceId stage' runId' number' ↔
      stage = stage' ∧ runId = runId' ∧ number = number' := by
  constructor
  · intro hsame
    have hlist := congrArg String.toList hsame
    rw [toList_traceId, toList_traceId] at hlist
    obtain ⟨hstage, hrest⟩ :=
      eq_of_append_cons_eq (colon_notMem_name stage) (colon_notMem_name stage') hlist
    have hnumbered : (runId.toList ++ [':']) ++ ':' :: (paddedDecimal 3 number).toList =
        (runId'.toList ++ [':']) ++ ':' :: (paddedDecimal 3 number').toList := by
      simpa using hrest
    obtain ⟨hrun, hnumber⟩ := eq_of_append_cons_eq_back (colon_notMem_paddedDecimal 3 number)
      (colon_notMem_paddedDecimal 3 number') hnumbered
    exact ⟨Stage.name_injective (String.toList_inj.mp hstage),
      String.toList_inj.mp (List.append_cancel_right hrun),
      paddedDecimal_injective (String.toList_inj.mp hnumber)⟩
  · rintro ⟨rfl, rfl, rfl⟩
    rfl

/-! ## Giving identifiers -/

/-- What an emitter is asked to emit. -/
inductive Emission where
  /-- A bare entry. -/
  | bare (timestamp : String) (level : Level) (event : String)
  /-- An entry that may have an identifier already. -/
  | entry (entry : LogEntry)

/-- The entry comes without an identifier of its own. -/
def Emission.isNumbered : Emission → Bool
  | bare _ _ _ => true
  | entry drafted => drafted.traceId.isEmpty

namespace Emitter

/-- Emit an entry. -/
def perform (emitter : Emitter) : Emission → LogEntry × Emitter
  | .bare timestamp level event => emitter.emit timestamp level event
  | .entry entry => emitter.complete entry

/-- Emit entries one after the other. -/
def performAll (emitter : Emitter) : List Emission → List LogEntry × Emitter
  | [] => ([], emitter)
  | emission :: more =>
    let (entry, emitter) := emitter.perform emission
    let (others, emitter) := emitter.performAll more
    (entry :: others, emitter)

/-- The identifiers that an emitter gives while it emits entries. -/
def givenIds (emitter : Emitter) (emissions : List Emission) : List String :=
  ((emissions.zip (emitter.performAll emissions).1).filter fun emitted =>
    emitted.1.isNumbered).map fun emitted => emitted.2.traceId

variable (emitter : Emitter)

/-- One entry takes the next number if it comes without an identifier, and none otherwise. -/
theorem perform_cases (emission : Emission) :
    emission.isNumbered = true ∧
        (emitter.perform emission).1.traceId =
          traceId emitter.stage emitter.runId (emitter.given + 1) ∧
        (emitter.perform emission).2 = { emitter with given := emitter.given + 1 } ∨
      emission.isNumbered = false ∧ (emitter.perform emission).2 = emitter := by
  cases emission with
  | bare timestamp level event => exact Or.inl ⟨rfl, rfl, rfl⟩
  | entry entry =>
    cases hid : entry.traceId.isEmpty with
    | true =>
      refine Or.inl ⟨hid, ?_, ?_⟩
      · simp [perform, complete, nextTraceId, hid]
      · simp [perform, complete, nextTraceId, hid]
    | false =>
      refine Or.inr ⟨hid, ?_⟩
      simp [perform, complete, hid]

/-- An emission that is numbered gets the next identifier. -/
theorem givenIds_cons (emission : Emission) (more : List Emission) :
    emitter.givenIds (emission :: more) =
      if emission.isNumbered then
        (emitter.perform emission).1.traceId :: (emitter.perform emission).2.givenIds more
      else (emitter.perform emission).2.givenIds more := by
  unfold givenIds
  rw [performAll, List.zip_cons_cons, List.filter_cons]
  split
  · rfl
  · rfl

/-- The identifiers that are given are numbered one after the other, as many of them as there are
entries without one. -/
theorem givenIds_eq (emissions : List Emission) :
    emitter.givenIds emissions =
      (List.range' (emitter.given + 1) (emissions.countP Emission.isNumbered)).map
        (traceId emitter.stage emitter.runId) := by
  induction emissions generalizing emitter with
  | nil => rfl
  | cons emission more ih =>
    rw [givenIds_cons]
    rcases emitter.perform_cases emission with ⟨hnumbered, hid, hnext⟩ | ⟨hnumbered, hnext⟩
    · rw [if_pos hnumbered, hid, hnext, ih, List.countP_cons_of_pos hnumbered,
        List.range'_succ, List.map_cons]
    · rw [hnumbered, if_neg Bool.false_ne_true, hnext, ih,
        List.countP_cons_of_neg (by rw [hnumbered]; exact Bool.false_ne_true)]

/-- Identifiers identify entries. Whatever an emitter is asked to emit, with identifiers or without,
the k-th identifier that it gives is made of its stage, the name of the run and k, so no two of
them are the same. And whatever colons the name of a run has, two identifiers are the same only if
their stages, runs and numbers are. -/
theorem givenIds_identify (stage : Stage) (runId : String) (emissions : List Emission) :
    givenIds { stage, runId } emissions =
        (List.range' 1 (emissions.countP Emission.isNumbered)).map
          (fun k => stage.name ++ "::" ++ runId ++ "::" ++ paddedDecimal 3 k) ∧
      (givenIds { stage, runId } emissions).Nodup ∧
      ∀ (stage' : Stage) (runId' : String) (number number' : Nat),
        traceId stage runId number = traceId stage' runId' number' ↔
          stage = stage' ∧ runId = runId' ∧ number = number' := by
  have hids := givenIds_eq { stage, runId } emissions
  refine ⟨hids, ?_, fun stage' runId' number number' => traceId_inj⟩
  rw [hids]
  have hnumbers : (List.range' 1 (emissions.countP Emission.isNumbered)).Nodup := List.nodup_range'
  exact hnumbers.map fun number number' hsame => (traceId_inj.mp hsame).2.2

end Emitter

end PlainSync
