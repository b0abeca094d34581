import PlainSync.Log.Validation
import PlainSync.Proofs.Log.Decoding
import PlainSync.Proofs.Log.RoundTrip

/-!
# What a line is accepted as

The faults of an object are listed completely, each once and in a fixed order; an object without
them is accepted as the entry that it says it is, and refused with one fault if it says none.
-/

namespace PlainSync

namespace LogFault

/-- An object shows a fault: a required field is missing, or a string is none of the names that its
field may hold or no identifier of three parts. -/
inductive IsShownBy (value : Json) : LogFault → Prop where
  | missing {field : String} (hfield : field ∈ requiredFields) (hnone : value.get? field = none) :
      IsShownBy value (missing field)
  | level {name : String} (hget : value.get? "level" = some (.string name))
      (hname : ∀ level : Level, level.name ≠ name) : IsShownBy value (unknownName "level" name)
  | ending {name : String} (hget : value.get? "outcome" = some (.string name))
      (hname : ∀ ending : Ending, ending.name ≠ name) :
      IsShownBy value (unknownName "outcome" name)
  | stage {name : String} (hget : value.get? "stage" = some (.string name))
      (hname : ∀ stage : Stage, stage.name ≠ name) : IsShownBy value (unknownName "stage" name)
  | builtin {name : String} (hget : value.get? "builtin" = some (.string name))
      (hname : ∀ builtin : Builtin, builtin.name ≠ name) : IsShownBy value (unknownBuiltin name)
  | traceId {id : String} (hget : value.get? "trace_id" = some (.string id))
      (hparts : (separatedParts id.toList).length ≠ 3) : IsShownBy value (malformedTraceId id)

/-- The place of a fault in a list of faults: missing fields first, then names, and the identifier
last. -/
def rank : LogFault → Nat
  | missing field => requiredFields.idxOf field
  | unknownName field _ => 4 + ["level", "outcome", "stage"].idxOf field
  | unknownBuiltin _ => 7
  | malformedTraceId _ => 8
  | _ => 9

/-- All faults that an object shows, each once and in order. -/
structure Lists (value : Json) (faults : List LogFault) : Prop where
  mem_iff : ∀ fault, fault ∈ faults ↔ fault.IsShownBy value
  ordered : faults.Pairwise fun first second => first.rank < second.rank

end LogFault

/-! ## Checking one field -/

section Fields

variable {value : Json}

/-- A field is a string if its member is. -/
theorem stringField?_eq_some_iff {name text : String} :
    stringField? value name = some text ↔ value.get? name = some (.string text) := by
  unfold stringField?
  split
  · next found hget => rw [hget, Option.some.injEq, Option.some.injEq, Json.string.injEq]
  · next hget => exact iff_of_false nofun (hget text)

/-- A fault is found in a field if the field holds a string that has it. -/
theorem mem_checkString_iff {name : String} {fault? : String → Option LogFault}
    {fault : LogFault} :
    fault ∈ checkString value name fault? ↔
      ∃ text, value.get? name = some (.string text) ∧ fault? text = some fault := by
  rw [checkString, Option.mem_toList, Option.bind_eq_some_iff]
  simp only [stringField?_eq_some_iff]

/-- What is found in a field has the place of its field. -/
theorem map_rank_checkString_sublist {name : String} {fault? : String → Option LogFault}
    {rank : Nat} (hrank : ∀ text, ∀ fault ∈ fault? text, fault.rank = rank) :
    ((checkString value name fault?).map LogFault.rank).Sublist [rank] := by
  unfold checkString
  cases hfound : (stringField? value name).bind fault? with
  | none => exact List.nil_sublist _
  | some fault =>
    obtain ⟨text, -, hfault⟩ := Option.bind_eq_some_iff.mp hfound
    rw [Option.toList_some, List.map_singleton, hrank text fault hfault]

/-- A name has a fault exactly if no choice has it. -/
theorem checkName_eq_some_iff {α : Type} {choices : List α} {nameOf : α → String}
    (hall : ∀ choice, choice ∈ choices) {field name : String} {fault : LogFault} :
    checkName field (choices.map nameOf) name = some fault ↔
      (∀ choice, nameOf choice ≠ name) ∧ .unknownName field name = fault := by
  have hmem : name ∈ choices.map nameOf ↔ ∃ choice, nameOf choice = name := by
    simp only [List.mem_map, hall, true_and]
  by_cases hknown : name ∈ choices.map nameOf
  · rw [checkName, if_pos hknown]
    exact iff_of_false nofun fun h => (hmem.mp hknown).elim h.1
  · rw [checkName, if_neg hknown, Option.some.injEq]
    exact (and_iff_right (not_exists.mp (hmem.not.mp hknown))).symm

/-- The name of a built-in has a fault exactly if no built-in has it. -/
theorem checkBuiltin_eq_some_iff {name : String} {fault : LogFault} :
    checkBuiltin name = some fault ↔
      (∀ builtin : Builtin, builtin.name ≠ name) ∧ .unknownBuiltin name = fault := by
  by_cases hknown : ∃ builtin : Builtin, builtin.name = name
  · obtain ⟨builtin, rfl⟩ := hknown
    rw [LogEntry.checkBuiltin_name]
    exact iff_of_false nofun fun h => h.1 builtin rfl
  · have hnone : Builtin.ofName? name = none :=
      List.find?_eq_none.mpr fun builtin _ hname => hknown ⟨builtin, by simpa using hname⟩
    rw [checkBuiltin, hnone]
    simpa using fun _ => not_exists.mp hknown

/-- An identifier has a fault exactly if it has not three parts. -/
theorem checkTraceId_eq_some_iff {id : String} {fault : LogFault} :
    checkTraceId id = some fault ↔
      (separatedParts id.toList).length ≠ 3 ∧ .malformedTraceId id = fault := by
  rw [checkTraceId, length_separatedParts]
  by_cases hcount : countSeparators id.toList = 2
  · simp [hcount]
  · have hparts : countSeparators id.toList + 1 ≠ 3 := by omega
    rw [if_neg hcount, Option.some.injEq]
    exact (and_iff_right hparts).symm

end Fields

/-! ## All faults of an object -/

/-- The faults that are found are those that the value shows. -/
theorem mem_schemaFaults_iff {value : Json} {fault : LogFault} :
    fault ∈ schemaFaults value ↔ fault.IsShownBy value := by
  simp only [schemaFaults, List.mem_append, List.mem_map, List.mem_filter, mem_checkString_iff,
    checkName_eq_some_iff Level.mem_all, checkName_eq_some_iff Ending.mem_all,
    checkName_eq_some_iff Stage.mem_all,
    checkBuiltin_eq_some_iff, checkTraceId_eq_some_iff, Option.isNone_iff_eq_none]
  constructor
  · rintro (((((⟨field, ⟨hfield, hnone⟩, rfl⟩ | ⟨name, hget, hname, rfl⟩) |
      ⟨name, hget, hname, rfl⟩) | ⟨name, hget, hname, rfl⟩) | ⟨name, hget, hname, rfl⟩) |
      ⟨id, hget, hparts, rfl⟩)
    · exact .missing hfield hnone
    · exact .level hget hname
    · exact .ending hget hname
    · exact .stage hget hname
    · exact .builtin hget hname
    · exact .traceId hget hparts
  · intro hshown
    cases hshown with
    | missing hfield hnone => exact .inl (.inl (.inl (.inl (.inl ⟨_, ⟨hfield, hnone⟩, rfl⟩))))
    | level hget hname => exact .inl (.inl (.inl (.inl (.inr ⟨_, hget, hname, rfl⟩))))
    | ending hget hname => exact .inl (.inl (.inl (.inr ⟨_, hget, hname, rfl⟩)))
    | stage hget hname => exact .inl (.inl (.inr ⟨_, hget, hname, rfl⟩))
    | builtin hget hname => exact .inl (.inr ⟨_, hget, hname, rfl⟩)
    | traceId hget hparts => exact .inr ⟨_, hget, hparts, rfl⟩

/-- The places of the faults that are found are some of the places that there are, in order. -/
theorem map_rank_schemaFaults_sublist (value : Json) :
    ((schemaFaults value).map LogFault.rank).Sublist (List.range 9) := by
  have hmissing : (((requiredFields.filter fun field => (value.get? field).isNone).map
      LogFault.missing).map LogFault.rank).Sublist [0, 1, 2, 3] := by
    rw [List.map_map]
    exact List.filter_sublist.map (LogFault.rank ∘ LogFault.missing)
  have hname {α : Type} {choices : List α} {nameOf : α → String} (field : String) :
      ∀ text, ∀ fault ∈ checkName field (choices.map nameOf) text,
        fault.rank = 4 + ["level", "outcome", "stage"].idxOf field := by
    intro text fault hfault
    rw [checkName] at hfault
    split at hfault
    · cases hfault
    · cases hfault
      rfl
  have hbuiltin : ∀ text, ∀ fault ∈ checkBuiltin text, fault.rank = 7 := fun text fault hfault =>
    (checkBuiltin_eq_some_iff.mp hfault).2 ▸ rfl
  have htraceId : ∀ text, ∀ fault ∈ checkTraceId text, fault.rank = 8 := fun text fault hfault =>
    (checkTraceId_eq_some_iff.mp hfault).2 ▸ rfl
  simp only [schemaFaults, List.map_append]
  exact ((((hmissing.append (map_rank_checkString_sublist (hname "level"))).append
    (map_rank_checkString_sublist (hname "outcome"))).append
    (map_rank_checkString_sublist (hname "stage"))).append
    (map_rank_checkString_sublist hbuiltin)).append (map_rank_checkString_sublist htraceId)

/-- The faults of a value are found in their order, each once. -/
theorem lists_schemaFaults (value : Json) : LogFault.Lists value (schemaFaults value) where
  mem_iff _ := mem_schemaFaults_iff
  ordered :=
    List.pairwise_map.mp (List.pairwise_lt_range.sublist (map_rank_schemaFaults_sublist value))

/-- A line with faults is refused for all of them. -/
theorem validateLine_of_faults {line : String} {members : List (String × Json)} {fault : LogFault}
    {more : List LogFault} (hobject : Json.parse? line = some (.object members))
    (hfaults : schemaFaults (.object members) = fault :: more) :
    validateLine line = .error (fault :: more) := by
  rw [validateLine, hobject]
  dsimp only
  rw [hfaults]

/-- A line without faults is read as an entry. -/
theorem validateLine_of_faultless {line : String} {members : List (String × Json)}
    (hobject : Json.parse? line = some (.object members))
    (hfaults : schemaFaults (.object members) = []) :
    validateLine line =
      (LogEntry.ofJson (.object members)).mapError fun why => [.mismatch why] := by
  rw [validateLine, hobject]
  dsimp only
  rw [hfaults]

/-- What a line is accepted as, and what is wrong with it. A line that is no object has one fault.
An object's faults are all those that it shows, in order; if it shows none, it is accepted exactly
as the entry that it says it is, and if it says none it has one fault. -/
theorem validateLine_exact (line : String) :
    match Json.parse? line with
    | none => validateLine line = .error [.notJson]
    | some (.object members) =>
      ∃ faults, LogFault.Lists (.object members) faults ∧
        if faults = [] then
          (∀ entry, validateLine line = .ok entry ↔ entry.IsSaidBy (.object members)) ∧
            ((∀ entry : LogEntry, ¬ entry.IsSaidBy (.object members)) →
              ∃ why, validateLine line = .error [.mismatch why])
        else validateLine line = .error faults
    | some _ => validateLine line = .error [.notObject] := by
  split
  · next hnone => rw [validateLine, hnone]
  · next members hobject =>
    refine ⟨schemaFaults (.object members), lists_schemaFaults _, ?_⟩
    cases hfaults : schemaFaults (.object members) with
    | cons fault more =>
      rw [if_neg (List.cons_ne_nil fault more), validateLine_of_faults hobject hfaults]
    | nil =>
      have hread (entry : LogEntry) : LogEntry.ofJson (.object members) = .ok entry ↔
          entry.IsSaidBy (.object members) := LogEntry.ofJson_eq_ok_iff
      rw [if_pos rfl, validateLine_of_faultless hobject hfaults]
      cases hresult : LogEntry.ofJson (.object members) with
      | ok found =>
        rw [hresult] at hread
        refine ⟨fun entry => ?_, fun hnothing => absurd ((hread found).mp rfl) (hnothing found)⟩
        rw [← hread entry, Except.mapError, Except.ok.injEq, Except.ok.injEq]
      | error why =>
        rw [hresult] at hread
        exact ⟨fun entry => iff_of_false nofun ((hread entry).not.mp nofun), fun _ => ⟨why, rfl⟩⟩
  · next value hno hvalue =>
    rw [validateLine, hvalue]
    cases value with
    | object members => exact (hno members rfl).elim
    | _ => rfl

end PlainSync
