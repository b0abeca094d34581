import PlainSync.Log.Validation
import PlainSync.Proofs.Log.Fields
import PlainSync.Proofs.Log.TraceIds

/-!
# Checking the line of an entry

The line of an entry is one line of text, and checking it gives the entry back. All that the
check can find fault with is the name of the built-in, the identifier, and details that are
nested too deeply to be read.
-/

namespace PlainSync.LogEntry

open Json (sorted maxDepth InOrder MembersOrdered NoControls)

variable {entry : LogEntry}

/-! ## The line -/

/-- What holds of the members holds of the fields that are set. -/
theorem forall_mem_setMembers {fields : List (String × Option Json)} {P : Json → Prop} :
    (∀ member ∈ setMembers fields, P member.2) ↔
      ∀ field ∈ fields, ∀ value ∈ field.2, P value := by
  constructor
  · intro hmembers field hfield value hvalue
    obtain ⟨name, value?⟩ := field
    cases hvalue
    exact hmembers (name, value) (List.mem_flatMap.mpr ⟨_, hfield, List.mem_singleton_self _⟩)
  · intro hfields member hmember
    obtain ⟨⟨name, value?⟩, hfield, hmember⟩ := List.mem_flatMap.mp hmember
    cases value? with
    | none => cases hmember
    | some value =>
      rw [List.mem_singleton.mp hmember]
      exact hfields _ hfield value rfl

/-- What holds of all strings holds of the members of an entry as far as it holds of the values
of its other kinds of fields. -/
theorem forall_mem_members (entry : LogEntry) {P : Json → Prop}
    (hstring : ∀ text, P (.string text)) :
    (∀ member ∈ entry.members, P member.2) ↔
      (∀ line ∈ entry.line, P (.nat line)) ∧
      (∀ durationMs ∈ entry.durationMs, P (.nat durationMs)) ∧
      (∀ refs ∈ entry.artifactRefs, P (.array (refs.map .string))) ∧
      ∀ details ∈ entry.details, P details := by
  rw [members_eq_setMembers, forall_mem_setMembers]
  simp [fields, hstring]

/-- Every member of a writable entry is read back. -/
theorem IsWritable.forall_readsBack (hentry : entry.IsWritable) :
    ∀ member ∈ entry.members, member.2.ReadsBack := by
  apply (forall_mem_members entry Json.readsBack_string).mpr
  refine ⟨?_, ?_, ?_, hentry.details_readsBack⟩
  · exact fun line hline => Json.readsBack_nat (hentry.line line hline)
  · exact fun durationMs hduration => Json.readsBack_nat (hentry.durationMs durationMs hduration)
  · intro refs _
    apply Json.readsBack_array
    intro item hitem
    obtain ⟨ref, -, rfl⟩ := List.mem_map.mp hitem
    exact Json.readsBack_string ref

/-- A writable entry has exact numbers only. -/
theorem IsWritable.isExact_json (hentry : entry.IsWritable) : entry.json.IsExact :=
  Json.membersExact_iff.mpr fun member hmember => (hentry.forall_readsBack member hmember).isExact

/-- A writable entry is read back with its members in order. -/
theorem IsWritable.normal_json (hentry : entry.IsWritable) :
    entry.json.normal = sorted entry.members := by
  have hordered : MembersOrdered entry.members := Json.membersOrdered_iff.mpr fun member hmember =>
    (hentry.forall_readsBack member hmember).isOrdered
  rw [json, Json.normal, Json.normalMembers_of_membersOrdered _ hordered]

/-- The line of a writable entry is parsed unless it is nested too deep. -/
theorem parse?_toLine (hentry : entry.IsWritable) :
    Json.parse? entry.toLine =
      if entry.json.depth ≤ maxDepth then some (sorted entry.members) else none := by
  rw [toLine, Json.parse?_compact hentry.isExact_json, hentry.normal_json]

/-- The line of a writable entry has no control characters. -/
theorem noControls_toLine (hentry : entry.IsWritable) : NoControls entry.toLine.toList := by
  rw [toLine, Json.compact, String.toList_ofList]
  exact Json.noControls_chars entry.json hentry.isExact_json

/-- The details are what is nested most deeply in an entry. -/
theorem depth_json_le_iff : entry.json.depth ≤ maxDepth ↔
    ∀ details ∈ entry.details, details.depth < maxDepth := by
  have hrefs (refs : List String) : (Json.array (refs.map .string)).depth ≤ 1 := by
    apply Nat.succ_le_succ
    exact Json.depthOfItems_le_iff.mpr (List.forall_mem_map.mpr fun _ _ => Nat.le_refl 0)
  have hfields := forall_mem_members entry (P := fun value => value.depth ≤ 126)
    fun _ => Nat.zero_le 126
  apply (Nat.succ_le_succ_iff.trans Json.depthOfMembers_le_iff).trans
  apply hfields.trans
  constructor
  · exact fun hall details hdetails => Nat.lt_succ_of_le (hall.2.2.2 details hdetails)
  · refine fun hall => ⟨fun _ _ => Nat.zero_le 126, fun _ _ => Nat.zero_le 126, ?_, ?_⟩
    · exact fun refs _ => Nat.le_trans (hrefs refs) (by decide)
    · exact fun details hdetails => Nat.le_of_lt_succ (hall details hdetails)

/-! ## Its faults -/

/-- The faults of an entry that its line can show. -/
def faults (entry : LogEntry) : List LogFault :=
  (entry.builtin.bind checkBuiltin).toList ++ (checkTraceId entry.traceId).toList

/-- The check of a text field is that of its text. -/
theorem checkString_of_mem_fields (name : String) (text? : Option String)
    (hfield : (name, text?.map Json.string) ∈ entry.fields)
    (fault? : String → Option LogFault) :
    checkString (sorted entry.members) name fault? = (text?.bind fault?).toList := by
  unfold checkString stringField?
  rw [entry.get?_sorted_members name _ hfield]
  cases text? with
  | none => rfl
  | some text => rfl

/-- A text field without a fault passes its check. -/
theorem checkString_eq_nil (name : String) (text? : Option String)
    (hfield : (name, text?.map Json.string) ∈ entry.fields) {fault? : String → Option LogFault}
    (hnone : ∀ text ∈ text?, fault? text = none) :
    checkString (sorted entry.members) name fault? = [] := by
  rw [checkString_of_mem_fields name text? hfield]
  cases text? with
  | none => rfl
  | some text => rw [Option.bind_some, hnone text rfl, Option.toList_none]

/-- The names that an entry holds are among the choices for them. -/
theorem checkName_map_name {α : Type} {choices : List α} (nameOf : α → String)
    (hchoices : ∀ choice, choice ∈ choices) (field : String) (choice? : Option α) :
    ∀ text ∈ choice?.map nameOf, checkName field (choices.map nameOf) text = none := by
  intro text htext
  obtain ⟨choice, -, rfl⟩ := Option.map_eq_some_iff.mp htext
  exact if_pos (List.mem_map_of_mem (hchoices choice))

/-- The faults of a line are those of its entry. -/
theorem schemaFaults_sorted_members (entry : LogEntry) :
    schemaFaults (sorted entry.members) = entry.faults := by
  have hmissing : requiredFields.filter (fun field =>
      ((sorted entry.members).get? field).isNone) = [] := by
    have htimestamp := entry.get?_sorted_members "timestamp" (some (.string entry.timestamp))
      (by simp [fields])
    have htraceId := entry.get?_sorted_members "trace_id" (some (.string entry.traceId))
      (by simp [fields])
    have hlevel := entry.get?_sorted_members "level" (some (.string entry.level.name))
      (by simp [fields])
    have hevent := entry.get?_sorted_members "event" (some (.string entry.event))
      (by simp [fields])
    simp [requiredFields, htimestamp, htraceId, hlevel, hevent]
  have hlevel : checkString (sorted entry.members) "level"
      (checkName "level" (Level.all.map Level.name)) = [] := by
    apply checkString_eq_nil "level" (some entry.level.name)
    · simp [fields]
    · exact checkName_map_name Level.name (fun level => by cases level <;> decide) "level"
        (some entry.level)
  have hending : checkString (sorted entry.members) "outcome"
      (checkName "outcome" (Ending.all.map Ending.name)) = [] := by
    apply checkString_eq_nil "outcome" (entry.ending.map Ending.name)
    · simp [fields, Function.comp_def]
    · exact checkName_map_name Ending.name (fun ending => by cases ending <;> decide) "outcome"
        entry.ending
  have hstage : checkString (sorted entry.members) "stage"
      (checkName "stage" (Stage.all.map Stage.name)) = [] := by
    apply checkString_eq_nil "stage" (entry.stage.map Stage.name)
    · simp [fields, Function.comp_def]
    · exact checkName_map_name Stage.name (fun stage => by cases stage <;> decide) "stage"
        entry.stage
  have hbuiltin : checkString (sorted entry.members) "builtin" checkBuiltin =
      (entry.builtin.bind checkBuiltin).toList := by
    apply checkString_of_mem_fields "builtin" entry.builtin
    simp [fields]
  have htraceId : checkString (sorted entry.members) "trace_id" checkTraceId =
      (checkTraceId entry.traceId).toList := by
    apply checkString_of_mem_fields "trace_id" (some entry.traceId)
    simp [fields]
  unfold schemaFaults
  rw [hmissing, hlevel, hending, hstage, hbuiltin, htraceId]
  rfl

/-- The name of a built-in is known. -/
theorem checkBuiltin_name (builtin : Builtin) : checkBuiltin builtin.name = none := by
  apply if_pos
  cases builtin with
  | fetchAndOp update | opAndFetch update => cases update <;> decide
  | _ => decide

/-- What is left of the faults of an entry whose built-in, if it has one, is known. -/
theorem faults_of_builtin (hbuiltin : ∀ name ∈ entry.builtin, ∃ builtin : Builtin,
    builtin.name = name) : entry.faults = (checkTraceId entry.traceId).toList := by
  have hnone : entry.builtin.bind checkBuiltin = none := by
    apply Option.bind_eq_none_iff.mpr
    intro name hname
    obtain ⟨builtin, rfl⟩ := hbuiltin name hname
    exact checkBuiltin_name builtin
  rw [faults, hnone, Option.toList_none, List.nil_append]

/-- The line of an entry is read as the entry, unless it has faults or is nested too deeply. -/
theorem validateLine_toLine (hentry : entry.IsWritable) :
    validateLine entry.toLine =
      if entry.json.depth ≤ maxDepth then
        if entry.faults = [] then .ok entry else .error entry.faults
      else .error [.notJson] := by
  have hparse := parse?_toLine hentry
  have hschema := schemaFaults_sorted_members entry
  have hread := ofJson_sorted_members hentry
  unfold sorted at hparse hschema hread
  unfold validateLine
  rw [hparse]
  by_cases hdepth : entry.json.depth ≤ maxDepth
  · rw [if_pos hdepth, if_pos hdepth]
    simp only [hschema]
    cases hfaults : entry.faults with
    | nil =>
      rw [if_pos rfl, hread]
      rfl
    | cons fault more => rw [if_neg (List.cons_ne_nil fault more)]
  · rw [if_neg hdepth, if_neg hdepth]

/-- A log entry survives its line. The line of an entry with a known built-in and an identifier
of three parts has no line break, whatever the strings of the entry hold, and checking it gives
the entry back with all its fields, up to the limit on nested details and not beyond it. -/
theorem toLine_roundTrip (hentry : entry.IsWritable)
    (hbuiltin : ∀ name ∈ entry.builtin, ∃ builtin : Builtin, builtin.name = name)
    (htraceId : (separatedParts entry.traceId.toList).length = 3) :
    '\n' ∉ entry.toLine.toList ∧
      ((∀ details ∈ entry.details, details.depth < maxDepth) →
        validateLine entry.toLine = .ok entry) ∧
      ((∃ details ∈ entry.details, maxDepth ≤ details.depth) →
        validateLine entry.toLine = .error [.notJson]) := by
  have hseparators : countSeparators entry.traceId.toList = 2 := by
    rw [length_separatedParts] at htraceId
    omega
  have hfaults : entry.faults = [] := by
    rw [faults_of_builtin hbuiltin, checkTraceId, if_pos hseparators]
    rfl
  refine ⟨?_, ?_, ?_⟩
  · intro hbreak
    exact absurd (noControls_toLine hentry '\n' hbreak) (by decide)
  · intro hdetails
    rw [validateLine_toLine hentry, if_pos (depth_json_le_iff.mpr hdetails), if_pos hfaults]
  · intro hdeep
    obtain ⟨details, hmem, hdepth⟩ := hdeep
    rw [validateLine_toLine hentry, if_neg]
    intro hfits
    exact Nat.not_lt_of_le hdepth (depth_json_le_iff.mp hfits details hmem)

/-- An entry with quotes, backslashes and control characters in its strings. -/
def quotingEntry : LogEntry :=
  { timestamp := "2024-01-01T00:00:00.000Z"
    traceId := "verify::\n\"run\"::001"
    level := .error
    event := "a \\ b \t \x00 \u2028"
    builtin := some "__sync_fetch_and_nand"
    line := some (Nat.pow 2 64 - 1)
    ending := some .fail
    artifactRefs := some ["", "\""]
    details := some (.object
      [("a", .array [.null, .integer (-9223372036854775808)]), ("b", .string "\r\n")]) }

/-- The entry with quotations can be written. -/
theorem isWritable_quotingEntry : quotingEntry.IsWritable := by
  constructor
  · intro line hline
    cases hline
    decide
  · intro durationMs hduration
    cases hduration
  · intro details hdetails
    cases hdetails
    exact Json.noConfusion
  · intro details hdetails
    cases hdetails
    have hinteger : Json.IntegerRange (-9223372036854775808) := ⟨by decide, by decide⟩
    have horder : InOrder
        [("a", .array [.null, .integer (-9223372036854775808)]), ("b", .string "\r\n")] := by
      unfold InOrder
      decide
    exact ⟨⟨⟨trivial, hinteger, trivial⟩, trivial, trivial⟩, horder,
      ⟨trivial, trivial, trivial⟩, trivial, trivial⟩

/-- It is one line and is read back. -/
theorem toLine_quotingEntry :
    '\n' ∉ quotingEntry.toLine.toList ∧ validateLine quotingEntry.toLine = .ok quotingEntry := by
  have hroundTrip := toLine_roundTrip isWritable_quotingEntry
    (fun name hname => ⟨.fetchAndOp .nand, by cases hname; decide⟩) (by decide)
  exact ⟨hroundTrip.1, hroundTrip.2.1 (by decide)⟩

end PlainSync.LogEntry
