import PlainSync.Log.Decode
import PlainSync.Proofs.Json.Members

/-!
# The fields of a log entry

An entry as a table of its thirteen fields, set or not. The object of the entry has a member for
each field that is set, so a field is found in it as it stands in the table, in whatever order
the members come; and the entry is read from it again.
-/

namespace PlainSync.LogEntry

open Json (Mismatch sorted)

/-- The fields of an entry, set or not, in order. -/
def fields (entry : LogEntry) : List (String × Option Json) :=
  [("timestamp", some (.string entry.timestamp)), ("trace_id", some (.string entry.traceId)),
    ("level", some (.string entry.level.name)), ("event", some (.string entry.event)),
    ("stage", entry.stage.map fun stage => .string stage.name),
    ("builtin", entry.builtin.map .string), ("width", entry.width.map .string),
    ("source_path", entry.sourcePath.map .string), ("line", entry.line.map .nat),
    ("outcome", entry.ending.map fun ending => .string ending.name),
    ("duration_ms", entry.durationMs.map .nat),
    ("artifact_refs", entry.artifactRefs.map fun refs => .array (refs.map .string)),
    ("details", entry.details)]

/-- The members for the fields that are set. -/
def setMembers (fields : List (String × Option Json)) : List (String × Json) :=
  fields.flatMap fun entry => field entry.1 entry.2 id

/-- The members of the first field come first. -/
theorem setMembers_cons (name : String) (value? : Option Json)
    (more : List (String × Option Json)) :
    setMembers ((name, value?) :: more) = field name value? id ++ setMembers more :=
  List.flatMap_cons

/-- A value is turned into JSON before or with its field. -/
theorem field_map {α : Type} (name : String) (value? : Option α) (json : α → Json) :
    field name (value?.map json) id = field name value? json := by
  unfold field
  rw [Option.map_map]
  rfl

/-- The members of an entry are the fields of it that are set. -/
theorem members_eq_setMembers (entry : LogEntry) : entry.members = setMembers entry.fields := by
  simp only [fields, setMembers_cons, field_map, members, List.append_assoc]
  rw [setMembers, List.flatMap_nil, List.append_nil]
  rfl

/-! ## Looking up fields -/

/-- The members keep the order of the fields. -/
theorem map_fst_setMembers_sublist (fields : List (String × Option Json)) :
    ((setMembers fields).map Prod.fst).Sublist (fields.map Prod.fst) := by
  induction fields with
  | nil => exact .slnil
  | cons first more ih =>
    obtain ⟨name, value?⟩ := first
    rw [setMembers_cons, List.map_append, List.map_cons]
    cases value? with
    | none => exact ih.cons name
    | some value => exact ih.cons_cons name

/-- A name without a field has no member. -/
theorem find?_setMembers_of_notMem {fields : List (String × Option Json)} {name : String}
    (hname : name ∉ fields.map Prod.fst) :
    (setMembers fields).find? (fun other => other.1 == name) = none := by
  apply List.find?_eq_none.mpr
  intro other hother hsame
  apply hname
  rw [← beq_iff_eq.mp hsame]
  exact (map_fst_setMembers_sublist fields).subset (List.mem_map_of_mem hother)

/-- A field with a name of its own is found by it. -/
theorem find?_setMembers {fields : List (String × Option Json)}
    (hnames : (fields.map Prod.fst).Nodup) {name : String} {value? : Option Json}
    (hfield : (name, value?) ∈ fields) :
    (setMembers fields).find? (fun other => other.1 == name) =
      value?.map fun value => (name, value) := by
  induction fields with
  | nil => cases hfield
  | cons first more ih =>
    obtain ⟨hfirst, hmore⟩ := List.nodup_cons.mp hnames
    obtain ⟨other, other?⟩ := first
    rw [setMembers_cons, List.find?_append]
    rcases List.mem_cons.mp hfield with hsame | hrest
    · cases hsame
      cases value? with
      | none => exact find?_setMembers_of_notMem hfirst
      | some value => simp [field]
    · have hother : ¬ other = name := by
        rintro rfl
        exact hfirst (List.mem_map.mpr ⟨(other, value?), hrest, rfl⟩)
      rw [ih hmore hrest]
      cases other? with
      | none => rfl
      | some value => simp [field, hother]

/-- No two fields of an entry have one name. -/
theorem nodup_map_fst_fields (entry : LogEntry) : (entry.fields.map Prod.fst).Nodup := by
  change ["timestamp", "trace_id", "level", "event", "stage", "builtin", "width", "source_path",
    "line", "outcome", "duration_ms", "artifact_refs", "details"].Nodup
  decide

/-- No two members of an entry have one name. -/
theorem nodup_map_fst_members (entry : LogEntry) : (entry.members.map Prod.fst).Nodup := by
  rw [members_eq_setMembers]
  exact (map_fst_setMembers_sublist entry.fields).nodup entry.nodup_map_fst_fields

/-- A field is found in the sorted object of an entry as it is set. -/
theorem get?_sorted_members (entry : LogEntry) (name : String) (value? : Option Json)
    (hfield : (name, value?) ∈ entry.fields) : (sorted entry.members).get? name = value? := by
  rw [Json.get?_sorted entry.nodup_map_fst_members, members_eq_setMembers, Json.get?,
    find?_setMembers entry.nodup_map_fst_fields hfield, Option.map_map]
  cases value? with
  | none => rfl
  | some value => rfl

/-! ## Reading fields -/

/-- A required member that is there and can be read is read. -/
theorem readRequired_of_get? {α : Type} {value : Json} {name : String}
    {read : Json → Except Mismatch α} {set : α} {json : Json}
    (hget : value.get? name = some json) (hread : read json = .ok set) :
    readRequired value name read = .ok set := by
  unfold readRequired
  rw [hget]
  exact hread

/-- An optional member is read if it is there and can be read. -/
theorem readOptional_of_get? {α : Type} {value : Json} {name : String}
    {read : Json → Except Mismatch α} {set? : Option α} {json : α → Json}
    (hget : value.get? name = set?.map json)
    (hread : ∀ set ∈ set?, json set ≠ .null ∧ read (json set) = .ok set) :
    readOptional value name read = .ok set? := by
  unfold readOptional
  rw [hget]
  cases set? with
  | none => rfl
  | some set =>
    obtain ⟨hnull, hread⟩ := hread set rfl
    rw [Option.map_some]
    split
    · next hnone => cases hnone
    · next hsome => exact absurd (Option.some.inj hsome) hnull
    · next other _ hsome =>
      rw [← Option.some.inj hsome, hread]
      rfl

/-- A number that fits is read back. -/
theorem readNat_nat (expected : String) {n : Nat} (hn : n < Nat.pow 2 64) :
    readNat expected (.nat n) = .ok n := by
  have hfits : 0 ≤ (n : Int) ∧ (n : Int).toNat < Nat.pow 2 64 := ⟨Int.natCast_nonneg n, hn⟩
  have hread : readNat expected (.nat n) = .ok (n : Int).toNat := if_pos hfits
  rw [hread, Int.toNat_natCast]

/-- Strings in an array are read back. -/
theorem readStrings_array (texts : List String) :
    readStrings (.array (texts.map .string)) = .ok texts := by
  change (texts.map Json.string).mapM readString = .ok texts
  induction texts with
  | nil => rfl
  | cons text more ih =>
    rw [List.map_cons, List.mapM_cons, ih]
    rfl

/-- The name of a level is read back. -/
theorem readChoice_level (level : Level) :
    readChoice Level.all Level.name (.string level.name) = .ok level := by
  cases level with
  | trace | debug | info | warn | error => rfl

/-- The name of an outcome is read back. -/
theorem readChoice_ending (ending : Ending) :
    readChoice Ending.all Ending.name (.string ending.name) = .ok ending := by
  cases ending with
  | pass | fail | skip | error => rfl

/-- The name of a stage is read back. -/
theorem readChoice_stage (stage : Stage) :
    readChoice Stage.all Stage.name (.string stage.name) = .ok stage := by
  cases stage with
  | header | normalize | verify => rfl

/-- An entry whose numbers fit 64 bits and whose details, if it has any, are a value other than
null that is written and read as itself. -/
structure IsWritable (entry : LogEntry) : Prop where
  line : ∀ line ∈ entry.line, line < Nat.pow 2 64
  durationMs : ∀ durationMs ∈ entry.durationMs, durationMs < Nat.pow 2 64
  details_ne_null : ∀ details ∈ entry.details, details ≠ .null
  details_readsBack : ∀ details ∈ entry.details, details.ReadsBack

section

variable (entry : LogEntry) (name : String)

/-- A required string of an entry is read back. -/
theorem readRequired_string (text : String)
    (hfield : (name, some (Json.string text)) ∈ entry.fields) :
    readRequired (sorted entry.members) name readString = .ok text :=
  readRequired_of_get? (entry.get?_sorted_members name _ hfield) rfl

/-- An optional string of an entry is read back. -/
theorem readOptional_string (text? : Option String)
    (hfield : (name, text?.map Json.string) ∈ entry.fields) :
    readOptional (sorted entry.members) name readString = .ok text? :=
  readOptional_of_get? (entry.get?_sorted_members name _ hfield) fun _ _ => ⟨Json.noConfusion, rfl⟩

/-- An optional number of an entry is read back if it fits. -/
theorem readOptional_nat (expected : String) (number? : Option Nat)
    (hfield : (name, number?.map Json.nat) ∈ entry.fields)
    (hfits : ∀ number ∈ number?, number < Nat.pow 2 64) :
    readOptional (sorted entry.members) name (readNat expected) = .ok number? :=
  readOptional_of_get? (entry.get?_sorted_members name _ hfield) fun number hnumber =>
    ⟨Json.noConfusion, readNat_nat expected (hfits number hnumber)⟩

/-- An optional name of an entry is read back as what it names. -/
theorem readOptional_choice {α : Type} {choices : List α} {nameOf : α → String}
    (choice? : Option α)
    (hfield : (name, choice?.map fun choice => Json.string (nameOf choice)) ∈ entry.fields)
    (hread : ∀ choice, readChoice choices nameOf (.string (nameOf choice)) = .ok choice) :
    readOptional (sorted entry.members) name (readChoice choices nameOf) = .ok choice? :=
  readOptional_of_get? (entry.get?_sorted_members name _ hfield) fun choice _ =>
    ⟨Json.noConfusion, hread choice⟩

end

/-- The entry is read from its object, whose members come in the order of their names. -/
theorem ofJson_sorted_members {entry : LogEntry} (hentry : entry.IsWritable) :
    ofJson (sorted entry.members) = .ok entry := by
  have hartifactRefs : readOptional (sorted entry.members) "artifact_refs" readStrings =
      .ok entry.artifactRefs :=
    readOptional_of_get? (entry.get?_sorted_members _ _ (by simp [fields])) fun refs _ =>
      ⟨Json.noConfusion, readStrings_array refs⟩
  have hbuiltin := entry.readOptional_string "builtin" entry.builtin (by simp [fields])
  have hdetails : readOptional (sorted entry.members) "details" .ok = .ok entry.details := by
    have hget : (sorted entry.members).get? "details" = entry.details.map id := by
      rw [Option.map_id]
      exact entry.get?_sorted_members _ _ (by simp [fields])
    exact readOptional_of_get? hget fun details hmem =>
      ⟨hentry.details_ne_null details hmem, rfl⟩
  have hdurationMs := entry.readOptional_nat "duration_ms" "u64" entry.durationMs
    (by simp [fields]) hentry.durationMs
  have hevent := entry.readRequired_string "event" entry.event (by simp [fields])
  have hlevel : readRequired (sorted entry.members) "level" (readChoice Level.all Level.name) =
      .ok entry.level :=
    readRequired_of_get? (entry.get?_sorted_members _ _ (by simp [fields]))
      (readChoice_level entry.level)
  have hline := entry.readOptional_nat "line" "usize" entry.line (by simp [fields]) hentry.line
  have hending := entry.readOptional_choice "outcome" entry.ending (by simp [fields])
    readChoice_ending
  have hsourcePath := entry.readOptional_string "source_path" entry.sourcePath (by simp [fields])
  have hstage := entry.readOptional_choice "stage" entry.stage (by simp [fields])
    readChoice_stage
  have htimestamp := entry.readRequired_string "timestamp" entry.timestamp (by simp [fields])
  have htraceId := entry.readRequired_string "trace_id" entry.traceId (by simp [fields])
  have hwidth := entry.readOptional_string "width" entry.width (by simp [fields])
  unfold ofJson
  rw [hartifactRefs, hbuiltin, hdetails, hdurationMs, hevent, hlevel, hline, hending, hsourcePath,
    hstage, htimestamp, htraceId, hwidth]
  rfl

end PlainSync.LogEntry
