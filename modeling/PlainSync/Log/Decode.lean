import PlainSync.Json.Mismatch
import PlainSync.Log

/-!
# Reading log entries

The entry that a JSON object holds. Its fields are read in the order of their names, and the
first one of the wrong kind is reported. A field that is null or missing is not set; fields of
other names are ignored.
-/

namespace PlainSync.LogEntry

open Json (Mismatch)

/-- Read a string. -/
def readString : Json → Except Mismatch String
  | .string value => .ok value
  | other => .error (.invalidType (.ofJson other) "a string")

/-- Read a natural number of 64 bits. -/
def readNat (expected : String) : Json → Except Mismatch Nat
  | .integer value =>
    if 0 ≤ value ∧ value.toNat < Nat.pow 2 64 then .ok value.toNat
    else .error (.invalidValue (.integer value) expected)
  | other => .error (.invalidType (.ofJson other) expected)

/-- Read a list of strings. -/
def readStrings : Json → Except Mismatch (List String)
  | .array items => items.mapM readString
  | other => .error (.invalidType (.ofJson other) "a sequence")

/-- The choice of that name. -/
def readName {α : Type} (choices : List α) (nameOf : α → String) (name : String) :
    Except Mismatch α :=
  match choices.find? fun choice => nameOf choice == name with
  | some choice => .ok choice
  | none => .error (.unknownVariant name (choices.map nameOf))

/-- Read a choice: its name, or an object with its name in front of null. -/
def readChoice {α : Type} (choices : List α) (nameOf : α → String) :
    Json → Except Mismatch α
  | .string name => readName choices nameOf name
  | .object [(name, value)] => do
    let choice ← readName choices nameOf name
    match value with
    | .null => return choice
    | other => .error (.invalidType (.ofJson other) "unit")
  | .object _ => .error (.invalidValue .map "map with a single key")
  | other => .error (.invalidType (.ofJson other) "string or map")

/-- Read a field that need not be set. -/
def readOptional {α : Type} (value : Json) (name : String)
    (read : Json → Except Mismatch α) : Except Mismatch (Option α) :=
  match value.get? name with
  | none | some .null => .ok none
  | some value => (read value).map some

/-- Read a field that must be set. -/
def readRequired {α : Type} (value : Json) (name : String)
    (read : Json → Except Mismatch α) : Except Mismatch α :=
  match value.get? name with
  | none => .error (.missingField name)
  | some value => read value

/-- Read an entry. -/
def ofJson (value : Json) : Except Mismatch LogEntry := do
  let artifactRefs ← readOptional value "artifact_refs" readStrings
  let builtin ← readOptional value "builtin" readString
  let details ← readOptional value "details" .ok
  let durationMs ← readOptional value "duration_ms" (readNat "u64")
  let event ← readRequired value "event" readString
  let level ← readRequired value "level" (readChoice Level.all Level.name)
  let line ← readOptional value "line" (readNat "usize")
  let ending ← readOptional value "outcome" (readChoice Ending.all Ending.name)
  let sourcePath ← readOptional value "source_path" readString
  let stage ← readOptional value "stage" (readChoice Stage.all Stage.name)
  let timestamp ← readRequired value "timestamp" readString
  let traceId ← readRequired value "trace_id" readString
  let width ← readOptional value "width" readString
  return { timestamp, traceId, level, event, stage, builtin, width, sourcePath, line, ending,
           durationMs, artifactRefs, details }

end PlainSync.LogEntry
