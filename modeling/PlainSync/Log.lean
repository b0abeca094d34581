import PlainSync.Calendar
import PlainSync.Json.Printer

/-!
# Log entries

One record of what a run did, and its line in a log: a JSON object on one line, with the
fields in a fixed order and without those that are not set.
-/

namespace PlainSync

/-- How serious a record is. -/
inductive Level where
  | trace | debug | info | warn | error
  deriving DecidableEq, Repr

namespace Level

/-- The levels, least serious first. -/
def all : List Level := [trace, debug, info, warn, error]

/-- The word for a level. -/
def name : Level → String
  | trace => "trace"
  | debug => "debug"
  | info => "info"
  | warn => "warn"
  | error => "error"

end Level

/-- How the recorded step ended. -/
inductive Ending where
  | pass | fail | skip | error
  deriving DecidableEq, Repr

namespace Ending

/-- The endings. -/
def all : List Ending := [pass, fail, skip, error]

/-- The word for an ending. -/
def name : Ending → String
  | pass => "pass"
  | fail => "fail"
  | skip => "skip"
  | error => "error"

end Ending

/-- The part of the tool that a record comes from. -/
inductive Stage where
  | header | normalize | verify
  deriving DecidableEq, Repr

namespace Stage

/-- The stages. -/
def all : List Stage := [header, normalize, verify]

/-- The word for a stage. -/
def name : Stage → String
  | header => "header"
  | normalize => "rewrite"
  | verify => "verify"

end Stage

/-- A record. -/
structure LogEntry where
  timestamp : String
  /-- Names the record among all records. -/
  traceId : String
  level : Level
  event : String
  stage : Option Stage := none
  /-- The name of the built-in that the record is about. -/
  builtin : Option String := none
  /-- The name of an integer type. -/
  width : Option String := none
  sourcePath : Option String := none
  /-- The line in the source, counted from one. -/
  line : Option Nat := none
  ending : Option Ending := none
  durationMs : Option Nat := none
  artifactRefs : Option (List String) := none
  details : Option Json := none

namespace LogEntry

/-- A field, if it is set. -/
def field {α : Type} (name : String) (value? : Option α) (json : α → Json) :
    List (String × Json) :=
  (value?.map fun value => (name, json value)).toList

/-- The fields that are set, in order. -/
def members (entry : LogEntry) : List (String × Json) :=
  [("timestamp", .string entry.timestamp), ("trace_id", .string entry.traceId),
    ("level", .string entry.level.name), ("event", .string entry.event)] ++
  field "stage" entry.stage (fun stage => .string stage.name) ++
  field "builtin" entry.builtin .string ++
  field "width" entry.width .string ++
  field "source_path" entry.sourcePath .string ++
  field "line" entry.line .nat ++
  field "outcome" entry.ending (fun ending => .string ending.name) ++
  field "duration_ms" entry.durationMs .nat ++
  field "artifact_refs" entry.artifactRefs (fun refs => .array (refs.map .string)) ++
  field "details" entry.details id

/-- The entry as a value. -/
def json (entry : LogEntry) : Json := .object entry.members

/-- The line of the entry, without its end. -/
def toLine (entry : LogEntry) : String := entry.json.compact

end LogEntry

end PlainSync
