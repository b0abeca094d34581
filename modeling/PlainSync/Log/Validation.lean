import PlainSync.Builtin
import PlainSync.Json.Reader
import PlainSync.Log.Decode
import PlainSync.Machine
import PlainSync.Text.Blank
import PlainSync.Text.Split

/-!
# Checking logs

A line of a log must be an object with the required fields, with known names where names are
wanted, with a trace identifier of three parts, and with every field of its kind. All fields
are checked for the first of these faults; only a line without them is read as an entry.
-/

namespace PlainSync

/-- What is wrong with a line. -/
inductive LogFault where
  | notJson
  | notObject
  | missing (field : String)
  /-- A field holds a name that is none of its choices. -/
  | unknownName (field name : String)
  | unknownBuiltin (name : String)
  /-- A trace identifier does not have three parts. -/
  | malformedTraceId (id : String)
  /-- A field is of the wrong kind. -/
  | mismatch (why : Json.Mismatch)
  deriving DecidableEq, Repr

namespace LogFault

/-- The field that a fault is reported for. -/
def field : LogFault → String
  | notJson => "<json>"
  | notObject => "<root>"
  | missing field => field
  | unknownName field _ => field
  | unknownBuiltin _ => "builtin"
  | malformedTraceId _ => "trace_id"
  | mismatch _ => "<deserialization>"

/-- The text of a fault. For what is no JSON it leaves out where and why reading stopped, which the
program appends in the words of its reader. -/
def message : LogFault → String
  | notJson => "invalid JSON"
  | notObject => "expected JSON object"
  | missing _ => "required field missing"
  | unknownName field name => s!"invalid {field}: '{name}'"
  | unknownBuiltin name => s!"unknown built-in: '{name}'"
  | malformedTraceId id =>
    s!"trace_id should follow <stage>::<run_id>::<seq> format, got: '{id}'"
  | mismatch why => s!"failed to deserialize: {why.message}"

end LogFault

/-- A fault and the line it was found on, counted from one. -/
structure LogFinding where
  line : Nat
  fault : LogFault
  deriving DecidableEq, Repr

/-- The text of a finding. -/
def LogFinding.text (finding : LogFinding) : String :=
  s!"line {finding.line}: field '{finding.fault.field}': {finding.fault.message}"

/-- How many double colons stand in a text, none of them sharing a colon with another. -/
def countSeparators : List Char → Nat
  | ':' :: ':' :: rest => countSeparators rest + 1
  | _ :: rest => countSeparators rest
  | [] => 0

/-- The fields that every entry has. -/
def requiredFields : List String := ["timestamp", "trace_id", "level", "event"]

/-- The string in a field, if there is one. -/
def stringField? (value : Json) (name : String) : Option String :=
  match value.get? name with
  | some (.string text) => some text
  | _ => none

/-- The fault of a string in a field, if the field holds a string and that has a fault. -/
def checkString (value : Json) (name : String) (fault? : String → Option LogFault) :
    List LogFault :=
  ((stringField? value name).bind fault?).toList

/-- The fault of a name that is none of the choices of its field. -/
def checkName (field : String) (choices : List String) (name : String) : Option LogFault :=
  if name ∈ choices then none else some (.unknownName field name)

/-- The fault of a name that is no built-in's. -/
def checkBuiltin (name : String) : Option LogFault :=
  if (Builtin.ofName? name).isSome then none else some (.unknownBuiltin name)

/-- The fault of a trace identifier that does not have three parts. -/
def checkTraceId (id : String) : Option LogFault :=
  if countSeparators id.toList = 2 then none else some (.malformedTraceId id)

/-- The faults of an object, as far as they show before its fields' kinds are looked at. -/
def schemaFaults (value : Json) : List LogFault :=
  (requiredFields.filter fun field => (value.get? field).isNone).map .missing ++
    checkString value "level" (checkName "level" (Level.all.map Level.name)) ++
    checkString value "outcome" (checkName "outcome" (Ending.all.map Ending.name)) ++
    checkString value "stage" (checkName "stage" (Stage.all.map Stage.name)) ++
    checkString value "builtin" checkBuiltin ++
    checkString value "trace_id" checkTraceId

/-- Read a line of a log, or find its faults. -/
def validateLine (line : String) : Except (List LogFault) LogEntry :=
  match Json.parse? line with
  | none => .error [.notJson]
  | some (.object members) =>
    match schemaFaults (.object members) with
    | [] => (LogEntry.ofJson (.object members)).mapError fun why => [.mismatch why]
    | faults => .error faults
  | some _ => .error [.notObject]

/-- The faults of a line. -/
def lineFaults (line : String) : List LogFault :=
  match validateLine line with
  | .ok _ => []
  | .error faults => faults

/-- Check lines, the first of which has the given number: how many are not blank, and what is
wrong with them. Blanks around a line do not matter. -/
def validateLines (number : Nat) : List (List Char) → Nat × List LogFinding
  | [] => (0, [])
  | line :: more =>
    let (count, findings) := validateLines (number + 1) more
    let text := trimBlanks line
    if text.isEmpty then (count, findings)
    else
      (count + 1,
        (lineFaults (String.ofList text)).map (LogFinding.mk number) ++ findings)

/-- Check the text of a log: how many of its lines are not blank, and what is wrong with them. -/
def validateText (text : String) : Nat × List LogFinding :=
  validateLines 1 (splitOn '\n' text.toList)

/-- Check a log in a file. -/
def validateFile {m : Type → Type} [Monad m] [Machine m] (path : Path) :
    m (Except FileError (Nat × List LogFinding)) := do
  return (← Machine.readText path).map validateText

end PlainSync
