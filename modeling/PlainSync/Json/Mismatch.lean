import PlainSync.Json.Printer
import PlainSync.Text.Quoted

/-!
# Values of the wrong kind

Why a JSON value is not one of the type that is wanted, and the texts that say so.
-/

namespace PlainSync.Json

/-- What was found in a place, as far as messages tell. -/
inductive Found where
  | null
  | bool (value : Bool)
  | integer (value : Int)
  | real (value : Double)
  | string (value : String)
  | sequence
  | map
  deriving DecidableEq, Repr

namespace Found

/-- What was found, as a message names it. -/
def text : Found → String
  | null => "null"
  | bool value => s!"boolean `{value}`"
  | integer value => s!"integer `{value}`"
  | real value => s!"floating point `{String.ofList value.text}`"
  | string value => s!"string {quoteString value}"
  | sequence => "sequence"
  | map => "map"

/-- What is found where a value stands. -/
def ofJson : Json → Found
  | .null => null
  | .bool value => bool value
  | .integer value => integer value
  | .real value => real value
  | .string value => string value
  | .array _ => sequence
  | .object _ => map

end Found

/-- Why a value is not one of the type that is wanted. -/
inductive Mismatch where
  | unknownField (name : String) (known : List String)
  | duplicateField (name : String)
  | missingField (name : String)
  | unknownVariant (name : String) (known : List String)
  | invalidType (found : Found) (expected : String)
  | invalidValue (found : Found) (expected : String)
  deriving DecidableEq, Repr

/-- The names that were to be expected. -/
def oneOf : List String → String
  | [name] => s!"`{name}`"
  | [first, second] => s!"`{first}` or `{second}`"
  | names => "one of " ++ String.intercalate ", " (names.map fun name => s!"`{name}`")

/-- The text of a mismatch. -/
def Mismatch.message : Mismatch → String
  | unknownField name known => s!"unknown field `{name}`, expected {oneOf known}"
  | duplicateField name => s!"duplicate field `{name}`"
  | missingField name => s!"missing field `{name}`"
  | unknownVariant name known => s!"unknown variant `{name}`, expected {oneOf known}"
  | invalidType found expected => s!"invalid type: {found.text}, expected {expected}"
  | invalidValue found expected => s!"invalid value: {found.text}, expected {expected}"

end PlainSync.Json
