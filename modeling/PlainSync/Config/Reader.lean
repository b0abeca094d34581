import PlainSync.Config
import PlainSync.Json.Mismatch
import PlainSync.Json.Token

/-!
# Settings as JSON

Settings are an object with any of the three fields, or an array of the fields' values in
order. They are read token by token, so that the first thing wrong in the text is the one that
is reported, whether it is no JSON or a wrong value.
-/

namespace PlainSync

namespace Config

/-- A field of the settings. -/
inductive Field where
  | normalizeAtomics
  | managedRegion
  | crossRegion
  deriving DecidableEq, Repr

namespace Field

/-- The fields, in order. -/
def all : List Field := [normalizeAtomics, managedRegion, crossRegion]

/-- The name of a field. -/
def name : Field → String
  | normalizeAtomics => "normalize_atomics"
  | managedRegion => "managed_region"
  | crossRegion => "cross_region"

/-- The field of that name. -/
def ofName? (name : String) : Option Field := all.find? fun field => field.name == name

/-- The field behind another in an array. -/
def next? : Field → Option Field
  | normalizeAtomics => some managedRegion
  | managedRegion => some crossRegion
  | crossRegion => none

end Field

/-- The settings as members of an object, with the fields in order. -/
def members (config : Config) : List (String × Json) :=
  [(Field.normalizeAtomics.name, .bool config.normalizeAtomics),
    (Field.managedRegion.name, .nat config.managedRegion.number.toNat),
    (Field.crossRegion.name, .string config.crossRegion.name)]

/-- The settings as a value. -/
def json (config : Config) : Json := .object config.members

/-- The settings as indented text. -/
def toJson (config : Config) : String := config.json.pretty

end Config

/-- Why a text holds no settings. -/
inductive ConfigTextError where
  /-- It is no JSON. -/
  | malformed
  /-- It is JSON of the wrong kind. -/
  | mismatch (why : Json.Mismatch)
  /-- The settings themselves are refused. -/
  | refused (why : ConfigError)
  deriving DecidableEq, Repr

namespace Config

open Json (Token Found)

/-- Where a value stands. -/
inductive Place where
  /-- Behind a name in an object. -/
  | member
  /-- In an array. -/
  | item
  deriving DecidableEq, Repr

/-- What may follow, with the settings read so far and the fields that have been given. -/
inductive ReadState where
  | start
  /-- The first name, or the end of the object. -/
  | firstName
  /-- A name. -/
  | name (config : Config) (given : List Field)
  /-- The colon behind a name. -/
  | colon (config : Config) (given : List Field) (field : Field)
  /-- The value of a field. -/
  | value (config : Config) (given : List Field) (field : Field) (place : Place)
  /-- The first item, or the end of the array. -/
  | firstItem
  /-- The name of a policy inside an object of its own. -/
  | policyName (config : Config) (given : List Field) (place : Place)
  /-- The colon behind the name of a policy. -/
  | policyColon (config : Config) (given : List Field) (place : Place)
  /-- The value behind the name of a policy. -/
  | policyValue (config : Config) (given : List Field) (place : Place)
  /-- The end of the object that holds a policy. -/
  | policyEnd (config : Config) (given : List Field) (place : Place)
  /-- What stands behind a value. -/
  | behind (config : Config) (given : List Field) (field : Field) (place : Place)
  /-- The end of the text. -/
  | done (config : Config)
  deriving Repr

/-- What is found where a token begins a value. -/
def found? : Token → Option Found
  | .null => some .null
  | .bool value => some (.bool value)
  | .integer value => some (.integer value)
  | .real value => some (.real value)
  | .string value => some (.string value)
  | .openBracket => some .sequence
  | .openBrace => some .map
  | _ => none

/-- Refuse a token where a value of another type is wanted. -/
def unexpected {α : Type} (expected : String) (token : Token) : Except ConfigTextError α :=
  match found? token with
  | some found => .error (.mismatch (.invalidType found expected))
  | none => .error .malformed

/-- The policies' names. -/
def policyNames : List String := [CrossRegionPolicy.deny.name, CrossRegionPolicy.allow.name]

/-- The policy of a name in a text. -/
def readPolicy (name : String) : Except ConfigTextError CrossRegionPolicy :=
  if name = CrossRegionPolicy.deny.name then .ok .deny
  else if name = CrossRegionPolicy.allow.name then .ok .allow
  else .error (.mismatch (.unknownVariant name policyNames))

namespace ReadState

/-- Read the name of a field. -/
def beginMember (config : Config) (given : List Field) (text : String) :
    Except ConfigTextError ReadState :=
  match Field.ofName? text with
  | none => .error (.mismatch (.unknownField text (Field.all.map Field.name)))
  | some field =>
    if field ∈ given then .error (.mismatch (.duplicateField text))
    else .ok (colon config given field)

/-- Read the value of a field, or its first token. -/
def beginValue (config : Config) (given : List Field) (field : Field) (place : Place)
    (token : Token) : Except ConfigTextError ReadState :=
  match field, token with
  | .normalizeAtomics, .bool truth =>
    .ok (behind { config with normalizeAtomics := truth } given field place)
  | .normalizeAtomics, token => unexpected "a boolean" token
  | .managedRegion, .integer number =>
    if 0 ≤ number ∧ number.toNat < Nat.pow 2 32 then
      .ok (behind { config with managedRegion := ⟨number.toNat.toUInt32⟩ } given field place)
    else .error (.mismatch (.invalidValue (.integer number) "u32"))
  | .managedRegion, token => unexpected "u32" token
  | .crossRegion, .string text => do
    let policy ← readPolicy text
    return behind { config with crossRegion := policy } given field place
  | .crossRegion, .openBrace => .ok (policyName config given place)
  | .crossRegion, _ => .error .malformed

/-- Read one token. -/
def step : ReadState → Token → Except ConfigTextError ReadState
  | start, .openBrace => .ok firstName
  | start, .openBracket => .ok firstItem
  | start, token => unexpected "struct ShimConfig" token
  | firstName, .closeBrace => .ok (done {})
  | firstName, .string text => beginMember {} [] text
  | firstName, _ => .error .malformed
  | name config given, .string text => beginMember config given text
  | name _ _, _ => .error .malformed
  | colon config given field, .colon => .ok (value config given field .member)
  | colon _ _ _, _ => .error .malformed
  | value config given field place, token => beginValue config given field place token
  | firstItem, .closeBracket => .ok (done {})
  | firstItem, token => beginValue {} [] .normalizeAtomics .item token
  | policyName config given place, .string text => do
    let policy ← readPolicy text
    return policyColon { config with crossRegion := policy } given place
  | policyName _ _ _, _ => .error .malformed
  | policyColon config given place, .colon => .ok (policyValue config given place)
  | policyColon _ _ _, _ => .error .malformed
  | policyValue config given place, .null => .ok (policyEnd config given place)
  | policyValue _ _ _, token => unexpected "unit" token
  | policyEnd config given place, .closeBrace => .ok (behind config given .crossRegion place)
  | policyEnd _ _ _, _ => .error .malformed
  | behind config given field .member, .comma => .ok (name config (field :: given))
  | behind config _ _ .member, .closeBrace => .ok (done config)
  | behind _ _ _ .member, _ => .error .malformed
  | behind config given field .item, .comma =>
    match field.next? with
    | some next => .ok (value config given next .item)
    | none => .error .malformed
  | behind config _ _ .item, .closeBracket => .ok (done config)
  | behind _ _ _ .item, _ => .error .malformed
  | done _, _ => .error .malformed

/-- Read tokens one after the other. -/
def run (state : ReadState) : List Token → Except ConfigTextError ReadState
  | [] => .ok state
  | token :: more => do
    let state ← state.step token
    state.run more

end ReadState

/-- Read settings and refuse those that name the unmanaged region. -/
def ofJson (text : String) : Except ConfigTextError Config := do
  match ← ReadState.start.run (Json.tokens text.toList) with
  | .done config => (config.validate).mapError .refused
  | _ => .error .malformed

end Config

end PlainSync
