import PlainSync.Config
import PlainSync.Expansion
import PlainSync.Sentinel

/-!
# The header

The text that is included in front of every source file to be analysed. It establishes
the feature sentinels, names the managed region and gives each built-in a plain stand-in.
-/

namespace PlainSync.Header

/-- What a header states. -/
structure Options where
  sentinels : Sentinels
  managedRegion : RegionId
  deriving DecidableEq, Repr

/-- The header that settings ask for. -/
def Options.ofConfig (config : Config) : Options :=
  ⟨{ syncAtomics := config.normalizeAtomics }, config.managedRegion⟩

/-- Guards the header against being included twice. -/
def guardName : String := "__CENTRINEL_CENTRINEL_H"

/-- Names the managed region. -/
def regionName : String := "__CENTRINEL_MANAGED_REGION"

/-- Tags a structure with the managed region. -/
def attributeName : String := "__CENTRINEL_MANAGED_ATTR"

/-- The names that a stand-in gives to the values it needs. -/
def valueParameters (builtin : Builtin) : List String :=
  match builtin.valueCount with
  | 0 => []
  | 1 => ["value"]
  | _ => ["oldval", "newval"]

/-- The parameters of a stand-in: those that it needs, and any more. -/
def parameters (builtin : Builtin) : List String :=
  (if builtin.operandCount = 0 then [] else ["ptr"]) ++ valueParameters builtin ++ ["..."]

/-- The body of a stand-in. -/
def standInBody (builtin : Builtin) : Bytes :=
  (Expansion.program builtin).text
    ⟨Bytes.ofString "ptr", Bytes.ofString "ptr", (valueParameters builtin).map Bytes.ofString⟩
    .fixed

/-- The line that defines a built-in's stand-in. -/
def standIn (builtin : Builtin) : Bytes :=
  let names := String.intercalate "," (parameters builtin)
  Bytes.ofString s!"#define {builtin.name}({names}) " ++ standInBody builtin

/-- The lines of a header. -/
def lines (options : Options) : List Bytes :=
  ["/* Centrinel shim: include before any other header. */",
    s!"#ifndef {guardName}",
    s!"#define {guardName}",
    ""].map Bytes.ofString ++
  options.sentinels.directives.map Bytes.ofString ++
  ["",
    "/* Structs tagged with this attribute may not be accessed raw. */",
    s!"#define {regionName} {options.managedRegion.attributeText}",
    s!"#define {attributeName} __attribute__(({regionName}))",
    "",
    s!"#ifdef {Sentinels.syncAtomicsName}",
    "/* Non-atomic stand-ins for the legacy __sync built-ins. Analysis only. */"].map
    Bytes.ofString ++
  Builtin.all.map standIn ++
  [s!"#endif /* {Sentinels.syncAtomicsName} */",
    "",
    s!"#endif /* {guardName} */"].map Bytes.ofString

/-- The text of a header. -/
def text (options : Options) : Bytes :=
  (lines options).flatMap fun line => line ++ [Byte.newline]

end PlainSync.Header
