import PlainSync.Region
import PlainSync.Sentinel
import PlainSync.Text.Blank

/-!
# Configuration

The settings that the header and the normalizer share, their defaults, and the settings that
the environment of a process spells out loosely.
-/

namespace PlainSync

/-- The settings. -/
structure Config where
  /-- Expand the calls of built-ins. -/
  normalizeAtomics : Bool := builtWithAtomics
  /-- The region that the header's attribute names. -/
  managedRegion : RegionId := .default
  /-- Whether accessors of one managed region may reach another. -/
  crossRegion : CrossRegionPolicy := .deny
  deriving DecidableEq, Repr

/-- A text in lower case as far as the basic alphabet goes. -/
def lowerAscii (s : String) : String := String.ofList (s.toList.map Char.toLower)

/-- Read a switch. Case does not matter, nor do blanks around the word. -/
def toggle? (text : String) : Option Bool :=
  match lowerAscii (trimString text) with
  | "on" | "1" | "true" | "yes" | "enabled" => some true
  | "off" | "0" | "false" | "no" | "disabled" => some false
  | _ => none

/-- Read a policy. Case does not matter, nor do blanks around the word. What is not clearly
permissive denies. -/
def CrossRegionPolicy.ofLooseText (text : String) : CrossRegionPolicy :=
  match lowerAscii (trimString text) with
  | "allow" | "permissive" | "open" | "on" => allow
  | _ => deny

/-- The variables of an environment that matter. -/
structure Environment where
  syncAtomics : Option String := none
  crossRegion : Option String := none
  deriving DecidableEq, Repr

/-- The settings that hold for a whole process. -/
structure ProcessSettings where
  /-- The built-ins have plain stand-ins. -/
  syncAtomics : Bool := builtWithAtomics
  crossRegion : CrossRegionPolicy := .deny
  deriving DecidableEq, Repr

namespace ProcessSettings

/-- The settings that an environment asks for. A word that is no switch keeps the default of the
build. -/
def ofEnvironment (environment : Environment) : ProcessSettings where
  syncAtomics := (environment.syncAtomics.bind toggle?).getD builtWithAtomics
  crossRegion := (environment.crossRegion.map CrossRegionPolicy.ofLooseText).getD .deny

/-- The facts that hold for the process. -/
def sentinels (settings : ProcessSettings) : Sentinels :=
  { syncAtomics := settings.syncAtomics }

/-- The configuration of a process that is given no other. -/
def config (settings : ProcessSettings) : Config :=
  { normalizeAtomics := settings.syncAtomics, crossRegion := settings.crossRegion }

end ProcessSettings

/-- Why settings are refused. -/
inductive ConfigError where
  /-- The region stands for unmanaged types. -/
  | reservedRegion (region : RegionId)
  deriving DecidableEq, Repr

/-- The text of a refusal. -/
def ConfigError.message : ConfigError → String
  | reservedRegion region =>
    s!"{region.text} is reserved for unmanaged types and cannot be the managed region"

/-- Refuse settings that name the unmanaged region. -/
def Config.validate (config : Config) : Except ConfigError Config :=
  if config.managedRegion.isManaged then .ok config
  else .error (.reservedRegion config.managedRegion)

end PlainSync
