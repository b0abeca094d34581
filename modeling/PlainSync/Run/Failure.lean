import PlainSync.Config.File
import PlainSync.Files.Outputs

/-!
# Why a run fails
-/

namespace PlainSync

/-- Why a run could not be brought to its end, or ended with a finding. Paths are kept as they are
shown. -/
inductive Failure where
  | file (error : FileError)
  | config (error : ConfigFileError)
  | nameClash (clash : NameClash)
  /-- A source is not valid UTF-8. -/
  | notUtf8 (path : String)
  /-- Several inputs were given, and no directory for their outputs. -/
  | noOutputDirectory
  /-- Built-ins disagree with the atomic cell. -/
  | contractFailures (failed total : Nat)
  /-- A log has findings. -/
  | invalidLog (path : String) (lines findings : Nat)
  deriving DecidableEq, Repr

/-- The text of a failure. -/
def Failure.message : Failure → String
  | file error => s!"io: {error.message}"
  | config error => s!"config: {error.message}"
  | nameClash clash => clash.message
  | notUtf8 path => s!"{path} is not valid UTF-8"
  | noOutputDirectory => "io: --output-dir is required with more than one input"
  | contractFailures failed total =>
    s!"contract matrix: {failed} of {total} cases disagree with the atomic reference"
  | invalidLog path lines findings =>
    s!"log {path}: {findings} invalid field(s) across {lines} line(s)"

end PlainSync
