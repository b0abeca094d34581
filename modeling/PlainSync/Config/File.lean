import PlainSync.Config.Reader
import PlainSync.Machine

/-!
# Settings in a file
-/

namespace PlainSync

/-- Why a file holds no settings. -/
inductive ConfigFileError where
  | file (error : FileError)
  | text (error : ConfigTextError)
  deriving DecidableEq, Repr

/-- The text of an error in a text that is to hold settings. For a malformed text it stands in place
of where and why reading stopped, which the program tells in the words of its reader. -/
def ConfigTextError.message : ConfigTextError → String
  | malformed => "invalid config JSON: malformed text"
  | mismatch why => s!"invalid config JSON: {why.message}"
  | refused why => why.message

/-- The text of an error. -/
def ConfigFileError.message : ConfigFileError → String
  | file error => s!"io: {error.message}"
  | text error => error.message

variable {m : Type → Type} [Monad m] [Machine m]

/-- Read settings from a file. -/
def Config.load (path : Path) : m (Except ConfigFileError Config) := do
  match ← Machine.readText path with
  | .ok text => return (Config.ofJson text).mapError .text
  | .error error => return .error (.file error)

end PlainSync
