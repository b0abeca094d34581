import PlainSync.Files.Path

/-!
# The command line

What a command line can ask for.
-/

namespace PlainSync

/-- A command with its own options. -/
inductive Command where
  /-- Render the header into a file, or print it. -/
  | header (output artifactIndex : Option Path)
  /-- Normalize sources into a directory, or print the only one. -/
  | normalize (inputs : List Path) (directory report artifactIndex : Option Path)
  /-- Run the contract matrix and write its report, or print it. -/
  | verify (output : Option Path)
  /-- Print the sentinels and the settings that hold. -/
  | sentinels
  /-- Check a log. -/
  | validateLog (path : Path)
  deriving DecidableEq, Repr

/-- A command with the options that every command takes. -/
structure Invocation where
  /-- A file with settings, in place of the environment's. -/
  config : Option Path
  /-- Where the log is written, if anywhere. -/
  log : Option Path
  runId : String
  command : Command
  deriving DecidableEq, Repr

end PlainSync
