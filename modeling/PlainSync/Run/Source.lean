import PlainSync.Run

/-!
# Normalizing files

The sources of a run are normalized in one session. Each call that is kept is logged, and
behind them what was done to the file.
-/

namespace PlainSync

/-- A file that was normalized. -/
structure NormalizedFile where
  text : Bytes
  report : Report
  /-- The digest of the source. -/
  sourceSha256 : String
  deriving DecidableEq, Repr

namespace RunM

variable {m : Type → Type} [Monad m] [Machine m]

/-- Log a call that was kept in a file, which is named by its path as that is shown. -/
def logKeptCall (path : String) (call : KeptCall) : RunM m Unit := do
  let entry ← draft .warn "call_site_skipped"
  log { entry with
    builtin := some call.builtin.name
    sourcePath := some path
    line := some call.line
    ending := some .skip
    details := some (.sorted [("reason", .string call.reason.message)]) }

/-- Log the calls that were kept, in order. -/
def logKeptCalls (path : String) : List KeptCall → RunM m Unit
  | [] => return
  | call :: more => do
    logKeptCall path call
    logKeptCalls path more

/-- What is logged of a file. -/
def fileDetails (report : Report) (sourceSha256 : String) : Json :=
  .sorted
    [("rewritten", .nat report.total), ("skipped", .nat report.kept.length),
      ("passthrough", .bool report.passthrough), ("source_sha256", .string sourceSha256)]

/-- Log what was done to a file since a point in time. -/
def logFileDone (path : String) (report : Report) (sourceSha256 : String) (start : Nat) :
    RunM m Unit := do
  let entry ← draft .info "file_rewritten"
  let stop ← perform Machine.uptime
  log { entry with
    sourcePath := some path
    ending := some (if report.passthrough then .skip else .pass)
    durationMs := some (elapsedMs start stop)
    details := some (fileDetails report sourceSha256) }

/-- Normalize a file. -/
def normalizeFile (path : Path) : RunM m NormalizedFile := do
  let start ← perform Machine.uptime
  let source ← onFile (Machine.readFile path)
  if (Bytes.toString? source).isNone then
    throw (.notUtf8 path.display)
  let run ← get
  let (normalized, session) := run.session.normalize source
  set { run with session := session }
  let sourceSha256 := Sha256.hex source
  logKeptCalls path.display normalized.report.kept
  logFileDone path.display normalized.report sourceSha256 start
  return ⟨normalized.text, normalized.report, sourceSha256⟩

/-- Write the text of a normalized file. -/
def writeNormalized (file : NormalizedFile) (output : Path) : RunM m Unit :=
  writeArtifact output "rewritten_source" file.text

end RunM

end PlainSync
