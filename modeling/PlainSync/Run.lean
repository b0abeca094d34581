import PlainSync.Artifact
import PlainSync.Log.Emitter
import PlainSync.Log.File
import PlainSync.Normalize
import PlainSync.Run.Failure

/-!
# Runs

A run works on a machine, logs what it does and lists the files that it wrote. Its state
outlives a failure, so that what was logged before is still written.
-/

namespace PlainSync

/-- The state of a run. -/
structure Run (Handle : Type) where
  session : Session
  emitter : Emitter
  /-- What was logged, in order. The program writes this and never reads it: it is the account that
  statements about a log refer to, and what a caller sees who keeps no file. -/
  entries : List LogEntry := []
  /-- Where the log is written, if anywhere. -/
  logFile : Option (LogFile Handle) := none
  index : ArtifactIndex

/-- The actions of a run. -/
abbrev RunM (m : Type → Type) [Machine m] : Type → Type :=
  ExceptT Failure (StateT (Run (Machine.Handle m)) m)

variable {m : Type → Type} [Monad m] [Machine m]

/-- A run that begins. -/
def Run.start (config : Config) (stage : Stage) (runId : String)
    (logFile : Option (LogFile (Machine.Handle m))) : m (Run (Machine.Handle m)) := do
  let generated ← Machine.now
  return { session := { config := config }
           emitter := { stage := stage, runId := runId }
           logFile := logFile
           index := { runId := runId, generated := generated.text } }

/-- The milliseconds between two looks at the clock that is never set, as far as 64 bits hold
them. -/
def elapsedMs (start stop : Nat) : Nat := min (stop - start) (Nat.pow 2 64 - 1)

namespace RunM

/-- Do something on the machine. -/
def perform {α : Type} (action : m α) : RunM m α := ExceptT.lift (StateT.lift action)

/-- Do something with a file. -/
def onFile {α : Type} (action : m (Except FileError α)) : RunM m α := do
  match ← perform action with
  | .ok value => return value
  | .error error => throw (.file error)

/-- An entry of this moment without a trace identifier. -/
def draft (level : Level) (event : String) : RunM m LogEntry := do
  let now ← perform Machine.now
  return { timestamp := now.text, traceId := "", level := level, event := event }

/-- Do something with the log of a run. The log is kept as that leaves it, also if it fails. -/
def onLog (file : LogFile (Machine.Handle m)) (action : LogM m Unit) : RunM m Unit := do
  let (result, file) ← perform (action.run.run file)
  modify fun run => { run with logFile := some file }
  if let .error error := result then throw (.file error)

/-- Log an entry. It gets the stage of the run and the next trace identifier. -/
def log (entry : LogEntry) : RunM m Unit := do
  let run ← get
  let (entry, emitter) := run.emitter.complete entry
  set { run with emitter := emitter, entries := run.entries ++ [entry] }
  if let some file := run.logFile then
    onLog file (LogFile.putLine entry.toLine)

/-- Write what is kept back of the log. -/
def flushLog : RunM m Unit := do
  if let some file := (← get).logFile then
    onLog file LogFile.flush

/-- List a file with the content that it has on the disk. -/
def listFile (path : Path) (kind : String) : RunM m Unit := do
  let content ← onFile (Machine.readFile path)
  modify fun run => { run with index := run.index.add (.ofBytes path.display kind content) }

/-- Write a file and list it. -/
def writeArtifact (path : Path) (kind : String) (content : Bytes) : RunM m Unit := do
  onFile (Machine.writeFile path content)
  listFile path kind

end RunM

end PlainSync
