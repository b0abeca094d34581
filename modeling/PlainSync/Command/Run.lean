import PlainSync.Command
import PlainSync.Log.Validation
import PlainSync.Run.Contract
import PlainSync.Run.Header
import PlainSync.Run.Source

/-!
# Running commands

What each command does on a machine. Settings are read first. What was logged before a failure
is still written, and so are the files that were finished.
-/

namespace PlainSync

variable {m : Type → Type} [Monad m] [Machine m]

namespace RunM

/-- Print a text as a result. -/
def print (text : Bytes) : RunM m Unit := perform (Machine.print text)

/-- Write the index of artifacts, if a file is given for it. -/
def writeIndex (path : Option Path) : RunM m Unit := do
  if let some path := path then
    onFile (Machine.writeFile path (Bytes.ofString (← get).index.toJson))

/-- Render the header. -/
def headerCommand (output artifactIndex : Option Path) : RunM m Unit := do
  let text ← renderHeader output
  if output.isNone then print text
  flushLog
  writeIndex artifactIndex

/-- Decide where the texts of inputs go, and create the directory for them. -/
def prepareOutputs (directory : Path) (inputs : List Path) : RunM m (List Path) := do
  match outputPaths directory inputs with
  | .error clash => throw (.nameClash clash)
  | .ok outputs =>
    onFile (Machine.makeDirectories directory)
    return outputs

/-- Normalize an input and write its text, or print it. -/
def normalizeInput (input : Path) (output : Option Path) : RunM m Report := do
  let file ← normalizeFile input
  let report := file.report
  perform (Machine.printMessage
    s!"{input.display}: rewritten={report.total} skipped={report.kept.length}")
  match output with
  | some path => writeNormalized file path
  | none => print file.text
  return report

/-- Normalize inputs one after the other, each with its output. The reports come back with
their inputs, as these are shown. -/
def normalizeInputs : List (Path × Option Path) → RunM m (List (String × Report))
  | [] => return []
  | (input, output) :: more => do
    let report ← normalizeInput input output
    let reports ← normalizeInputs more
    return (input.display, report) :: reports

/-- The reports of inputs as one text. Of inputs that are shown alike the last one counts. -/
def reportsText (reports : List (String × Report)) : String :=
  (Json.sorted (reports.map fun entry => (entry.1, entry.2.json))).pretty

/-- Write the reports of inputs and list the file, if one is given. -/
def writeReports (path : Option Path) (reports : List (String × Report)) : RunM m Unit := do
  if let some path := path then
    let content := Bytes.ofString (reportsText reports)
    onFile (Machine.writeFile path content)
    modify fun run =>
      { run with index := run.index.add (.ofBytes path.display "rewrite_report" content) }

/-- The outputs of inputs, or none for each. -/
def outputsOf (directory : Option Path) (inputs : List Path) :
    RunM m (List (Path × Option Path)) := do
  match directory with
  | some directory => return inputs.zip ((← prepareOutputs directory inputs).map some)
  | none => return inputs.map fun input => (input, none)

/-- Normalize inputs. -/
def normalizeCommand (inputs : List Path) (directory report artifactIndex : Option Path) :
    RunM m Unit := do
  let reports ← normalizeInputs (← outputsOf directory inputs)
  writeReports report reports
  flushLog
  writeIndex artifactIndex

/-- Check the contract. -/
def verifyCommand (output : Option Path) : RunM m Unit := do
  let report ← verifyContract
  flushLog
  let text := report.json.pretty
  match output with
  | some path => onFile (Machine.writeFile path (Bytes.ofString text))
  | none => print (Bytes.ofString (text ++ "\n"))
  perform (Machine.printMessage
    s!"Contract matrix: total={report.total}, passed={report.passed}, failed={report.failed}")
  if !report.isClean then
    throw (.contractFailures report.failed report.total)

/-- Write what is kept back of the log, whether or not that succeeds. -/
def finishLog : RunM m Unit := tryCatch flushLog fun _ => return

end RunM

/-- Do a run from the opening of its log to its end. -/
def Run.execute (config : Config) (stage : Stage) (runId : String) (logPath : Option Path)
    (action : RunM m Unit) : m (Except Failure Unit) := do
  let logFile : Except FileError (Option (LogFile (Machine.Handle m))) ←
    match logPath with
    | some path => pure ((← LogFile.create path).map some)
    | none => pure (.ok none)
  match logFile with
  | .error error => return .error (.file error)
  | .ok logFile =>
    let run ← Run.start config stage runId logFile
    let (result, run) ← action.run.run run
    if result matches .error _ then
      let _ ← RunM.finishLog.run.run run
    return result

/-- The settings that hold and those of the process, as a text. -/
def sentinelsText (config : Config) (process : ProcessSettings) : String :=
  let facts (facts : Sentinels) : Json :=
    .sorted
      [("centrinel", .bool facts.present), ("blocks_available", .bool facts.blocksAvailable),
        ("sync_atomics", .bool facts.syncAtomics)]
  let configured : Sentinels := { syncAtomics := config.normalizeAtomics }
  (Json.sorted
    [("sentinels", facts process.sentinels),
      ("directives", .array (configured.directives.map .string)),
      ("config", .sorted config.members),
      ("process_cross_region_policy", .string process.crossRegion.name)]).pretty

/-- Print lines as messages. -/
def printMessages : List String → m Unit
  | [] => return
  | line :: more => do
    Machine.printMessage line
    printMessages more

/-- Check a log and print what is wrong with it. -/
def validateLog (path : Path) : m (Except Failure Unit) := do
  match ← validateFile path with
  | .error error => return .error (.file error)
  | .ok (lines, findings) =>
    printMessages (findings.map fun found =>
      s!"line {found.line}: {found.fault.field}: {found.fault.message}")
    Machine.printMessage s!"{path.display}: {lines} entries, {findings.length} error(s)"
    if findings.isEmpty then return .ok ()
    else return .error (.invalidLog path.display lines findings.length)

namespace Command

/-- The settings for a command: those of a file, or else those of the process. -/
def loadConfig (path : Option Path) (process : ProcessSettings) :
    m (Except Failure Config) := do
  match path with
  | some path => return (← Config.load path).mapError .config
  | none => return .ok process.config

/-- Run a command with its settings. -/
def runWith (invocation : Invocation) (config : Config) (process : ProcessSettings) :
    m (Except Failure Unit) := do
  match invocation.command with
  | header output artifactIndex =>
    Run.execute config .header invocation.runId invocation.log
      (RunM.headerCommand output artifactIndex)
  | normalize inputs directory report artifactIndex =>
    if directory.isNone && 1 < inputs.length then return .error .noOutputDirectory
    else
      Run.execute config .normalize invocation.runId invocation.log
        (RunM.normalizeCommand inputs directory report artifactIndex)
  | verify output =>
    Run.execute config .verify invocation.runId invocation.log (RunM.verifyCommand output)
  | sentinels => do
    Machine.print (Bytes.ofString (sentinelsText config process ++ "\n"))
    return .ok ()
  | validateLog path => PlainSync.validateLog path

/-- Run what a command line asks for in an environment. -/
def run (invocation : Invocation) (environment : Environment) : m (Except Failure Unit) := do
  let process := ProcessSettings.ofEnvironment environment
  match ← loadConfig invocation.config process with
  | .error failure => return .error failure
  | .ok config => runWith invocation config process

end Command

end PlainSync
