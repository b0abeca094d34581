import PlainSync.Proofs.Command.Inputs

/-!
# Commands that get behind their inputs

A command that normalizes inputs into a directory reads its settings, begins its log and makes the
directory. If all this succeeds it gets to its inputs, and behind them to its report and its index.
-/

namespace PlainSync

open PlainSync.Action
open Disk (SameBut)

/-- What a command that normalizes inputs into a directory is given beside these, its report and its
index. -/
structure Batch where
  configPath : Option Path := none
  log : Option Path := none
  runId : String
  directory : Path
  environment : Environment := {}
  world : World

namespace Batch

variable (batch : Batch)

/-- What the command comes to, and the machine behind it. -/
def run (inputs : List Path) (report artifactIndex : Option Path) :
    Except Failure Unit × World :=
  (Command.run ⟨batch.configPath, batch.log, batch.runId,
    .normalize inputs (some batch.directory) report artifactIndex⟩ batch.environment : WorldM _)
    batch.world

/-- The command has settings, and its log can be begun. -/
structure Begins (config : Config) (logPlace : Option Location) : Prop where
  settings : (Command.loadConfig batch.configPath (.ofEnvironment batch.environment) : WorldM _)
    batch.world = (.ok config, batch.world)
  logAt : LogAt batch.world.disk batch.log logPlace

/-- The run of the command before its action. -/
def started (config : Config) (logPlace : Option Location) : Run OpenFile :=
  Run.began config .normalize batch.runId logPlace (batch.world.clock batch.world.looks)

/-- The machine on which the command does its action. -/
def ready : World :=
  { batch.world with
    disk := batch.world.disk.withLog batch.log, looks := batch.world.looks + 1 }

variable {batch} {config : Config} {logPlace : Option Location}

/-- A batch that begins does what the command does. -/
theorem Begins.run_eq (hbegins : batch.Begins config logPlace) (inputs : List Path)
    (report artifactIndex : Option Path) :
    batch.run inputs report artifactIndex =
      Run.closed (eval
        (RunM.normalizeCommand (m := WorldM) inputs (some batch.directory) report artifactIndex)
        (batch.started config logPlace) batch.ready) := by
  unfold run Command.run
  change StateT.run (Command.loadConfig batch.configPath _ >>= _) batch.world = _
  rw [StateT.run_bind, StateT.run, hbegins.settings]
  exact Run.execute_eq hbegins.logAt

/-- A command either begins or does nothing, whatever its inputs are. -/
theorem begins_or_error (batch : Batch) : (∃ config logPlace, batch.Begins config logPlace) ∨
    (∀ config logPlace, ¬ batch.Begins config logPlace) ∧
      ∃ failure, ∀ inputs report artifactIndex,
        batch.run inputs report artifactIndex = (.error failure, batch.world) := by
  obtain ⟨result, hload⟩ := Command.exists_loadConfig batch.configPath
    (.ofEnvironment batch.environment) batch.world
  cases result with
  | error failure =>
    refine .inr ⟨fun config logPlace hbegins => ?_, failure, fun inputs report artifactIndex => ?_⟩
    · cases hload.symm.trans hbegins.settings
    · unfold run Command.run
      change StateT.run (Command.loadConfig batch.configPath _ >>= _) batch.world = _
      rw [StateT.run_bind, StateT.run, hload]
      rfl
  | ok config =>
    rcases LogAt.exists_or_error batch.world.disk batch.log with
      ⟨logPlace, hlog⟩ | ⟨path, error, hlog, hplace⟩
    · exact .inl ⟨config, logPlace, hload, hlog⟩
    · refine .inr ⟨fun config' logPlace hbegins => ?_, .file error,
        fun inputs report artifactIndex => ?_⟩
      · have hlogAt := hlog ▸ hbegins.logAt
        cases hlogAt with
        | present hother => cases hplace.symm.trans hother
      · unfold run Command.run
        change StateT.run (Command.loadConfig batch.configPath _ >>= _) batch.world = _
        rw [StateT.run_bind, StateT.run, hload, hlog]
        exact Run.execute_eq_error hplace

/-! ## Behind the inputs -/

/-- The output of an input. -/
def output (batch : Batch) (input : Path) : Path :=
  Path.join batch.directory (outputName input)

/-- Inputs with their outputs. -/
def files (batch : Batch) (inputs : List Path) : List (Path × Option Path) :=
  inputs.map fun input => (input, some (batch.output input))

/-- A batch whose names differ makes its directory first. -/
theorem Begins.run_eq_of_nodup (hbegins : batch.Begins config logPlace) {inputs : List Path}
    (hnames : (inputs.map outputName).Nodup) (report artifactIndex : Option Path) :
    batch.run inputs report artifactIndex =
      match batch.ready.disk.makeDirectories batch.directory with
      | (.ok (), disk) => Run.closed (eval
          (RunM.normalizeFiles (m := WorldM) (batch.files inputs) report artifactIndex)
          (batch.started config logPlace) (batch.ready.setDisk disk))
      | (.error error, disk) =>
        Run.closed ((.error (.file error), batch.started config logPlace),
          batch.ready.setDisk disk) := by
  have hfiles : inputs.zip ((inputs.map batch.output).map some) = batch.files inputs := by
    rw [files, List.map_map, ← List.map_prod_left_eq_zip]
    rfl
  rw [hbegins.run_eq, RunM.eval_normalizeCommand (outputPaths_eq hnames)]
  change (Run.closed <| match batch.ready.disk.makeDirectories batch.directory with
    | (.ok (), disk) => eval (RunM.normalizeFiles (m := WorldM)
        (inputs.zip ((inputs.map batch.output).map some)) report artifactIndex) _ _
    | (.error error, disk) => _) = _
  rw [hfiles]
  obtain ⟨result, disk⟩ := batch.ready.disk.makeDirectories batch.directory
  cases result with
  | ok value => rfl
  | error error => rfl

/-- A command gets behind inputs: it begins, the directory for the outputs is there, and the inputs
are normalized. The run and the machine are as this leaves them. -/
structure GetsBehind (batch : Batch) (inputs : List Path) (logPlace : Option Location)
    (reports : List (String × Report)) (run : Run OpenFile) (world : World) : Prop where
  exists_start : ∃ config disk, batch.Begins config logPlace ∧
    batch.ready.disk.makeDirectories batch.directory = (.ok (), disk) ∧
    eval (RunM.normalizeInputs (m := WorldM) (batch.files inputs)) (batch.started config logPlace)
      (batch.ready.setDisk disk) = ((.ok reports, run), world)

section Behind

variable {inputs : List Path} {reports : List (String × Report)} {run : Run OpenFile}
  {world : World}

/-- Behind inputs nothing is changed but the log and their outputs, and the inputs have file
names. -/
theorem GetsBehind.beside (h : batch.GetsBehind inputs logPlace reports run world) :
    (∀ input ∈ inputs, ∃ name, Path.fileName? input = some name) ∧
      Beside (inputs.map batch.output) logPlace
        (batch.world.disk.readyFor batch.log batch.directory) run world := by
  obtain ⟨config, disk, hbegins, hmake, hinputs⟩ := h.exists_start
  have hdisk : batch.world.disk.readyFor batch.log batch.directory = disk :=
    congrArg Prod.snd hmake
  have hstart : Beside [] logPlace disk (batch.started config logPlace)
      (batch.ready.setDisk disk) := by
    rw [← hdisk]
    refine .made ?_ (fun place hplace => ⟨[], hbegins.logAt.node? place hplace⟩) batch.directory
    cases logPlace with
    | none => rfl
    | some place => rfl
  have hfiles : ∀ file ∈ batch.files inputs, ∀ path ∈ file.2,
      path ∈ inputs.map batch.output := by
    refine List.forall_mem_map.mpr fun input hinput => ?_
    rintro path ⟨⟩
    exact List.mem_map_of_mem hinput
  have hbehind := (RunM.beside_normalizeInputs hfiles).holds _ _
    (hstart.mono (List.forall_mem_nil _))
  rw [hinputs] at hbehind
  exact ⟨fun input hinput => hbehind.1 _ (List.mem_map_of_mem hinput), hdisk ▸ hbehind.2⟩

/-- A batch that gets behind inputs has its log where it was to be. -/
theorem GetsBehind.logAt (h : batch.GetsBehind inputs logPlace reports run world) :
    LogAt batch.world.disk batch.log logPlace := by
  obtain ⟨config, disk, hbegins, -⟩ := h.exists_start
  exact hbegins.logAt

/-- A command that gets behind inputs goes on to its report and its index. -/
theorem GetsBehind.run_eq (h : batch.GetsBehind inputs logPlace reports run world)
    (hnames : (inputs.map outputName).Nodup) (report artifactIndex : Option Path) :
    batch.run inputs report artifactIndex =
      Run.closed (eval (RunM.finishInputs (m := WorldM) report artifactIndex reports) run
        world) := by
  obtain ⟨config, disk, hbegins, hmake, hinputs⟩ := h.exists_start
  rw [hbegins.run_eq_of_nodup hnames, hmake]
  exact congrArg Run.closed (RunM.eval_normalizeFiles hinputs report artifactIndex)

/-- A command gets behind an input of which nothing but one line is logged, and its log keeps that
back. -/
theorem Begins.exists_getsBehind_of_fits {place target : Location} {disk : Disk} {input : Path}
    {source : Bytes} (hbegins : batch.Begins config (some place))
    (hmake : batch.ready.disk.makeDirectories batch.directory = (.ok (), disk))
    (hread : disk.read input = .ok source) (hutf8 : (Bytes.toString? source).isSome)
    (hkept : (Session.fileOf { config := config } source).report.kept = [])
    (hfits : 4 * ((batch.started config (some place)).emitter.complete
      (RunM.doneEntry input.display (Session.fileOf { config := config } source)
        (batch.ready.uptime batch.ready.looks)
        (batch.ready.setDisk disk).looked)).1.json.chars.length + 1 < LogFile.capacity)
    (houtput : disk.placeToWrite (batch.output input) = .ok target)
    (hfile : batch.world.fileFault batch.world.files = none) (hpieces : batch.world.WritesPieces)
    (hnode : (disk.put target (.file (Session.fileOf { config := config } source).text)).node?
      place = some (.file [])) :
    ∃ reports run world line, batch.GetsBehind [input] (some place) reports run world ∧
      world.disk = disk.put target (.file (Session.fileOf { config := config } source).text) ∧
      LogHas world run.logFile line (some place) := by
  have hlog : (batch.started config (some place)).logFile = some (Run.newLog place) := rfl
  have hread' : (batch.ready.setDisk disk).disk.read input = .ok source := hread
  obtain ⟨report, run, world, line, hinput, hdisk, hlog'⟩ :=
    RunM.exists_eval_normalizeInput_of_fits hlog hread' hutf8 hkept hfits houtput hfile hpieces
      hnode
  exact ⟨_, run, world, line,
    ⟨_, _, hbegins, hmake, RunM.eval_normalizeInputs_singleton hinput⟩, hdisk, hlog'⟩

/-- What was kept back of a log is written behind the only inputs of a command that makes neither a
report nor an index. -/
theorem GetsBehind.exists_run_eq {place : Location} {text : Bytes}
    (h : batch.GetsBehind inputs (some place) reports run world)
    (hnames : (inputs.map outputName).Nodup) (hlog : LogHas world run.logFile text (some place)) :
    ∃ world', batch.run inputs none none = (.ok (), world') ∧
      world'.disk.node? place = some (.file text) ∧
      SameBut (some place) world.disk world'.disk := by
  obtain ⟨run', world', hflush, hnode⟩ := RunM.exists_eval_flushLog hlog
  have hkept : Triple (Beside [] (some place) world.disk) (Beside [] (some place) world.disk)
      (RunM.flushLog (m := WorldM)) fun _ => Beside [] (some place) world.disk :=
    Beside.keptByLogging.flushLog
  have hsame := hkept.keeps h.beside.2.fresh
  rw [hflush] at hsame
  refine ⟨world', ?_, hnode, hsame.sameBut⟩
  rw [h.run_eq hnames, RunM.eval_finishInputs_none, hflush]
  rfl

end Behind

end Batch

end PlainSync
