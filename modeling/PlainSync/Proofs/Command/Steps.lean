import PlainSync.Command.Run
import PlainSync.Proofs.Files.Directories
import PlainSync.Proofs.Run.Working

/-!
# What the commands do to a disk

Normalizing inputs into a directory reads and writes files in a session, and then writes the report
and the index. The run that this is done in begins the log and the directory first.
-/

namespace PlainSync

open PlainSync.Action
open Disk (SameBut SameDirectories)

/-- The artifacts of outputs with the texts of normalized sources. -/
def outputArtifacts (outputs : List Path) (texts : List Normalized) : List Artifact :=
  (outputs.zip texts).map fun output =>
    .ofBytes output.1.display "rewritten_source" output.2.text

/-- The reports of normalized sources with their inputs, as these are shown. -/
def inputReports (inputs : List Path) (texts : List Normalized) : List (String × Report) :=
  (inputs.zip texts).map fun input => (input.1.display, input.2.report)

/-- The artifact of a report, if a path is given for one. -/
def reportArtifacts (report : Option Path) (content : Bytes) : List Artifact :=
  report.toList.map fun path => .ofBytes path.display "rewrite_report" content

namespace ArtifactIndex

/-- Record files one after the other. -/
def addAll (index : ArtifactIndex) (artifacts : List Artifact) : ArtifactIndex :=
  { index with artifacts := index.artifacts ++ artifacts }

/-- No artifacts leave an index as it is. -/
theorem addAll_nil (index : ArtifactIndex) : index.addAll [] = index := by
  rw [addAll, List.append_nil]

/-- Artifacts are added one after the other. -/
theorem addAll_append (index : ArtifactIndex) (first second : List Artifact) :
    (index.addAll first).addAll second = index.addAll (first ++ second) := by
  simp only [addAll, List.append_assoc]

/-- An artifact is added in front of the others. -/
theorem addAll_cons (index : ArtifactIndex) (artifact : Artifact) (more : List Artifact) :
    index.addAll (artifact :: more) = (index.add artifact).addAll more := by
  simp only [addAll, add, List.append_assoc, List.singleton_append]

end ArtifactIndex

namespace Disk

/-- Write a file, if a path is given for it. -/
def writeIfGiven (disk : Disk) (path : Option Path) (content : Bytes) : Except FileError Disk :=
  match path with
  | some path => disk.write path content
  | none => .ok disk

/-- Writing a file that is asked for makes no directory. -/
theorem sameDirectories_of_writeIfGiven {disk disk' : Disk} {path : Option Path}
    {content : Bytes} (hwrite : disk.writeIfGiven path content = .ok disk') :
    SameDirectories disk disk' := by
  cases path with
  | none =>
    cases hwrite
    exact .refl disk
  | some path => exact sameDirectories_of_write hwrite

/-- The disk with an empty file where a log begins, if one is given. -/
def withLog (disk : Disk) (log : Option Path) : Disk :=
  (disk.writeIfGiven log []).toOption.getD disk

/-- A log is created at its place. -/
theorem withLog_some {disk : Disk} {path : Path} {place : Location}
    (hplace : disk.placeToWrite path = .ok place) :
    disk.withLog (some path) = disk.put place (.file []) := by
  rw [withLog, writeIfGiven, write, hplace]
  rfl

/-- The disk on which inputs are normalized: the log has been begun, and the directory for the
outputs is there. -/
def readyFor (disk : Disk) (log : Option Path) (directory : Path) : Disk :=
  ((disk.withLog log).makeDirectories directory).2

end Disk

namespace RunM

variable {logPlace : Option Location} {session : Session} {index : ArtifactIndex} {disk : Disk}

/-- Inputs are normalized in a session on the given disk. -/
theorem working_normalizeInputs (files : List (Path × Path))
    (hinputs : ∀ file ∈ files, disk.Spares logPlace file.1)
    (houtputs : ∀ file ∈ files, disk.Spares logPlace file.2) :
    Triple anyState (Working logPlace session index disk)
      (normalizeInputs (m := WorldM) (files.map fun file => (file.1, some file.2)))
      fun reports run world => ∃ sources disk' session',
        SessionOn disk session files sources disk' ∧
        reports = inputReports (files.map Prod.fst) (session.normalizeAll sources).1 ∧
        Working logPlace session'
          (index.addAll (outputArtifacts (files.map Prod.snd) (session.normalizeAll sources).1))
          disk' run world := by
  induction files generalizing session index disk with
  | nil =>
    refine .pure fun run world hwork => ⟨[], disk, session, .nil disk session, rfl, ?_⟩
    rwa [show outputArtifacts _ _ = [] from rfl, ArtifactIndex.addAll_nil]
  | cons file more ih =>
    obtain ⟨input, output⟩ := file
    obtain ⟨hinput, hmoreInputs⟩ := List.forall_mem_cons.mp hinputs
    obtain ⟨houtput, hmoreOutputs⟩ := List.forall_mem_cons.mp houtputs
    rw [List.map_cons, normalizeInputs, normalizeInput, bind_assoc]
    refine .bind (working_normalizeFile hinput) fun file => .ofExists fun source =>
      .assume fun hread => .assume fun hfile => ?_
    obtain ⟨htext, hreport⟩ := hfile
    simp only [bind_assoc, pure_bind]
    refine .bind (Working.keptByLogging.printMessage _) fun _ => ?_
    refine .bind (working_writeArtifact houtput _ _) fun _ => .ofExists fun next =>
      .assume fun hwrite => ?_
    have hsame := Disk.sameDirectories_of_write hwrite
    refine .bind (ih (fun other hother => (hmoreInputs other hother).congr hsame)
      fun other hother => (hmoreOutputs other hother).congr hsame) fun reports => .pure ?_
    rintro run world ⟨sources, disk', session', hmore, hreports, hwork⟩
    rw [htext] at hwrite hwork
    refine ⟨source :: sources, disk', session', .cons hread hwrite hmore, ?_, ?_⟩
    · rw [hreport, hreports]
      rfl
    · rw [← ArtifactIndex.addAll_cons] at hwork
      exact hwork

/-- The reports are written as they are. -/
theorem working_writeReports (report : Option Path) (reports : List (String × Report)) :
    Triple anyState (Working logPlace session index disk)
      (writeReports (m := WorldM) report reports)
      fun _ run world => ∃ disk',
        disk.writeIfGiven report (Bytes.ofString (reportsText reports)) = .ok disk' ∧
        Working logPlace session
          (index.addAll (reportArtifacts report (Bytes.ofString (reportsText reports))))
          disk' run world := by
  cases report with
  | none =>
    refine .pure fun run world hwork => ⟨disk, rfl, ?_⟩
    rwa [show reportArtifacts _ _ = [] from rfl, ArtifactIndex.addAll_nil]
  | some path =>
    refine .bind (working_writeFile path _) fun _ => .ofExists fun disk' =>
      .assume fun hwrite => .modify fun run world hwork => ⟨disk', hwrite, ?_⟩
    exact ⟨hwork.toBeside.congr rfl rfl, hwork.session_eq, by rw [hwork.index_eq]; rfl⟩

/-- The index is written as it is. -/
theorem working_writeIndex (artifactIndex : Option Path) :
    Triple anyState (Working logPlace session index disk) (writeIndex (m := WorldM) artifactIndex)
      fun _ run world => ∃ disk',
        disk.writeIfGiven artifactIndex (Bytes.ofString index.toJson) = .ok disk' ∧
        Working logPlace session index disk' run world := by
  cases artifactIndex with
  | none => exact .pure fun run world hwork => ⟨disk, rfl, hwork⟩
  | some path =>
    refine .bind .get fun run => ?_
    refine .weaken (P := fun run' world => run.index = index ∧
      Working logPlace session index disk run' world)
      (Q := fun _ run world => ∃ disk',
        disk.writeIfGiven (some path) (Bytes.ofString index.toJson) = .ok disk' ∧
          Working logPlace session index disk' run world)
      (.assume fun hsame => ?_) ?_ fun _ _ _ => id
    · rw [hsame]
      exact working_writeFile path _
    · rintro run' world ⟨rfl, hwork⟩
      exact ⟨hwork.index_eq, hwork⟩

end RunM

/-- What is made of a disk when inputs are normalized: the outputs of a session, and the report and
the index if they are asked for. -/
inductive CommandOn (disk : Disk) (session : Session) (index : ArtifactIndex)
    (inputs outputs : List Path) (report artifactIndex : Option Path) (sources : List Bytes)
    (disk' : Disk) : Prop where
  | of {normalized reported : Disk} {texts : List Normalized} {content : Bytes}
      (hfiles : SessionOn disk session (inputs.zip outputs) sources normalized)
      (htexts : texts = (session.normalizeAll sources).1)
      (hcontent : content = Bytes.ofString (RunM.reportsText (inputReports inputs texts)))
      (hreport : normalized.writeIfGiven report content = .ok reported)
      (hindex : reported.writeIfGiven artifactIndex (Bytes.ofString (index.addAll
        (outputArtifacts outputs texts ++ reportArtifacts report content)).toJson) = .ok disk')

namespace RunM

/-- Behind the command the disk is, but for the log, what the session, the report and the index make
of the disk with the directory for the outputs. -/
theorem triple_normalizeCommand {inputs : List Path} {directory : Path}
    (report artifactIndex : Option Path)
    (hlog : ∀ place ∈ logPlace, ∃ sent, disk.node? place = some (.file sent))
    (hspares : ∀ outputs, outputPaths directory inputs = .ok outputs →
      ∀ path ∈ inputs ++ outputs,
        (disk.makeDirectories directory).2.Spares logPlace path) :
    Triple anyState
      (fun run world => world.disk = disk ∧ Working logPlace session index disk run world)
      (normalizeCommand (m := WorldM) inputs (some directory) report artifactIndex)
      fun _ _ world => ∃ outputs sources disk', outputPaths directory inputs = .ok outputs ∧
        CommandOn (disk.makeDirectories directory).2 session index inputs outputs report
          artifactIndex sources disk' ∧ SameBut logPlace disk' world.disk := by
  unfold normalizeCommand outputsOf prepareOutputs
  dsimp only
  cases houtputs : outputPaths directory inputs with
  | error clash =>
    exact .bind (.bind (.throw fun _ _ _ => trivial) fun _ => .of_false) fun _ => .of_false
  | ok outputs =>
    have hspares := hspares outputs houtputs
    simp only [List.forall_mem_append] at hspares
    obtain ⟨hinputs, houtputSpares⟩ := hspares
    have hlength := (length_of_outputPaths houtputs).symm
    simp only [bind_assoc, pure_bind]
    refine .bind (Q := fun _ =>
      Working logPlace session index (disk.makeDirectories directory).2)
      (.onFile (fun run world _ hstate _ => ?_) fun _ _ _ _ _ => trivial) fun _ => ?_
    · obtain ⟨rfl, hwork⟩ := hstate
      exact ⟨.made hwork.place_eq hlog directory, hwork.session_eq, hwork.index_eq⟩
    · rw [List.zip_map_right]
      refine .bind (working_normalizeInputs (inputs.zip outputs)
        (fun file hfile => hinputs file.1 (List.of_mem_zip hfile).1)
        fun file hfile => houtputSpares file.2 (List.of_mem_zip hfile).2) fun reports =>
        .ofExists fun sources => .ofExists fun normalized => .ofExists fun session' =>
        .assume fun hfiles => .assume fun hreports => ?_
      rw [List.map_fst_zip (Nat.le_of_eq hlength)] at hreports
      rw [List.map_snd_zip (Nat.le_of_eq hlength.symm)]
      refine .bind (working_writeReports report reports) fun _ =>
        .ofExists fun reported => .assume fun hreported => ?_
      refine .bind (Working.keptByLogging.flushLog.relax fun _ _ _ => trivial) fun _ => ?_
      refine .weaken (working_writeIndex artifactIndex) (fun _ _ => id) ?_
      rintro _ run world ⟨disk', hindexed, hwork⟩
      subst hreports
      refine ⟨outputs, sources, disk', rfl, .of hfiles rfl rfl hreported ?_, hwork.sameBut⟩
      rw [← ArtifactIndex.addAll_append]
      exact hindexed

end RunM

/-! ## Executing a run -/

/-- Where the log of a run stands, if it has one. -/
inductive LogAt (disk : Disk) : Option Path → Option Location → Prop where
  | absent : LogAt disk none none
  | present {path : Path} {place : Location} (hplace : disk.placeToWrite path = .ok place) :
      LogAt disk (some path) (some place)

/-- A log either stands at a place or cannot be begun. -/
theorem LogAt.exists_or_error (disk : Disk) (log : Option Path) :
    (∃ logPlace, LogAt disk log logPlace) ∨
      ∃ path error, log = some path ∧ disk.placeToWrite path = .error error := by
  cases log with
  | none => exact .inl ⟨none, .absent⟩
  | some path =>
    cases hplace : disk.placeToWrite path with
    | error error => exact .inr ⟨path, error, rfl, hplace⟩
    | ok place => exact .inl ⟨some place, .present hplace⟩

/-- A log that has begun is an empty file. -/
theorem LogAt.node? {disk : Disk} {log : Option Path} {logPlace : Option Location}
    (hlog : LogAt disk log logPlace) (place : Location) (hplace : place ∈ logPlace) :
    (disk.withLog log).node? place = some (.file []) := by
  cases hlog with
  | absent => cases hplace
  | @present path place' hpath =>
    cases hplace
    obtain ⟨-, -, -, -, -, hnode⟩ := Disk.exists_of_placeToWrite hpath
    rw [Disk.withLog_some hpath]
    exact Disk.node?_put_self disk _ (Disk.ne_nil_of_node?_ne hnode)

/-- Beginning a run changes no file but its log. -/
theorem LogAt.file_iff {disk : Disk} {log : Option Path} {logPlace : Option Location}
    (hlog : LogAt disk log logPlace) (directory : Path) {place : Location}
    (hplace : some place ≠ logPlace) (content : Bytes) :
    (disk.readyFor log directory).node? place = some (.file content) ↔
      disk.node? place = some (.file content) := by
  rw [Disk.readyFor, (Disk.gotDirectories_makeDirectories _ directory).file_iff]
  cases hlog with
  | absent => rfl
  | @present path logPlace' hlogPlace =>
    rw [Disk.withLog_some hlogPlace, Disk.node?_put_of_ne disk _ fun hsame =>
      hplace (congrArg some hsame)]

namespace Run

variable {config : Config} {stage : Stage} {runId : String} {action : RunM WorldM Unit}

/-- A log in which nothing has been written. -/
def newLog (place : Location) : LogFile OpenFile := ⟨⟨place, 0⟩, []⟩

/-- A run that began, with a log or without one, at a time. -/
def began (config : Config) (stage : Stage) (runId : String) (logPlace : Option Location)
    (time : Instant) : Run OpenFile :=
  { session := { config := config }
    emitter := { stage := stage, runId := runId }
    logFile := logPlace.map newLog
    index := { runId := runId, generated := time.text } }

/-- A run comes out as its action does. What was logged before a failure is still written. -/
def closed (state : (Except Failure Unit × Run OpenFile) × World) : Except Failure Unit × World :=
  match state with
  | ((.ok (), _), world) => (.ok (), world)
  | ((.error failure, run), world) => (.error failure, (eval RunM.finishLog run world).2)

/-- A run begins its work with an empty log. -/
theorem working_began {disk : Disk} {log : Option Path} {logPlace : Option Location}
    (hlog : LogAt disk log logPlace) (time : Instant) {world : World}
    (hworld : world.disk = disk.withLog log) :
    Working logPlace { config := config } { runId := runId, generated := time.text }
      (disk.withLog log) (began config stage runId logPlace time) world := by
  refine ⟨.ofSameBut ?_ (fun place hplace => ?_) (hworld ▸ .refl _ _), rfl, rfl⟩
  · cases logPlace with
    | none => rfl
    | some place => rfl
  · rw [hlog.node? place hplace]
    exact nofun

/-- A command that succeeds does so before its log is closed. -/
theorem exists_of_closed {state : (Except Failure Unit × Run OpenFile) × World} {world' : World}
    (hclosed : closed state = (.ok (), world')) : ∃ run', state = ((.ok (), run'), world') := by
  obtain ⟨⟨result, run'⟩, world⟩ := state
  cases result with
  | ok value =>
    cases hclosed
    exact ⟨run', rfl⟩
  | error failure => cases hclosed

/-- A command is what it does and the end of its log. -/
theorem start_action (logPlace : Option Location) (world : World) :
    (do
      let run ← Run.start config stage runId (logPlace.map newLog)
      let (result, run) ← action.run.run run
      if result matches .error _ then
        let _ ← RunM.finishLog.run.run run
      return result : WorldM _) world =
      closed (eval action (began config stage runId logPlace (world.clock world.looks))
        { world with looks := world.looks + 1 }) := by
  let state := eval action (began config stage runId logPlace (world.clock world.looks))
    { world with looks := world.looks + 1 }
  have hstate : (do
      let run ← Run.start config stage runId (logPlace.map newLog)
      let (result, run) ← action.run.run run
      if result matches .error _ then
        let _ ← RunM.finishLog.run.run run
      return result : WorldM _) world =
    (fun (state : Except Failure Unit × Run OpenFile) => (do
      if state.1 matches .error _ then
        let _ ← RunM.finishLog.run.run state.2
      return state.1 : WorldM _)) state.1 state.2 := rfl
  rw [hstate]
  change _ = closed state
  generalize state = state'
  obtain ⟨⟨result, run⟩, world'⟩ := state'
  cases result with
  | ok value => rfl
  | error failure => rfl

/-- A run whose log can be begun does its action. -/
theorem execute_eq {log : Option Path} {logPlace : Option Location} {world : World}
    (hlog : LogAt world.disk log logPlace) :
    (Run.execute config stage runId log action : WorldM _) world =
      closed (eval action (began config stage runId logPlace (world.clock world.looks))
        { world with disk := world.disk.withLog log, looks := world.looks + 1 }) := by
  cases hlog with
  | absent => exact start_action none world
  | @present path place hplace =>
    unfold Run.execute
    change StateT.run (LogFile.create path >>= _) world = _
    rw [StateT.run_bind, StateT.run, LogFile.run_create hplace, Disk.withLog_some hplace]
    exact start_action (some place) (world.setDisk (world.disk.put place (.file [])))

/-- A run whose log cannot be begun does nothing. -/
theorem execute_eq_error {path : Path} {error : FileError} {world : World}
    (hplace : world.disk.placeToWrite path = .error error) :
    (Run.execute config stage runId (some path) action : WorldM _) world =
      (.error (.file error), world) := by
  unfold Run.execute
  change StateT.run (LogFile.create path >>= _) world = _
  rw [StateT.run_bind, StateT.run, LogFile.run_create_error hplace]
  rfl

/-- A run that succeeds began its log and did its action. -/
theorem exists_eval_of_execute {log : Option Path} {world world' : World}
    (hrun : (Run.execute config stage runId log action : WorldM _) world = (.ok (), world')) :
    ∃ logPlace run', LogAt world.disk log logPlace ∧
      eval action (began config stage runId logPlace (world.clock world.looks))
        { world with disk := world.disk.withLog log, looks := world.looks + 1 } =
          ((.ok (), run'), world') := by
  cases LogAt.exists_or_error world.disk log with
  | inl hlog =>
    obtain ⟨logPlace, hlog⟩ := hlog
    obtain ⟨run', heval⟩ := exists_of_closed ((execute_eq hlog).symm.trans hrun)
    exact ⟨logPlace, run', hlog, heval⟩
  | inr herror =>
    obtain ⟨path, error, rfl, hplace⟩ := herror
    cases (execute_eq_error hplace).symm.trans hrun

end Run

/-- Settings are read from the machine, which stays as it is. -/
theorem Command.exists_loadConfig (path : Option Path) (process : ProcessSettings)
    (world : World) : ∃ result, (loadConfig path process : WorldM _) world = (result, world) := by
  cases path with
  | none => exact ⟨_, rfl⟩
  | some path =>
    obtain ⟨text, htext⟩ : ∃ text, (Machine.readText path : WorldM _) world = (text, world) :=
      ⟨_, rfl⟩
    cases text with
    | error error =>
      refine ⟨.error (.config (.file error)), ?_⟩
      unfold loadConfig Config.load
      change StateT.run ((Machine.readText path >>= _) >>= _) world = _
      rw [StateT.run_bind, StateT.run_bind, StateT.run, htext]
      rfl
    | ok text =>
      refine ⟨((Config.ofJson text).mapError .text).mapError .config, ?_⟩
      unfold loadConfig Config.load
      change StateT.run ((Machine.readText path >>= _) >>= _) world = _
      rw [StateT.run_bind, StateT.run_bind, StateT.run, htext]
      rfl

/-- A command that normalizes inputs into a directory and succeeds has made of the disk what the
session, the report and the index make of it, if neither an input nor an output leads to its log. -/
theorem Command.exists_commandOn {configPath log report artifactIndex : Option Path}
    {runId : String} {directory : Path} {inputs : List Path} {environment : Environment}
    {world world' : World}
    (hrun : (Command.run
      ⟨configPath, log, runId, .normalize inputs (some directory) report artifactIndex⟩
      environment : WorldM _) world = (.ok (), world'))
    (hspares : ∀ logPlace outputs, LogAt world.disk log logPlace →
      outputPaths directory inputs = .ok outputs →
      ∀ path ∈ inputs ++ outputs, (world.disk.readyFor log directory).Spares logPlace path) :
    ∃ config logPlace outputs sources disk',
      (loadConfig configPath (.ofEnvironment environment) : WorldM _) world =
        (.ok config, world) ∧
      LogAt world.disk log logPlace ∧ outputPaths directory inputs = .ok outputs ∧
      CommandOn (world.disk.readyFor log directory) { config := config }
        { runId := runId, generated := (world.clock world.looks).text } inputs outputs report
        artifactIndex sources disk' ∧
      SameBut logPlace disk' world'.disk := by
  unfold Command.run at hrun
  change StateT.run (loadConfig configPath _ >>= _) world = _ at hrun
  obtain ⟨result, hload⟩ := exists_loadConfig configPath (.ofEnvironment environment) world
  rw [StateT.run_bind, StateT.run, hload] at hrun
  cases result with
  | error failure => cases hrun
  | ok config =>
    have hexecute : (Run.execute config .normalize runId log
        (RunM.normalizeCommand inputs (some directory) report artifactIndex) : WorldM _) world =
        (.ok (), world') := hrun
    obtain ⟨logPlace, run', hlog, heval⟩ := Run.exists_eval_of_execute hexecute
    have hwork : Working logPlace { config := config }
        { runId := runId, generated := (world.clock world.looks).text }
        (world.disk.withLog log) (Run.began config .normalize runId logPlace
          (world.clock world.looks))
        { world with disk := world.disk.withLog log, looks := world.looks + 1 } :=
      Run.working_began hlog (world.clock world.looks) rfl
    have hempty : ∀ place ∈ logPlace, ∃ sent,
        (world.disk.withLog log).node? place = some (.file sent) :=
      fun place hplace => ⟨[], hlog.node? place hplace⟩
    have hdone := (RunM.triple_normalizeCommand report artifactIndex hempty
      (hspares logPlace · hlog)).holds _ _ ⟨rfl, hwork⟩
    rw [heval] at hdone
    obtain ⟨outputs, sources, disk', hdone⟩ := hdone
    exact ⟨config, logPlace, outputs, sources, disk', hload, hlog, hdone⟩

end PlainSync
