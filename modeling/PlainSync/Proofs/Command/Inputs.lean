import PlainSync.Proofs.Command.Steps
import PlainSync.Proofs.Run.Failures

/-!
# The inputs of a command

A command normalizes its inputs one after the other, each into its output, and finishes with a
report and an index behind the last. The first input that fails ends it. Nothing but the log and the
file at an output is changed on the way, and nothing but the log by an input that fails.
-/

namespace PlainSync

open PlainSync.Action

section Work

variable {paths : List Path} {logPlace : Option Location} {disk : Disk} {run : Run OpenFile}
  {world : World}

namespace RunM

/-! ## Inputs beside a disk -/

/-- Closing a log keeps what logging keeps, whether or not it can be written. -/
theorem KeptByLogging.finishLog {I P : Run OpenFile → World → Prop} (hP : KeptByLogging P) :
    Triple I P (finishLog (m := WorldM)) fun _ => P :=
  .tryCatch hP.flushLog fun _ => .pure fun _ _ hrun => hrun

/-- Writing to one of the paths changes no other file, whether or not it gets to its end. -/
theorem beside_writeFile {path : Path} (hpath : path ∈ paths) (content : Bytes) :
    Triple (Beside paths logPlace disk) (Beside paths logPlace disk)
      (onFile (m := WorldM) (Machine.writeFile path content))
      fun _ => Beside paths logPlace disk :=
  .writeFile (fun _ _ _ hrun hplace => (hrun.put hpath hplace content).congr rfl rfl)
    (fun _ _ hrun => hrun) fun _ _ _ part hrun hplace => (hrun.put hpath hplace part).congr rfl rfl

/-- An artifact is written at its path. -/
theorem beside_writeArtifact {path : Path} (hpath : path ∈ paths) (kind : String)
    (content : Bytes) :
    Triple (Beside paths logPlace disk) (Beside paths logPlace disk)
      (writeArtifact (m := WorldM) path kind content) fun _ => Beside paths logPlace disk :=
  .bind (beside_writeFile hpath content) fun _ =>
    .bind (.onFile (Q := fun _ => Beside paths logPlace disk) (fun _ _ _ hrun _ => hrun)
      fun _ _ _ hrun _ => hrun) fun _ => .modify fun _ _ hrun => hrun.congr rfl rfl

/-- Normalizing a file changes no file but the log. What is normalized has a file name. -/
theorem beside_normalizeFile (path : Path) :
    Triple (Beside paths logPlace disk) (Beside paths logPlace disk)
      (normalizeFile (m := WorldM) path) fun _ run world =>
        (∃ name, Path.fileName? path = some name) ∧ Beside paths logPlace disk run world := by
  have hlogged : KeptByLogging (Beside paths logPlace disk) := Beside.keptByLogging
  unfold normalizeFile
  refine .bind (triple_look hlogged.look) fun start =>
    .bind (Q := fun _ run world => (∃ name, Path.fileName? path = some name) ∧
      Beside paths logPlace disk run world)
      (.onFile (fun run world source hrun hread => ⟨Disk.exists_fileName?_of_read hread, hrun⟩)
        fun _ _ _ hrun _ => hrun) fun source => .assume fun hname => ?_
  split
  · exact .bind (.throw fun _ _ hrun => hrun) fun _ => .of_false
  · refine .bind .get fun run => .bind (Q := fun _ => Beside paths logPlace disk) (.set ?_)
      fun _ => .bind (hlogged.logKeptCalls path.display _) fun _ =>
      .bind (hlogged.logFileDone path.display _ _ start) fun _ =>
      .pure fun _ _ hrun => ⟨hname, hrun⟩
    rintro run' world ⟨rfl, hrun⟩
    exact hrun.congr rfl rfl

/-- Normalizing an input changes no file but the log and its output, and that only if the input has
a file name. -/
theorem beside_normalizeInput {input : Path} {output : Option Path}
    (houtput : ∀ name, Path.fileName? input = some name → ∀ path ∈ output, path ∈ paths) :
    Triple (Beside paths logPlace disk) (Beside paths logPlace disk)
      (normalizeInput (m := WorldM) input output) fun _ run world =>
        (∃ name, Path.fileName? input = some name) ∧ Beside paths logPlace disk run world := by
  refine .bind (beside_normalizeFile input) fun file => .assume fun hname =>
    .bind (Beside.keptByLogging.printMessage _) fun _ => ?_
  cases output with
  | none =>
    exact .bind (Beside.keptByLogging.print _) fun _ => .pure fun _ _ hrun => ⟨hname, hrun⟩
  | some path =>
    obtain ⟨name, hname'⟩ := hname
    exact .bind (beside_writeArtifact (houtput name hname' path rfl) _ _) fun _ =>
      .pure fun _ _ hrun => ⟨⟨name, hname'⟩, hrun⟩

/-- Normalizing inputs changes no file but the log and their outputs. -/
theorem beside_normalizeInputs {files : List (Path × Option Path)}
    (hfiles : ∀ file ∈ files, ∀ path ∈ file.2, path ∈ paths) :
    Triple (Beside paths logPlace disk) (Beside paths logPlace disk)
      (normalizeInputs (m := WorldM) files) fun _ run world =>
        (∀ file ∈ files, ∃ name, Path.fileName? file.1 = some name) ∧
          Beside paths logPlace disk run world := by
  induction files with
  | nil => exact .pure fun _ _ hrun => ⟨List.forall_mem_nil _, hrun⟩
  | cons file more ih =>
    obtain ⟨hfile, hmore⟩ := List.forall_mem_cons.mp hfiles
    exact .bind (beside_normalizeInput fun _ _ => hfile) fun _ => .assume fun hname =>
      .bind (ih hmore) fun _ => .pure fun _ _ hrun =>
        ⟨List.forall_mem_cons.mpr ⟨hname, hrun.1⟩, hrun.2⟩

/-- Inputs are normalized one after the other. -/
theorem normalizeInputs_append (files more : List (Path × Option Path)) :
    (normalizeInputs (files ++ more) : RunM WorldM _) = do
      let reports ← normalizeInputs files
      return reports ++ (← normalizeInputs more) := by
  induction files with
  | nil => simp only [List.nil_append, normalizeInputs, pure_bind, bind_pure]
  | cons file files ih =>
    simp only [List.cons_append, normalizeInputs, ih, bind_assoc, pure_bind]

/-! ## The inputs of a command -/

variable {m : Type → Type} [Monad m] [Machine m]

/-- What is left of a command when its inputs are normalized. -/
def finishInputs (report artifactIndex : Option Path) (reports : List (String × Report)) :
    RunM m Unit := do
  writeReports report reports
  flushLog
  writeIndex artifactIndex

/-- Normalize inputs with their outputs as a command does. -/
def normalizeFiles (files : List (Path × Option Path)) (report artifactIndex : Option Path) :
    RunM m Unit := do
  finishInputs report artifactIndex (← normalizeInputs files)

/-- The report and the index are the only files but the log that are written behind the inputs. -/
theorem beside_finishInputs (report artifactIndex : Option Path)
    (reports : List (String × Report)) :
    Triple (Beside (report.toList ++ artifactIndex.toList) logPlace disk)
      (Beside (report.toList ++ artifactIndex.toList) logPlace disk)
      (finishInputs (m := WorldM) report artifactIndex reports)
      fun _ => Beside (report.toList ++ artifactIndex.toList) logPlace disk := by
  refine .bind (Q := fun _ => Beside (report.toList ++ artifactIndex.toList) logPlace disk) ?_
    fun _ => .bind Beside.keptByLogging.flushLog fun _ => ?_
  · cases report with
    | none => exact .pure fun _ _ hrun => hrun
    | some path =>
      exact .bind (beside_writeFile List.mem_cons_self _) fun _ =>
        .modify fun _ _ hrun => hrun.congr rfl rfl
  · cases artifactIndex with
    | none => exact .pure fun _ _ hrun => hrun
    | some path =>
      refine .bind .get fun run => (beside_writeFile ?_ _).weaken (fun _ _ => And.right)
        fun _ _ _ => id
      exact List.mem_append_right _ List.mem_cons_self

/-- Without a report and an index only the log is left. -/
theorem eval_finishInputs_none (reports : List (String × Report)) (run : Run OpenFile)
    (world : World) :
    eval (finishInputs none none reports) run world = eval flushLog run world := by
  have hfinish : finishInputs (m := WorldM) none none reports = flushLog := bind_pure flushLog
  rw [hfinish]

section Inputs

variable {files : List (Path × Option Path)} {reports : List (String × Report)}
  {run' run'' : Run OpenFile} {world' world'' : World} {input : Path} {output : Option Path}

/-- A command whose inputs are normalized goes on to its report. -/
theorem eval_normalizeFiles
    (hfiles : eval (normalizeInputs files) run world = ((.ok reports, run'), world'))
    (report artifactIndex : Option Path) :
    eval (normalizeFiles files report artifactIndex) run world =
      eval (finishInputs report artifactIndex reports) run' world' := by
  rw [normalizeFiles, eval_bind, hfiles]

/-- What comes behind an input that fails is not looked at. -/
theorem eval_normalizeFiles_failing {failure : Failure}
    (hfiles : eval (normalizeInputs files) run world = ((.ok reports, run'), world'))
    (hinput : eval (normalizeInput input output) run' world' = ((.error failure, run''), world''))
    (more : List (Path × Option Path)) (report artifactIndex : Option Path) :
    eval (normalizeFiles (files ++ (input, output) :: more) report artifactIndex) run world =
      ((.error failure, run''), world'') := by
  rw [normalizeFiles, normalizeInputs_append, eval_bind, eval_bind, hfiles]
  dsimp only
  rw [eval_bind_pure, normalizeInputs, eval_bind, hinput]
  rfl

/-- Inputs are normalized, or there is a first one that is not. -/
theorem exists_eval_normalizeInputs (files : List (Path × Option Path)) (run : Run OpenFile)
    (world : World) :
    (∃ reports run' world', eval (normalizeInputs files) run world =
      ((.ok reports, run'), world')) ∨
    ∃ before input output after reports run₁ world₁ failure run₂ world₂,
      files = before ++ (input, output) :: after ∧
      eval (normalizeInputs before) run world = ((.ok reports, run₁), world₁) ∧
      eval (normalizeInput input output) run₁ world₁ = ((.error failure, run₂), world₂) := by
  induction files generalizing run world with
  | nil => exact .inl ⟨[], run, world, rfl⟩
  | cons file more ih =>
    obtain ⟨input, output⟩ := file
    cases hinput : eval (normalizeInput input output) run world with
    | mk state world₁ =>
    obtain ⟨result, run₁⟩ := state
    cases result with
    | error failure =>
      exact .inr ⟨[], input, output, more, [], run, world, failure, run₁, world₁, rfl, rfl, hinput⟩
    | ok report =>
      have hcons (files : List (Path × Option Path)) :
          eval (normalizeInputs ((input, output) :: files)) run world =
            match eval (normalizeInputs files) run₁ world₁ with
            | ((reports, run'), world') =>
              ((reports.map ((input.display, report) :: ·), run'), world') := by
        rw [normalizeInputs, eval_bind, hinput]
        exact eval_bind_pure run₁ world₁ (normalizeInputs (m := WorldM) files) _
      rcases ih run₁ world₁ with ⟨reports, run', world', hmore⟩ |
        ⟨before, input', output', after, reports, run', world', failure, run₂, world₂, rfl, hbefore,
          hfailed⟩
      · refine .inl ⟨(input.display, report) :: reports, run', world', ?_⟩
        rw [hcons, hmore]
        rfl
      · refine .inr ⟨(input, output) :: before, input', output', after,
          (input.display, report) :: reports, run', world', failure, run₂, world₂, rfl, ?_, hfailed⟩
        rw [hcons, hbefore]
        rfl

/-- A single input is normalized as it is alone. -/
theorem eval_normalizeInputs_singleton {value : Report}
    (hinput : eval (normalizeInput input output) run world = ((.ok value, run'), world')) :
    eval (normalizeInputs [(input, output)]) run world =
      ((.ok [(input.display, value)], run'), world') := by
  rw [normalizeInputs, eval_bind, hinput]
  rfl

/-- An input that cannot be read as text fails and leaves nothing but a look at the clock. -/
theorem eval_normalizeInput_of_notText {failure : Failure}
    (hfile : NotText world.disk input failure) (output : Option Path) (run : Run OpenFile) :
    eval (normalizeInput input output) run world = ((.error failure, run), world.looked) := by
  rw [normalizeInput, eval_bind, eval_normalizeFile_of_notText hfile]

/-- The text of an input that could be normalized is written to its output. -/
theorem exists_eval_normalizeInput {file : NormalizedFile}
    (hfile : eval (normalizeFile input) run world = ((.ok file, run'), world')) (output : Path) :
    ∃ messages, eval (normalizeInput input (some output)) run world =
      match (Machine.writeFile output file.text : WorldM _)
        { world' with messages := messages } with
      | (.error error, world'') => ((.error (.file error), run'), world'')
      | (.ok (), world'') =>
        ((.ok file.report, { run' with
          index := run'.index.add (.ofBytes output.display "rewritten_source" file.text) }),
          world'') := by
  have hprinted (line : String) :
      eval (perform (m := WorldM) (Machine.printMessage line)) run' world' =
        ((.ok (), run'), { world' with messages := world'.messages ++ [line] }) := rfl
  refine ⟨world'.messages ++
    [s!"{input.display}: rewritten={file.report.total} skipped={file.report.kept.length}"], ?_⟩
  rw [normalizeInput, eval_bind, hfile]
  dsimp only
  rw [eval_bind, hprinted]
  dsimp only
  rw [eval_bind, writeNormalized, eval_writeArtifact]
  generalize (Machine.writeFile output file.text : WorldM _) _ = written
  obtain ⟨result, world''⟩ := written
  cases result with
  | ok value => rfl
  | error error => rfl

/-! ## Inputs in the log -/

section Logs

variable {text source : Bytes} {place : Location} {output : Path}

/-- An input whose output cannot be written has been logged. -/
theorem exists_eval_normalizeInput_unwritten {error : FileError}
    (hlog : LogHas world run.logFile text (some place))
    (hread : world.disk.read input = .ok source) (hutf8 : (Bytes.toString? source).isSome)
    (houtput : world.disk.placeToWrite output = .error error) :
    ∃ failure run' world' more, more ≠ [] ∧
      eval (normalizeInput input (some output)) run world = ((.error failure, run'), world') ∧
      LogHas world' run'.logFile (text ++ more) (some place) := by
  obtain ⟨file, run', world', heval, -, hrecorded⟩ :=
    (record_normalizeText input.display source (world.uptime world.looks)).exists_eval
      ((Recorded.nothing hlog).look run world (world.looks + 1))
  obtain ⟨gained, -, hgained, hlog'⟩ := hrecorded.exists_gained
  have hsome : gained ≠ [] := by
    rintro rfl
    have hlength := congrArg List.length hgained
    rw [Emitter.number, List.length_mapIdx, recordsOf, List.nil_append, List.length_append]
      at hlength
    cases hlength
  have hfile : eval (normalizeFile input) run world = ((.ok file, run'), world') :=
    (eval_normalizeFile_of_isSome hread hutf8 run).trans heval
  obtain ⟨messages, hinput⟩ := exists_eval_normalizeInput hfile output
  have hunwritten : ∃ error', world'.disk.placeToWrite output = .error error' := by
    cases hplace : world'.disk.placeToWrite output with
    | error error' => exact ⟨error', rfl⟩
    | ok other =>
      cases houtput.symm.trans
        (Disk.placeToWrite_eq_ok hrecorded.sameBut.toSameDirectories.symm hplace)
  obtain ⟨error', hplace⟩ := hunwritten
  rw [run_writeFile, hplace] at hinput
  exact ⟨_, run', { world' with messages := messages }, logBytes gained, logBytes_ne_nil hsome,
    hinput, hlog'.congr rfl rfl⟩

/-- A source without calls that are kept is normalized without a change to the disk, if the log has
kept back all that it was given and can keep back what is told of the source. -/
theorem exists_eval_normalizeFile_of_fits (hlog : run.logFile = some (Run.newLog place))
    (hread : world.disk.read input = .ok source) (hutf8 : (Bytes.toString? source).isSome)
    (hkept : (run.session.fileOf source).report.kept = [])
    (hfits : 4 * (run.emitter.complete (doneEntry input.display (run.session.fileOf source)
      (world.uptime world.looks) world.looked)).1.json.chars.length + 1 < LogFile.capacity) :
    ∃ run' line, eval (normalizeFile input) run world =
        ((.ok (run.session.fileOf source), run'), world.looked.looked.looked) ∧
      run'.logFile = some ⟨⟨place, 0⟩, line⟩ := by
  generalize hentry : doneEntry input.display (run.session.fileOf source)
    (world.uptime world.looks) world.looked = entry at hfits
  have hbytes := Bytes.length_ofString_le (run.emitter.complete entry).1.toLine
  rw [LogEntry.toLine, Json.compact, String.toList_ofList, ← Json.compact, ← LogEntry.toLine]
    at hbytes
  have hroom : 0 + (Bytes.ofString (run.emitter.complete entry).1.toLine).length + 1 <
      LogFile.capacity := by omega
  have hlog' : ({ run with session := (run.session.normalize source).2 } : Run OpenFile).logFile =
      some (Run.newLog place) := hlog
  obtain ⟨run', hlogged, hfile⟩ := exists_eval_log_of_fits hlog' rfl hroom
    world.looked.looked.looked
  refine ⟨run', _, ?_, hfile⟩
  rw [eval_normalizeFile_of_isSome hread hutf8, eval_normalizeText_of_kept_nil hkept, hentry,
    hlogged]
  rfl

/-- Such a source is written to its output, where nothing stops that. -/
theorem exists_eval_normalizeInput_of_fits (hlog : run.logFile = some (Run.newLog place))
    (hread : world.disk.read input = .ok source) (hutf8 : (Bytes.toString? source).isSome)
    (hkept : (run.session.fileOf source).report.kept = [])
    (hfits : 4 * (run.emitter.complete (doneEntry input.display (run.session.fileOf source)
      (world.uptime world.looks) world.looked)).1.json.chars.length + 1 < LogFile.capacity)
    {target : Location} (houtput : world.disk.placeToWrite output = .ok target)
    (hfile : world.fileFault world.files = none) (hpieces : world.WritesPieces)
    (hnode : (world.disk.put target (.file (run.session.fileOf source).text)).node? place =
      some (.file [])) :
    ∃ report run' world' line,
      eval (normalizeInput input (some output)) run world = ((.ok report, run'), world') ∧
      world'.disk = world.disk.put target (.file (run.session.fileOf source).text) ∧
      LogHas world' run'.logFile line (some place) := by
  obtain ⟨run', line, heval, hlogFile⟩ :=
    exists_eval_normalizeFile_of_fits hlog hread hutf8 hkept hfits
  obtain ⟨messages, hinput⟩ := exists_eval_normalizeInput heval output
  have hplace : world.looked.looked.looked.disk.placeToWrite output = .ok target := houtput
  have hnone : world.looked.looked.looked.fileFault world.looked.looked.looked.files = none :=
    hfile
  rw [run_writeFile, hplace] at hinput
  dsimp only at hinput
  rw [hnone] at hinput
  exact ⟨_, _, _, line, hinput, rfl, _, hlogFile, ⟨[], hnode, rfl, rfl⟩, hpieces⟩

end Logs

end Inputs

/-! ## The command -/

/-- A command goes on with the directory for the outputs, if their names do not clash. -/
theorem eval_normalizeCommand {inputs outputs : List Path} {directory : Path}
    (houtputs : outputPaths directory inputs = .ok outputs) (report artifactIndex : Option Path)
    (run : Run OpenFile) (world : World) :
    eval (normalizeCommand inputs (some directory) report artifactIndex) run world =
      match world.disk.makeDirectories directory with
      | (.ok (), disk) =>
        eval (normalizeFiles (inputs.zip (outputs.map some)) report artifactIndex) run
          (world.setDisk disk)
      | (.error error, disk) => ((.error (.file error), run), world.setDisk disk) := by
  have hmake : (Machine.makeDirectories directory : WorldM _) world =
      ((world.disk.makeDirectories directory).1,
        world.setDisk (world.disk.makeDirectories directory).2) := rfl
  unfold normalizeCommand outputsOf prepareOutputs
  dsimp only
  rw [houtputs]
  simp only [bind_assoc, pure_bind]
  rw [eval_bind, eval_onFile, hmake]
  obtain ⟨result, disk⟩ := world.disk.makeDirectories directory
  cases result with
  | ok value => rfl
  | error error => rfl

/-- Names that clash are refused before anything is done. -/
theorem eval_normalizeCommand_clash {inputs : List Path} {directory : Path} {clash : NameClash}
    (hclash : outputPaths directory inputs = .error clash) (report artifactIndex : Option Path)
    (run : Run OpenFile) (world : World) :
    eval (normalizeCommand inputs (some directory) report artifactIndex) run world =
      ((.error (.nameClash clash), run), world) := by
  unfold normalizeCommand outputsOf prepareOutputs
  dsimp only
  rw [hclash]
  rfl

end RunM

end Work

end PlainSync
