import PlainSync.Log.Validation
import PlainSync.Proofs.Log.TraceIds
import PlainSync.Proofs.Run.Steps

/-!
# Checking the log of a run

A run attempts tasks and logs what it does. Its own check then finds every line of its log, and
nothing wrong with them but one thing: if the name of the run has a separator, then the
identifiers of its entries do not have three parts.
-/

namespace PlainSync

open PlainSync.Action

/-- What a run can be asked to do. -/
inductive Task where
  /-- Render the header, into a file if one is given. -/
  | header (output : Option Path)
  /-- Normalize a file with this text. -/
  | source (path : Path) (text : String)
  /-- Check the contract. -/
  | contract
  deriving DecidableEq, Repr

/-- The event that is logged last when a task succeeds. -/
def Task.event : Task → String
  | header _ => "header_rendered"
  | source _ _ => "file_rewritten"
  | contract => "contract_matrix_done"

section Tasks

variable {m : Type → Type} [Monad m] [Machine m]

/-- Do a task. -/
def Task.perform : Task → RunM m Unit
  | header output => do
    let _ ← RunM.renderHeader output
  | source path text => do
    RunM.onFile (Machine.writeFile path (Bytes.ofString text))
    let _ ← RunM.normalizeFile path
  | contract => do
    let _ ← RunM.verifyContract

/-- Attempt tasks one after the other. One that fails does not keep the run from the next. Those
that succeed come back. -/
def RunM.attempt : List Task → RunM m (List Task)
  | [] => return []
  | task :: more => do
    let done ← tryCatch (do task.perform; return [task]) fun _ => return []
    return done ++ (← attempt more)

/-- Begin a log, attempt tasks and write what is kept back of the log. The tasks that succeeded
come back, and the run with what it logged. -/
def Run.ofTasks (config : Config) (stage : Stage) (runId : String) (logPath : Path)
    (tasks : List Task) : m (Except Failure (List Task × Run (Machine.Handle m))) := do
  match ← LogFile.create logPath with
  | .error error => return .error (.file error)
  | .ok logFile =>
    let run ← Run.start config stage runId (some logFile)
    let action : RunM m (List Task) := do
      let done ← RunM.attempt tasks
      RunM.flushLog
      return done
    let (result, run) ← action.run.run run
    return result.map fun done => (done, run)

end Tasks

/-- The files of a task do not stand at a place, and its text fits the memory of a machine. -/
def Task.Spares (disk : Disk) (place : Location) : Task → Prop
  | header output => ∀ path ∈ output, disk.placeToWrite path ≠ .ok place
  | source path text =>
    disk.placeToWrite path ≠ .ok place ∧ (Bytes.ofString text).length < Nat.pow 2 63
  | contract => True

namespace RunM

variable {I : Run OpenFile → World → Prop} {setup : LogSetup} {events : List String}

/-- A run that does a task goes on logging, and a task that succeeds is logged. -/
theorem triple_perform {task : Task} (htask : task.Spares setup.start setup.place) :
    Triple (Logging setup events) (Logging setup events) (task.perform (m := WorldM))
      fun _ => Logging setup (events ++ [task.event]) := by
  cases task with
  | header output =>
    exact .bind (triple_renderHeader htask) fun _ => .pure fun _ _ hrun => hrun
  | source path text =>
    refine .bind (triple_writeFile htask.1 _) fun _ => ?_
    exact .bind (triple_normalizeFile htask.2) fun _ => .pure fun _ _ hrun => hrun
  | contract =>
    rw [Task.perform]
    exact .bind triple_verifyContract fun _ => .pure fun _ _ hrun => hrun

variable (setup events) in
/-- A run goes on logging behind tasks, whether or not they succeed. -/
theorem triple_attempt {tasks : List Task}
    (htasks : ∀ task ∈ tasks, task.Spares setup.start setup.place) :
    Triple I (Logging setup events) (attempt (m := WorldM) tasks)
      fun done => Logging setup (events ++ done.map Task.event) := by
  induction tasks generalizing events with
  | nil =>
    refine .pure fun run world hrun => ?_
    rw [List.map_nil, List.append_nil]
    exact hrun
  | cons task more ih =>
    obtain ⟨htask, hmore⟩ := List.forall_mem_cons.mp htasks
    refine .bind (Q := fun done => Logging setup (events ++ done.map Task.event))
      (.tryCatch (.bind (triple_perform htask) fun _ => .pure fun _ _ hrun => hrun)
        fun _ => .pure fun run world hrun => ?_)
      fun done => .bind (ih (events ++ done.map Task.event) hmore) fun others =>
        .pure fun run world hrun => ?_
    · rw [List.map_nil, List.append_nil]
      exact hrun
    · rw [List.map_append, ← List.append_assoc]
      exact hrun

/-- A flush leaves all lines in the file of the log. -/
theorem triple_flushLog :
    Triple I (Logging setup events) (flushLog (m := WorldM)) fun _ run world =>
      Logging setup events run world ∧
        world.disk.node? setup.place = some (.file (logBytes run.entries)) := by
  unfold flushLog
  refine .bind .get fun run => ?_
  cases hfile : run.logFile with
  | none =>
    refine .pure fun run' world hstate => ?_
    obtain ⟨rfl, hrun⟩ := hstate
    obtain ⟨file, hsome, -⟩ := hrun.file
    rw [hfile] at hsome
    cases hsome
  | some file =>
    refine triple_onLog ?_
    rintro run' world ⟨rfl, hrun⟩
    obtain ⟨log, hsome, hholds⟩ := hrun.file
    rw [hfile] at hsome
    cases hsome
    obtain ⟨_, file', world', hflush, hpending, hextends⟩ :=
      LogFile.triple_flush.exists_eval hholds.extends
    exact ⟨file', world', hflush, ⟨hrun.emitter, hrun.entries, hrun.events,
      ⟨file', rfl, hextends.toHolds⟩, hrun.directories.trans hextends.sameBut.toSameDirectories⟩,
      hextends.toHolds.node?_of_pending_nil hpending⟩

end RunM

/-- A run whose log can be created is brought to its end. -/
theorem Run.exists_ofTasks (config : Config) (stage : Stage) (runId : String) {logPath : Path}
    {tasks : List Task} (world : World) {place : Location}
    (hplace : world.disk.placeToWrite logPath = .ok place) (hwrites : world.WritesPieces)
    (events : List Task → List String)
    (htasks : Triple (fun _ _ => False) (Logging ⟨stage, runId, world.disk, place⟩ [])
      (RunM.attempt (m := WorldM) tasks)
      fun done => Logging ⟨stage, runId, world.disk, place⟩ (events done)) :
    ∃ done run world',
      (Run.ofTasks config stage runId logPath tasks : WorldM _) world =
        (.ok (done, run), world') ∧
      Logging ⟨stage, runId, world.disk, place⟩ (events done) run world' ∧
        world'.disk.read logPath = .ok (logBytes run.entries) := by
  obtain ⟨-, -, -, -, -, hnode⟩ := Disk.exists_of_placeToWrite hplace
  -- The clock is looked at once between the creation of the log and the first task.
  let started : Run OpenFile :=
    { session := { config := config }, emitter := { stage := stage, runId := runId }
      logFile := some ⟨⟨place, 0⟩, []⟩
      index := { runId := runId, generated := (world.clock world.looks).text } }
  let world' : World := { world with
    disk := world.disk.put place (.file []), looks := world.looks + 1 }
  have hstarted : Logging ⟨stage, runId, world.disk, place⟩ [] started world' :=
    ⟨⟨rfl, rfl⟩, List.forall_mem_nil _, List.nil_sublist _,
      ⟨_, rfl, ⟨[], Disk.node?_put_self world.disk _ (Disk.ne_nil_of_node?_ne hnode), rfl, rfl⟩,
        hwrites⟩,
      Disk.sameDirectories_put [] hnode⟩
  have haction : Triple (fun _ _ => False)
      (Logging ⟨stage, runId, world.disk, place⟩ [])
      (do
        let done ← RunM.attempt tasks
        RunM.flushLog
        return done : RunM WorldM (List Task))
      fun done run world' => Logging ⟨stage, runId, world.disk, place⟩ (events done) run world' ∧
        world'.disk.node? place = some (.file (logBytes run.entries)) :=
    .bind htasks fun _ => .bind RunM.triple_flushLog fun _ => .pure fun _ _ hrun => hrun
  obtain ⟨done, run, world'', heval, hlogging, hlog⟩ := haction.exists_eval hstarted
  refine ⟨done, run, world'', ?_, hlogging,
    Disk.read_of_placeToWrite (Disk.placeToWrite_eq_ok hlogging.directories hplace) hlog⟩
  unfold Run.ofTasks
  change StateT.run (LogFile.create logPath >>= _) world = _
  rw [StateT.run_bind, StateT.run, LogFile.run_create hplace]
  exact congrArg (fun state => (state.1.1.map fun done => (done, state.1.2), state.2)) heval

/-! ## What the check finds -/

section Findings

variable {setup : LogSetup} {events : List String} {run : Run OpenFile} {world : World}

/-- What is wrong with what a run logs: its identifiers do not have three parts if the name of the
run has a separator. -/
def identifierFaults (runId : String) (entry : LogEntry) : List LogFault :=
  if countSeparators runId.toList = 0 then [] else [.malformedTraceId entry.traceId]

/-- The only fault of an entry is its identifier. -/
theorem Logging.faults_eq (hrun : Logging setup events run world) {entry : LogEntry}
    (hentry : entry ∈ run.entries) : entry.faults = identifierFaults setup.runId entry := by
  obtain ⟨hloggable, number, hid⟩ := hrun.entries entry hentry
  rw [LogEntry.faults_of_builtin hloggable.builtin, checkTraceId, identifierFaults, hid,
    countSeparators_traceId]
  simp only [Nat.add_eq_right]
  split
  · rfl
  · rfl

/-- A line is accepted if the name of the run has no separator. -/
theorem Logging.validateLine_eq (hrun : Logging setup events run world) {entry : LogEntry}
    (hentry : entry ∈ run.entries) :
    validateLine entry.toLine =
      if countSeparators setup.runId.toList = 0 then .ok entry
      else .error [.malformedTraceId entry.traceId] := by
  obtain ⟨hloggable, -⟩ := hrun.entries entry hentry
  rw [LogEntry.validateLine_toLine hloggable.isWritable, if_pos hloggable.isReadable.depth_le,
    hrun.faults_eq hentry, identifierFaults]
  split
  · rfl
  · rfl

/-- Checking entries whose identifiers are wrong finds one fault on each line. -/
theorem findings_eq {runId : String} {entries : List LogEntry}
    (hentries : ∀ entry ∈ entries, entry.faults = identifierFaults runId entry) (number : Nat) :
    findings number entries =
      if countSeparators runId.toList = 0 then []
      else entries.mapIdx fun index entry =>
        ⟨number + index, .malformedTraceId entry.traceId⟩ := by
  induction entries generalizing number with
  | nil =>
    rw [findings, List.mapIdx_nil]
    exact (ite_self []).symm
  | cons entry more ih =>
    obtain ⟨hentry, hmore⟩ := List.forall_mem_cons.mp hentries
    rw [findings, hentry, ih hmore, identifierFaults, List.mapIdx_cons]
    split
    · rfl
    · simp only [List.map_cons, List.map_nil, List.singleton_append, Nat.add_zero,
        Nat.add_assoc, Nat.add_comm 1]

/-- The file of a log is checked like the text of the log. -/
theorem Logging.validateFile_eq (hrun : Logging setup events run world) {path : Path}
    (hread : world.disk.read path = .ok (logBytes run.entries)) :
    ((validateFile path : WorldM _) world).1 = .ok (run.entries.length,
      if countSeparators setup.runId.toList = 0 then []
      else run.entries.mapIdx fun index entry =>
        ⟨1 + index, .malformedTraceId entry.traceId⟩) := by
  have htext : Bytes.toString? (logBytes run.entries) =
      some (String.ofList (logChars run.entries)) := by
    rw [logBytes_eq_ofString, Bytes.toString?_ofString]
  have hfile : ((Machine.readText path : WorldM _) world).1 =
      .ok (String.ofList (logChars run.entries)) := by
    change (world.disk.read path).bind _ = _
    rw [hread]
    simp only [Except.bind, htext]
  change ((Machine.readText path : WorldM _) world).1.map validateText = _
  rw [hfile, ← findings_eq (fun entry hentry => hrun.faults_eq hentry) 1]
  exact congrArg Except.ok
    (validateText_logChars fun entry hentry => (hrun.entries entry hentry).1.isReadable)

end Findings

/-- A run whose log can be written passes its own check. Whatever it is asked to do, with whatever
settings, and whatever fails of it, the log has the lines of what was logged, among them one for
each task that succeeded, in order. A line is read as its entry, and checking the log counts the
entries and finds nothing, if the name of the run has no separator. Otherwise the only fault of each
line is the identifier of its entry. -/
theorem Run.validateFile_ofTasks (config : Config) (stage : Stage) (runId : String)
    {logPath : Path} {tasks : List Task} (world : World) {place : Location}
    (hplace : world.disk.placeToWrite logPath = .ok place) (hwrites : world.WritesPieces)
    (htasks : ∀ task ∈ tasks, task.Spares world.disk place) :
    ∃ done run world',
      (Run.ofTasks config stage runId logPath tasks : WorldM _) world =
        (.ok (done, run), world') ∧
      (done.map Task.event).Sublist (run.entries.map LogEntry.event) ∧
      world'.disk.read logPath = .ok (logBytes run.entries) ∧
      (∀ entry ∈ run.entries, validateLine entry.toLine =
        if countSeparators runId.toList = 0 then .ok entry
        else .error [.malformedTraceId entry.traceId]) ∧
      ((validateFile logPath : WorldM _) world').1 = .ok (run.entries.length,
        if countSeparators runId.toList = 0 then []
        else run.entries.mapIdx fun index entry =>
          ⟨1 + index, .malformedTraceId entry.traceId⟩) := by
  obtain ⟨done, run, world', hrun, hlogging, hread⟩ :=
    Run.exists_ofTasks config stage runId world hplace hwrites (fun done => done.map Task.event)
      (RunM.triple_attempt ⟨stage, runId, world.disk, place⟩ [] htasks)
  refine ⟨done, run, world', hrun, hlogging.events, hread, ?_, hlogging.validateFile_eq hread⟩
  intro entry hentry
  exact hlogging.validateLine_eq hentry

open scoped PlainSync.Path in
/-- Tasks of all kinds, with a name that needs escapes and a call that is kept. -/
def exampleTasks : List Task :=
  [.header (some "shim.h"), .source "\"a\".c" "__sync_fetch_and_add(&n)", .contract]

open scoped PlainSync.Path in
/-- They leave their log alone. -/
theorem spares_exampleTasks : ∀ task ∈ exampleTasks, task.Spares {} ["run.log"] := by
  have hheader : Disk.placeToWrite {} "shim.h" = .ok ["shim.h"] := rfl
  have hsource : Disk.placeToWrite {} "\"a\".c" = .ok ["\"a\".c"] := rfl
  unfold exampleTasks
  simp only [List.forall_mem_cons]
  refine ⟨?_, ⟨?_, by decide⟩, trivial, List.forall_mem_nil _⟩
  · rintro path ⟨⟩ hpath
    rw [hheader] at hpath
    exact absurd (Except.ok.inj hpath) (by decide)
  · intro hpath
    rw [hsource] at hpath
    exact absurd (Except.ok.inj hpath) (by decide)

open scoped PlainSync.Path in
/-- A run with tasks of every kind. -/
theorem Run.validateFile_exampleTasks :
    ∃ done run world',
      (Run.ofTasks {} .normalize "local" "run.log" exampleTasks : WorldM _) {} =
        (.ok (done, run), world') ∧
      (done.map Task.event).Sublist (run.entries.map LogEntry.event) ∧
      (∀ entry ∈ run.entries, validateLine entry.toLine = .ok entry) ∧
      ((validateFile "run.log" : WorldM _) world').1 = .ok (run.entries.length, []) := by
  have hplace : Disk.placeToWrite {} "run.log" = .ok ["run.log"] := rfl
  have hname : countSeparators "local".toList = 0 := by decide
  obtain ⟨done, run, world', hrun, hdone, -, hlines, hfile⟩ :=
    Run.validateFile_ofTasks {} .normalize "local" {} hplace (fun _ => rfl) spares_exampleTasks
  rw [if_pos hname] at hfile
  refine ⟨done, run, world', hrun, hdone, fun entry hentry => ?_, hfile⟩
  rw [hlines entry hentry, if_pos hname]

open scoped PlainSync.Path in
/-- A run whose name has a separator logs a line that its own check refuses, and the check of the
log counts a fault. -/
theorem Run.refused_separatedName :
    ∃ done run world',
      (Run.ofTasks {} .verify "a::b" "run.log" [.contract] : WorldM _) {} =
        (.ok (done, run), world') ∧
      (∃ entry ∈ run.entries,
        validateLine entry.toLine = .error [.malformedTraceId entry.traceId]) ∧
      ((validateFile "run.log" : WorldM _) world').1 ≠ .ok (run.entries.length, []) := by
  have hplace : Disk.placeToWrite {} "run.log" = .ok ["run.log"] := rfl
  have hname : countSeparators "a::b".toList ≠ 0 := by decide
  have hcontract : Triple (fun _ _ => False)
      (Logging ⟨.verify, "a::b", {}, ["run.log"]⟩ []) (RunM.attempt (m := WorldM) [.contract])
      fun _ => Logging ⟨.verify, "a::b", {}, ["run.log"]⟩ ["contract_matrix_done"] := by
    simp only [RunM.attempt, Task.perform, bind_assoc, pure_bind]
    exact .bind (.tryCatch (.bind RunM.triple_verifyContract fun _ =>
      .pure fun _ _ hrun => hrun) fun _ => .of_false) fun _ => .pure fun _ _ hrun => hrun
  obtain ⟨done, run, world', hrun, hlogging, hread⟩ :=
    Run.exists_ofTasks {} .verify "a::b" {} hplace (fun _ => rfl)
      (fun _ => ["contract_matrix_done"]) hcontract
  obtain ⟨entry, hentry, -⟩ := List.mem_map.mp (hlogging.events.subset List.mem_cons_self)
  refine ⟨done, run, world', hrun, ⟨entry, hentry, ?_⟩, ?_⟩
  · rw [hlogging.validateLine_eq hentry, if_neg hname]
  · obtain ⟨first, more, hmore⟩ := List.exists_cons_of_ne_nil (List.ne_nil_of_mem hentry)
    rw [hlogging.validateFile_eq hread, if_neg hname, hmore, List.mapIdx_cons]
    exact nofun

end PlainSync
