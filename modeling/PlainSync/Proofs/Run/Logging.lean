import PlainSync.Proofs.Log.Texts
import PlainSync.Proofs.Log.Writing
import PlainSync.Proofs.Run.Triples

/-!
# Logging

A run that logs to a file keeps an invariant: all entries have identifiers of the run and lines
that are read again, and the file holds these lines but for what is kept back. Logging one more
entry keeps it, and so does all that is done to other files.
-/

namespace PlainSync

open PlainSync.Action
open Json (maxDepth)
open Disk (SameDirectories)

/-- An entry that can be read from its line, whatever its identifier is. -/
structure LogEntry.IsLoggable (entry : LogEntry) : Prop where
  isWritable : entry.IsWritable
  depth_lt : ∀ details ∈ entry.details, details.depth < maxDepth
  builtin : ∀ name ∈ entry.builtin, ∃ builtin : Builtin, builtin.name = name

/-- An entry that can be logged is read back. -/
theorem LogEntry.IsLoggable.isReadable {entry : LogEntry} (hentry : entry.IsLoggable) :
    entry.IsReadable where
  isWritable := hentry.isWritable
  depth_le := depth_json_le_iff.mpr hentry.depth_lt

namespace Emitter

variable (emitter : Emitter) {entry : LogEntry}

/-- An entry gets an identifier and a stage where it has none. -/
theorem complete_eq (entry : LogEntry) :
    emitter.complete entry =
      if entry.traceId.isEmpty then
        ({ entry with
            stage := entry.stage.or (some emitter.stage)
            traceId := PlainSync.traceId emitter.stage emitter.runId (emitter.given + 1) },
          { emitter with given := emitter.given + 1 })
      else ({ entry with stage := entry.stage.or (some emitter.stage) }, emitter) := rfl

/-- An entry can be read from its line with any stage and any identifier. -/
theorem isLoggable_complete (hentry : entry.IsLoggable) :
    (emitter.complete entry).1.IsLoggable := by
  have hwith (stage : Option Stage) (id : String) :
      { entry with stage := stage, traceId := id }.IsLoggable :=
    ⟨⟨hentry.isWritable.line, hentry.isWritable.durationMs, hentry.isWritable.details_ne_null,
      hentry.isWritable.details_readsBack⟩, hentry.depth_lt, hentry.builtin⟩
  rw [complete_eq]
  split
  · exact hwith _ _
  · exact hwith _ _

/-- An entry without an identifier gets the next one of the run. -/
theorem traceId_complete (hentry : entry.traceId = "") :
    (emitter.complete entry).1.traceId =
      PlainSync.traceId emitter.stage emitter.runId (emitter.given + 1) := by
  rw [complete_eq, hentry]
  rfl

/-- An entry keeps its event. -/
theorem event_complete (entry : LogEntry) : (emitter.complete entry).1.event = entry.event := by
  rw [complete_eq]
  split
  · rfl
  · rfl

/-- Completing an entry changes neither the stage nor the name of a run. -/
theorem complete_snd (entry : LogEntry) :
    (emitter.complete entry).2.stage = emitter.stage ∧
      (emitter.complete entry).2.runId = emitter.runId := by
  rw [complete_eq]
  split
  · exact ⟨rfl, rfl⟩
  · exact ⟨rfl, rfl⟩

end Emitter

/-- How a run logs. -/
structure LogSetup where
  stage : Stage
  runId : String
  /-- The disk on which the run began. -/
  start : Disk
  /-- Where the log stands. -/
  place : Location

/-- A run logs as it began to: its entries can be read from their lines and have identifiers of
the run, its log has these lines, and paths lead where they led. Among the entries are those of
the given events, in order. -/
structure Logging (setup : LogSetup) (events : List String) (run : Run OpenFile) (world : World) :
    Prop where
  emitter : run.emitter.stage = setup.stage ∧ run.emitter.runId = setup.runId
  entries : ∀ entry ∈ run.entries, entry.IsLoggable ∧
    ∃ number, entry.traceId = traceId setup.stage setup.runId number
  events : events.Sublist (run.entries.map LogEntry.event)
  file : ∃ log, run.logFile = some log ∧ log.Holds setup.place (logBytes run.entries) world
  directories : SameDirectories setup.start world.disk

namespace Logging

variable {setup : LogSetup} {events : List String} {run : Run OpenFile} {world : World}

/-- Not all that was logged has to be known. -/
theorem forget {event : String} (hrun : Logging setup (events ++ [event]) run world) :
    Logging setup events run world :=
  { hrun with events := (List.sublist_append_left events [event]).trans hrun.events }

/-- A run goes on logging behind an entry that is recorded and whose line is written. -/
theorem add (hrun : Logging setup events run world) {entry completed : LogEntry} {emitter : Emitter}
    (hcomplete : run.emitter.complete entry = (completed, emitter))
    (hentry : entry.IsLoggable) (hid : entry.traceId = "") {file : LogFile OpenFile}
    {world' : World} (hsame : SameDirectories world.disk world'.disk)
    (hholds : file.Holds setup.place
      (logBytes run.entries ++ Bytes.ofString completed.toLine ++ [Byte.newline]) world') :
    Logging setup (events ++ [entry.event]) { run with
      emitter := emitter
      entries := run.entries ++ [completed]
      logFile := some file } world' := by
  have hloggable := run.emitter.isLoggable_complete hentry
  have htraceId := run.emitter.traceId_complete hid
  have hevent := run.emitter.event_complete entry
  obtain ⟨hstage, hrunId⟩ := run.emitter.complete_snd entry
  rw [hcomplete] at hloggable htraceId hevent hstage hrunId
  constructor
  · exact ⟨hstage.trans hrun.emitter.1, hrunId.trans hrun.emitter.2⟩
  · intro other hother
    rcases List.mem_append.mp hother with hold | hnew
    · exact hrun.entries other hold
    · rw [List.mem_singleton.mp hnew]
      refine ⟨hloggable, run.emitter.given + 1, ?_⟩
      rw [htraceId, hrun.emitter.1, hrun.emitter.2]
  · rw [List.map_append, List.map_singleton, hevent]
    exact hrun.events.append (List.Sublist.refl _)
  · refine ⟨file, rfl, ?_⟩
    rw [logBytes_append]
    exact hholds
  · exact hrun.directories.trans hsame

/-- A file that is put where the log does not stand leaves the log as it is. -/
theorem put (hrun : Logging setup events run world) {other : Location}
    (hother : other ≠ setup.place) (hnode : world.disk.node? other ≠ some .directory)
    (content : Bytes) {world' : World}
    (hdisk : world'.disk = world.disk.put other (.file content))
    (hfault : world'.pieceFault = world.pieceFault) : Logging setup events run world' where
  emitter := hrun.emitter
  entries := hrun.entries
  events := hrun.events
  file := by
    obtain ⟨log, hlog, ⟨sent, hsent, hhandle, htext⟩, hwrites⟩ := hrun.file
    refine ⟨log, hlog, ⟨sent, ?_, hhandle, htext⟩, fun count => hfault ▸ hwrites count⟩
    rw [hdisk]
    exact (Disk.node?_put_of_ne world.disk _ (Ne.symm hother)).trans hsent
  directories := by
    rw [hdisk]
    exact hrun.directories.trans (Disk.sameDirectories_put content hnode)

/-- Neither the clocks nor the settings, the names and the artifacts of a run matter for its
log. -/
theorem congr (hrun : Logging setup events run world) {run' : Run OpenFile} {world' : World}
    (hemitter : run'.emitter = run.emitter) (hentries : run'.entries = run.entries)
    (hfile : run'.logFile = run.logFile) (hdisk : world'.disk = world.disk)
    (hfault : world'.pieceFault = world.pieceFault) : Logging setup events run' world' := by
  obtain ⟨emitter, entries, logged, ⟨log, hlog, ⟨hsent, hwrites⟩⟩, directories⟩ := hrun
  rw [← hemitter] at emitter
  rw [← hentries] at entries logged hsent
  rw [← hdisk] at hsent directories
  exact ⟨emitter, entries, logged,
    ⟨log, hfile.trans hlog, hsent, fun count => hfault ▸ hwrites count⟩, directories⟩

/-- Looking at a clock logs nothing. -/
theorem look (run : Run OpenFile) (world : World) (looks : Nat)
    (hrun : Logging setup events run world) :
    Logging setup events run { world with looks := looks } :=
  hrun.congr rfl rfl rfl rfl rfl

end Logging

namespace RunM

/-- The log of a run is kept as an action on it leaves it. -/
theorem eval_onLog (file : LogFile OpenFile) (action : LogM WorldM Unit) (run : Run OpenFile)
    (world : World) :
    eval (onLog file action) run world =
      match eval action file world with
      | ((result, file'), world') =>
        ((result.mapError .file, { run with logFile := some file' }), world') := by
  have hperform : eval (perform (action.run.run file)) run world =
      ((.ok (eval action file world).1, run), (eval action file world).2) := rfl
  rw [onLog, eval_bind, hperform]
  obtain ⟨⟨result, file'⟩, world'⟩ := eval action file world
  cases result with
  | ok value => rfl
  | error error => rfl

/-- The log of a run is replaced by what an action leaves that does not fail. -/
theorem triple_onLog {I P Q : Run OpenFile → World → Prop} {file : LogFile OpenFile}
    {action : LogM WorldM Unit}
    (haction : ∀ run world, P run world → ∃ file' world',
      eval action file world = ((.ok (), file'), world') ∧
        Q { run with logFile := some file' } world') :
    Triple I P (onLog (m := WorldM) file action) fun _ => Q := by
  refine ⟨fun run world hstate => ?_⟩
  obtain ⟨file', world', heval, hlog⟩ := haction run world hstate
  rw [eval_onLog, heval]
  exact hlog

/-- An entry that can be read from its line can be logged. -/
theorem triple_log {I : Run OpenFile → World → Prop} (setup : LogSetup) (events : List String)
    {entry : LogEntry} (hentry : entry.IsLoggable) (hid : entry.traceId = "") :
    Triple I (Logging setup events) (log (m := WorldM) entry)
      fun _ => Logging setup (events ++ [entry.event]) := by
  unfold log
  refine .bind .get fun run => ?_
  cases hcomplete : run.emitter.complete entry with
  | mk completed emitter =>
  -- The entry is recorded first, and the file lags behind until its line is written.
  refine .bind (Q := fun _ run' world => run' = { run with
      emitter := emitter, entries := run.entries ++ [completed] } ∧
    Logging setup events run world) (.set ?_) fun _ => ?_
  · rintro run' world ⟨rfl, hrun⟩
    exact ⟨rfl, hrun⟩
  · cases hfile : run.logFile with
    | none =>
      refine .pure fun run' world hstate => ?_
      obtain ⟨file, hsome, -⟩ := hstate.2.file
      rw [hfile] at hsome
      cases hsome
    | some file =>
      refine triple_onLog ?_
      rintro run' world ⟨rfl, hrun⟩
      obtain ⟨log, hsome, hholds⟩ := hrun.file
      rw [hfile] at hsome
      cases hsome
      obtain ⟨_, file', world', hput, hextends⟩ :=
        (LogFile.triple_putLine completed.toLine).exists_eval hholds.extends
      exact ⟨file', world', hput, hrun.add hcomplete hentry hid
        hextends.sameBut.toSameDirectories hextends.toHolds⟩

/-- An entry whose line fits beside what is kept back is logged without a change to the disk. -/
theorem exists_eval_log_of_fits {run : Run OpenFile} {file : LogFile OpenFile} {entry : LogEntry}
    {line : Bytes} (hfile : run.logFile = some file)
    (hline : Bytes.ofString (run.emitter.complete entry).1.toLine = line)
    (hfits : file.pending.length + line.length + 1 < LogFile.capacity) (world : World) :
    ∃ run', eval (log entry) run world = ((.ok (), run'), world) ∧
      run'.logFile = some { file with pending := file.pending ++ line ++ [Byte.newline] } := by
  subst hline
  have hlog : Triple (fun _ _ => False) (fun run' world' => run' = run ∧ world' = world)
      (log (m := WorldM) entry) fun _ run' world' =>
        world' = world ∧ run'.logFile = some { file with
          pending := file.pending ++ Bytes.ofString (run.emitter.complete entry).1.toLine ++
            [Byte.newline] } := by
    refine .get_bind <| .bind (Q := fun _ _ world' => world' = world)
      (.set fun _ _ hsame => hsame.2) fun _ => ?_
    simp only [hfile]
    refine triple_onLog ?_
    rintro run' world' rfl
    exact ⟨_, world', LogFile.eval_putLine_of_fits hfits world', rfl, rfl⟩
  have hknown : run = run ∧ world = world := ⟨rfl, rfl⟩
  obtain ⟨_, run', world', heval, rfl, hrun'⟩ := hlog.exists_eval hknown
  exact ⟨run', heval, hrun'⟩

end RunM

end PlainSync
