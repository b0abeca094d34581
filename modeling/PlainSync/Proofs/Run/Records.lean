import PlainSync.Proofs.Run.Working

/-!
# What a session records

Files are normalized one after the other, and one that fails does not keep the others from their
turn. Each file that is read as text leaves a record of every call that was kept, in the order of
its report, and behind them one of what was done to it. The other files leave none.
-/

namespace PlainSync

open PlainSync.Action
open Disk (SameBut)

/-! ## Records -/

/-- An entry without the times that the clocks showed when it was logged. -/
def LogEntry.timeless (entry : LogEntry) : LogEntry :=
  { entry with timestamp := "", durationMs := entry.durationMs.map fun _ => 0 }

/-- The record of a call that was kept, without its number. -/
def KeptCall.record (path : String) (call : KeptCall) : LogEntry where
  timestamp := ""
  traceId := ""
  level := .warn
  event := "call_site_skipped"
  builtin := some call.builtin.name
  sourcePath := some path
  line := some call.line
  ending := some .skip
  details := some (.object [("reason", .string call.reason.message)])

/-- The record of a file that was normalized, without its number. -/
def NormalizedFile.record (path : String) (file : NormalizedFile) : LogEntry where
  timestamp := ""
  traceId := ""
  level := .info
  event := "file_rewritten"
  sourcePath := some path
  ending := some (if file.report.passthrough then .skip else .pass)
  durationMs := some 0
  details := some (.object
    [("passthrough", .bool file.report.passthrough), ("rewritten", .nat file.report.total),
      ("skipped", .nat file.report.kept.length), ("source_sha256", .string file.sourceSha256)])

/-- The records of a path, as it is shown, by what came of normalizing the file there. -/
def recordsOf (path : String) : Except Failure NormalizedFile → List LogEntry
  | .ok file => file.report.kept.map (KeptCall.record path) ++ [file.record path]
  | .error _ => []

/-- The records of paths, by what came of each, in order. -/
def recordsOfAll (paths : List Path) (results : List (Except Failure NormalizedFile)) :
    List LogEntry :=
  (paths.zip results).flatMap fun file => recordsOf file.1.display file.2

namespace Emitter

/-- Records of the emitter's stage with its next numbers, one after the other. -/
def number (emitter : Emitter) (records : List LogEntry) : List LogEntry :=
  records.mapIdx fun index record => { record with
    stage := some emitter.stage
    traceId := traceId emitter.stage emitter.runId (emitter.given + 1 + index) }

/-- One more record gets the next number. -/
theorem number_append_singleton (emitter : Emitter) (records : List LogEntry)
    (record : LogEntry) :
    emitter.number (records ++ [record]) = emitter.number records ++ [{ record with
      stage := some emitter.stage
      traceId := traceId emitter.stage emitter.runId (emitter.given + 1 + records.length) }] :=
  List.mapIdx_concat

/-- An entry without an identifier and a stage gets both. -/
theorem complete_of_bare (emitter : Emitter) {entry : LogEntry} (hid : entry.traceId = "")
    (hstage : entry.stage = none) :
    emitter.complete entry =
      ({ entry with
          stage := some emitter.stage
          traceId := traceId emitter.stage emitter.runId (emitter.given + 1) },
        { emitter with given := emitter.given + 1 }) := by
  rw [complete_eq, hid, hstage]
  rfl

end Emitter

/-! ## Sources in a session -/

/-- What comes of a source in a session. -/
def Session.fileOf (session : Session) (source : Bytes) : NormalizedFile :=
  ⟨(session.normalize source).1.text, (session.normalize source).1.report, Sha256.hex source⟩

/-- Readings are normalized in a session. One that failed, or that is no text, leaves the session as
it is. -/
inductive Session.Normalizes : Session → List (Path × Except FileError Bytes) →
    List (Except Failure NormalizedFile) → Session → Prop where
  | nil (session : Session) : Normalizes session [] [] session
  | unread {session session' : Session} {path : Path} {error : FileError}
      {readings : List (Path × Except FileError Bytes)}
      {results : List (Except Failure NormalizedFile)}
      (hmore : Normalizes session readings results session') :
      Normalizes session ((path, .error error) :: readings) (.error (.file error) :: results)
        session'
  | notUtf8 {session session' : Session} {path : Path} {source : Bytes}
      {readings : List (Path × Except FileError Bytes)}
      {results : List (Except Failure NormalizedFile)}
      (htext : Bytes.toString? source = none)
      (hmore : Normalizes session readings results session') :
      Normalizes session ((path, .ok source) :: readings) (.error (.notUtf8 path.display) ::
        results) session'
  | text {session session' : Session} {path : Path} {source : Bytes}
      {readings : List (Path × Except FileError Bytes)}
      {results : List (Except Failure NormalizedFile)}
      (htext : (Bytes.toString? source).isSome)
      (hmore : Normalizes (session.normalize source).2 readings results session') :
      Normalizes session ((path, .ok source) :: readings) (.ok (session.fileOf source) :: results)
        session'

namespace RunM

variable {m : Type → Type} [Monad m] [Machine m]

/-- Normalize files one after the other. What comes of each is returned, in order. -/
def normalizeEach : List Path → RunM m (List (Except Failure NormalizedFile))
  | [] => return []
  | path :: more => do
    let result ← tryCatch (do return .ok (← normalizeFile path)) fun failure =>
      return .error failure
    return result :: (← normalizeEach more)

/-- Normalize what was read from a file since a point in time. -/
def normalizeText (path : String) (source : Bytes) (start : Nat) : RunM m NormalizedFile := do
  let run ← get
  let file := run.session.fileOf source
  set { run with session := (run.session.normalize source).2 }
  logKeptCalls path file.report.kept
  logFileDone path file.report file.sourceSha256 start
  return file

end RunM

/-- A machine at whose clocks someone looked once. -/
def World.looked (world : World) : World := { world with looks := world.looks + 1 }

namespace RunM

/-- A file is read before anything else is done. -/
theorem eval_normalizeFile (path : Path) (run : Run OpenFile) (world : World) :
    eval (normalizeFile path) run world =
      match world.disk.read path with
      | .error error => ((.error (.file error), run), world.looked)
      | .ok source =>
        if (Bytes.toString? source).isNone then
          ((.error (.notUtf8 path.display), run), world.looked)
        else
          eval (normalizeText path.display source (world.uptime world.looks)) run world.looked := by
  have hlook : eval (perform (m := WorldM) Machine.uptime) run world =
      ((.ok (world.uptime world.looks), run), world.looked) := rfl
  have hread : eval (onFile (m := WorldM) (Machine.readFile path)) run world.looked =
      (((world.disk.read path).mapError .file, run), world.looked) := eval_onFile run _ _
  rw [normalizeFile, eval_bind, hlook]
  dsimp only
  rw [eval_bind, hread]
  cases world.disk.read path with
  | error error => rfl
  | ok source =>
    dsimp only [Except.mapError]
    split
    · rfl
    · rfl

/-- A file that is text is normalized as its text is. -/
theorem eval_normalizeFile_of_isSome {path : Path} {source : Bytes} {world : World}
    (hread : world.disk.read path = .ok source) (htext : (Bytes.toString? source).isSome)
    (run : Run OpenFile) :
    eval (normalizeFile path) run world =
      eval (normalizeText path.display source (world.uptime world.looks)) run world.looked := by
  obtain ⟨content, hcontent⟩ := Option.isSome_iff_exists.mp htext
  rw [eval_normalizeFile, hread]
  dsimp only
  rw [hcontent, if_neg nofun]

/-- What comes of a file is returned in front of what comes of the others. -/
theorem eval_normalizeEach_cons (path : Path) (more : List Path) (run : Run OpenFile)
    (world : World) :
    eval (normalizeEach (path :: more)) run world =
      match eval (normalizeFile path) run world with
      | ((result, run'), world') =>
        match eval (normalizeEach more) run' world' with
        | ((results, run''), world'') => ((results.map (result :: ·), run''), world'') := by
  rw [normalizeEach, eval_bind, eval_tryCatch, eval_bind_pure]
  obtain ⟨⟨result, run'⟩, world'⟩ := eval (normalizeFile path) run world
  cases result with
  | ok file => exact eval_bind_pure run' world' (normalizeEach more) (.ok file :: ·)
  | error failure => exact eval_bind_pure run' world' (normalizeEach more) (.error failure :: ·)

/-- What is logged of a file that was normalized since a point in time. -/
def doneEntry (path : String) (file : NormalizedFile) (start : Nat) (world : World) :
    LogEntry where
  timestamp := (world.clock world.looks).text
  traceId := ""
  level := .info
  event := "file_rewritten"
  sourcePath := some path
  ending := some (if file.report.passthrough then .skip else .pass)
  durationMs := some (elapsedMs start (world.uptime (world.looks + 1)))
  details := some (fileDetails file.report file.sourceSha256)

/-- A source without calls that are kept is logged in one entry. -/
theorem eval_normalizeText_of_kept_nil {run : Run OpenFile} {source : Bytes}
    (hkept : (run.session.fileOf source).report.kept = []) (path : String) (start : Nat)
    (world : World) :
    eval (normalizeText path source start) run world =
      match eval (log (doneEntry path (run.session.fileOf source) start world))
        { run with session := (run.session.normalize source).2 } world.looked.looked with
      | ((result, run'), world') =>
        ((result.map fun _ => run.session.fileOf source, run'), world') := by
  have hlogged : eval (normalizeText path source start) run world =
      eval (do
        logKeptCalls path (run.session.fileOf source).report.kept
        logFileDone path (run.session.fileOf source).report
          (run.session.fileOf source).sourceSha256 start
        return run.session.fileOf source)
        { run with session := (run.session.normalize source).2 } world := by
    rw [normalizeText, eval_bind]
    rfl
  rw [hlogged, hkept, logKeptCalls, pure_bind]
  generalize run.session.fileOf source = file
  generalize { run with session := (run.session.normalize source).2 } = run'
  rw [logFileDone, draft]
  simp only [bind_assoc, pure_bind]
  rw [eval_bind, eval_perform]
  dsimp only
  rw [eval_bind, eval_perform]
  exact eval_bind_pure _ _ _ _

end RunM

/-! ## The log of a session -/

/-- A log with a text stands at a place, if there is one, and can be written. -/
def LogHas (world : World) (file? : Option (LogFile OpenFile)) (text : Bytes) :
    Option Location → Prop
  | none => file? = none
  | some place => ∃ log, file? = some log ∧ log.Holds place text world

/-- Neither the clocks nor how many files were written matter to a log. -/
theorem LogHas.congr {world world' : World} {file? : Option (LogFile OpenFile)} {text : Bytes}
    {logPlace : Option Location} (h : LogHas world file? text logPlace)
    (hdisk : world'.disk = world.disk) (hfault : world'.pieceFault = world.pieceFault) :
    LogHas world' file? text logPlace := by
  cases logPlace with
  | none => exact h
  | some place =>
    obtain ⟨log, hfile, hsent, hwrites⟩ := h
    exact ⟨log, hfile, hdisk ▸ hsent, fun count => hfault ▸ hwrites count⟩

/-- A run has recorded since it was as given, and nothing else: its log gained the lines of the
records and its disk no other change. -/
structure Recorded (logPlace : Option Location) (text : Bytes) (first : Run OpenFile)
    (start : Disk) (session : Session) (records : List LogEntry) (run : Run OpenFile)
    (world : World) : Prop where
  session_eq : run.session = session
  index_eq : run.index = first.index
  emitter_eq : run.emitter = { first.emitter with given := first.emitter.given + records.length }
  exists_gained : ∃ gained, run.entries = first.entries ++ gained ∧
    gained.map LogEntry.timeless = first.emitter.number records ∧
    LogHas world run.logFile (text ++ logBytes gained) logPlace
  sameBut : SameBut logPlace start world.disk

variable {logPlace : Option Location} {text : Bytes} {first : Run OpenFile} {start : Disk}
  {session : Session} {records : List LogEntry}

namespace Recorded

variable {run : Run OpenFile} {world : World}

/-- Looking at a clock logs nothing. -/
theorem look (run : Run OpenFile) (world : World) (looks : Nat)
    (h : Recorded logPlace text first start session records run world) :
    Recorded logPlace text first start session records run { world with looks := looks } :=
  { h with
    exists_gained := by
      obtain ⟨gained, hentries, hgained, hlog⟩ := h.exists_gained
      exact ⟨gained, hentries, hgained, hlog.congr rfl rfl⟩ }

/-- A run has recorded nothing since it is as it is. -/
theorem nothing (hlog : LogHas world run.logFile text logPlace) :
    Recorded logPlace text run world.disk run.session [] run world :=
  ⟨rfl, rfl, rfl, ⟨[], (List.append_nil _).symm, rfl, (List.append_nil text).symm ▸ hlog⟩,
    .refl logPlace world.disk⟩

/-- One more entry is recorded when its line is written behind the others. -/
theorem add (h : Recorded logPlace text first start session records run world) {entry : LogEntry}
    (hid : entry.traceId = "") (hstage : entry.stage = none) {gained : List LogEntry}
    (hentries : run.entries = first.entries ++ gained)
    (hgained : gained.map LogEntry.timeless = first.emitter.number records)
    {file? : Option (LogFile OpenFile)} {world' : World}
    (hsame : SameBut logPlace world.disk world'.disk)
    (hlog : LogHas world' file? (text ++ logBytes gained ++
      Bytes.ofString (run.emitter.complete entry).1.toLine ++ [Byte.newline]) logPlace) :
    Recorded logPlace text first start session (records ++ [entry.timeless]) { run with
      emitter := (run.emitter.complete entry).2
      entries := run.entries ++ [(run.emitter.complete entry).1]
      logFile := file? } world' := by
  refine ⟨h.session_eq, h.index_eq, ?_, ⟨gained ++ [(run.emitter.complete entry).1], ?_, ?_, ?_⟩,
    h.sameBut.trans hsame⟩
  · rw [Emitter.complete_of_bare _ hid hstage, h.emitter_eq, List.length_append]
    rfl
  · rw [hentries, List.append_assoc]
  · rw [List.map_append, hgained, Emitter.number_append_singleton,
      Emitter.complete_of_bare _ hid hstage, h.emitter_eq, List.map_singleton, LogEntry.timeless,
      LogEntry.timeless, Nat.add_right_comm]
  · rw [logBytes_append, ← List.append_assoc, ← List.append_assoc]
    exact hlog

end Recorded

namespace RunM

variable {I : Run OpenFile → World → Prop}

/-- An entry without an identifier is logged with the next one. -/
theorem triple_record {entry : LogEntry} (hid : entry.traceId = "") (hstage : entry.stage = none) :
    Triple I (Recorded logPlace text first start session records) (log (m := WorldM) entry)
      fun _ => Recorded logPlace text first start session (records ++ [entry.timeless]) := by
  unfold log
  refine .bind .get fun run => ?_
  refine .bind (Q := fun _ run' world => run' = { run with
      emitter := (run.emitter.complete entry).2
      entries := run.entries ++ [(run.emitter.complete entry).1] } ∧
    Recorded logPlace text first start session records run world) (.set ?_) fun _ => ?_
  · rintro run' world ⟨rfl, hrun⟩
    exact ⟨rfl, hrun⟩
  · cases hfile : run.logFile with
    | none =>
      refine .pure ?_
      rintro run' world ⟨rfl, hrun⟩
      obtain ⟨gained, hentries, hgained, hlog⟩ := hrun.exists_gained
      refine hrun.add hid hstage hentries hgained (.refl logPlace world.disk) ?_
      rw [hfile] at hlog
      cases logPlace with
      | none => rfl
      | some place =>
        obtain ⟨log, hsome, -⟩ := hlog
        cases hsome
    | some file =>
      refine triple_onLog ?_
      rintro run' world ⟨rfl, hrun⟩
      obtain ⟨gained, hentries, hgained, hlog⟩ := hrun.exists_gained
      rw [hfile] at hlog
      cases logPlace with
      | none => cases hlog
      | some place =>
        obtain ⟨log, hsome, hholds⟩ := hlog
        cases hsome
        obtain ⟨_, file', world', hput, hextends⟩ :=
          (LogFile.triple_putLine (run.emitter.complete entry).1.toLine).exists_eval
            hholds.extends
        exact ⟨file', world', hput,
          hrun.add hid hstage hentries hgained hextends.sameBut ⟨file', rfl, hextends.toHolds⟩⟩

/-- The calls that are kept are logged one after the other. -/
theorem record_logKeptCalls (path : String) (calls : List KeptCall) :
    Triple I (Recorded logPlace text first start session records)
      (logKeptCalls (m := WorldM) path calls)
      fun _ => Recorded logPlace text first start session
        (records ++ calls.map (KeptCall.record path)) := by
  induction calls generalizing records with
  | nil =>
    refine .pure fun run world hrun => ?_
    rwa [List.map_nil, List.append_nil]
  | cons call more ih =>
    rw [List.map_cons, List.append_cons]
    exact .bind (triple_draft Recorded.look fun timestamp => triple_record rfl rfl) fun _ => ih

/-- The record of a file has its report and its hash. -/
theorem details_record (path : String) (file : NormalizedFile) :
    (file.record path).details = some (fileDetails file.report file.sourceSha256) := by
  simp only [NormalizedFile.record, fileDetails, Json.sorted, List.foldl_cons, List.foldl_nil,
    Json.insertMember, String.reduceLT, if_true, if_false]

/-- A file that is done is logged with its report. -/
theorem record_logFileDone (path : String) (file : NormalizedFile) (elapsed : Nat) :
    Triple I (Recorded logPlace text first start session records)
      (logFileDone (m := WorldM) path file.report file.sourceSha256 elapsed)
      fun _ => Recorded logPlace text first start session (records ++ [file.record path]) := by
  refine triple_draft Recorded.look fun timestamp => ?_
  refine .bind (triple_look Recorded.look) fun stop => ?_
  have hrecord : file.record path = LogEntry.timeless
      { timestamp, traceId := "", level := .info, event := "file_rewritten",
        sourcePath := some path, ending := some (if file.report.passthrough then .skip else .pass),
        durationMs := some (elapsedMs elapsed stop),
        details := some (fileDetails file.report file.sourceSha256) } := by
    rw [← details_record path file]
    rfl
  rw [hrecord]
  exact triple_record rfl rfl

/-- What a log was given stands in its file when it is flushed. -/
theorem exists_eval_flushLog {run : Run OpenFile} {world : World} {place : Location}
    (hlog : LogHas world run.logFile text (some place)) :
    ∃ run' world', eval flushLog run world = ((.ok (), run'), world') ∧
      world'.disk.node? place = some (.file text) := by
  obtain ⟨log, hfile, hholds⟩ := hlog
  have hrun : Triple (fun _ _ => False) (fun run' world' => run' = run ∧ world' = world)
      (flushLog (m := WorldM)) fun _ _ world' => world'.disk.node? place = some (.file text) := by
    unfold flushLog
    refine .get_bind ?_
    simp only [hfile]
    refine triple_onLog ?_
    rintro run' world' ⟨rfl, rfl⟩
    obtain ⟨_, log', world', hflush, hpending, hextends⟩ :=
      LogFile.triple_flush.exists_eval hholds.extends
    exact ⟨log', world', hflush, hextends.toHolds.node?_of_pending_nil hpending⟩
  have hknown : run = run ∧ world = world := ⟨rfl, rfl⟩
  obtain ⟨_, run', world', heval, hnode⟩ := hrun.exists_eval hknown
  exact ⟨run', world', heval, hnode⟩

/-- What was read from a file is normalized in the session and recorded. -/
theorem record_normalizeText (path : String) (source : Bytes) (elapsed : Nat) :
    Triple I (Recorded logPlace text first start session records)
      (normalizeText (m := WorldM) path source elapsed)
      fun file run world => file = session.fileOf source ∧
        Recorded logPlace text first start (session.normalize source).2
          (records ++ recordsOf path (.ok (session.fileOf source))) run world := by
  unfold normalizeText
  refine .bind .get fun run => ?_
  refine .bind (Q := fun _ run' world => run.session = session ∧
    Recorded logPlace text first start (session.normalize source).2 records run' world)
    (.set ?_) fun _ => .assume fun hsession => ?_
  · rintro run' world ⟨rfl, hrun⟩
    exact ⟨hrun.session_eq, congrArg (fun session => (session.normalize source).2) hrun.session_eq,
      hrun.index_eq, hrun.emitter_eq, hrun.exists_gained, hrun.sameBut⟩
  · rw [hsession, recordsOf, ← List.append_assoc]
    exact .bind (record_logKeptCalls path _) fun _ =>
      .bind (record_logFileDone path (session.fileOf source) elapsed) fun _ =>
        .pure fun run' world hrun => ⟨rfl, hrun⟩

/-- A session goes on recording behind a file, whether or not it can be normalized. -/
theorem exists_normalizeFile (path : Path) {run : Run OpenFile} {world : World}
    (hrun : Recorded logPlace text first start session records run world) :
    ∃ result next run' world',
      eval (normalizeFile path) run world = ((result, run'), world') ∧
      (∀ {readings results session'}, next.Normalizes readings results session' →
        session.Normalizes ((path, world.disk.read path) :: readings) (result :: results)
          session') ∧
      Recorded logPlace text first start next (records ++ recordsOf path.display result) run'
        world' := by
  have hfailed (failure : Failure) : Recorded logPlace text first start session
      (records ++ recordsOf path.display (.error failure)) run world.looked := by
    rw [recordsOf, List.append_nil]
    exact hrun.look run world _
  rw [eval_normalizeFile]
  cases world.disk.read path with
  | error error => exact ⟨_, session, run, world.looked, rfl, .unread, hfailed _⟩
  | ok source =>
    dsimp only
    cases htext : Bytes.toString? source with
    | none =>
      rw [if_pos Option.isNone_none]
      exact ⟨_, session, run, world.looked, rfl, .notUtf8 htext, hfailed _⟩
    | some content =>
      rw [if_neg nofun]
      obtain ⟨file, run', world', heval, rfl, hrecorded⟩ :=
        (record_normalizeText path.display source (world.uptime world.looks)).exists_eval
          (hrun.look run world (world.looks + 1))
      exact ⟨_, _, run', world', heval, .text (htext ▸ rfl), hrecorded⟩

/-- Normalizing paths one after the other logs what comes of those that can be read. -/
theorem exists_normalizeEach (paths : List Path) {session : Session} {records : List LogEntry}
    {run : Run OpenFile} {world : World}
    (hrun : Recorded logPlace text first start session records run world) :
    ∃ readings results session' run' world',
      eval (normalizeEach paths) run world = ((.ok results, run'), world') ∧
      readings.map Prod.fst = paths ∧
      (∀ reading ∈ readings, ∃ disk, SameBut logPlace start disk ∧
        disk.read reading.1 = reading.2) ∧
      session.Normalizes readings results session' ∧
      Recorded logPlace text first start session' (records ++ recordsOfAll paths results) run'
        world' := by
  induction paths generalizing session records run world with
  | nil =>
    refine ⟨[], [], session, run, world, rfl, rfl, List.forall_mem_nil _, .nil session, ?_⟩
    rwa [recordsOfAll, List.zip_nil_left, List.flatMap_nil, List.append_nil]
  | cons path more ih =>
    obtain ⟨result, next, run₁, world₁, heval, hnormalizes, hrecorded⟩ :=
      exists_normalizeFile path hrun
    obtain ⟨readings, results, session', run', world', hmore, rfl, hreadings, hothers, hall⟩ :=
      ih hrecorded
    refine ⟨(path, world.disk.read path) :: readings, result :: results, session', run', world', ?_,
      rfl, List.forall_mem_cons.mpr ⟨⟨world.disk, hrun.sameBut, rfl⟩, hreadings⟩,
      hnormalizes hothers, ?_⟩
    · rw [eval_normalizeEach_cons, heval]
      dsimp only
      rw [hmore]
      rfl
    · rwa [recordsOfAll, List.zip_cons_cons, List.flatMap_cons, ← List.append_assoc]

/-- A run that has recorded nothing, with a log or without one. -/
def emptyRun (logFile : Option (LogFile OpenFile)) : Run OpenFile where
  session := { config := {} }
  emitter := { stage := .normalize, runId := "local" }
  logFile := logFile
  index := { runId := "local", generated := "" }

open scoped PlainSync.Path in
/-- A machine with an empty log and a source of which one call lacks an argument. -/
def keptCallWorld : World where
  disk.nodes := [(["run.log"], .file []), (["a.c"], .file (Bytes.ofString
    "__sync_fetch_and_add(&n, 1);\n__sync_fetch_and_add(&n);"))]

open scoped PlainSync.Path in
example : (eval (normalizeEach ["a.c", "gone.c", "a.c"]) (emptyRun none)
    keptCallWorld).1.2.entries.map (fun entry => (entry.traceId, entry.event)) =
    [("rewrite::local::001", "call_site_skipped"), ("rewrite::local::002", "file_rewritten"),
      ("rewrite::local::003", "call_site_skipped"), ("rewrite::local::004", "file_rewritten")] := by
  decide +kernel

end RunM

end PlainSync
