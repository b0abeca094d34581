import PlainSync.Proofs.Contract.AtomicReference
import PlainSync.Proofs.Normalize.Extent
import PlainSync.Proofs.Run.Logging
import PlainSync.Run.Contract
import PlainSync.Run.Header
import PlainSync.Run.Source

/-!
# What the steps of a run log

Rendering a header, normalizing a file and checking the contract log entries that can be read
from their lines, whatever the settings are, whatever the paths are and whatever stands in the
file. So the run goes on logging behind each of them, even if it fails.
-/

namespace PlainSync

open PlainSync.Action

/-! ## Entries with flat details -/

/-- An entry whose details have flat members can be read from its line if its numbers fit. -/
theorem LogEntry.isLoggable_of_sorted {entry : LogEntry} {members : List (String × Json)}
    (hdetails : entry.details = some (.sorted members))
    (hmembers : ∀ member ∈ members, member.2.ReadsBackIn 1)
    (hline : ∀ line ∈ entry.line, line < Nat.pow 2 64)
    (hduration : ∀ durationMs ∈ entry.durationMs, durationMs < Nat.pow 2 64)
    (hbuiltin : ∀ name ∈ entry.builtin, ∃ builtin : Builtin, builtin.name = name) :
    entry.IsLoggable := by
  have hmem {details : Json} (h : details ∈ entry.details) : details = .sorted members := by
    rw [hdetails] at h
    exact (Option.some.inj h).symm
  refine ⟨⟨hline, hduration, fun details h => ?_, fun details h => ?_⟩,
    fun details h => ?_, hbuiltin⟩
  · rw [hmem h]
    exact Json.noConfusion
  · rw [hmem h]
    exact Json.readsBack_sorted fun member hmember => (hmembers member hmember).toReadsBack
  · rw [hmem h]
    have hdepth := Json.depth_sorted_le fun member hmember => (hmembers member hmember).depth_le
    exact Nat.lt_of_le_of_lt hdepth (by decide)

/-- Times that pass fit into one word. -/
theorem elapsedMs_lt (start stop : Nat) : elapsedMs start stop < Nat.pow 2 64 :=
  Nat.lt_of_le_of_lt (Nat.min_le_right _ _) (by decide)

namespace RunM

variable {α : Type} {I : Run OpenFile → World → Prop} {setup : LogSetup}
  {events : List String}

/-! ## Clocks and files -/

/-- A look at a clock keeps what does not depend on how often clocks were looked at. -/
theorem triple_look {P : Run OpenFile → World → Prop} {clock : World → Nat → α}
    (hlook : ∀ run world looks, P run world → P run { world with looks := looks }) :
    Triple I P (perform (m := WorldM) fun world => world.look (clock world)) fun _ => P :=
  .perform fun run world hstate => hlook run world _ hstate

/-- Looking at a clock logs nothing. -/
theorem triple_uptime :
    Triple I (Logging setup events) (perform (m := WorldM) Machine.uptime)
      fun _ => Logging setup events :=
  triple_look Logging.look

/-- What holds behind an action on an entry of any moment holds behind one on a draft. -/
theorem triple_draft {P : Run OpenFile → World → Prop}
    (hlook : ∀ run world looks, P run world → P run { world with looks := looks })
    {level : Level} {event : String} {next : LogEntry → RunM WorldM α}
    {Q : α → Run OpenFile → World → Prop}
    (hnext : ∀ timestamp, Triple I P (next { timestamp, traceId := "", level, event }) Q) :
    Triple I P (draft (m := WorldM) level event >>= next) Q := by
  unfold draft
  rw [bind_assoc]
  refine .bind (triple_look hlook) fun now => ?_
  rw [pure_bind]
  exact hnext now.text

/-- A file that is written to a path that does not lead to the log can be read from there. -/
theorem triple_writeFile {path : Path} (hpath : setup.start.placeToWrite path ≠ .ok setup.place)
    (content : Bytes) :
    Triple (Logging setup events) (Logging setup events)
      (onFile (m := WorldM) (Machine.writeFile path content))
      fun _ run world => world.disk.read path = .ok content ∧ Logging setup events run world := by
  have hput {run world place} (hrun : Logging setup events run world) (part : Bytes)
      (hplace : world.disk.placeToWrite path = .ok place) :
      Logging setup events run { world with
        disk := world.disk.put place (.file part), files := world.files + 1 } := by
    obtain ⟨-, -, -, -, -, hnode⟩ := Disk.exists_of_placeToWrite hplace
    refine hrun.put ?_ hnode part rfl rfl
    rintro rfl
    exact hpath (Disk.placeToWrite_eq_ok hrun.directories.symm hplace)
  exact .writeFile (fun _ _ _ hrun hplace =>
    ⟨Disk.read_put hplace content, hput hrun content hplace⟩) (fun _ _ => id)
    fun _ _ _ part hrun hplace => hput hrun part hplace

/-- Reading a file changes nothing. -/
theorem triple_readFile (path : Path) :
    Triple (Logging setup events) (Logging setup events)
      (onFile (m := WorldM) (Machine.readFile path)) fun _ => Logging setup events :=
  .onFile (fun _ _ _ hrun _ => hrun) fun _ _ _ hrun _ => hrun

/-- An artifact that is not the log is written beside it. -/
theorem triple_writeArtifact {path : Path}
    (hpath : setup.start.placeToWrite path ≠ .ok setup.place) (kind : String) (content : Bytes) :
    Triple (Logging setup events) (Logging setup events)
      (writeArtifact (m := WorldM) path kind content) fun _ => Logging setup events := by
  refine .bind (triple_writeFile hpath content) fun _ => ?_
  refine .bind ((triple_readFile path).weaken (fun _ _ hstate => hstate.2) fun _ _ _ => id)
    fun _ => ?_
  exact .modify fun run world hrun => hrun.congr rfl rfl rfl rfl rfl

/-! ## The header -/

/-- A header that is made is logged. -/
theorem triple_logHeader (timestamp : String) (output : Option Path) (config : Config)
    (text : Bytes) :
    Triple I (Logging setup events)
      (log (m := WorldM)
        { timestamp, traceId := "", level := .info, event := "header_rendered",
          ending := some .pass, details := some (headerDetails config text),
          artifactRefs := output.map fun path => [path.display] })
      fun _ => Logging setup (events ++ ["header_rendered"]) := by
  refine triple_log setup events (LogEntry.isLoggable_of_sorted rfl ?_ nofun nofun nofun) rfl
  have hregion : config.managedRegion.number.toNat < Nat.pow 2 64 :=
    Nat.lt_trans config.managedRegion.number.toNat_lt (by decide)
  simp only [List.forall_mem_cons]
  exact ⟨.bool _, .nat hregion, .string _, List.forall_mem_nil _⟩

/-- Rendering a header is logged if the file for it is not the log. -/
theorem triple_renderHeader {output : Option Path}
    (houtput : ∀ path ∈ output, setup.start.placeToWrite path ≠ .ok setup.place) :
    Triple (Logging setup events) (Logging setup events) (renderHeader (m := WorldM) output)
      fun _ => Logging setup (events ++ ["header_rendered"]) := by
  unfold renderHeader
  refine .bind .get fun run => ?_
  refine .weaken (P := Logging setup events)
    (Q := fun _ => Logging setup (events ++ ["header_rendered"])) ?_
    (fun _ _ hstate => hstate.2) fun _ _ _ => id
  cases hvalid : run.session.config.validate with
  | error error =>
    simp only [hvalid]
    exact .bind (.throw fun _ _ hrun => hrun) fun _ => .of_false
  | ok config =>
    simp only [hvalid]
    refine triple_draft Logging.look fun timestamp => ?_
    cases output with
    | none => exact .bind (triple_logHeader timestamp none _ _) fun _ => .pure fun _ _ hrun => hrun
    | some path =>
      refine .bind (triple_writeArtifact (houtput path rfl) _ _) fun _ => ?_
      exact .bind (triple_logHeader timestamp (some path) _ _) fun _ => .pure fun _ _ hrun => hrun

/-! ## Sources -/

/-- Calls that are kept can be logged if their lines fit into one word. -/
theorem triple_logKeptCalls (path : String) {calls : List KeptCall}
    (hcalls : ∀ call ∈ calls, call.line < Nat.pow 2 64) :
    Triple I (Logging setup events) (logKeptCalls (m := WorldM) path calls)
      fun _ => Logging setup events := by
  induction calls with
  | nil => exact .pure fun _ _ hrun => hrun
  | cons call more ih =>
    obtain ⟨hcall, hmore⟩ := List.forall_mem_cons.mp hcalls
    refine .bind (Q := fun _ => Logging setup events)
      (triple_draft Logging.look fun timestamp => ?_) fun _ => ih hmore
    refine .weaken (Q := fun _ => Logging setup (events ++ ["call_site_skipped"])) ?_
      (fun _ _ hrun => hrun) fun _ _ _ hrun => hrun.forget
    refine triple_log setup events (LogEntry.isLoggable_of_sorted rfl ?_ ?_ nofun ?_) rfl
    · intro member hmember
      rw [List.mem_singleton.mp hmember]
      exact .string _
    · rintro line ⟨⟩
      exact hcall
    · rintro name ⟨⟩
      exact ⟨call.builtin, rfl⟩

/-- A file that is done can be logged if its counts fit into one word. -/
theorem triple_logFileDone (path sourceSha256 : String) (start : Nat) {report : Report}
    (hcount : report.total + report.kept.length < Nat.pow 2 64) :
    Triple I (Logging setup events) (logFileDone (m := WorldM) path report sourceSha256 start)
      fun _ => Logging setup (events ++ ["file_rewritten"]) := by
  refine triple_draft Logging.look fun timestamp => .bind triple_uptime fun stop => ?_
  refine triple_log setup events (LogEntry.isLoggable_of_sorted rfl ?_ nofun ?_ nofun) rfl
  · have htotal := Nat.lt_of_le_of_lt (Nat.le_add_right report.total _) hcount
    have hkept := Nat.lt_of_le_of_lt (Nat.le_add_left report.kept.length _) hcount
    simp only [List.forall_mem_cons]
    exact ⟨.nat htotal, .nat hkept, .bool _, .string _, List.forall_mem_nil _⟩
  · rintro durationMs ⟨⟩
    exact elapsedMs_lt start stop

/-- Normalizing a file is logged if the file fits the memory of a machine. -/
theorem triple_normalizeFile {path : Path} {source : Bytes}
    (hsource : source.length < Nat.pow 2 63) :
    Triple (Logging setup events)
      (fun run world => world.disk.read path = .ok source ∧ Logging setup events run world)
      (normalizeFile (m := WorldM) path) fun _ => Logging setup (events ++ ["file_rewritten"]) := by
  unfold normalizeFile
  refine .bind (triple_look fun run world looks hstate =>
    ⟨hstate.1, hstate.2.congr rfl rfl rfl rfl rfl⟩) fun start => ?_
  refine .bind (Q := fun value run world => value = source ∧ Logging setup events run world)
    (.onFile ?_ fun _ _ _ hstate _ => hstate.2) fun value => .assume fun hvalue => ?_
  · intro run world value hstate hread
    have hsame : Except.ok value = Except.ok source := hread.symm.trans hstate.1
    exact ⟨Except.ok.inj hsame, hstate.2⟩
  · subst hvalue
    split
    · exact .bind (.throw fun _ _ hrun => hrun) fun _ => .of_false
    · refine .bind .get fun run => ?_
      obtain ⟨hcount, hwithin⟩ := Source.bounded_report run.session value
      have hmemory : Nat.pow 2 63 < Nat.pow 2 64 := by decide
      cases hnormalize : run.session.normalize value with
      | mk normalized session =>
      rw [hnormalize] at hcount hwithin
      refine .bind (Q := fun _ => Logging setup events)
        (.set fun run' world hstate => ?_) fun _ =>
        .bind (triple_logKeptCalls path.display fun call hcall => ?_) fun _ =>
        .bind (triple_logFileDone path.display _ start ?_) fun _ => .pure fun _ _ hrun => hrun
      · obtain ⟨rfl, hrun⟩ := hstate
        exact hrun.congr rfl rfl rfl rfl rfl
      · have hline := (hwithin call hcall).line
        omega
      · exact Nat.lt_of_le_of_lt hcount (Nat.lt_trans hsource hmemory)

/-! ## The contract -/

/-- A matrix run without failures is logged if its counts fit 64 bits. -/
theorem triple_logContract {report : ContractReport} (hfailures : report.failures = [])
    (htotal : report.total < Nat.pow 2 64) (hpassed : report.passed < Nat.pow 2 64)
    (hfailed : report.failed < Nat.pow 2 64) (start : Nat) :
    Triple I (Logging setup events) (logContract (m := WorldM) report start)
      fun _ => Logging setup (events ++ ["contract_matrix_done"]) := by
  unfold logContract
  rw [hfailures, logMismatches, pure_bind]
  refine triple_draft Logging.look fun timestamp => .bind triple_uptime fun stop => ?_
  refine triple_log setup events (LogEntry.isLoggable_of_sorted rfl ?_ nofun ?_ nofun) rfl
  · simp only [List.forall_mem_cons]
    have hwidths : (Json.array (report.types.map fun width => .string width.name)).ReadsBackIn 1 :=
      .array (List.forall_mem_map.mpr fun width _ => .string width.name)
    exact ⟨.nat htotal, .nat hpassed, .nat hfailed, hwidths, List.forall_mem_nil _⟩
  · rintro durationMs ⟨⟩
    exact elapsedMs_lt start stop

/-- Checking the contract is always logged. -/
theorem triple_verifyContract :
    Triple I (Logging setup events) (verifyContract (m := WorldM))
      fun _ => Logging setup (events ++ ["contract_matrix_done"]) := by
  have hmatrix : ContractReport.OnlyPassed {} contractMatrix _ _ :=
    ContractReport.OnlyPassed.runTypes {} IntType.atomic
  have htypes : 912 * IntType.atomic.length < Nat.pow 2 64 := by decide
  unfold verifyContract
  -- The matrix is too large to be evaluated, but what it counts is known.
  generalize contractMatrix = matrix at hmatrix ⊢
  refine .bind triple_uptime fun start => ?_
  refine .bind (triple_logContract hmatrix.failures ?_ ?_ ?_ start) fun _ =>
    .pure fun _ _ hrun => hrun
  · rw [hmatrix.total, Nat.zero_add]
    exact htypes
  · rw [hmatrix.passed, Nat.zero_add]
    exact htypes
  · rw [hmatrix.failed]
    exact Nat.two_pow_pos 64

end RunM

end PlainSync
