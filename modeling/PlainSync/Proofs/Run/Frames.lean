import PlainSync.Proofs.Files.Directories
import PlainSync.Proofs.Run.Steps

/-!
# What logging keeps

A log is written between all other steps of a run, and any of these writes may fail. Whether or not
they do, a run keeps whatever depends neither on the clocks nor on what was logged, and of the disk
only the file of the log changes.
-/

namespace PlainSync

open PlainSync.Action
open Disk (SameBut SameDirectories)

/-- Nothing is asked of a run that failed. -/
abbrev anyState (_ : Run OpenFile) (_ : World) : Prop := True

namespace RunM

/-- What holds of a run and a machine still does when something is logged. -/
structure KeptByLogging (P : Run OpenFile → World → Prop) : Prop where
  /-- Only the disk of the machine matters. -/
  machine : ∀ run world world', world'.disk = world.disk → P run world → P run world'
  record : ∀ run world emitter entries, P run world →
    P { run with emitter := emitter, entries := entries } world
  /-- The log may stay where it is with any content. -/
  write : ∀ run world file file' disk, run.logFile = some file →
    file'.handle.place = file.handle.place →
    (world.disk.node? file.handle.place ≠ some .directory →
      SameBut (some file.handle.place) world.disk disk) →
    P run world → P { run with logFile := some file' } (world.setDisk disk)

namespace KeptByLogging

variable {P : Run OpenFile → World → Prop}

/-- Looking at a clock changes nothing else. -/
theorem look (hP : KeptByLogging P) (run : Run OpenFile) (world : World) (looks : Nat)
    (hrun : P run world) : P run { world with looks := looks } :=
  hP.machine run world _ rfl hrun

/-- Printing keeps what depends on the disk alone. -/
theorem print {I : Run OpenFile → World → Prop} (hP : KeptByLogging P) (text : Bytes) :
    Triple I P (perform (m := WorldM) (Machine.print text)) fun _ => P :=
  .perform fun run world hrun => hP.machine run world _ rfl hrun

/-- A message that is printed changes nothing else. -/
theorem printMessage {I : Run OpenFile → World → Prop} (hP : KeptByLogging P) (line : String) :
    Triple I P (perform (m := WorldM) (Machine.printMessage line)) fun _ => P :=
  .perform fun run world hrun => hP.machine run world _ rfl hrun

/-- What only writes at the place of the log keeps it. -/
theorem onLog (hP : KeptByLogging P) {file : LogFile OpenFile} {action : LogM WorldM Unit}
    (haction : ∀ start, Triple (LogFile.WritesAt file.handle.place start)
      (LogFile.WritesAt file.handle.place start) action
      fun _ => LogFile.WritesAt file.handle.place start) :
    Triple P (fun run world => run.logFile = some file ∧ P run world)
      (onLog (m := WorldM) file action) fun _ => P := by
  refine ⟨fun run world hstate => ?_⟩
  obtain ⟨hfile, hrun⟩ := hstate
  have hbegins : LogFile.WritesAt file.handle.place world.disk file world :=
    ⟨rfl, fun _ => .refl _ _⟩
  have hwrites := (haction world.disk).keeps hbegins
  rw [eval_onLog]
  generalize eval action file world = outcome at hwrites
  obtain ⟨⟨result, file'⟩, world'⟩ := outcome
  have hkept : P { run with logFile := some file' } world' :=
    hP.machine _ (world.setDisk world'.disk) world' rfl
      (hP.write run world file file' world'.disk hfile hwrites.place_eq hwrites.sameBut hrun)
  cases result with
  | ok value => exact hkept
  | error error => exact hkept

/-- Logging keeps what it may keep. -/
theorem log (hP : KeptByLogging P) (entry : LogEntry) :
    Triple P P (log (m := WorldM) entry) fun _ => P := by
  unfold RunM.log
  refine .bind .get fun run => ?_
  refine .bind (Q := fun _ run' world => run'.logFile = run.logFile ∧ P run' world) (.set ?_)
    fun _ => ?_
  · rintro run' world ⟨rfl, hrun⟩
    exact ⟨rfl, hP.record run world _ _ hrun⟩
  · cases hfile : run.logFile with
    | none => exact .pure fun _ _ hstate => hstate.2
    | some file => exact hP.onLog fun _ => LogFile.writesAt_putLine _

/-- Flushing the log keeps what logging may keep. -/
theorem flushLog (hP : KeptByLogging P) : Triple P P (flushLog (m := WorldM)) fun _ => P := by
  unfold RunM.flushLog
  refine .bind .get fun run => ?_
  refine .weaken (P := fun run' world => run'.logFile = run.logFile ∧ P run' world)
    (Q := fun _ => P) ?_ ?_ fun _ _ _ => id
  · cases hfile : run.logFile with
    | none => exact .pure fun _ _ hstate => hstate.2
    | some file => exact hP.onLog fun _ => LogFile.writesAt_flush
  · rintro run' world ⟨rfl, hrun⟩
    exact ⟨rfl, hrun⟩

/-- Logging the calls that are kept keeps what logging may keep. -/
theorem logKeptCalls (hP : KeptByLogging P) (path : String) (calls : List KeptCall) :
    Triple P P (logKeptCalls (m := WorldM) path calls) fun _ => P := by
  induction calls with
  | nil => exact .pure fun _ _ hrun => hrun
  | cons call more ih => exact .bind (triple_draft hP.look fun _ => hP.log _) fun _ => ih

/-- Logging that a file is done keeps what logging may keep. -/
theorem logFileDone (hP : KeptByLogging P) (path : String) (report : Report)
    (sourceSha256 : String) (start : Nat) :
    Triple P P (logFileDone (m := WorldM) path report sourceSha256 start) fun _ => P :=
  triple_draft hP.look fun _ => .bind (triple_look hP.look) fun _ => hP.log _

end KeptByLogging

end RunM

/-! ## Work beside a disk -/

/-- The log of a run stands at a place, if there is one, and the disk of the machine differs from
the given one only in that file and where paths lead. -/
structure Beside (paths : List Path) (logPlace : Option Location) (disk : Disk)
    (run : Run OpenFile) (world : World) : Prop where
  place_eq : run.logFile.map (fun file => file.handle.place) = logPlace
  notDirectory : ∀ place ∈ logPlace, disk.node? place ≠ some .directory
  directories : SameDirectories disk world.disk
  others : ∀ place, some place ≠ logPlace → (∀ path ∈ paths, disk.placeToWrite path ≠ .ok place) →
    world.disk.node? place = disk.node? place

namespace Beside

variable {paths : List Path} {logPlace : Option Location} {disk : Disk} {run : Run OpenFile}
  {world : World}

/-- Only the log of the run and the disk of the machine matter. -/
theorem congr (h : Beside paths logPlace disk run world) {run' : Run OpenFile} {world' : World}
    (hfile : run'.logFile = run.logFile) (hdisk : world'.disk = world.disk) :
    Beside paths logPlace disk run' world' := by
  obtain ⟨hplace, hnode, hdirectories, hothers⟩ := h
  rw [← hfile] at hplace
  rw [← hdisk] at hdirectories hothers
  exact ⟨hplace, hnode, hdirectories, hothers⟩

/-- More paths may lead where the disk differs. -/
theorem mono (h : Beside paths logPlace disk run world) {more : List Path}
    (hpaths : ∀ path ∈ paths, path ∈ more) : Beside more logPlace disk run world :=
  { h with others := fun place hplace hmore =>
      h.others place hplace fun path hpath => hmore path (hpaths path hpath) }

/-- Work goes on beside the disk as it is now. -/
theorem fresh (h : Beside paths logPlace disk run world) :
    Beside [] logPlace world.disk run world :=
  ⟨h.place_eq, fun place hplace => mt (h.directories.node? place).mp (h.notDirectory place hplace),
    .refl _, fun _ _ _ => rfl⟩

/-- Without paths the disk differs only in the file of the log. -/
theorem sameBut (h : Beside [] logPlace disk run world) : SameBut logPlace disk world.disk :=
  ⟨h.directories, fun place hplace => h.others place hplace (List.forall_mem_nil _)⟩

/-- A disk that is the same but for the log has nothing written beside it. -/
theorem ofSameBut (hplace : run.logFile.map (fun file => file.handle.place) = logPlace)
    (hnode : ∀ place ∈ logPlace, disk.node? place ≠ some .directory)
    (hsame : SameBut logPlace disk world.disk) : Beside [] logPlace disk run world :=
  ⟨hplace, hnode, hsame.toSameDirectories, fun place hother _ => hsame.others place hother⟩

/-- A log that is a file stays one when directories are made. -/
theorem made (hplace : run.logFile.map (fun file => file.handle.place) = logPlace)
    (hlog : ∀ place ∈ logPlace, ∃ sent, disk.node? place = some (.file sent)) (directory : Path)
    {world : World} : Beside [] logPlace (disk.makeDirectories directory).2 run
      (world.setDisk (disk.makeDirectories directory).2) := by
  refine .ofSameBut hplace (fun place hmem => ?_) (.refl _ _)
  obtain ⟨sent, hsent⟩ := hlog place hmem
  rw [((Disk.gotDirectories_makeDirectories disk directory).file_iff place sent).mpr hsent]
  exact nofun

/-- A file may be put where one of the paths leads. -/
theorem put (h : Beside paths logPlace disk run world) {path : Path} {place : Location}
    (hpath : path ∈ paths) (hplace : world.disk.placeToWrite path = .ok place) (content : Bytes) :
    Beside paths logPlace disk run (world.setDisk (world.disk.put place (.file content))) := by
  obtain ⟨-, -, -, -, -, hnode⟩ := Disk.exists_of_placeToWrite hplace
  refine ⟨h.place_eq, h.notDirectory, h.directories.trans (Disk.sameDirectories_put content hnode),
    fun other hother hpaths => ?_⟩
  have hne : other ≠ place := by
    rintro rfl
    exact hpaths path hpath (Disk.placeToWrite_eq_ok h.directories.symm hplace)
  exact (Disk.node?_put_of_ne world.disk _ hne).trans (h.others other hother hpaths)

/-- Logging changes nothing but the file of the log. -/
theorem keptByLogging : RunM.KeptByLogging (Beside paths logPlace disk) where
  machine _ _ _ hdisk h := h.congr rfl hdisk
  record _ _ _ _ h := h.congr rfl rfl
  write run world file file' disk' hfile hplace hsame h := by
    have hlog : logPlace = some file.handle.place := by
      rw [← h.place_eq, hfile]
      rfl
    have hnode : world.disk.node? file.handle.place ≠ some .directory :=
      mt (h.directories.node? _).mp (h.notDirectory _ hlog)
    refine ⟨?_, h.notDirectory, h.directories.trans (hsame hnode).toSameDirectories,
      fun other hother hpaths => ?_⟩
    · rw [hlog, ← hplace]
      rfl
    · rw [← h.others other hother hpaths]
      exact (hsame hnode).others other (hlog ▸ hother)

end Beside

end PlainSync
