import PlainSync.Proofs.Files.Sessions
import PlainSync.Proofs.Run.Frames

/-!
# Work beside the log

A run reads and writes files, and between these its log. To everything but the log it is as if only
the files were read and written: what a run makes of a disk is what the reads and writes alone make
of it, but for the content of the log.
-/

namespace PlainSync

open PlainSync.Action
open Disk (SameBut)

namespace Disk

variable {spared : Option Location} {disk disk' : Disk}

/-- What is read from a path that does not lead to the log stands there on both disks. -/
theorem SameBut.read_eq_ok (h : SameBut spared disk disk') {path : Path}
    (hpath : disk.Spares spared path) {content : Bytes} (hread : disk'.read path = .ok content) :
    disk.read path = .ok content := by
  obtain ⟨place, hplace', hnode⟩ := exists_placeToWrite_of_read hread
  have hplace := placeToWrite_eq_ok h.toSameDirectories.symm hplace'
  apply read_of_placeToWrite hplace
  rw [← h.others place (hpath place hplace), hnode]

end Disk

/-- A run works on a machine with a disk that is, but for the log, the one that is given. -/
structure Working (logPlace : Option Location) (session : Session) (index : ArtifactIndex)
    (disk : Disk) (run : Run OpenFile) (world : World) : Prop
    extends Beside [] logPlace disk run world where
  session_eq : run.session = session
  index_eq : run.index = index

variable {logPlace : Option Location} {session : Session} {index : ArtifactIndex} {disk : Disk}
  {run : Run OpenFile} {world : World}

namespace Working

/-- Logging is no work. -/
theorem keptByLogging : RunM.KeptByLogging (Working logPlace session index disk) where
  machine _ _ _ hdisk h := { h with toBeside := h.toBeside.congr rfl hdisk }
  record _ _ _ _ h := { h with toBeside := h.toBeside.congr rfl rfl }
  write _ _ _ _ _ hfile hplace hsame h :=
    { h with toBeside := Beside.keptByLogging.write _ _ _ _ _ hfile hplace hsame h.toBeside }

/-- A file that is put where the log does not stand is put on the given disk as well. -/
theorem put (h : Working logPlace session index disk run world) {place : Location}
    (hnode : disk.node? place ≠ some .directory) (content : Bytes) {world' : World}
    (hdisk : world'.disk = world.disk.put place (.file content)) :
    Working logPlace session index (disk.put place (.file content)) run world' := by
  have hsame : SameBut logPlace (disk.put place (.file content)) world'.disk :=
    hdisk ▸ h.sameBut.put hnode content
  refine { h with toBeside := .ofSameBut h.place_eq (fun other hother => ?_) hsame }
  exact mt ((Disk.sameDirectories_put content hnode).node? other).mp (h.notDirectory other hother)

end Working

namespace RunM

/-! ## Files -/

/-- What is read stands on the given disk. -/
theorem working_readFile {path : Path} (hpath : disk.Spares logPlace path) :
    Triple anyState (Working logPlace session index disk)
      (onFile (m := WorldM) (Machine.readFile path)) fun content run world =>
        disk.read path = .ok content ∧ Working logPlace session index disk run world :=
  .onFile (fun _ _ _ hwork hread => ⟨hwork.sameBut.read_eq_ok hpath hread, hwork⟩)
    fun _ _ _ _ _ => trivial

/-- What is written is written to the given disk. -/
theorem working_writeFile (path : Path) (content : Bytes) :
    Triple anyState (Working logPlace session index disk)
      (onFile (m := WorldM) (Machine.writeFile path content)) fun _ run world =>
        ∃ disk', disk.write path content = .ok disk' ∧
          Working logPlace session index disk' run world := by
  refine .writeFile (fun run world place hwork hplace' => ?_) (fun _ _ _ => trivial)
    fun _ _ _ _ _ _ => trivial
  have hplace := Disk.placeToWrite_eq_ok hwork.directories.symm hplace'
  obtain ⟨-, -, -, -, -, hnode⟩ := Disk.exists_of_placeToWrite hplace
  refine ⟨disk.put place (.file content), ?_, hwork.put hnode content rfl⟩
  unfold Disk.write
  rw [hplace]
  rfl

/-- A file that is written is listed with what was written. -/
theorem working_writeArtifact {path : Path} (hpath : disk.Spares logPlace path) (kind : String)
    (content : Bytes) :
    Triple anyState (Working logPlace session index disk)
      (writeArtifact (m := WorldM) path kind content)
      fun _ run world => ∃ disk', disk.write path content = .ok disk' ∧
        Working logPlace session (index.add (.ofBytes path.display kind content)) disk' run
          world := by
  unfold writeArtifact
  refine .bind (working_writeFile path content) fun _ => .ofExists fun disk' =>
    .assume fun hwrite => ?_
  have hsame := Disk.sameDirectories_of_write hwrite
  refine .bind (working_readFile (hpath.congr hsame)) fun content' => .assume fun hread => ?_
  obtain ⟨place, hplace, -, -⟩ := Disk.exists_of_write hwrite
  have hread' := Disk.read_of_placeToWrite (Disk.placeToWrite_eq_ok hsame hplace)
    (Disk.node?_of_write hwrite hplace)
  cases hread.symm.trans hread'
  refine .modify fun run world hwork => ⟨disk', hwrite, ?_⟩
  exact ⟨hwork.toBeside.congr rfl rfl, hwork.session_eq, by rw [hwork.index_eq]⟩

/-! ## Sources -/

/-- A file is normalized as its source on the given disk is in the session. -/
theorem working_normalizeFile {path : Path} (hpath : disk.Spares logPlace path) :
    Triple anyState (Working logPlace session index disk) (normalizeFile (m := WorldM) path)
      fun file run world => ∃ source, disk.read path = .ok source ∧
        (file.text = (session.normalize source).1.text ∧
          file.report = (session.normalize source).1.report) ∧
        Working logPlace (session.normalize source).2 index disk run world := by
  unfold normalizeFile
  refine .bind (triple_look Working.keptByLogging.look) fun start =>
    .bind (working_readFile hpath) fun source => .assume fun hread => ?_
  split
  · exact .bind (.throw fun _ _ _ => trivial) fun _ => .of_false
  · refine .bind .get fun run => ?_
    cases hnormalize : run.session.normalize source with
    | mk normalized session' =>
    refine .bind (Q := fun _ run' world => session.normalize source = (normalized, session') ∧
      Working logPlace session' index disk run' world) (.set ?_) fun _ =>
      .assume fun hsession => ?_
    · rintro run' world ⟨rfl, hwork⟩
      rw [hwork.session_eq] at hnormalize
      exact ⟨hnormalize, hwork.toBeside.congr rfl rfl, rfl, hwork.index_eq⟩
    · have hlogged : KeptByLogging (Working logPlace session' index disk) := Working.keptByLogging
      refine (Triple.bind (hlogged.logKeptCalls path.display _) fun _ =>
        .bind (hlogged.logFileDone path.display _ _ start) fun _ =>
        .pure fun run' world hwork => ?_).relax fun _ _ _ => trivial
      refine ⟨source, hread, ?_⟩
      rw [hsession]
      exact ⟨⟨rfl, rfl⟩, hwork⟩

end RunM

end PlainSync
