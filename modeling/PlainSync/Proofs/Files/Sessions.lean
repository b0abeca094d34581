import Mathlib.Data.List.Forall2
import PlainSync.Normalize
import PlainSync.Proofs.Files.Names

/-!
# A session on a disk

The files of a session are read and written in turn. Since every output keeps the file name of its
input, and these names are all different, no output takes the place of a source that is still to be
read or of another output. So the sources are the files that stood there before the first one was
written.
-/

namespace PlainSync

namespace Disk

variable {disk disk' : Disk}

/-- A path does not lead to the file at a place, if one is given. -/
def Spares (disk : Disk) (spared : Option Location) (path : Path) : Prop :=
  ∀ place, disk.placeToWrite path = .ok place → some place ≠ spared

/-- A path is spared where the directories are the same. -/
theorem Spares.congr {spared : Option Location} {path : Path} (hpath : disk.Spares spared path)
    (hsame : SameDirectories disk disk') : disk'.Spares spared path :=
  fun place hplace => hpath place (placeToWrite_eq_ok hsame.symm hplace)

/-- A file is written where its path leads. -/
theorem exists_of_write {path : Path} {content : Bytes}
    (hwrite : disk.write path content = .ok disk') :
    ∃ place, disk.placeToWrite path = .ok place ∧ disk.node? place ≠ some .directory ∧
      disk' = disk.put place (.file content) := by
  unfold write at hwrite
  cases hplace : disk.placeToWrite path with
  | error error =>
    rw [hplace] at hwrite
    cases hwrite
  | ok place =>
    rw [hplace] at hwrite
    cases hwrite
    obtain ⟨-, -, -, -, -, hnode⟩ := exists_of_placeToWrite hplace
    exact ⟨place, rfl, hnode, rfl⟩

/-- Writing a file makes no directory. -/
theorem sameDirectories_of_write {path : Path} {content : Bytes}
    (hwrite : disk.write path content = .ok disk') : SameDirectories disk disk' := by
  obtain ⟨place, -, hnode, rfl⟩ := exists_of_write hwrite
  exact sameDirectories_put content hnode

/-- What is written to a path stands where it leads. -/
theorem node?_of_write {path : Path} {content : Bytes} {place : Location}
    (hwrite : disk.write path content = .ok disk')
    (hplace : disk.placeToWrite path = .ok place) :
    disk'.node? place = some (.file content) := by
  obtain ⟨other, hother, hnode, rfl⟩ := exists_of_write hwrite
  cases hplace.symm.trans hother
  exact node?_put_self disk _ (ne_nil_of_node?_ne hnode)

/-- Writing changes no place but the one that its path leads to. -/
theorem node?_of_write_of_ne {path : Path} {content : Bytes} {place : Location}
    (hwrite : disk.write path content = .ok disk')
    (hplace : disk.placeToWrite path ≠ .ok place) : disk'.node? place = disk.node? place := by
  obtain ⟨other, hother, -, rfl⟩ := exists_of_write hwrite
  exact node?_put_of_ne disk _ fun hsame => hplace (hsame ▸ hother)

end Disk

/-- Files are normalized in a session on a disk, one after the other: an input is read as the disk
is then, and its text is written to the output. The sources that were read are given, and the disk
behind all. -/
inductive SessionOn : Disk → Session → List (Path × Path) → List Bytes → Disk → Prop where
  | nil (disk : Disk) (session : Session) : SessionOn disk session [] [] disk
  | cons {disk next disk' : Disk} {session : Session} {input output : Path}
      {files : List (Path × Path)} {source : Bytes} {sources : List Bytes}
      (hread : disk.read input = .ok source)
      (hwrite : disk.write output (session.normalize source).1.text = .ok next)
      (hmore : SessionOn next (session.normalize source).2 files sources disk') :
      SessionOn disk session ((input, output) :: files) (source :: sources) disk'

/-- Each file keeps its name from input to output, and no two have the same one. -/
structure KeepNames (files : List (Path × Path)) : Prop where
  kept : ∀ file ∈ files, Path.fileName? file.2 = Path.fileName? file.1
  nodup : (files.map fun file => Path.fileName? file.1).Nodup

/-- The first output has the name of its input, which is no other's. -/
theorem KeepNames.of_cons {input output : Path} {files : List (Path × Path)}
    (h : KeepNames ((input, output) :: files)) :
    Path.fileName? output = Path.fileName? input ∧
      (∀ file ∈ files, Path.fileName? file.1 ≠ Path.fileName? input) ∧ KeepNames files := by
  obtain ⟨hkept, hmoreKept⟩ := List.forall_mem_cons.mp h.kept
  obtain ⟨hfresh, hnodup⟩ := List.nodup_cons.mp h.nodup
  exact ⟨hkept, fun file hfile hsame => hfresh (List.mem_map.mpr ⟨file, hfile, hsame⟩),
    hmoreKept, hnodup⟩

namespace SessionOn

variable {disk disk' : Disk} {session : Session} {files : List (Path × Path)}
  {sources : List Bytes}

/-- A session makes no directory. -/
theorem sameDirectories (h : SessionOn disk session files sources disk') :
    Disk.SameDirectories disk disk' := by
  induction h with
  | nil disk session => exact .refl disk
  | cons hread hwrite hmore ih => exact (Disk.sameDirectories_of_write hwrite).trans ih

/-- Nothing changes but where outputs lead. -/
theorem node?_eq (h : SessionOn disk session files sources disk') {place : Location}
    (hplace : ∀ file ∈ files, disk.placeToWrite file.2 ≠ .ok place) :
    disk'.node? place = disk.node? place := by
  induction h with
  | nil disk session => rfl
  | cons hread hwrite hmore ih =>
    obtain ⟨hfirst, hothers⟩ := List.forall_mem_cons.mp hplace
    have hsame := Disk.sameDirectories_of_write hwrite
    rw [ih fun file hfile hnext => hothers file hfile (Disk.placeToWrite_eq_ok hsame.symm hnext)]
    exact Disk.node?_of_write_of_ne hwrite hfirst

/-- Nothing changes under names that no file has. -/
theorem node?_eq_of_name (h : SessionOn disk session files sources disk')
    (hnames : KeepNames files) {place : Location}
    (hplace : ∀ file ∈ files, Path.fileName? file.1 ≠ place.getLast?) :
    disk'.node? place = disk.node? place := by
  refine h.node?_eq fun file hfile houtput => hplace file hfile ?_
  rw [Disk.getLast?_of_placeToWrite houtput, hnames.kept file hfile]

/-- The sources are what stood at the inputs earlier, if nothing has changed since under their
names. -/
theorem reads_of_eq (h : SessionOn disk session files sources disk') (hnames : KeepNames files)
    {start : Disk} (hsame : Disk.SameDirectories start disk)
    (hsince : ∀ file ∈ files, ∀ place : Location, Path.fileName? file.1 = place.getLast? →
      disk.node? place = start.node? place) :
    List.Forall₂ (fun file source => ∃ place, start.placeToWrite file.1 = .ok place ∧
      start.node? place = some (.file source)) files sources := by
  induction h with
  | nil disk session => exact .nil
  | @cons disk next disk' session input output files source sources hread hwrite hmore ih =>
    obtain ⟨hkept, hfresh, hrest⟩ := hnames.of_cons
    obtain ⟨hfirst, hothers⟩ := List.forall_mem_cons.mp hsince
    obtain ⟨place, hplace, hnode⟩ := Disk.exists_placeToWrite_of_read hread
    refine .cons ⟨place, Disk.placeToWrite_eq_ok hsame.symm hplace, ?_⟩
      (ih hrest (hsame.trans (Disk.sameDirectories_of_write hwrite)) ?_)
    · rw [← hfirst place (Disk.getLast?_of_placeToWrite hplace).symm, hnode]
    · intro file hfile other hother
      rw [← hothers file hfile other hother]
      apply Disk.node?_of_write_of_ne hwrite
      -- The output stands under the name of its input, and this file under another one.
      intro houtput
      apply hfresh file hfile
      rw [hother, ← hkept, Disk.getLast?_of_placeToWrite houtput]

/-- The sources are what stood at the inputs before the first output was written. -/
theorem reads (h : SessionOn disk session files sources disk') (hnames : KeepNames files) :
    List.Forall₂ (fun file source => ∃ place, disk.placeToWrite file.1 = .ok place ∧
      disk.node? place = some (.file source)) files sources :=
  h.reads_of_eq hnames (.refl disk) fun _ _ _ _ => rfl

/-- Behind the session each output has the text of its source in the session. -/
theorem writes (h : SessionOn disk session files sources disk') (hnames : KeepNames files) :
    List.Forall₂ (fun file normalized => ∃ place, disk.placeToWrite file.2 = .ok place ∧
      disk'.node? place = some (.file normalized.text)) files
      (session.normalizeAll sources).1 := by
  induction h with
  | nil disk session => exact .nil
  | @cons disk next disk' session input output files source sources hread hwrite hmore ih =>
    obtain ⟨hkept, hfresh, hrest⟩ := hnames.of_cons
    obtain ⟨place, hplace, -, -⟩ := Disk.exists_of_write hwrite
    have hsame := Disk.sameDirectories_of_write hwrite
    have hall : (session.normalizeAll (source :: sources)).1 =
      (session.normalize source).1 :: ((session.normalize source).2.normalizeAll sources).1 := rfl
    rw [hall]
    refine .cons ⟨place, hplace, ?_⟩ ?_
    · rw [hmore.node?_eq_of_name hrest, Disk.node?_of_write hwrite hplace]
      intro file hfile hname
      apply hfresh file hfile
      rw [hname, ← hkept, Disk.getLast?_of_placeToWrite hplace]
    · refine List.Forall₂.imp ?_ (ih hrest)
      rintro file normalized ⟨place, hplace, hnode⟩
      exact ⟨place, Disk.placeToWrite_eq_ok hsame.symm hplace, hnode⟩

end SessionOn

end PlainSync
