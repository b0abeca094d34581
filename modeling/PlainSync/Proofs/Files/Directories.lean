import PlainSync.Proofs.Files.Places

/-!
# Making directories

Making directories puts them where nothing stood, and touches no file, whether or not it gets
to its end.
-/

namespace PlainSync.Disk

/-- A disk got directories where nothing stood before. -/
structure GotDirectories (disk disk' : Disk) : Prop where
  here : disk'.here = disk.here
  node? : ∀ place, disk'.node? place = disk.node? place ∨
    disk.node? place = none ∧ disk'.node? place = some .directory

namespace GotDirectories

variable {disk disk' : Disk}

/-- A disk got no directories from itself. -/
theorem refl (disk : Disk) : GotDirectories disk disk := ⟨rfl, fun _ => Or.inl rfl⟩

/-- Directories are added one after the other. -/
theorem trans {first second third : Disk} (h : GotDirectories first second)
    (h' : GotDirectories second third) : GotDirectories first third := by
  refine ⟨h'.here.trans h.here, fun place => ?_⟩
  rcases h'.node? place with hsame | ⟨hnone, hdirectory⟩
  · rw [hsame]
    exact h.node? place
  · rcases h.node? place with hsame | ⟨-, hmade⟩
    · exact Or.inr ⟨hsame.symm.trans hnone, hdirectory⟩
    · rw [hnone] at hmade
      cases hmade

/-- A disk that only got directories keeps those that it had. -/
theorem keeps (h : GotDirectories disk disk') : KeepsDirectories disk disk' := by
  refine ⟨h.here, fun place hplace => ?_⟩
  rcases h.node? place with hsame | ⟨-, hdirectory⟩
  · exact hsame.trans hplace
  · exact hdirectory

/-- The files are the same as before. -/
theorem file_iff (h : GotDirectories disk disk') (place : Location) (content : Bytes) :
    disk'.node? place = some (.file content) ↔ disk.node? place = some (.file content) := by
  rcases h.node? place with hsame | ⟨hnone, hdirectory⟩
  · rw [hsame]
  · rw [hnone, hdirectory]
    exact iff_of_false nofun nofun

end GotDirectories

/-- A directory is put where nothing was. -/
theorem gotDirectories_put {disk : Disk} {place : Location} (hplace : disk.node? place = none) :
    GotDirectories disk (disk.put place .directory) := by
  refine ⟨rfl, fun other => ?_⟩
  by_cases hother : other = place
  · subst hother
    have hnode : other ≠ [] := ne_nil_of_node?_ne (by rw [hplace]; exact nofun)
    exact Or.inr ⟨hplace, node?_put_self disk _ hnode⟩
  · exact Or.inl (node?_put_of_ne disk _ hother)

/-- Making a directory adds that one only. -/
theorem gotDirectories_makeDirectory {disk disk' : Disk} {path : Path}
    (hmake : disk.makeDirectory path = .ok disk') : GotDirectories disk disk' := by
  unfold makeDirectory at hmake
  cases hlocate : disk.locate path with
  | error error =>
    rw [hlocate] at hmake
    cases hmake
  | ok target =>
    obtain ⟨directory, name?⟩ := target
    rw [hlocate] at hmake
    cases name? with
    | none => cases hmake
    | some name =>
      simp only [bind, Except.bind, find, pure, Except.pure] at hmake
      cases hplace : placeOf directory name with
      | error error =>
        rw [hplace] at hmake
        cases hmake
      | ok place =>
        have hbehind : directory ++ [name] = place := by
          unfold placeOf at hplace
          split at hplace
          · cases hplace
          · exact Except.ok.inj hplace
        rw [hplace] at hmake
        cases hnode : disk.node? place with
        | some node =>
          simp only [hnode] at hmake
          cases hmake
        | none =>
          simp only [hnode] at hmake
          cases hmake
          rw [hbehind]
          exact gotDirectories_put hnode

/-- A directory that is asked for is added unless it is there. -/
theorem gotDirectories_ensureDirectory {disk disk' : Disk} {path : Path}
    (hensure : disk.ensureDirectory path = .ok disk') : GotDirectories disk disk' := by
  unfold ensureDirectory at hensure
  split at hensure
  · next made hmake =>
    cases hensure
    exact gotDirectories_makeDirectory hmake
  · split at hensure
    · cases hensure
      exact .refl disk
    · cases hensure

/-- A step that fails leaves the disk as it is. -/
theorem gotDirectories_orUnchanged {disk : Disk} {result : Except FileError Disk}
    (hresult : ∀ disk', result = .ok disk' → GotDirectories disk disk') :
    GotDirectories disk (disk.orUnchanged result).2 := by
  cases result with
  | ok changed => exact hresult changed rfl
  | error error => exact .refl disk

/-- A directory is asked for behind its parents. -/
theorem gotDirectories_ensureBehind (disk : Disk) (path : Path)
    {parents : Disk → Except FileError Unit × Disk}
    (hparents : ∀ disk, GotDirectories disk (parents disk).2) :
    GotDirectories disk (disk.ensureBehind path parents).2 := by
  unfold ensureBehind
  split
  · have hbehind := hparents disk
    split
    · next made hmade =>
      rw [hmade] at hbehind
      exact hbehind.trans
        (gotDirectories_orUnchanged fun _ hensure => gotDirectories_ensureDirectory hensure)
    · exact hbehind
  · exact gotDirectories_orUnchanged fun _ hensure => gotDirectories_ensureDirectory hensure

/-- The directories of a path are asked for one behind the other. -/
theorem gotDirectories_makePath (absolute : Bool) (parts : List Path) (disk : Disk) :
    GotDirectories disk (makePath absolute parts disk).2 := by
  induction parts generalizing disk with
  | nil => exact .refl disk
  | cons last earlier ih => exact gotDirectories_ensureBehind disk _ ih

/-- Making directories changes no file. -/
theorem gotDirectories_makeDirectories (disk : Disk) (path : Path) :
    GotDirectories disk (disk.makeDirectories path).2 := by
  unfold makeDirectories
  split
  · exact .refl disk
  · exact gotDirectories_ensureBehind disk path (gotDirectories_makePath _ _)

end PlainSync.Disk
