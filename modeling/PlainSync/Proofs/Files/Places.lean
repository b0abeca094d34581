import PlainSync.Files.Disk

/-!
# Places to write

Where a path lets a file be written depends on the directories of the disk alone, and writing a
file changes none of them. So a file is found again where it was written, whatever else is
written to other places.
-/

namespace PlainSync.Disk

/-! ## Putting something at a place -/

/-- Other places are found where one is taken away. -/
theorem lookup_filter_ne {nodes : List (Location × Node)} {place other : Location}
    (hother : other ≠ place) :
    (nodes.filter fun entry => entry.1 ≠ place).lookup other = nodes.lookup other := by
  induction nodes with
  | nil => rfl
  | cons entry more ih =>
    obtain ⟨location, node⟩ := entry
    by_cases hlocation : location = place
    · have hne : (other == location) = false := beq_eq_false_iff_ne.mpr (hlocation ▸ hother)
      rw [List.filter_cons_of_neg (by simp [hlocation]), ih, List.lookup_cons, hne]
    · rw [List.filter_cons_of_pos (by simp [hlocation]), List.lookup_cons, List.lookup_cons, ih]

/-- What is put somewhere is there. -/
theorem node?_put_self (disk : Disk) (node : Node) {place : Location} (hplace : place ≠ []) :
    (disk.put place node).node? place = some node := by
  unfold node? put
  rw [if_neg (by simpa using hplace), List.lookup_cons, beq_self_eq_true]

/-- What is put somewhere changes no other place. -/
theorem node?_put_of_ne (disk : Disk) (node : Node) {place other : Location}
    (hother : other ≠ place) : (disk.put place node).node? other = disk.node? other := by
  have hne : (other == place) = false := beq_eq_false_iff_ne.mpr hother
  unfold node? put
  rw [List.lookup_cons, hne, lookup_filter_ne hother]

/-- What is no directory is not the root. -/
theorem ne_nil_of_node?_ne {disk : Disk} {place : Location}
    (hplace : disk.node? place ≠ some .directory) : place ≠ [] := by
  rintro rfl
  exact hplace rfl

/-! ## Disks with the same directories -/

/-- What is a directory stays one, and paths start at the same one. -/
structure KeepsDirectories (disk disk' : Disk) : Prop where
  here : disk'.here = disk.here
  node? : ∀ place, disk.node? place = some .directory → disk'.node? place = some .directory

/-- Directories are kept by one step after the other. -/
theorem KeepsDirectories.trans {first second third : Disk} (h : KeepsDirectories first second)
    (h' : KeepsDirectories second third) : KeepsDirectories first third :=
  ⟨h'.here.trans h.here, fun place hplace => h'.node? place (h.node? place hplace)⟩

/-- The same places are directories, and paths start at the same one. -/
structure SameDirectories (disk disk' : Disk) : Prop where
  here : disk'.here = disk.here
  node? : ∀ place, disk'.node? place = some .directory ↔ disk.node? place = some .directory

/-- Disks with the same directories keep those of one another. -/
theorem SameDirectories.keeps {disk disk' : Disk} (h : SameDirectories disk disk') :
    KeepsDirectories disk disk' :=
  ⟨h.here, fun place => (h.node? place).mpr⟩

/-- A disk has its own directories. -/
theorem SameDirectories.refl (disk : Disk) : SameDirectories disk disk :=
  ⟨rfl, fun _ => Iff.rfl⟩

/-- Disks have the same directories either way. -/
theorem SameDirectories.symm {disk disk' : Disk} (h : SameDirectories disk disk') :
    SameDirectories disk' disk :=
  ⟨h.here.symm, fun place => (h.node? place).symm⟩

/-- Directories stay the same by one step after the other. -/
theorem SameDirectories.trans {first second third : Disk} (h : SameDirectories first second)
    (h' : SameDirectories second third) : SameDirectories first third :=
  ⟨h'.here.trans h.here, fun place => (h'.node? place).trans (h.node? place)⟩

/-- A file in the place of what is no directory leaves the directories as they are. -/
theorem sameDirectories_put {disk : Disk} {place : Location} (content : Bytes)
    (hplace : disk.node? place ≠ some .directory) :
    SameDirectories disk (disk.put place (.file content)) := by
  refine ⟨rfl, fun other => ?_⟩
  by_cases hother : other = place
  · rw [hother, node?_put_self disk _ (ne_nil_of_node?_ne hplace)]
    exact iff_of_false nofun hplace
  · rw [node?_put_of_ne disk _ hother]

/-! ## Disks that differ in one file -/

/-- Two disks differ in nothing but the content of a file at a place, if one is given. -/
structure SameBut (place : Option Location) (disk disk' : Disk) : Prop
    extends SameDirectories disk disk' where
  others : ∀ other, some other ≠ place → disk'.node? other = disk.node? other

/-- A disk is the same as itself but for any place. -/
theorem SameBut.refl (place : Option Location) (disk : Disk) : SameBut place disk disk :=
  ⟨.refl disk, fun _ _ => rfl⟩

/-- A disk stays the same but for a place by one step after the other. -/
theorem SameBut.trans {place : Option Location} {first second third : Disk}
    (h : SameBut place first second) (h' : SameBut place second third) :
    SameBut place first third :=
  ⟨h.toSameDirectories.trans h'.toSameDirectories, fun other hother =>
    (h'.others other hother).trans (h.others other hother)⟩

/-- A file that is written changes its place only. -/
theorem sameBut_put {disk : Disk} {place : Location} (content : Bytes)
    (hplace : disk.node? place ≠ some .directory) :
    SameBut (some place) disk (disk.put place (.file content)) :=
  ⟨sameDirectories_put content hplace, fun _ hother =>
    node?_put_of_ne disk _ fun heq => hother (congrArg some heq)⟩

/-- Two disks that differ in one file still do so when both get another file. -/
theorem SameBut.put {spared : Option Location} {disk disk' : Disk} (h : SameBut spared disk disk')
    {place : Location} (hplace : disk.node? place ≠ some .directory) (content : Bytes) :
    SameBut spared (disk.put place (.file content)) (disk'.put place (.file content)) where
  toSameDirectories :=
    (sameDirectories_put content hplace).symm.trans <| h.toSameDirectories.trans <|
      sameDirectories_put content (mt (h.node? place).mp hplace)
  others := by
    intro other hother
    by_cases hsame : other = place
    · subst hsame
      have hnode := ne_nil_of_node?_ne hplace
      rw [node?_put_self disk _ hnode, node?_put_self disk' _ hnode]
    · rw [node?_put_of_ne disk _ hsame, node?_put_of_ne disk' _ hsame, h.others other hother]

/-! ## Following paths -/

variable {disk disk' : Disk}

/-- A way that leads somewhere still does where directories are kept. -/
theorem follow_eq_ok (hkeeps : KeepsDirectories disk disk') {place target : Location}
    {names : List Path} (hfollow : disk.follow place names = .ok target) :
    disk'.follow place names = .ok target := by
  induction names generalizing place with
  | nil => exact hfollow
  | cons name more ih =>
    rw [follow] at hfollow ⊢
    split
    · next hdot =>
      rw [if_pos hdot] at hfollow
      exact ih hfollow
    · next hdot =>
      rw [if_neg hdot] at hfollow
      split
      · next hup =>
        rw [if_pos hup] at hfollow
        exact ih hfollow
      · next hup =>
        rw [if_neg hup] at hfollow
        cases hnext : placeOf place name with
        | error error =>
          rw [hnext] at hfollow
          cases hfollow
        | ok next =>
          rw [hnext] at hfollow
          cases hnode : disk.node? next with
          | none =>
            simp only [bind, Except.bind, hnode] at hfollow
            cases hfollow
          | some node =>
            cases node with
            | file content =>
              simp only [bind, Except.bind, hnode] at hfollow
              cases hfollow
            | directory =>
              simp only [bind, Except.bind, hnode] at hfollow
              simp only [bind, Except.bind, hkeeps.node? next hnode]
              exact ih hfollow

/-- A path starts at the same place where directories are kept. -/
theorem startOf_eq (hkeeps : KeepsDirectories disk disk') (path : Path) :
    disk'.startOf path = disk.startOf path := by
  unfold startOf
  rw [hkeeps.here]

/-- What is found at the end of a way is still found where directories are kept. -/
theorem follow_bind_eq_ok (hkeeps : KeepsDirectories disk disk') {place : Location}
    {names : List Path} {next : Location → Except FileError Target} {target : Target}
    (hfollow : (disk.follow place names).bind next = .ok target) :
    (disk'.follow place names).bind next = .ok target := by
  cases hdirectory : disk.follow place names with
  | error error =>
    rw [hdirectory] at hfollow
    cases hfollow
  | ok directory =>
    rw [hdirectory] at hfollow
    rw [follow_eq_ok hkeeps hdirectory]
    exact hfollow

/-- A path that leads somewhere still does where directories are kept. -/
theorem locate_eq_ok (hkeeps : KeepsDirectories disk disk') {path : Path} {target : Target}
    (hlocate : disk.locate path = .ok target) : disk'.locate path = .ok target := by
  unfold locate at hlocate ⊢
  rw [startOf_eq hkeeps]
  split
  · next hnul =>
    rw [if_pos hnul] at hlocate
    cases hlocate
  · next hnul =>
    rw [if_neg hnul] at hlocate
    split
    · next hempty =>
      rw [if_pos hempty] at hlocate
      cases hlocate
    · next hempty =>
      rw [if_neg hempty] at hlocate
      split
      · next hlong =>
        rw [if_pos hlong] at hlocate
        cases hlocate
      · next hlong =>
        rw [if_neg hlong] at hlocate
        cases hlast : (Path.names path).getLast? with
        | none =>
          simp only [hlast] at hlocate ⊢
          exact hlocate
        | some name =>
          simp only [hlast] at hlocate ⊢
          by_cases hdots : name = Path.dot ∨ name = Path.dots
          · simp only [if_pos hdots] at hlocate ⊢
            exact follow_bind_eq_ok hkeeps hlocate
          · simp only [if_neg hdots] at hlocate ⊢
            exact follow_bind_eq_ok hkeeps hlocate

/-- A path leads to a place for a file if it names something in a directory that is none. -/
theorem exists_of_placeToWrite {path : Path} {place : Location}
    (hplace : disk.placeToWrite path = .ok place) :
    ∃ directory name, disk.locate path = .ok ⟨directory, some name⟩ ∧
      Path.endsInSlash path = false ∧ placeOf directory name = .ok place ∧
      disk.node? place ≠ some .directory := by
  unfold placeToWrite at hplace
  cases hlocate : disk.locate path with
  | error error =>
    rw [hlocate] at hplace
    cases hplace
  | ok target =>
    obtain ⟨directory, name?⟩ := target
    simp only [hlocate, bind, Except.bind] at hplace
    cases name? with
    | none => cases hplace
    | some name =>
      simp only at hplace
      cases hslash : Path.endsInSlash path with
      | true =>
        rw [hslash, if_pos rfl] at hplace
        cases hplace
      | false =>
        rw [hslash, if_neg nofun] at hplace
        cases hplaceOf : placeOf directory name with
        | error error =>
          rw [hplaceOf] at hplace
          cases hplace
        | ok place' =>
          simp only [hplaceOf] at hplace
          split at hplace
          · cases hplace
          · next hnode =>
            cases hplace
            exact ⟨directory, name, rfl, rfl, hplaceOf, hnode⟩

/-- A file can be written at the same place on a disk that keeps the directories, if that place
does not become one. -/
theorem placeToWrite_of_keeps (hkeeps : KeepsDirectories disk disk') {path : Path}
    {place : Location} (hplace : disk.placeToWrite path = .ok place)
    (hnode : disk'.node? place ≠ some .directory) : disk'.placeToWrite path = .ok place := by
  obtain ⟨directory, name, hlocate, hslash, hplaceOf, -⟩ := exists_of_placeToWrite hplace
  unfold placeToWrite
  simp only [locate_eq_ok hkeeps hlocate, hslash, hplaceOf, bind, Except.bind]
  exact if_neg hnode

/-- A file can be written at the same place on a disk with the same directories. -/
theorem placeToWrite_eq_ok (hsame : SameDirectories disk disk') {path : Path}
    {place : Location} (hplace : disk.placeToWrite path = .ok place) :
    disk'.placeToWrite path = .ok place := by
  obtain ⟨-, -, -, -, -, hnode⟩ := exists_of_placeToWrite hplace
  exact placeToWrite_of_keeps hsame.keeps hplace (mt (hsame.node? place).mp hnode)

/-- What is written where a path leads is read from there. -/
theorem read_of_placeToWrite {path : Path} {place : Location} {content : Bytes}
    (hplace : disk.placeToWrite path = .ok place)
    (hcontent : disk.node? place = some (.file content)) : disk.read path = .ok content := by
  obtain ⟨directory, name, hlocate, hslash, hplaceOf, -⟩ := exists_of_placeToWrite hplace
  unfold read find
  simp only [hlocate, hplaceOf, bind, Except.bind, pure, Except.pure, hcontent, hslash]
  rfl

/-- What was written to a path is read from it. -/
theorem read_put {path : Path} {place : Location} (hplace : disk.placeToWrite path = .ok place)
    (content : Bytes) : (disk.put place (.file content)).read path = .ok content := by
  obtain ⟨-, -, -, -, -, hnode⟩ := exists_of_placeToWrite hplace
  exact read_of_placeToWrite (placeToWrite_eq_ok (sameDirectories_put content hnode) hplace)
    (node?_put_self disk _ (ne_nil_of_node?_ne hnode))

/-! ## Disks that differ where paths lead -/

/-- Two disks differ in nothing but the contents of the files that paths lead to. -/
structure SameButAt (paths : List Path) (disk disk' : Disk) : Prop
    extends SameDirectories disk disk' where
  others : ∀ place, (∀ path ∈ paths, disk.placeToWrite path ≠ .ok place) →
    disk'.node? place = disk.node? place

/-- A disk is the same as itself but for any paths. -/
theorem SameButAt.refl (paths : List Path) (disk : Disk) : SameButAt paths disk disk :=
  ⟨.refl disk, fun _ _ => rfl⟩

/-- A disk stays the same but for paths by one step after the other. -/
theorem SameButAt.trans {first second third : Disk} {paths more : List Path}
    (h : SameButAt paths first second) (h' : SameButAt more second third) :
    SameButAt (paths ++ more) first third := by
  refine ⟨h.toSameDirectories.trans h'.toSameDirectories, fun place hplace => ?_⟩
  obtain ⟨hpaths, hmore⟩ := List.forall_mem_append.mp hplace
  rw [h'.others place fun path hpath hlead =>
    hmore path hpath (placeToWrite_eq_ok h.toSameDirectories.symm hlead), h.others place hpaths]

/-- A file that is put where a path leads changes nothing else. -/
theorem sameButAt_put {path : Path} {place : Location}
    (hplace : disk.placeToWrite path = .ok place) (content : Bytes) :
    SameButAt [path] disk (disk.put place (.file content)) := by
  obtain ⟨-, -, -, -, -, hnode⟩ := exists_of_placeToWrite hplace
  refine ⟨sameDirectories_put content hnode, fun other hother => node?_put_of_ne disk _ ?_⟩
  rintro rfl
  exact hother path List.mem_cons_self hplace

end PlainSync.Disk
