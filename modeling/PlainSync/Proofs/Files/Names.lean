import PlainSync.Files.Outputs
import PlainSync.Proofs.Files.Places
import PlainSync.Proofs.Text.Split

/-!
# File names

A file stands under the file name of every path that leads to it. The outputs of inputs keep the
file names of these, so the outputs of different inputs are different files.
-/

namespace PlainSync

namespace Path

/-! ## Names -/

/-- A name under which a file can stand in a directory. -/
structure IsFileName (name : Path) : Prop where
  ne_empty : name ≠ []
  slash_notMem : Byte.slash ∉ name
  ne_dot : name ≠ dot
  ne_dots : name ≠ dots

/-- The file name of a path is one. -/
theorem isFileName_of_fileName? {path name : Path} (hname : fileName? path = some name) :
    IsFileName name := by
  obtain ⟨hlast, hdots⟩ := Option.filter_eq_some_iff.mp hname
  obtain ⟨hmem, hdot⟩ := List.mem_filter.mp (List.mem_of_getLast? hlast)
  obtain ⟨hpart, hnonempty⟩ := List.mem_filter.mp hmem
  refine ⟨?_, notMem_of_mem_splitOn hpart, of_decide_eq_true hdot, of_decide_eq_true hdots⟩
  rintro rfl
  cases hnonempty

/-- A path whose last name is no row of dots ends in a file name. -/
theorem fileName?_of_getLast?_names {path name : Path}
    (hlast : (names path).getLast? = some name) (hdot : name ≠ dot) (hdots : name ≠ dots) :
    fileName? path = some name := by
  obtain ⟨front, hfront⟩ := List.getLast?_eq_some_iff.mp hlast
  have hkept : [name].filter (fun name => name ≠ dot) = [name] := by simp [hdot]
  have hcomponents : (components path).getLast? = some name := by
    rw [components, hfront, List.filter_append, hkept, List.getLast?_concat]
  rw [fileName?, hcomponents, Option.filter_some, if_pos (decide_eq_true hdots)]

/-- A file name behind a slash, or behind nothing, is the last name of a path. -/
theorem getLast?_names_append {front name : Path} (hname : IsFileName name)
    (hfront : front.getLast? = none ∨ front.getLast? = some Byte.slash) :
    (names (front ++ name)).getLast? = some name := by
  have hparts : ∃ parts, splitOn Byte.slash (front ++ name) = parts ++ [name] := by
    rcases hfront with hnone | hslash
    · rw [List.getLast?_eq_none_iff.mp hnone, List.nil_append,
        splitOn_eq_singleton hname.slash_notMem]
      exact ⟨[], rfl⟩
    · obtain ⟨parts, hparts⟩ := List.getLast?_eq_some_iff.mp hslash
      rw [hparts, List.append_assoc, List.singleton_append, splitOn_append_cons,
        splitOn_eq_singleton hname.slash_notMem]
      exact ⟨_, rfl⟩
  obtain ⟨parts, hparts⟩ := hparts
  have hkept : [name].filter (fun part => !part.isEmpty) = [name] := by
    simpa using hname.ne_empty
  rw [names, hparts, List.filter_append, hkept, List.getLast?_concat]

/-- A file keeps its name when it is put into a directory. -/
theorem fileName?_join (directory : Path) {name : Path} (hname : IsFileName name) :
    fileName? (join directory name) = some name := by
  have habsolute : isAbsolute name = false := by
    rw [isAbsolute, beq_eq_false_iff_ne]
    intro hhead
    exact hname.slash_notMem (List.mem_of_head? hhead)
  have hlast : (names (join directory name)).getLast? = some name := by
    rw [join, habsolute, if_neg nofun]
    split
    · next hfront =>
      apply getLast?_names_append hname
      rcases (Bool.or_eq_true _ _).mp hfront with hempty | hslash
      · rw [List.isEmpty_iff.mp hempty]
        exact Or.inl rfl
      · exact Or.inr (beq_iff_eq.mp hslash)
    · rw [List.append_cons]
      exact getLast?_names_append hname (Or.inr List.getLast?_concat)
  exact fileName?_of_getLast?_names hlast hname.ne_dot hname.ne_dots

end Path

/-! ## Places -/

namespace Disk

variable {disk : Disk} {path : Path} {place : Location}

/-- A path leads to its file name. -/
theorem fileName?_of_locate {directory : Location} {name : Path}
    (hlocate : disk.locate path = .ok ⟨directory, some name⟩) :
    Path.fileName? path = some name := by
  unfold locate at hlocate
  split at hlocate
  · cases hlocate
  · split at hlocate
    · cases hlocate
    · split at hlocate
      · cases hlocate
      · cases hlast : (Path.names path).getLast? with
        | none =>
          simp only [hlast] at hlocate
          cases hlocate
        | some last =>
          simp only [hlast] at hlocate
          by_cases hdots : last = Path.dot ∨ last = Path.dots
          · rw [if_pos hdots] at hlocate
            cases hfollow : disk.follow (disk.startOf path) (Path.names path) with
            | error error =>
              rw [hfollow] at hlocate
              cases hlocate
            | ok place =>
              rw [hfollow] at hlocate
              cases hlocate
          · obtain ⟨hdot, hdots'⟩ := not_or.mp hdots
            rw [if_neg hdots] at hlocate
            cases hfollow : disk.follow (disk.startOf path) (Path.names path).dropLast with
            | error error =>
              rw [hfollow] at hlocate
              cases hlocate
            | ok place =>
              rw [hfollow] at hlocate
              cases hlocate
              exact Path.fileName?_of_getLast?_names hlast hdot hdots'

/-- A file is in its directory. -/
theorem eq_append_of_placeOf {directory : Location} {name : Path}
    (hplace : placeOf directory name = .ok place) : place = directory ++ [name] := by
  unfold placeOf at hplace
  split at hplace
  · cases hplace
  · exact (Except.ok.inj hplace).symm

/-- A file stands under the file name of the path that leads to it. -/
theorem getLast?_of_placeToWrite (hplace : disk.placeToWrite path = .ok place) :
    place.getLast? = Path.fileName? path := by
  obtain ⟨directory, name, hlocate, -, hplaceOf, -⟩ := exists_of_placeToWrite hplace
  rw [fileName?_of_locate hlocate, eq_append_of_placeOf hplaceOf, List.getLast?_concat]

/-- A file that is read from a path could be written there. -/
theorem exists_placeToWrite_of_read {content : Bytes} (hread : disk.read path = .ok content) :
    ∃ place, disk.placeToWrite path = .ok place ∧
      disk.node? place = some (.file content) := by
  unfold read at hread
  cases hlocate : disk.locate path with
  | error error =>
    rw [hlocate] at hread
    cases hread
  | ok target =>
    obtain ⟨directory, name?⟩ := target
    rw [hlocate] at hread
    cases name? with
    | none => cases hread
    | some name =>
      simp only [bind, Except.bind, find, pure, Except.pure] at hread
      cases hplaceOf : placeOf directory name with
      | error error =>
        rw [hplaceOf] at hread
        cases hread
      | ok place =>
        simp only [hplaceOf] at hread
        split at hread
        · cases hread
        · cases hread
        · next found hnode =>
          cases hslash : Path.endsInSlash path with
          | true =>
            rw [hslash, if_pos rfl] at hread
            cases hread
          | false =>
            rw [hslash, if_neg nofun] at hread
            cases hread
            refine ⟨place, ?_, hnode⟩
            unfold placeToWrite
            simp only [hlocate, hslash, hplaceOf, bind, Except.bind, hnode]
            rfl

/-- A path from which a file is read ends in a file name. -/
theorem exists_fileName?_of_read {content : Bytes} (hread : disk.read path = .ok content) :
    ∃ name, Path.fileName? path = some name := by
  obtain ⟨place, hplace, hnode⟩ := exists_placeToWrite_of_read hread
  have hne : place ≠ [] := ne_nil_of_node?_ne (by rw [hnode]; exact nofun)
  rw [← getLast?_of_placeToWrite hplace]
  exact ⟨place.getLast hne, List.getLast?_eq_some_getLast hne⟩

end Disk

/-! ## Outputs -/

/-- Outputs are the names of the inputs in the directory, none of them taken. -/
theorem outputPathsBeside_eq_ok {directory : Path} {taken : List (Path × Path)}
    {inputs outputs : List Path}
    (houtputs : outputPathsBeside taken directory inputs = .ok outputs) :
    outputs = inputs.map (fun input => Path.join directory (outputName input)) ∧
      (inputs.map outputName).Nodup ∧
      ∀ input ∈ inputs, taken.lookup (outputName input) = none := by
  induction inputs generalizing taken outputs with
  | nil =>
    cases houtputs
    exact ⟨rfl, List.nodup_nil, List.forall_mem_nil _⟩
  | cons input more ih =>
    rw [outputPathsBeside] at houtputs
    cases htaken : taken.lookup (outputName input) with
    | some first =>
      rw [htaken] at houtputs
      cases houtputs
    | none =>
      rw [htaken] at houtputs
      cases hmore : outputPathsBeside ((outputName input, input) :: taken) directory more with
      | error clash =>
        rw [hmore] at houtputs
        cases houtputs
      | ok others =>
        rw [hmore] at houtputs
        cases houtputs
        obtain ⟨hothers, hnodup, hfree⟩ := ih hmore
        have hapart : ∀ other ∈ more, outputName other ≠ outputName input ∧
            taken.lookup (outputName other) = none := by
          intro other hother
          have hlookup := hfree other hother
          rw [List.lookup_cons] at hlookup
          split at hlookup
          · cases hlookup
          · next hne => exact ⟨beq_eq_false_iff_ne.mp hne, hlookup⟩
        refine ⟨by rw [hothers, List.map_cons], ?_, ?_⟩
        · rw [List.map_cons, List.nodup_cons]
          refine ⟨fun hmem => ?_, hnodup⟩
          obtain ⟨other, hother, hsame⟩ := List.mem_map.mp hmem
          exact (hapart other hother).1 hsame
        · exact List.forall_mem_cons.mpr ⟨htaken, fun other hother => (hapart other hother).2⟩

/-- Outputs stand in the directory under the names of their inputs, which are all different. -/
theorem outputPaths_eq_ok {directory : Path} {inputs outputs : List Path}
    (houtputs : outputPaths directory inputs = .ok outputs) :
    outputs = inputs.map (fun input => Path.join directory (outputName input)) ∧
      (inputs.map outputName).Nodup := by
  obtain ⟨hjoined, hnodup, -⟩ := outputPathsBeside_eq_ok houtputs
  exact ⟨hjoined, hnodup⟩

/-- There is an output for each input. -/
theorem length_of_outputPaths {directory : Path} {inputs outputs : List Path}
    (houtputs : outputPaths directory inputs = .ok outputs) : outputs.length = inputs.length := by
  rw [(outputPaths_eq_ok houtputs).1, List.length_map]

/-- Behind a clash stands an input whose name is taken. In front of it no name was taken: the
outputs of the inputs there are given. -/
theorem exists_split_of_outputPathsBeside {directory : Path} {taken : List (Path × Path)}
    {inputs : List Path} {clash : NameClash}
    (hclash : outputPathsBeside taken directory inputs = .error clash) :
    ∃ before after outputs first second, inputs = before ++ second :: after ∧
      outputPathsBeside taken directory before = .ok outputs ∧
      clash = .ofPaths (outputName second) first second ∧
      (first ∈ before ∧ outputName first = outputName second ∨
        taken.lookup (outputName second) = some first) := by
  induction inputs generalizing taken with
  | nil => cases hclash
  | cons input more ih =>
    rw [outputPathsBeside] at hclash
    cases htaken : taken.lookup (outputName input) with
    | some first =>
      rw [htaken] at hclash
      cases hclash
      exact ⟨[], more, [], first, input, rfl, rfl, rfl, .inr htaken⟩
    | none =>
      rw [htaken] at hclash
      cases hmore : outputPathsBeside ((outputName input, input) :: taken) directory more with
      | ok others =>
        rw [hmore] at hclash
        cases hclash
      | error clash' =>
        rw [hmore] at hclash
        cases hclash
        obtain ⟨before, after, outputs, first, second, rfl, hbefore, hclash, hfirst⟩ := ih hmore
        refine ⟨input :: before, after, Path.join directory (outputName input) :: outputs, first,
          second, rfl, ?_, hclash, ?_⟩
        · rw [outputPathsBeside, htaken, hbefore]
          rfl
        · rcases hfirst with ⟨hmem, hname⟩ | hlookup
          · exact .inl ⟨List.mem_cons_of_mem input hmem, hname⟩
          · rw [List.lookup_cons] at hlookup
            split at hlookup
            · next hsame =>
              cases hlookup
              exact .inl ⟨List.mem_cons_self, (beq_iff_eq.mp hsame).symm⟩
            · exact .inr hlookup

/-- A clash tells of two inputs, one behind the other, that have one name. -/
inductive NameClash.IsAmong (inputs : List Path) : NameClash → Prop where
  | of {first second : Path} (hsublist : [first, second].Sublist inputs)
      (hname : outputName first = outputName second) :
      IsAmong inputs (.ofPaths (outputName second) first second)

/-- Names that clash are those of two inputs. -/
theorem isAmong_of_outputPaths {directory : Path} {inputs : List Path} {clash : NameClash}
    (hclash : outputPaths directory inputs = .error clash) : clash.IsAmong inputs := by
  obtain ⟨before, after, outputs, first, second, rfl, -, rfl, hfirst⟩ :=
    exists_split_of_outputPathsBeside hclash
  obtain ⟨hmem, hname⟩ := hfirst.resolve_right nofun
  refine .of ?_ hname
  exact (List.singleton_sublist.mpr hmem).append (List.singleton_sublist.mpr List.mem_cons_self)

/-- There are outputs if no two inputs have one name. -/
theorem outputPaths_eq {directory : Path} {inputs : List Path}
    (hnames : (inputs.map outputName).Nodup) :
    outputPaths directory inputs =
      .ok (inputs.map fun input => Path.join directory (outputName input)) := by
  cases houtputs : outputPaths directory inputs with
  | ok outputs => rw [(outputPaths_eq_ok houtputs).1]
  | error clash =>
    obtain ⟨hsublist, hname⟩ := isAmong_of_outputPaths houtputs
    have hnodup := hnames.sublist (hsublist.map outputName)
    rw [List.map_cons, List.map_singleton, hname] at hnodup
    exact absurd List.mem_cons_self (List.nodup_cons.mp hnodup).1

end PlainSync
