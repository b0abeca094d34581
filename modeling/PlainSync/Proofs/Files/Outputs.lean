import PlainSync.Proofs.Files.Names

/-!
# Outputs that overwrite nothing

The outputs of inputs with file names are different paths exactly if the file names differ, and none
of them is the path of another input. Otherwise the first input whose name is taken is reported,
with the one that took it.
-/

namespace PlainSync

namespace Path

/-! ## Equal paths -/

/-- The path leads from where it is looked up, and says so with a single dot in front. -/
def beginsWithDot (path : Path) : Bool :=
  !isAbsolute path && (names path).head? == some dot

/-- Two texts are one path: they lead from the same point through the same components. Slashes in
a row, a slash at the end and single dots behind the first component make no difference. -/
structure Same (first second : Path) : Prop where
  isAbsolute_eq : isAbsolute first = isAbsolute second
  beginsWithDot_eq : beginsWithDot first = beginsWithDot second
  components_eq : components first = components second

variable {first second : Path}

/-- Equal paths lead to one file name. -/
theorem Same.fileName?_eq (hsame : Same first second) : fileName? first = fileName? second := by
  unfold fileName?
  rw [hsame.components_eq]

/-- In one directory, different file names give different paths. -/
theorem not_same_join (directory : Path) (hfirst : IsFileName first)
    (hsecond : IsFileName second) (hne : first ≠ second) :
    ¬ Same (join directory first) (join directory second) := by
  intro hsame
  have hnames := hsame.fileName?_eq
  rw [fileName?_join directory hfirst, fileName?_join directory hsecond] at hnames
  exact hne (Option.some.inj hnames)

end Path

/-! ## File names -/

section Names

variable {inputs names : List Path}

/-- Inputs with file names are written under these. -/
theorem map_outputName_eq (hnames : inputs.map Path.fileName? = names.map some) :
    inputs.map outputName = names := by
  induction inputs generalizing names with
  | nil => exact (List.map_eq_nil_iff.mp hnames.symm).symm
  | cons input more ih =>
    obtain ⟨name, others, rfl, hname, hothers⟩ := List.map_eq_cons_iff.mp hnames.symm
    have hinput : outputName input = name := by rw [outputName, ← hname, Option.getD_some]
    rw [List.map_cons, hinput, ih hothers.symm]

/-- The names of the inputs are file names. -/
theorem isFileName_of_mem (hnames : inputs.map Path.fileName? = names.map some) {name : Path}
    (hname : name ∈ names) : Path.IsFileName name := by
  have hmem : some name ∈ inputs.map Path.fileName? := hnames ▸ List.mem_map_of_mem hname
  obtain ⟨input, -, hinput⟩ := List.mem_map.mp hmem
  exact Path.isFileName_of_fileName? hinput

/-- The outputs of inputs with these file names stand in the directory under the names, are
different paths, and none of them is the path of an input but, at most, its own. -/
structure WrittenApart (directory : Path) (inputs names outputs : List Path) : Prop where
  outputs_eq : outputs = names.map (Path.join directory)
  apart : outputs.Pairwise fun first second => ¬ Path.Same first second
  own : ∀ (i j : Nat) (output input : Path), outputs[i]? = some output →
    inputs[j]? = some input → Path.Same output input → i = j

/-- Different names in one directory are different outputs, and no output is another input. -/
theorem writtenApart_of_nodup (directory : Path)
    (hnames : inputs.map Path.fileName? = names.map some) (hnodup : names.Nodup) :
    WrittenApart directory inputs names (names.map (Path.join directory)) := by
  refine ⟨rfl, ?_, ?_⟩
  · refine List.pairwise_map.mpr (hnodup.imp_of_mem ?_)
    intro first second hfirst hsecond hne
    exact Path.not_same_join directory (isFileName_of_mem hnames hfirst)
      (isFileName_of_mem hnames hsecond) hne
  · intro i j output input houtput hinput hsame
    rw [List.getElem?_map, Option.map_eq_some_iff] at houtput
    obtain ⟨name, hname, rfl⟩ := houtput
    have hfile := isFileName_of_mem hnames (List.mem_of_getElem? hname)
    -- Both paths end in the name of the output's own input.
    have hother : names[j]?.map some = some (some name) := by
      rw [← List.getElem?_map, ← hnames, List.getElem?_map, hinput, Option.map_some,
        ← hsame.fileName?_eq, Path.fileName?_join directory hfile]
    have hequal : names[i]? = names[j]? := by
      obtain ⟨other, hother, hsome⟩ := Option.map_eq_some_iff.mp hother
      rw [hname, hother, Option.some.inj hsome]
    exact (List.getElem?_inj (List.getElem?_eq_some_iff.mp hname).1 hnodup).mp hequal

end Names

/-! ## Clashes -/

/-- The clash of the input at `index` with the one at `earlier`: no input in front of the one at
`index` has a name that occurred before, and of these only the one at `earlier` has its name. -/
structure NameClash.Reports (inputs names : List Path) (earlier index : Nat)
    (clash : NameClash) : Prop where
  exists_paths : ∃ name first second, clash = .ofPaths name first second ∧
    inputs[index]? = some second ∧ names[index]? = some name ∧
    inputs[earlier]? = some first ∧ names[earlier]? = some name
  fresh : (names.take index).Nodup
  lt : earlier < index
  unique : ∀ other < index, names[other]? = names[index]? → other = earlier

/-- A name clash tells the first input whose name another one has. -/
theorem exists_reports_of_outputPaths {directory : Path} {inputs : List Path}
    {clash : NameClash} (hclash : outputPaths directory inputs = .error clash) :
    ∃ earlier index, clash.Reports inputs (inputs.map outputName) earlier index := by
  obtain ⟨before, after, outputs, first, second, rfl, hbefore, rfl, hfirst⟩ :=
    exists_split_of_outputPathsBeside hclash
  obtain ⟨hmem, hname⟩ := hfirst.resolve_right nofun
  obtain ⟨-, hnodup, -⟩ := outputPathsBeside_eq_ok hbefore
  obtain ⟨earlier, hearlier⟩ := List.mem_iff_getElem?.mp hmem
  obtain ⟨hlt, -⟩ := List.getElem?_eq_some_iff.mp hearlier
  have hfront (other : Nat) (hother : other < before.length) :
      ((before ++ second :: after).map outputName)[other]? =
        (before.map outputName)[other]? := by
    rw [List.map_append]
    exact List.getElem?_append_left (by rwa [List.length_map])
  have hfound : (before.map outputName)[earlier]? = some (outputName second) := by
    rw [List.getElem?_map, hearlier, Option.map_some, hname]
  have hself : ((before ++ second :: after).map outputName)[before.length]? =
      some (outputName second) := by
    simp
  refine ⟨earlier, before.length, ⟨outputName second, first, second, rfl, ?_, hself, ?_, ?_⟩, ?_,
    hlt, ?_⟩
  · simp
  · rw [List.getElem?_append_left hlt, hearlier]
  · rw [hfront earlier hlt, hfound]
  · rwa [List.map_append, List.take_left' (List.length_map outputName)]
  · intro other hother hsame
    rw [hfront other hother, hself] at hsame
    exact (List.getElem?_inj (by rwa [List.length_map]) hnodup).mp (hsame.trans hfound.symm)

/-- Inputs with file names are given outputs exactly if no two of the names are the same. The
outputs are then the names put into the directory; they are different paths, and none of them is the
path of an input but, at most, its own. Otherwise the first input whose name occurred before is
reported, with the only input in front of it that has the name. -/
theorem outputPaths_overwritesNothing (directory : Path) {inputs names : List Path}
    (hnames : inputs.map Path.fileName? = names.map some) :
    ((∃ outputs, outputPaths directory inputs = .ok outputs) ↔ names.Nodup) ∧
    (∀ outputs, outputPaths directory inputs = .ok outputs →
      WrittenApart directory inputs names outputs) ∧
    ∀ clash, outputPaths directory inputs = .error clash →
      ∃ earlier index, clash.Reports inputs names earlier index := by
  have hwritten := map_outputName_eq hnames
  refine ⟨⟨?_, ?_⟩, ?_, ?_⟩
  · rintro ⟨outputs, houtputs⟩
    exact hwritten ▸ (outputPaths_eq_ok houtputs).2
  · intro hnodup
    exact ⟨_, outputPaths_eq (hwritten ▸ hnodup)⟩
  · intro outputs houtputs
    obtain ⟨hjoined, hnodup⟩ := outputPaths_eq_ok houtputs
    have houtputs : outputs = names.map (Path.join directory) := by
      rw [hjoined, ← hwritten, List.map_map]
      rfl
    rw [houtputs]
    exact writtenApart_of_nodup directory hnames (hwritten ▸ hnodup)
  · intro clash hclash
    exact hwritten ▸ exists_reports_of_outputPaths hclash

open scoped PlainSync.Path in
/-- In their own directory one of the inputs is overwritten by its output, and no other; and with
one more input of the same name nothing is written. -/
theorem outputPaths_ownDirectory :
    let inputs : List Path := ["./src/a.c", "src//b.c/", "/lib/c.c"]
    let names : List Path := ["a.c", "b.c", "c.c"]
    let clashing : List Path := inputs ++ [("lib/b.c" : Path)]
    let taken : List Path := names ++ [("b.c" : Path)]
    inputs.map Path.fileName? = names.map some ∧ names.Nodup ∧
      (∃ outputs, outputPaths "src" inputs = .ok outputs ∧
        WrittenApart "src" inputs names outputs) ∧
      clashing.map Path.fileName? = taken.map some ∧
      ∃ clash earlier index, outputPaths "src" clashing = .error clash ∧
        clash.Reports clashing taken earlier index := by
  intro inputs names clashing taken
  have hnames : inputs.map Path.fileName? = names.map some := by decide +kernel
  have hnodup : names.Nodup := by decide
  have htaken : clashing.map Path.fileName? = taken.map some := by decide +kernel
  obtain ⟨hiff, hwritten, -⟩ := outputPaths_overwritesNothing "src" hnames
  obtain ⟨outputs, houtputs⟩ := hiff.mpr hnodup
  refine ⟨hnames, hnodup, ⟨outputs, houtputs, hwritten outputs houtputs⟩, htaken, ?_⟩
  obtain ⟨-, -, hreports⟩ := outputPaths_overwritesNothing "src" htaken
  have hclash : outputPaths "src" clashing = .error (.ofPaths "b.c" "src//b.c/" "lib/b.c") := rfl
  obtain ⟨earlier, index, hreport⟩ := hreports _ hclash
  exact ⟨_, earlier, index, hclash, hreport⟩

end PlainSync
