import Mathlib.Data.List.Nodup
import Mathlib.Data.List.Perm.Subperm
import PlainSync.Proofs.Command.Batches
import PlainSync.Proofs.Command.Texts

/-!
# Normalizing as one session

Normalizing inputs into a directory is one session over the contents that the inputs had before the
command, also if outputs take the places of inputs. What the command writes beside the outputs are
its report, its index and its log.
-/

namespace PlainSync

open PlainSync.Action
open Disk (SameBut SameDirectories)

namespace Disk

variable {disk disk' : Disk} {place : Location}

/-- Two paths do not lead to one file. -/
def Apart (disk : Disk) (first second : Path) : Prop :=
  ∀ place, disk.placeToWrite first = .ok place → disk.placeToWrite second ≠ .ok place

/-- Paths are apart either way. -/
theorem Apart.symm {first second : Path} (h : disk.Apart first second) :
    disk.Apart second first :=
  fun place hsecond hfirst => h place hfirst hsecond

/-- Paths are apart where the directories are the same. -/
theorem Apart.congr {first second : Path} (h : disk.Apart first second)
    (hsame : SameDirectories disk disk') : disk'.Apart first second :=
  fun place hfirst hsecond => h place (placeToWrite_eq_ok hsame.symm hfirst)
    (placeToWrite_eq_ok hsame.symm hsecond)

instance (disk : Disk) (first second : Path) : Decidable (disk.Apart first second) :=
  decidable_of_iff
    (∀ place ∈ (disk.placeToWrite first).toOption, disk.placeToWrite second ≠ .ok place) <| by
    unfold Apart
    cases disk.placeToWrite first with
    | error error => exact iff_of_true nofun nofun
    | ok place => simp [Except.toOption]

/-- The files that a command writes for itself are different from each other and from the files
that it is given. -/
structure KeepsApart (disk : Disk) (own given : List Path) : Prop where
  among : own.Pairwise disk.Apart
  fromGiven : ∀ path ∈ own, ∀ other ∈ given, disk.Apart path other

instance (disk : Disk) (own given : List Path) : Decidable (disk.KeepsApart own given) :=
  decidable_of_iff
    (own.Pairwise disk.Apart ∧ ∀ path ∈ own, ∀ other ∈ given, disk.Apart path other)
    ⟨fun h => ⟨h.1, h.2⟩, fun h => ⟨h.among, h.fromGiven⟩⟩

/-! ## Writing to paths -/

/-- What is read from a path is still read from it if no other path leads there. -/
theorem SameButAt.read {paths : List Path} (h : SameButAt paths disk disk') {path : Path}
    {content : Bytes}
    (hread : disk.read path = .ok content) (hapart : ∀ other ∈ paths, disk.Apart other path) :
    disk'.read path = .ok content := by
  obtain ⟨place, hplace, hnode⟩ := exists_placeToWrite_of_read hread
  refine read_of_placeToWrite (placeToWrite_eq_ok h.toSameDirectories hplace) ?_
  rw [h.others place fun other hother hlead => hapart other hother place hlead hplace, hnode]

/-- A file that is asked for is written at its path. -/
theorem sameButAt_of_writeIfGiven {path : Option Path} {content : Bytes}
    (hwrite : disk.writeIfGiven path content = .ok disk') :
    SameButAt path.toList disk disk' := by
  refine ⟨sameDirectories_of_writeIfGiven hwrite, fun place hplace => ?_⟩
  cases path with
  | none =>
    cases hwrite
    rfl
  | some path => exact node?_of_write_of_ne hwrite (hplace path List.mem_cons_self)

/-- What was written to a path is read from it. -/
theorem read_of_writeIfGiven {path : Option Path} {content : Bytes}
    (hwrite : disk.writeIfGiven path content = .ok disk') {given : Path}
    (hgiven : given ∈ path) : disk'.read given = .ok content := by
  cases hgiven
  obtain ⟨place, hplace, -, -⟩ := exists_of_write hwrite
  exact read_of_placeToWrite (placeToWrite_eq_ok (sameDirectories_of_write hwrite) hplace)
    (node?_of_write hwrite hplace)

end Disk

namespace LogAt

variable {disk : Disk} {log : Option Path} {logPlace : Option Location}

/-- A log is still found on the disk with the directory for the outputs. -/
theorem exists_placeToWrite (hlog : LogAt disk log logPlace) (directory : Path) {path : Path}
    (hpath : log = some path) :
    ∃ place, logPlace = some place ∧
      (disk.readyFor log directory).placeToWrite path = .ok place := by
  cases hlog with
  | absent => cases hpath
  | @present path' place hplace =>
    cases hpath
    obtain ⟨-, -, -, -, -, hnode⟩ := Disk.exists_of_placeToWrite hplace
    have hmade := Disk.gotDirectories_makeDirectories (disk.withLog (some path)) directory
    refine ⟨place, rfl, Disk.placeToWrite_of_keeps ?_ hplace ?_⟩
    · rw [Disk.withLog_some hplace] at hmade
      rw [Disk.readyFor, Disk.withLog_some hplace]
      exact (Disk.sameDirectories_put [] hnode).keeps.trans hmade.keeps
    · have hempty : (disk.withLog (some path)).node? place = some (.file []) := by
        rw [Disk.withLog_some hplace]
        exact Disk.node?_put_self disk _ (Disk.ne_nil_of_node?_ne hnode)
      rw [Disk.readyFor, (hmade.file_iff place []).mpr hempty]
      simp

/-- The log does not stand where its path does not lead. -/
theorem ne_logPlace (hlog : LogAt disk log logPlace) {directory : Path} {place : Location}
    (hplace : ∀ own ∈ log, (disk.readyFor log directory).placeToWrite own ≠ .ok place) :
    some place ≠ logPlace := by
  rintro rfl
  cases hlog with
  | @present own place' hown =>
    obtain ⟨other, hother, hready⟩ := (LogAt.present hown).exists_placeToWrite directory rfl
    cases hother
    exact hplace own rfl hready

/-- Writing to the log changes no other file. -/
theorem sameButAt (hlog : LogAt disk log logPlace) {directory : Path} {before after : Disk}
    (hsame : SameDirectories (disk.readyFor log directory) before)
    (hafter : SameBut logPlace before after) : Disk.SameButAt log.toList before after := by
  refine ⟨hafter.toSameDirectories, fun place hplace => hafter.others place ?_⟩
  exact hlog.ne_logPlace fun own hown hlead =>
    hplace own (Option.mem_toList.mpr hown) (Disk.placeToWrite_eq_ok hsame hlead)

/-- What is apart from the log does not lead to where it stands. -/
theorem spares (hlog : LogAt disk log logPlace) {directory path : Path}
    (hpath : ∀ own ∈ log, (disk.readyFor log directory).Apart own path) :
    (disk.readyFor log directory).Spares logPlace path :=
  fun place hplace => hlog.ne_logPlace fun own hown hlead => hpath own hown place hlead hplace

end LogAt

/-! ## Names -/

namespace SessionOn

variable {disk disk' : Disk} {session : Session} {files : List (Path × Path)}
  {sources : List Bytes}

/-- A session writes its outputs only. -/
theorem sameButAt (h : SessionOn disk session files sources disk') :
    Disk.SameButAt (files.map Prod.snd) disk disk' :=
  ⟨h.sameDirectories, fun _ hplace => h.node?_eq fun file hfile =>
    hplace file.2 (List.mem_map_of_mem hfile)⟩

/-- Every input of a session has a file name. -/
theorem exists_fileName? (h : SessionOn disk session files sources disk') :
    ∀ file ∈ files, ∃ name, Path.fileName? file.1 = some name := by
  induction h with
  | nil disk session => exact List.forall_mem_nil _
  | cons hread hwrite hmore ih =>
    exact List.forall_mem_cons.mpr ⟨Disk.exists_fileName?_of_read hread, ih⟩

end SessionOn

/-- Inputs with file names keep them in their outputs, and have different ones. -/
theorem keepNames_of_outputPaths {directory : Path} {inputs outputs : List Path}
    (houtputs : outputPaths directory inputs = .ok outputs)
    (hinputs : ∀ input ∈ inputs, ∃ name, Path.fileName? input = some name) :
    KeepNames (inputs.zip outputs) := by
  obtain ⟨rfl, hnodup⟩ := outputPaths_eq_ok houtputs
  have hname : ∀ input ∈ inputs, Path.fileName? input = some (outputName input) := by
    intro input hinput
    obtain ⟨name, hname⟩ := hinputs input hinput
    rw [outputName, hname]
    rfl
  have hzip : inputs.zip (inputs.map fun input => Path.join directory (outputName input)) =
      inputs.map fun input => (input, Path.join directory (outputName input)) := by
    have hmaps : (inputs.map id).zip (inputs.map fun input =>
        Path.join directory (outputName input)) =
      inputs.map fun input => (id input, Path.join directory (outputName input)) := List.zip_map'
    rwa [List.map_id] at hmaps
  rw [hzip]
  constructor
  · intro file hfile
    obtain ⟨input, hinput, rfl⟩ := List.mem_map.mp hfile
    have hfile := hname input hinput
    exact (Path.fileName?_join directory (Path.isFileName_of_fileName? hfile)).trans hfile.symm
  · have hnames : inputs.map Path.fileName? = (inputs.map outputName).map some := by
      rw [List.map_map]
      exact List.map_congr_left hname
    rw [List.map_map]
    exact hnames ▸ hnodup.map fun _ _ => Option.some.inj

/-- The inputs of a session keep their names in their outputs. -/
theorem SessionOn.keepNames {disk disk' : Disk} {session : Session} {sources : List Bytes}
    {directory : Path} {inputs outputs : List Path}
    (h : SessionOn disk session (inputs.zip outputs) sources disk')
    (houtputs : outputPaths directory inputs = .ok outputs) : KeepNames (inputs.zip outputs) := by
  refine keepNames_of_outputPaths houtputs fun input hinput => ?_
  rw [← List.map_fst_zip (Nat.le_of_eq (length_of_outputPaths houtputs).symm)] at hinput
  obtain ⟨file, hfile, rfl⟩ := List.mem_map.mp hinput
  exact h.exists_fileName? file hfile

/-- The outputs of a session have its texts, also behind what is written apart from them. -/
theorem SessionOn.outputs_written {disk disk' finish : Disk} {session : Session}
    {files : List (Path × Path)} {sources : List Bytes} {own : List Path}
    (h : SessionOn disk session files sources disk') (hnames : KeepNames files)
    (hfinish : Disk.SameButAt own disk' finish)
    (hapart : ∀ path ∈ own, ∀ file ∈ files, disk.Apart path file.2) :
    List.Forall₂ (fun output (normalized : Normalized) =>
      finish.read output = .ok normalized.text) (files.map Prod.snd)
      (session.normalizeAll sources).1 := by
  rw [List.forall₂_map_left_iff]
  refine ((List.forall₂_and_left _ _).mpr ⟨fun file hfile => hfile, h.writes hnames⟩).imp ?_
  rintro file written ⟨hfile, place, hplace, hnode⟩
  have hread :=
    Disk.read_of_placeToWrite (Disk.placeToWrite_eq_ok h.sameDirectories hplace) hnode
  exact hfinish.read hread fun path hpath => (hapart path hpath file hfile).congr h.sameDirectories

/-! ## What is left on the disk -/

/-- The members for normalized sources in a report: the inputs, as they are shown, with what was
reported of them. -/
def reportMembers (inputs : List Path) (texts : List Normalized) : List (String × Json) :=
  (inputReports inputs texts).map fun entry => (entry.1, entry.2.json)

/-- An object reports normalized sources: it has one member for each text that shows an input, with
the report of the last input that is shown so. -/
structure ReportsInputs (inputs : List Path) (texts : List Normalized)
    (members : List (String × Json)) : Prop where
  nodup : (members.map Prod.fst).Nodup
  last : ∀ name, (Json.object members).get? name =
    (Json.object (reportMembers inputs texts).reverse).get? name
  /-- It has one member for each input if all are shown in different ways. -/
  perm : (inputs.map Bytes.display).Nodup → members.Perm (reportMembers inputs texts)

/-- A disk on which inputs were normalized as one session, and the disk from which this began. Paths
lead where they did once the directory for the outputs was `ready`. -/
structure LeavesSession (start ready finish : Disk) (runId generated : String)
    (inputs outputs : List Path) (log report artifactIndex : Option Path)
    (sources : List Bytes) (texts : List Normalized) : Prop where
  /-- The sources stood at the inputs when the command began. -/
  originals : List.Forall₂ (fun input source => ∃ place,
    ready.placeToWrite input = .ok place ∧ start.node? place = some (.file source)) inputs sources
  /-- Each output has its text of the session. -/
  written : List.Forall₂ (fun output (normalized : Normalized) =>
    finish.read output = .ok normalized.text) outputs texts
  /-- The report is an object that reports the inputs, and is read back as this. -/
  reported : ∀ path ∈ report, ∃ members,
    finish.read path = .ok (Bytes.ofString (Json.object members).pretty) ∧
    (start.Fits → finish.ReadsJson path (.object members)) ∧
    ReportsInputs inputs texts members
  /-- The index lists the outputs, in order, and the report, as they are on the disk, and is read
  back as it was written. -/
  indexed : ∀ path ∈ artifactIndex, ∃ artifacts,
    finish.read path = .ok (Bytes.ofString (ArtifactIndex.toJson ⟨runId, generated, artifacts⟩)) ∧
    (finish.Fits →
      finish.ReadsJson path (ArtifactIndex.json ⟨runId, generated, artifacts⟩).normal) ∧
    List.Forall₂ (fun artifact (file : Path × String) => ∃ content,
      finish.read file.1 = .ok content ∧
        artifact = .ofBytes file.1.display file.2 content) artifacts
      (outputs.map (fun output => (output, "rewritten_source")) ++
        report.toList.map fun path => (path, "rewrite_report"))
  /-- No other file changed. -/
  unchanged : ∀ place content,
    (∀ path ∈ outputs ++ (report.toList ++ (artifactIndex.toList ++ log.toList)),
      ready.placeToWrite path ≠ .ok place) →
    (finish.node? place = some (.file content) ↔ start.node? place = some (.file content))

/-- The text of a report is that of an object that reports the inputs. -/
theorem exists_reportsText_eq {inputs : List Path} {texts : List Normalized}
    (hlength : inputs.length = texts.length) :
    ∃ members, RunM.reportsText (inputReports inputs texts) = (Json.object members).pretty ∧
      Json.sorted (reportMembers inputs texts) = .object members ∧
      ReportsInputs inputs texts members := by
  have hnames : (reportMembers inputs texts).map Prod.fst = inputs.map Bytes.display := by
    have hfirst : (reportMembers inputs texts).map Prod.fst =
        ((inputs.zip texts).map Prod.fst).map Bytes.display := by
      simp only [reportMembers, inputReports, List.map_map, Function.comp_def]
    rw [hfirst, List.map_fst_zip (Nat.le_of_eq hlength)]
  obtain ⟨members, hsorted, hnodup, hlast, hperm⟩ :=
    Json.exists_sorted_eq (reportMembers inputs texts)
  refine ⟨members, ?_, hsorted, hnodup, hlast, hnames ▸ hperm⟩
  rw [← hsorted]
  rfl

/-- A report is read back if the reports in it are. -/
theorem readsBackIn_reportMembers {inputs : List Path} {texts : List Normalized}
    (htexts : ∀ normalized ∈ texts, normalized.report.json.ReadsBackIn 4) :
    (Json.sorted (reportMembers inputs texts)).ReadsBackIn 5 := by
  refine .sorted fun member hmember => ?_
  simp only [reportMembers, inputReports, List.map_map] at hmember
  obtain ⟨input, hinput, rfl⟩ := List.mem_map.mp hmember
  exact htexts input.2 (List.of_mem_zip hinput).2

/-- The artifacts of outputs tell what stands in them. -/
theorem forall₂_outputArtifacts {disk : Disk} {outputs : List Path} {texts : List Normalized}
    (h : List.Forall₂ (fun output (normalized : Normalized) =>
      disk.read output = .ok normalized.text) outputs texts) :
    List.Forall₂ (fun artifact (file : Path × String) => ∃ content,
      disk.read file.1 = .ok content ∧ artifact = .ofBytes file.1.display file.2 content)
      (outputArtifacts outputs texts)
      (outputs.map fun output => (output, "rewritten_source")) := by
  induction h with
  | nil => exact .nil
  | cons hread hmore ih => exact .cons ⟨_, hread, rfl⟩ ih

/-- The artifact of a report tells what stands in it. -/
theorem forall₂_reportArtifacts {disk : Disk} {report : Option Path} {content : Bytes}
    (h : ∀ path ∈ report, disk.read path = .ok content) :
    List.Forall₂ (fun artifact (file : Path × String) => ∃ content,
      disk.read file.1 = .ok content ∧ artifact = .ofBytes file.1.display file.2 content)
      (reportArtifacts report content)
      (report.toList.map fun path => (path, "rewrite_report")) := by
  cases report with
  | none => exact .nil
  | some path => exact .cons ⟨content, h path rfl, rfl⟩ .nil

/-- The artifacts of files tell of contents that can be read. -/
theorem exists_read_of_artifacts {disk : Disk} {artifacts : List Artifact}
    {listed : List (Path × String)}
    (h : List.Forall₂ (fun artifact (file : Path × String) => ∃ content,
      disk.read file.1 = .ok content ∧ artifact = .ofBytes file.1.display file.2 content)
      artifacts listed) :
    ∀ artifact ∈ artifacts, ∃ path content, disk.read path = .ok content ∧
      artifact.size = content.length := by
  induction h with
  | nil => exact List.forall_mem_nil _
  | @cons artifact file artifacts listed hfirst hmore ih =>
    obtain ⟨content, hread, rfl⟩ := hfirst
    exact List.forall_mem_cons.mpr ⟨⟨file.1, content, hread, rfl⟩, ih⟩

/-- An index of files on a disk that fits is read back. -/
theorem readsJson_index {disk : Disk} {path : Path} {index : ArtifactIndex}
    (hread : disk.read path = .ok (Bytes.ofString index.toJson)) (hfits : disk.Fits)
    (hartifacts : ∀ artifact ∈ index.artifacts, ∃ path content, disk.read path = .ok content ∧
      artifact.size = content.length) : disk.ReadsJson path index.json.normal := by
  refine Disk.readsJson_normal hread (ArtifactIndex.isExact_json ?_) index.depth_json_le
  intro artifact hartifact
  obtain ⟨other, content, hother, hsize⟩ := hartifacts artifact hartifact
  obtain ⟨place, -, hnode⟩ := Disk.exists_placeToWrite_of_read hother
  rw [hsize]
  exact Nat.lt_trans (hfits place content hnode) (by decide)

/-- The sources of a session on a disk stood there before the log was begun, if no input leads to
the log. -/
theorem LogAt.originals {start disk' : Disk} {session : Session} {log : Option Path}
    {logPlace : Option Location} (hlog : LogAt start log logPlace) {directory : Path}
    {files : List (Path × Path)} {sources : List Bytes}
    (hfiles : SessionOn (start.readyFor log directory) session files sources disk')
    (hnames : KeepNames files)
    (hapart : ∀ own ∈ log, ∀ file ∈ files, (start.readyFor log directory).Apart own file.1) :
    List.Forall₂ (fun file source => ∃ place,
      (start.readyFor log directory).placeToWrite file.1 = .ok place ∧
        start.node? place = some (.file source)) files sources := by
  refine ((List.forall₂_and_left _ _).mpr ⟨fun file hfile => hfile, hfiles.reads hnames⟩).imp ?_
  rintro file source ⟨hfile, place, hplace, hnode⟩
  have hlogPlace : some place ≠ logPlace := hlog.ne_logPlace fun own hown hlead =>
    hapart own hown file hfile place hlead hplace
  exact ⟨place, hplace, (hlog.file_iff directory hlogPlace source).mp hnode⟩

/-- Sources that stood at inputs stood somewhere on the disk. -/
theorem exists_node?_of_originals {start ready : Disk} {inputs : List Path} {sources : List Bytes}
    (h : List.Forall₂ (fun input source => ∃ place, ready.placeToWrite input = .ok place ∧
      start.node? place = some (.file source)) inputs sources) :
    ∀ source ∈ sources, ∃ place, start.node? place = some (.file source) := by
  induction h with
  | nil => exact List.forall_mem_nil _
  | cons hfirst hmore ih =>
    obtain ⟨place, -, hnode⟩ := hfirst
    exact List.forall_mem_cons.mpr ⟨⟨place, hnode⟩, ih⟩

/-- What normalizing leaves on a disk if the files that the command writes for itself are apart from
all others. -/
theorem CommandOn.leavesSession {start disk' finish : Disk} {config : Config}
    {runId generated : String} {directory : Path} {inputs outputs : List Path}
    {log report artifactIndex : Option Path} {logPlace : Option Location} {sources : List Bytes}
    (hlog : LogAt start log logPlace) (houtputs : outputPaths directory inputs = .ok outputs)
    (hcommand : CommandOn (start.readyFor log directory) { config := config }
      { runId := runId, generated := generated } inputs outputs report artifactIndex sources disk')
    (hfinish : SameBut logPlace disk' finish)
    (hapart : (start.readyFor log directory).KeepsApart
      (report.toList ++ (artifactIndex.toList ++ log.toList)) (inputs ++ outputs)) :
    LeavesSession start (start.readyFor log directory) finish runId generated inputs outputs log
      report artifactIndex sources (Session.normalizeAll { config := config } sources).1 := by
  obtain ⟨hfiles, rfl, rfl, hreport, hindex⟩ := hcommand
  rename_i normalized reported
  have hlength := length_of_outputPaths houtputs
  have hfst := List.map_fst_zip (Nat.le_of_eq hlength.symm)
  have hsnd := List.map_snd_zip (Nat.le_of_eq hlength)
  have hnames := hfiles.keepNames houtputs
  -- What each step changes, from the last one back.
  have hsame := hfiles.sameDirectories
  have hsame' := hsame.trans (Disk.sameDirectories_of_writeIfGiven hreport)
  have hlogOn := hlog.sameButAt (hsame'.trans (Disk.sameDirectories_of_writeIfGiven hindex)) hfinish
  have hindexOn := (Disk.sameButAt_of_writeIfGiven hindex).trans hlogOn
  have hreportOn := (Disk.sameButAt_of_writeIfGiven hreport).trans hindexOn
  have hfilesOn := hfiles.sameButAt.trans hreportOn
  rw [hsnd] at hfilesOn
  obtain ⟨-, hlater, hafterReport⟩ := List.pairwise_append.mp hapart.among
  obtain ⟨-, -, hafterIndex⟩ := List.pairwise_append.mp hlater
  have hwritten : List.Forall₂ (fun output (normalized : Normalized) =>
      finish.read output = .ok normalized.text) outputs
      (Session.normalizeAll { config := config } sources).1 := by
    rw [← hsnd]
    exact hfiles.outputs_written hnames hreportOn fun own hown file hfile =>
      hapart.fromGiven own hown file.2 (List.mem_append_right inputs (List.of_mem_zip hfile).2)
  have hreported : ∀ path ∈ report, finish.read path = .ok (Bytes.ofString
      (RunM.reportsText (inputReports inputs
        (Session.normalizeAll { config := config } sources).1))) := by
    intro path hpath
    refine hindexOn.read (Disk.read_of_writeIfGiven hreport hpath) fun other hother => ?_
    exact (hafterReport path (Option.mem_toList.mpr hpath) other hother).symm.congr hsame'
  have horiginals : List.Forall₂ (fun input source => ∃ place,
      (start.readyFor log directory).placeToWrite input = .ok place ∧
        start.node? place = some (.file source)) inputs sources := by
    have hall := hlog.originals hfiles hnames fun own hown file hfile =>
      hapart.fromGiven own (by simp [Option.mem_def.mp hown]) file.1
        (List.mem_append_left outputs (List.of_mem_zip hfile).1)
    rw [← hfst, List.forall₂_map_left_iff]
    exact hall
  exact {
    originals := horiginals
    written := hwritten
    reported := by
      intro path hpath
      obtain ⟨members, htext, hsorted, hmembers⟩ :=
        exists_reportsText_eq (hlength.symm.trans hwritten.length_eq)
      have hread := htext ▸ hreported path hpath
      refine ⟨members, hread, fun hfits => ?_, hmembers⟩
      have htexts := Session.readsBackIn_reports (fun source hsource => by
        obtain ⟨place, hnode⟩ := exists_node?_of_originals horiginals source hsource
        exact hfits place source hnode) { config := config }
      exact Disk.readsJson hread (hsorted ▸ readsBackIn_reportMembers htexts) (by decide)
    indexed := by
      intro path hpath
      have hread := hlogOn.read (Disk.read_of_writeIfGiven hindex hpath) fun other hother =>
        (hafterIndex path (Option.mem_toList.mpr hpath) other hother).symm.congr
          (hsame'.trans (Disk.sameDirectories_of_writeIfGiven hindex))
      have hlisted := List.rel_append (forall₂_outputArtifacts hwritten)
        (forall₂_reportArtifacts hreported)
      exact ⟨_, hread, fun hfits => readsJson_index hread hfits (exists_read_of_artifacts hlisted),
        hlisted⟩
    unchanged := by
      intro place content hplace
      have hlogPlace : some place ≠ logPlace := hlog.ne_logPlace fun own hown =>
        hplace own (by simp [Option.mem_def.mp hown])
      rw [hfilesOn.others place hplace, hlog.file_iff directory hlogPlace] }

/-- The work of a command spares its log if the files that it writes for itself are apart from all
others. -/
theorem LogAt.spares_of_keepsApart {disk : Disk} {log : Option Path} {logPlace : Option Location}
    (hlog : LogAt disk log logPlace) {directory : Path} {inputs outputs : List Path}
    {report artifactIndex : Option Path}
    (hapart : (disk.readyFor log directory).KeepsApart
      (report.toList ++ (artifactIndex.toList ++ log.toList)) (inputs ++ outputs)) :
    ∀ path ∈ inputs ++ outputs, (disk.readyFor log directory).Spares logPlace path :=
  fun path hpath => hlog.spares fun own hown =>
    hapart.fromGiven own (by simp [Option.mem_def.mp hown]) path hpath

/-- A command that normalizes inputs into a directory and succeeds is one session over the
contents that the inputs had before it. -/
theorem Command.run_normalize_leavesSession {configPath log report artifactIndex : Option Path}
    {runId : String} {directory : Path} {inputs : List Path} {environment : Environment}
    {world world' : World}
    (hrun : (Command.run
      ⟨configPath, log, runId, .normalize inputs (some directory) report artifactIndex⟩
      environment : WorldM _) world = (.ok (), world'))
    (hapart : ∀ outputs, outputPaths directory inputs = .ok outputs →
      (world.disk.readyFor log directory).KeepsApart
        (report.toList ++ (artifactIndex.toList ++ log.toList)) (inputs ++ outputs)) :
    ∃ config outputs sources,
      (loadConfig configPath (.ofEnvironment environment) : WorldM _) world =
        (.ok config, world) ∧
      outputPaths directory inputs = .ok outputs ∧
      LeavesSession world.disk (world.disk.readyFor log directory) world'.disk runId
        (world.clock world.looks).text inputs outputs log report artifactIndex sources
        (Session.normalizeAll { config := config } sources).1 := by
  obtain ⟨config, logPlace, outputs, sources, disk', hload, hlog, houtputs, hcommand, hsame⟩ :=
    exists_commandOn hrun fun logPlace outputs hlog houtputs =>
      hlog.spares_of_keepsApart (hapart outputs houtputs)
  exact ⟨config, outputs, sources, hload, houtputs,
    hcommand.leavesSession hlog houtputs hsame (hapart outputs houtputs)⟩

open scoped PlainSync.Path in
/-- A machine with two sources in a directory. -/
def World.twoSources : World :=
  { disk :=
      { nodes :=
          [(["d"], .directory),
            (["d", "a.c"], .file (Bytes.ofString "__sync_fetch_and_add(&a, 1);")),
            (["d", "b.c"], .file (Bytes.ofString "__sync_fetch_and_or(&b, 1);"))] } }

open scoped PlainSync.Path in
/-- The outputs take the places of the two inputs, and the report of both is read back. -/
theorem Command.run_normalize_inPlace : ∃ world' config sources members,
    (Command.run ⟨none, none, "local",
      .normalize ["d/a.c", "d/b.c"] (some "d") (some "report.json") (some "index.json")⟩ {} :
      WorldM _) World.twoSources = (.ok (), world') ∧
    LeavesSession World.twoSources.disk (World.twoSources.disk.readyFor none "d") world'.disk
      "local" (World.twoSources.clock World.twoSources.looks).text ["d/a.c", "d/b.c"]
      ["d/a.c", "d/b.c"] none (some "report.json") (some "index.json") sources
      (Session.normalizeAll { config := config } sources).1 ∧
    world'.disk.ReadsJson "report.json" (.object members) ∧ members.length = 2 := by
  have hoks : ((Command.run ⟨none, none, "local",
      .normalize ["d/a.c", "d/b.c"] (some "d") (some "report.json") (some "index.json")⟩ {} :
      WorldM _) World.twoSources).1 = .ok () := by decide +kernel
  have houtputs : outputPaths "d" ["d/a.c", "d/b.c"] = .ok ["d/a.c", "d/b.c"] := by
    decide +kernel
  obtain ⟨config, outputs, sources, -, houtputs', hleaves⟩ :=
    Command.run_normalize_leavesSession (Prod.ext hoks rfl) fun outputs houtputs' => by
      cases houtputs.symm.trans houtputs'
      decide +kernel
  cases houtputs.symm.trans houtputs'
  obtain ⟨members, -, hread, hmembers⟩ := hleaves.reported "report.json" rfl
  refine ⟨_, config, sources, members, Prod.ext hoks rfl, hleaves,
    hread (Disk.fits_of_nodes (by decide)), ?_⟩
  rw [(hmembers.perm (by decide +kernel)).length_eq, reportMembers, inputReports, List.map_map,
    List.length_map, List.length_zip, ← hleaves.written.length_eq]
  rfl

/-! ## Inputs that are shown alike, and a log over an input -/

/-- Every member of a report shows an input. -/
theorem ReportsInputs.names_subset {inputs : List Path} {texts : List Normalized}
    {members : List (String × Json)} (h : ReportsInputs inputs texts members) :
    members.map Prod.fst ⊆ inputs.map Bytes.display := by
  intro name hname
  have hsome := Json.isSome_get?_object.mpr hname
  rw [h.last] at hsome
  obtain ⟨member, hmember, rfl⟩ := List.mem_map.mp (Json.isSome_get?_object.mp hsome)
  obtain ⟨entry, hentry, rfl⟩ := List.mem_map.mp (List.mem_reverse.mp hmember)
  obtain ⟨input, hinput, rfl⟩ := List.mem_map.mp hentry
  exact List.mem_map_of_mem (List.of_mem_zip hinput).1

/-- Two names that are not UTF-8 and are shown alike. -/
def namesShownAlike : List Path := [0xfe :: Bytes.ofString ".c", 0xff :: Bytes.ofString ".c"]

/-- A machine with a source of each of these names. -/
def World.shownAlike : World :=
  { disk := { nodes := namesShownAlike.map fun name => ([name], .file []) } }

open scoped PlainSync.Path in
/-- Inputs that are shown alike have one member in a report. -/
theorem Command.exists_run_shownAlike : ∃ world' members,
    (Command.run ⟨none, none, "local",
      .normalize namesShownAlike (some "out") (some "report.json") none⟩ {} : WorldM _)
      World.shownAlike = (.ok (), world') ∧
    world'.disk.ReadsJson "report.json" (.object members) ∧
    members.length < namesShownAlike.length := by
  have hoks : ((Command.run ⟨none, none, "local",
      .normalize namesShownAlike (some "out") (some "report.json") none⟩ {} : WorldM _)
      World.shownAlike).1 = .ok () := by decide +kernel
  obtain ⟨config, logPlace, outputs, sources, disk', -, hlog, houtputs, hcommand, hsame⟩ :=
    exists_commandOn (Prod.ext hoks rfl) fun logPlace outputs hlog _ path _ => by
      cases hlog
      exact nofun
  have hapart : (World.shownAlike.disk.readyFor none "out").KeepsApart ["report.json"]
      (namesShownAlike ++ namesShownAlike.map (Path.join "out")) := by decide +kernel
  have houtputs' : outputPaths "out" namesShownAlike =
      .ok (namesShownAlike.map (Path.join "out")) := by decide +kernel
  cases houtputs'.symm.trans houtputs
  have hleaves := hcommand.leavesSession hlog houtputs hsame hapart
  obtain ⟨members, -, hread, hmembers⟩ := hleaves.reported "report.json" rfl
  refine ⟨_, members, Prod.ext hoks rfl, hread (Disk.fits_of_nodes (by decide)), ?_⟩
  have hnames : namesShownAlike.map Bytes.display ⊆ ["\uFFFD.c"] := by decide +kernel
  have hcount := (List.Nodup.subperm hmembers.nodup
    (List.Subset.trans hmembers.names_subset hnames)).length_le
  rw [List.length_map] at hcount
  exact Nat.lt_succ_of_le hcount

open scoped PlainSync.Path in
/-- The log is written over the only input, to which it leads on another path. -/
def Batch.logOverInput : Batch where
  log := some "./a.c"
  runId := "local"
  directory := "out"
  world :=
    { disk := { nodes := [(["a.c"], .file (Bytes.ofString "__sync_synchronize();"))] } }

open scoped PlainSync.Path in
/-- What stood at an input before the log is lost. -/
theorem Batch.exists_run_logOverInput : ∃ world',
    logOverInput.run ["a.c"] none none = (.ok (), world') ∧
    world'.disk.read "out/a.c" ≠ .ok (Session.normalize { config := {} }
      (Bytes.ofString "__sync_synchronize();")).1.text := by
  have hbegins : logOverInput.Begins (ProcessSettings.ofEnvironment {}).config (some ["a.c"]) :=
    ⟨rfl, .present (by decide +kernel)⟩
  have hmake : logOverInput.ready.disk.makeDirectories logOverInput.directory =
      (.ok (), logOverInput.world.disk.readyFor (some "./a.c") "out") := by decide +kernel
  have hread : (logOverInput.world.disk.readyFor (some "./a.c") "out").read "a.c" = .ok [] := by
    decide +kernel
  have houtput : (logOverInput.world.disk.readyFor (some "./a.c") "out").placeToWrite
      (logOverInput.output "a.c") = .ok ["out", "a.c"] := by decide +kernel
  obtain ⟨reports, run, world, line, hbehind, hdisk, hlog⟩ :=
    hbegins.exists_getsBehind_of_fits hmake hread (by decide) (by decide +kernel)
      (by decide +kernel) houtput rfl (fun _ => rfl) (by decide +kernel)
  obtain ⟨world', hrun, -, hsame⟩ := hbehind.exists_run_eq (by decide +kernel) hlog
  refine ⟨world', hrun, ?_⟩
  have hplace : world.disk.placeToWrite "out/a.c" = .ok ["out", "a.c"] := by
    rw [hdisk]
    decide +kernel
  have hnode : world'.disk.node? ["out", "a.c"] = some (.file []) := by
    rw [hsame.others _ (by decide +kernel), hdisk]
    decide +kernel
  rw [Disk.read_of_placeToWrite (Disk.placeToWrite_eq_ok hsame.toSameDirectories hplace) hnode]
  decide +kernel

open scoped PlainSync.Path in
/-- Inputs that are shown alike do not all have members in the report, and an input that the log is
written over is not normalized. -/
theorem Command.exists_run_notSession :
    (∃ world' members, (Command.run ⟨none, none, "local",
        .normalize namesShownAlike (some "out") (some "report.json") none⟩ {} : WorldM _)
        World.shownAlike = (.ok (), world') ∧
      world'.disk.ReadsJson "report.json" (.object members) ∧
      members.length < namesShownAlike.length) ∧
    ∃ world', Batch.logOverInput.run ["a.c"] none none = (.ok (), world') ∧
      world'.disk.read "out/a.c" ≠ .ok (Session.normalize { config := {} }
        (Bytes.ofString "__sync_synchronize();")).1.text :=
  ⟨exists_run_shownAlike, Batch.exists_run_logOverInput⟩

end PlainSync
