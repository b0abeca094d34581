import PlainSync.Proofs.Command.Batches
import PlainSync.Proofs.Command.Texts

/-!
# Inputs that cannot be normalized

A command that normalizes inputs into a directory stops at the first input that fails. The outputs
of the inputs before that one are those of a command over these alone, and neither a report nor an
index is written. What may be lost is an output that something else is written over: the log of the
command, or a report or an index of the command over the inputs before.
-/

namespace PlainSync

open PlainSync.Action
open Disk (SameButAt)

namespace Batch

variable {batch : Batch} {config : Config} {logPlace : Option Location}

/-! ## Clashes -/

/-- Names that clash are refused before anything but the log is begun. -/
def RefusesClashes (batch : Batch) : Prop :=
  ∀ inputs report artifactIndex, ¬ (inputs.map outputName).Nodup →
    ∃ failure world', batch.run inputs report artifactIndex = (.error failure, world') ∧
      (world'.disk = batch.world.disk ∨ world'.disk = batch.world.disk.withLog batch.log) ∧
      ∀ config logPlace, batch.Begins config logPlace →
        ∃ clash, failure = .nameClash clash ∧ clash.IsAmong inputs

/-- Names that clash are refused before anything is done. -/
theorem refusesClashes (batch : Batch) : batch.RefusesClashes := by
  intro inputs report artifactIndex hclash
  cases houtputs : outputPaths batch.directory inputs with
  | ok outputs => exact absurd (outputPaths_eq_ok houtputs).2 hclash
  | error clash =>
    have hrun {config logPlace} (hbegins : batch.Begins config logPlace) :
        batch.run inputs report artifactIndex = (.error (.nameClash clash), batch.ready) := by
      rw [hbegins.run_eq, RunM.eval_normalizeCommand_clash houtputs]
      cases logPlace with
      | none => rfl
      | some place => rfl
    rcases batch.begins_or_error with ⟨config, logPlace, hbegins⟩ | ⟨hnever, failure, hnothing⟩
    · exact ⟨_, _, hrun hbegins, .inr rfl, fun _ _ _ =>
        ⟨clash, rfl, isAmong_of_outputPaths houtputs⟩⟩
    · exact ⟨failure, batch.world, hnothing .., .inl rfl,
        fun config logPlace hbegins => absurd hbegins (hnever config logPlace)⟩

/-! ## The first input that fails -/

/-- A command gets behind the inputs before one and then fails to normalize that. Names do not
clash. -/
structure FailsAt (batch : Batch) (before : List Path) (input : Path) (failure : Failure) :
    Prop where
  names : ((before ++ [input]).map outputName).Nodup
  exists_failure : ∃ logPlace reports run world run' world',
    batch.GetsBehind before logPlace reports run world ∧
    eval (RunM.normalizeInput (m := WorldM) input (some (batch.output input))) run world =
      ((.error failure, run'), world')

/-- A command stops at an input that fails. -/
structure StopsAt (batch : Batch) (before : List Path) (input : Path) (failure : Failure)
    (logPlace : Option Location) (world : World) : Prop where
  /-- What comes behind the input, a report and an index make no difference. -/
  run_eq : ∀ after report artifactIndex, ((before ++ input :: after).map outputName).Nodup →
    batch.run (before ++ input :: after) report artifactIndex = (.error failure, world)
  /-- No file is changed but the log and the outputs up to this input. -/
  unchanged : ∀ place content, some place ≠ logPlace →
    (∀ other ∈ before ++ [input], world.disk.placeToWrite (batch.output other) ≠ .ok place) →
    (world.disk.node? place = some (.file content) ↔
      batch.world.disk.node? place = some (.file content))
  /-- The outputs of the inputs before are those of a command over these alone, unless the log is
  written over them, or the report or the index of that command. -/
  outputs : ∀ earlier ∈ before, ∀ place, some place ≠ logPlace →
    world.disk.placeToWrite (batch.output earlier) = .ok place →
    ∀ report artifactIndex,
      (∀ path ∈ report.toList ++ artifactIndex.toList,
        world.disk.placeToWrite path ≠ .ok place) →
      world.disk.node? place = (batch.run before report artifactIndex).2.disk.node? place

/-- What logging keeps is kept when a run is closed. -/
theorem exists_closed {P : Run OpenFile → World → Prop} (hP : RunM.KeptByLogging P)
    (state : (Except Failure Unit × Run OpenFile) × World) (hstate : P state.1.2 state.2) :
    ∃ run', P run' (Run.closed state).2 := by
  obtain ⟨⟨result, run⟩, world⟩ := state
  cases result with
  | ok value => exact ⟨run, hstate⟩
  | error failure => exact ⟨_, (hP.finishLog).keeps hstate⟩

/-- The first of different names are different. -/
theorem nodup_of_append {before after : List Path}
    (hnames : ((before ++ after).map outputName).Nodup) : (before.map outputName).Nodup :=
  hnames.sublist ((List.sublist_append_left before after).map outputName)

/-- The output of an input that fails, as far as it is written at all. -/
def ownOutputs (batch : Batch) (input : Path) : List Path :=
  (Path.fileName? input).toList.map (Path.join batch.directory)

/-- The output of an input is its own. -/
theorem mem_ownOutputs {input name : Path} (hname : Path.fileName? input = some name) :
    ∀ path ∈ some (batch.output input), path ∈ batch.ownOutputs input := by
  rintro path ⟨⟩
  rw [ownOutputs, output, outputName, hname]
  exact List.mem_cons_self

section Behind

variable {before : List Path} {input : Path} {failure : Failure} {reports : List (String × Report)}
  {run run' : Run OpenFile} {world world' : World}

/-- A command that gets to an input that fails does not look at what comes behind that. -/
theorem GetsBehind.run_failing (h : batch.GetsBehind before logPlace reports run world)
    (hinput : eval (RunM.normalizeInput (m := WorldM) input (some (batch.output input))) run world =
      ((.error failure, run'), world'))
    (after : List Path) (report artifactIndex : Option Path)
    (hnames : ((before ++ input :: after).map outputName).Nodup) :
    batch.run (before ++ input :: after) report artifactIndex =
      Run.closed ((.error failure, run'), world') := by
  obtain ⟨config, disk, hbegins, hmake, hinputs⟩ := h.exists_start
  rw [hbegins.run_eq_of_nodup hnames, hmake, files, List.map_append, List.map_cons]
  exact congrArg Run.closed
    (RunM.eval_normalizeFiles_failing hinputs hinput _ report artifactIndex)

/-- An input that fails changes nothing beside what was changed before but the log and its own
output. -/
theorem exists_beside_failing {paths : List Path} {disk : Disk}
    (hbeside : Beside paths logPlace disk run world)
    (hinput : eval (RunM.normalizeInput (m := WorldM) input (some (batch.output input))) run world =
      ((.error failure, run'), world')) :
    ∃ last, Beside (paths ++ batch.ownOutputs input) logPlace disk last
      (Run.closed ((.error failure, run'), world')).2 := by
  have hown : ∀ name, Path.fileName? input = some name →
      ∀ path ∈ some (batch.output input), path ∈ paths ++ batch.ownOutputs input :=
    fun name hname path hpath => List.mem_append_right paths (mem_ownOutputs hname path hpath)
  have hkept : Triple (Beside (paths ++ batch.ownOutputs input) logPlace disk)
      (Beside (paths ++ batch.ownOutputs input) logPlace disk)
      (RunM.normalizeInput (m := WorldM) input (some (batch.output input))) _ :=
    RunM.beside_normalizeInput hown
  have hfailed := hkept.holds run world (hbeside.mono fun _ => List.mem_append_left _)
  rw [hinput] at hfailed
  exact exists_closed Beside.keptByLogging ((.error failure, run'), world') hfailed

/-- An output that an input may leave half written does not lead where that of another input
does. -/
theorem ne_of_ownOutputs {disk : Disk} {earlier name : Path} {place : Location}
    (hnames : ((before ++ [input]).map outputName).Nodup) (hearlier : earlier ∈ before)
    (hname : Path.fileName? earlier = some name)
    (hplace : disk.placeToWrite (batch.output earlier) = .ok place) :
    ∀ path ∈ batch.ownOutputs input, disk.placeToWrite path ≠ .ok place := by
  intro path hpath hlead
  obtain ⟨own, hown, rfl⟩ := List.mem_map.mp hpath
  have hown := Option.mem_toList.mp hown
  have hlast : place.getLast? = some name := by
    rw [Disk.getLast?_of_placeToWrite hplace, output, outputName, hname]
    exact Path.fileName?_join batch.directory (Path.isFileName_of_fileName? hname)
  have hlast' : place.getLast? = some own := by
    rw [Disk.getLast?_of_placeToWrite hlead]
    exact Path.fileName?_join batch.directory (Path.isFileName_of_fileName? hown)
  have hsame : outputName earlier = outputName input := by
    rw [outputName, outputName, hname, Option.mem_def.mp hown, ← hlast, hlast']
    rfl
  rw [List.map_append] at hnames
  exact (List.nodup_append.mp hnames).2.2 _ (List.mem_map_of_mem hearlier) _
    (List.mem_singleton.mpr rfl) hsame

/-- A command that begins and gets to an input that cannot be read as text fails there. -/
theorem Begins.failsAt_of_notText {config : Config} {disk : Disk}
    (hbegins : batch.Begins config logPlace)
    (hmake : batch.ready.disk.makeDirectories batch.directory = (.ok (), disk))
    (hnames : ((before ++ [input]).map outputName).Nodup)
    (hbefore : (eval (RunM.normalizeInputs (m := WorldM) (batch.files before))
      (batch.started config logPlace) (batch.ready.setDisk disk)).1.1.isOk)
    (hinput : RunM.NotText (eval (RunM.normalizeInputs (m := WorldM) (batch.files before))
      (batch.started config logPlace) (batch.ready.setDisk disk)).2.disk input failure) :
    batch.FailsAt before input failure := by
  cases heval : eval (RunM.normalizeInputs (m := WorldM) (batch.files before))
    (batch.started config logPlace) (batch.ready.setDisk disk) with
  | mk state world =>
  obtain ⟨result, run⟩ := state
  rw [heval] at hbefore hinput
  cases result with
  | error failure => cases hbefore
  | ok reports =>
    exact ⟨hnames, logPlace, reports, run, world, run, _, ⟨config, disk, hbegins, hmake, heval⟩,
      RunM.eval_normalizeInput_of_notText hinput _ run⟩

/-- A command stops at an input that fails. -/
theorem FailsAt.exists_stopsAt (h : batch.FailsAt before input failure) :
    ∃ logPlace world, LogAt batch.world.disk batch.log logPlace ∧
      batch.StopsAt before input failure logPlace world := by
  obtain ⟨hnames, logPlace, reports, run, world, run', world', hbehind, hinput⟩ := h
  obtain ⟨hfileNames, hbeside⟩ := hbehind.beside
  -- Compared with the disk on which the command began, and with the one behind the inputs before.
  obtain ⟨last, hfromStart⟩ := exists_beside_failing hbeside hinput
  obtain ⟨last', hfromBehind⟩ := exists_beside_failing hbeside.fresh hinput
  refine ⟨logPlace, (Run.closed ((.error failure, run'), world')).2, hbehind.logAt,
    fun after report artifactIndex => hbehind.run_failing hinput after report artifactIndex, ?_, ?_⟩
  · intro place content hlog hothers
    rw [hfromStart.others place hlog fun path hpath hlead => ?_]
    · exact hbehind.logAt.file_iff batch.directory hlog content
    · have hlead' := Disk.placeToWrite_eq_ok hfromStart.directories hlead
      rcases List.mem_append.mp hpath with hmem | hmem
      · obtain ⟨earlier, hearlier, rfl⟩ := List.mem_map.mp hmem
        exact hothers earlier (List.mem_append_left _ hearlier) hlead'
      · obtain ⟨name, hname, rfl⟩ := List.mem_map.mp hmem
        refine hothers input (List.mem_append_right _ (List.mem_singleton.mpr rfl)) ?_
        rwa [output, outputName, Option.mem_toList.mp hname]
  · intro earlier hearlier place hlog hplace report artifactIndex hpaths
    obtain ⟨name, hname⟩ := hfileNames earlier hearlier
    have hplace' := Disk.placeToWrite_eq_ok hfromBehind.directories.symm hplace
    obtain ⟨last'', hfinished⟩ := exists_closed Beside.keptByLogging
      (eval (RunM.finishInputs (m := WorldM) report artifactIndex reports) run world)
      ((RunM.beside_finishInputs report artifactIndex reports).keeps
        (hbeside.fresh.mono (List.forall_mem_nil _)))
    rw [hbehind.run_eq (nodup_of_append hnames),
      hfromBehind.others place hlog (ne_of_ownOutputs hnames hearlier hname hplace'),
      hfinished.others place hlog fun path hpath hlead => hpaths path hpath
        (Disk.placeToWrite_eq_ok hfromBehind.directories hlead)]

/-- A command that fails does not get to its inputs, or it gets behind all of them, or it fails at
one of them. -/
theorem exists_failsAt {inputs : List Path} {report artifactIndex : Option Path}
    (hnames : (inputs.map outputName).Nodup)
    (hfailed : batch.run inputs report artifactIndex = (.error failure, world')) :
    (∀ before logPlace reports run world, ¬ batch.GetsBehind before logPlace reports run world) ∨
    (∃ logPlace reports run world, batch.GetsBehind inputs logPlace reports run world) ∨
    ∃ before input after, inputs = before ++ input :: after ∧
      batch.FailsAt before input failure := by
  rcases batch.begins_or_error with ⟨config, logPlace, hbegins⟩ | ⟨hnever, -⟩
  · cases hmake : batch.ready.disk.makeDirectories batch.directory with
    | mk result disk =>
    cases result with
    | error error =>
      refine .inl fun before logPlace reports run world hbehind => ?_
      obtain ⟨config', disk', -, hmake', -⟩ := hbehind.exists_start
      cases hmake.symm.trans hmake'
    | ok made =>
      rcases RunM.exists_eval_normalizeInputs (batch.files inputs) (batch.started config logPlace)
        (batch.ready.setDisk disk) with ⟨reports, run, world, hinputs⟩ |
          ⟨front, input, output, back, reports, run, world, failure', run₂, world₂, hfiles, hfront,
            hinput⟩
      · exact .inr (.inl ⟨logPlace, reports, run, world, config, disk, hbegins, hmake, hinputs⟩)
      · obtain ⟨before, rest, rfl, rfl, hrest⟩ := List.map_eq_append_iff.mp hfiles
        obtain ⟨input', after, rfl, hinput', rfl⟩ := List.map_eq_cons_iff.mp hrest
        cases hinput'
        have hbehind : batch.GetsBehind before logPlace reports run world :=
          ⟨config, disk, hbegins, hmake, hfront⟩
        cases (hbehind.run_failing hinput after report artifactIndex hnames).symm.trans hfailed
        refine .inr (.inr ⟨before, input, after, rfl, ?_, logPlace, reports, run, world, run₂,
          world₂, hbehind, hinput⟩)
        rw [List.append_cons] at hnames
        exact nodup_of_append hnames
  · refine .inl fun before logPlace reports run world hbehind => ?_
    obtain ⟨config, -, hbegins, -⟩ := hbehind.exists_start
    exact hnever config logPlace hbegins

end Behind

/-- A command that fails at its inputs does so at the first that fails, and stops there. -/
structure StopsAtFailures (batch : Batch) : Prop where
  exists_failsAt : ∀ inputs report artifactIndex failure world',
    (inputs.map outputName).Nodup →
    batch.run inputs report artifactIndex = (.error failure, world') →
    (∀ before logPlace reports run world, ¬ batch.GetsBehind before logPlace reports run world) ∨
    (∃ logPlace reports run world, batch.GetsBehind inputs logPlace reports run world) ∨
    ∃ before input after, inputs = before ++ input :: after ∧
      batch.FailsAt before input failure
  exists_stopsAt : ∀ before input failure, batch.FailsAt before input failure →
    ∃ logPlace world, LogAt batch.world.disk batch.log logPlace ∧
      batch.StopsAt before input failure logPlace world

end Batch

/-- Failures leave no work half done. A source that cannot be read as text leaves the run as it was
and might as well not be listed. A header that is refused or cannot be written, and a text that
cannot be written, leave neither log nor index, and of the disk nothing but the file that they were
to be written to. A command refuses names that clash before it begins, and it stops at the first
input that fails, with the outputs of the inputs before it and without a report and an index. -/
theorem nothing_half_done :
    (∀ path, RunM.IsPassedOver path) ∧
    (∀ run world output failure, RunM.HeaderFails run world output failure →
      ∃ world', eval (RunM.renderHeader output) run world = ((.error failure, run), world') ∧
        SameButAt output.toList world.disk world'.disk) ∧
    (∀ file output, RunM.LeavesRun (RunM.writeNormalized file output) output) ∧
    ∀ batch : Batch, batch.RefusesClashes ∧ batch.StopsAtFailures :=
  ⟨RunM.isPassedOver, fun _ _ _ _ => RunM.exists_eval_renderHeader,
    RunM.leavesRun_writeNormalized, fun batch => ⟨batch.refusesClashes,
      fun _ _ _ _ _ hnames hfailed => Batch.exists_failsAt hnames hfailed,
      fun _ _ _ hfails => hfails.exists_stopsAt⟩⟩

namespace Batch

open scoped PlainSync.Path in
/-- The second of three inputs is no text. -/
def notText : Batch where
  runId := "local"
  directory := "out"
  world :=
    { disk :=
        { nodes :=
            [(["a.c"], .file (Bytes.ofString "__sync_synchronize();")), (["b.c"], .file [0xff]),
              (["c.c"], .file [])] } }

/-- A batch without a log begins. -/
theorem begins_notText : notText.Begins (ProcessSettings.ofEnvironment {}).config none :=
  ⟨rfl, .absent⟩

open scoped PlainSync.Path in
/-- The first input is normalized, and the second one fails. -/
theorem failsAt_notText : notText.FailsAt ["a.c"] "b.c" (.notUtf8 "b.c") := by
  have hmake : notText.ready.disk.makeDirectories notText.directory =
      (.ok (), notText.world.disk.readyFor none notText.directory) := by decide +kernel
  exact begins_notText.failsAt_of_notText hmake (by decide +kernel) (by decide +kernel)
    (@RunM.NotText.notUtf8 _ _ [0xff] (by decide +kernel) (by decide))

end Batch

/-- A machine on which writing a file stops behind its first byte. -/
def World.full : World where
  disk := { nodes := [([Bytes.ofString "run.jsonl"], .file [])] }
  fileFault _ := some ⟨1, .other "No space left on device (os error 28)"⟩

namespace Batch

open scoped PlainSync.Path in
/-- The second input is passed over, and where it fails a command the output of the first one
stays. A header for which there is no space leaves the run as it was. -/
theorem stopsAt_notText :
    (∃ run, eval (RunM.normalizeFile "b.c") run notText.world =
      ((.error (.notUtf8 "b.c"), run), notText.world.looked)) ∧
    (∃ run failure world', eval (RunM.renderHeader (some "p.h")) run World.full =
      ((.error failure, run), world') ∧ SameButAt ["p.h"] World.full.disk world'.disk) ∧
    ∃ logPlace world, notText.FailsAt ["a.c"] "b.c" (.notUtf8 "b.c") ∧
      notText.StopsAt ["a.c"] "b.c" (.notUtf8 "b.c") logPlace world ∧
      world.disk.node? ["out", "a.c"] = some (.file (Bytes.ofString "((void)0);")) := by
  obtain ⟨hpassed, hheader, -, hbatch⟩ := nothing_half_done
  refine ⟨⟨Run.began {} .normalize "local" none .epoch, ?_⟩,
    ⟨Run.began {} .header "local" none .epoch, ?_⟩, ?_⟩
  · exact (hpassed "b.c").leavesRun _ _ _ (@RunM.NotText.notUtf8 _ _ [0xff] (by decide +kernel)
      (by decide))
  · exact ⟨_, hheader _ _ _ _ (.unwritten rfl rfl)⟩
  · obtain ⟨logPlace, world, -, hstops⟩ := (hbatch notText).2.exists_stopsAt _ _ _ failsAt_notText
    have hworld := hstops.run_eq [] none none (by decide +kernel)
    refine ⟨logPlace, world, failsAt_notText, hstops, ?_⟩
    rw [show world = (notText.run ["a.c", "b.c"] none none).2 from (congrArg Prod.snd hworld).symm]
    decide +kernel

open scoped PlainSync.Path in
/-- The log is written where the output of the first input goes, and the output of the second one
cannot be written. -/
def logOverOutput : Batch where
  log := some "out/a.c"
  runId := "local"
  directory := "out"
  world :=
    { disk :=
        { nodes :=
            [(["out"], .directory), (["out", "b.c"], .directory), (["a.c"], .file []),
              (["b.c"], .file [])] } }

open scoped PlainSync.Path in
/-- An output where the log stands is not as it is behind the inputs before. -/
theorem exists_failsAt_logOverOutput : ∃ failure,
    logOverOutput.FailsAt ["a.c"] "b.c" failure ∧
    (logOverOutput.run ["a.c", "b.c"] none none).2.disk.node? ["out", "a.c"] ≠
      (logOverOutput.run ["a.c"] none none).2.disk.node? ["out", "a.c"] := by
  have hbegins : logOverOutput.Begins (ProcessSettings.ofEnvironment {}).config
      (some ["out", "a.c"]) := ⟨rfl, .present (by decide +kernel)⟩
  have hmake : logOverOutput.ready.disk.makeDirectories logOverOutput.directory =
      (.ok (), logOverOutput.ready.disk) := by decide +kernel
  have hread : logOverOutput.ready.disk.read "a.c" = .ok [] := by decide +kernel
  have houtput : logOverOutput.ready.disk.placeToWrite (logOverOutput.output "a.c") =
      .ok ["out", "a.c"] := by decide +kernel
  obtain ⟨reports, run₁, world₁, line, hbehind, hdisk, hlog⟩ :=
    hbegins.exists_getsBehind_of_fits hmake hread (by decide) (by decide +kernel)
      (by decide +kernel) houtput rfl (fun _ => rfl) (by decide +kernel)
  have hready : world₁.disk = logOverOutput.ready.disk := hdisk.trans (by decide +kernel)
  have hread' : world₁.disk.read "b.c" = .ok [] := by
    rw [hready]
    decide +kernel
  have hunwritten : world₁.disk.placeToWrite (logOverOutput.output "b.c") =
      .error .isADirectory := by
    rw [hready]
    decide +kernel
  obtain ⟨failure, run₂, world₂, more, hmore, hsecond, hlog'⟩ :=
    RunM.exists_eval_normalizeInput_unwritten hlog hread' (by decide) hunwritten
  -- What is kept back of the log is written behind the failure, and behind a run without it.
  obtain ⟨world₃, halone, hnode, -⟩ := hbehind.exists_run_eq (by decide +kernel) hlog
  obtain ⟨run₄, world₄, hflush, hnode'⟩ := RunM.exists_eval_flushLog hlog'
  have hboth : (logOverOutput.run ["a.c", "b.c"] none none).2 = world₄ := by
    have hfailed := hbehind.run_failing hsecond [] none none (by decide +kernel)
    rw [Run.closed, RunM.finishLog, eval_tryCatch, hflush] at hfailed
    exact congrArg Prod.snd hfailed
  refine ⟨failure, ⟨by decide +kernel, _, _, _, _, _, _, hbehind, hsecond⟩, ?_⟩
  rw [hboth, halone, hnode, hnode']
  intro hsame
  have hlines : line ++ more = line := Node.file.inj (Option.some.inj hsame)
  exact hmore (List.append_right_eq_self.mp hlines)

open scoped PlainSync.Path in
/-- An output that a report is written over is not as a failure leaves it. -/
theorem notText_reportOverOutput :
    (notText.run ["a.c", "b.c"] (some "out/a.c") none).2.disk.node? ["out", "a.c"] ≠
      (notText.run ["a.c"] (some "out/a.c") none).2.disk.node? ["out", "a.c"] := by
  have hboth : (notText.run ["a.c", "b.c"] (some "out/a.c") none).2.disk.node? ["out", "a.c"] =
      some (.file (Bytes.ofString "((void)0);")) := by decide +kernel
  have halone : (notText.run ["a.c"] (some "out/a.c") none).1 = .ok () := by decide +kernel
  obtain ⟨config, logPlace, outputs, sources, disk', -, hlog, -, hcommand, hsame⟩ :=
    Command.exists_commandOn (Prod.ext halone rfl) fun logPlace outputs hlog _ path _ => by
      cases hlog
      exact nofun
  cases hlog
  obtain ⟨hfiles, -, rfl, hreport, hindex⟩ := hcommand
  cases hindex
  have hplace : (notText.world.disk.readyFor none notText.directory).placeToWrite "out/a.c" =
      .ok ["out", "a.c"] := by decide +kernel
  have hnode := Disk.node?_of_write hreport
    (Disk.placeToWrite_eq_ok hfiles.sameDirectories hplace)
  have hreported := (hsame.others _ nofun).trans hnode
  rw [hboth]
  intro hcontents
  have hbytes := Node.file.inj (Option.some.inj (hcontents.trans hreported))
  have htexts := congrArg Bytes.toString? hbytes
  rw [Bytes.toString?_ofString, Bytes.toString?_ofString] at htexts
  have hbrace := congrArg (fun text => text.toList.head?) (Option.some.inj htexts)
  rw [RunM.reportsText, Json.sorted, Json.head?_pretty_object] at hbrace
  exact absurd hbrace (by decide)

/-- The log of a run that writes to the file of its own log is not as before when that stops. -/
theorem exists_writeNormalized_overLog : ∃ file run output place failure run' world',
    run.logFile = some (Run.newLog place) ∧
    eval (RunM.writeNormalized file output) run World.full = ((.error failure, run'), world') ∧
    world'.disk.node? place ≠ World.full.disk.node? place := by
  refine ⟨⟨Bytes.ofString "((void)0);", {}, ""⟩,
    Run.began {} .normalize "local" (some [Bytes.ofString "run.jsonl"]) .epoch,
    Bytes.ofString "run.jsonl", [Bytes.ofString "run.jsonl"],
    .file (.other "No space left on device (os error 28)"), _, _, rfl, rfl, ?_⟩
  decide +kernel

open scoped PlainSync.Path in
/-- What is written over an output or a log is lost: a log that stands where an output of a failing
command does tells of the failure, a report of the inputs before takes the place of an output, and a
text that is half written takes that of a log. -/
theorem exists_overwritten :
    (∃ failure, logOverOutput.FailsAt ["a.c"] "b.c" failure ∧
      (logOverOutput.run ["a.c", "b.c"] none none).2.disk.node? ["out", "a.c"] ≠
        (logOverOutput.run ["a.c"] none none).2.disk.node? ["out", "a.c"]) ∧
    (∃ failure, notText.FailsAt ["a.c"] "b.c" failure ∧
      (notText.run ["a.c", "b.c"] (some "out/a.c") none).2.disk.node? ["out", "a.c"] ≠
        (notText.run ["a.c"] (some "out/a.c") none).2.disk.node? ["out", "a.c"]) ∧
    ∃ file run output place failure run' world', run.logFile = some (Run.newLog place) ∧
      eval (RunM.writeNormalized file output) run World.full = ((.error failure, run'), world') ∧
      world'.disk.node? place ≠ World.full.disk.node? place :=
  ⟨exists_failsAt_logOverOutput, ⟨_, failsAt_notText, notText_reportOverOutput⟩,
    exists_writeNormalized_overLog⟩

end Batch

end PlainSync
