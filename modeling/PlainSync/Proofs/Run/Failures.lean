import PlainSync.Proofs.Run.Records
import PlainSync.Run.Header

/-!
# What a failure leaves behind

A run changes nothing before it knows that it can go on. A source that cannot be read as text and
settings that are refused leave it and the disk as they were. A file that cannot be written, or only
in part, leaves the run as it was and every other file.
-/

namespace PlainSync

open PlainSync.Action
open Disk (SameButAt)

namespace RunM

/-! ## Sources -/

/-- A file cannot be read as text, and the failure that this is. -/
inductive NotText (disk : Disk) (path : Path) : Failure → Prop where
  | unread {error : FileError} (hread : disk.read path = .error error) :
      NotText disk path (.file error)
  | notUtf8 {source : Bytes} (hread : disk.read path = .ok source)
      (htext : Bytes.toString? source = none) : NotText disk path (.notUtf8 path.display)

/-- A file that cannot be read as text is not normalized and leaves nothing but a look at the
clock. -/
theorem eval_normalizeFile_of_notText {path : Path} {world : World} {failure : Failure}
    (hfile : NotText world.disk path failure) (run : Run OpenFile) :
    eval (normalizeFile path) run world = ((.error failure, run), world.looked) := by
  rw [eval_normalizeFile]
  cases hfile with
  | unread hread => rw [hread]
  | notUtf8 hread htext =>
    rw [hread]
    dsimp only
    rw [htext, if_pos Option.isNone_none]

/-- Paths are normalized one after the other. -/
theorem normalizeEach_append (before after : List Path) :
    (normalizeEach (before ++ after) : RunM WorldM _) = do
      let results ← normalizeEach before
      return results ++ (← normalizeEach after) := by
  induction before with
  | nil => simp only [List.nil_append, normalizeEach, pure_bind, bind_pure]
  | cons path more ih =>
    simp only [List.cons_append, normalizeEach, ih, bind_assoc, pure_bind]

/-- Files behind others are normalized in the session that those left. -/
theorem eval_normalizeEach_append {before : List Path} (after : List Path)
    {run run' : Run OpenFile} {world world' : World}
    {results : List (Except Failure NormalizedFile)}
    (hbefore : eval (normalizeEach before) run world = ((.ok results, run'), world')) :
    eval (normalizeEach (before ++ after)) run world =
      match eval (normalizeEach after) run' world' with
      | ((others, run''), world'') => ((others.map (results ++ ·), run''), world'') := by
  rw [normalizeEach_append, eval_bind, hbefore]
  exact eval_bind_pure run' world' (normalizeEach (m := WorldM) after) (results ++ ·)

/-- A file that cannot be read as text leaves a run as it was, with its session, its log and its
index. Among others it might as well not be listed, but for one more look at a clock: what comes
behind it goes on from the state that was left by what comes before. -/
structure IsPassedOver (path : Path) : Prop where
  leavesRun : ∀ run world failure, NotText world.disk path failure →
    eval (normalizeFile path) run world = ((.error failure, run), world.looked)
  unlisted : ∀ before after run world run' world' results failure,
    eval (normalizeEach before) run world = ((.ok results, run'), world') →
    NotText world'.disk path failure →
    (eval (normalizeEach (before ++ after)) run world =
      match eval (normalizeEach after) run' world' with
      | ((others, last), behind) => ((others.map (results ++ ·), last), behind)) ∧
    eval (normalizeEach (before ++ path :: after)) run world =
      match eval (normalizeEach after) run' world'.looked with
      | ((others, last), behind) =>
        ((others.map (results ++ .error failure :: ·), last), behind)

/-- A path that fails is passed over. -/
theorem isPassedOver (path : Path) : IsPassedOver path where
  leavesRun run world failure hfile := eval_normalizeFile_of_notText hfile run
  unlisted := by
    intro before after run world run' world' results failure hbefore hfile
    refine ⟨eval_normalizeEach_append after hbefore, ?_⟩
    rw [eval_normalizeEach_append (path :: after) hbefore, eval_normalizeEach_cons,
      eval_normalizeFile_of_notText hfile]
    dsimp only
    generalize eval (normalizeEach after) run' world'.looked = state
    obtain ⟨⟨others, last⟩, behind⟩ := state
    cases others with
    | ok others => rfl
    | error failure => rfl

/-! ## Files that are written -/

/-- Writing a file changes nothing but the file that its path leads to, whether or not it gets to
its end. -/
theorem sameButAt_writeFile (path : Path) (content : Bytes) (world : World) :
    SameButAt [path] world.disk ((Machine.writeFile path content : WorldM _) world).2.disk := by
  rw [run_writeFile]
  cases hplace : world.disk.placeToWrite path with
  | error error => exact .refl _ _
  | ok place => exact Disk.sameButAt_put hplace _

/-- A file that was written is read back as it was written. -/
theorem read_of_writeFile {path : Path} {content : Bytes} {world : World}
    (hwrite : ((Machine.writeFile path content : WorldM _) world).1 = .ok ()) :
    ((Machine.writeFile path content : WorldM _) world).2.disk.read path = .ok content := by
  rw [run_writeFile] at hwrite ⊢
  cases hplace : world.disk.placeToWrite path with
  | error error =>
    rw [hplace] at hwrite
    cases hwrite
  | ok place =>
    rw [hplace] at hwrite
    cases hfault : world.fileFault world.files with
    | some fault =>
      rw [hfault] at hwrite
      cases hwrite
    | none => exact Disk.read_put hplace content

/-- An artifact fails as its file does, and it is listed with what was written. -/
theorem eval_writeArtifact (path : Path) (kind : String) (content : Bytes) (run : Run OpenFile)
    (world : World) :
    eval (writeArtifact path kind content) run world =
      match (Machine.writeFile path content : WorldM _) world with
      | (.error error, world') => ((.error (.file error), run), world')
      | (.ok (), world') =>
        ((.ok (), { run with index := run.index.add (.ofBytes path.display kind content) }),
          world') := by
  rw [writeArtifact, eval_bind, eval_onFile]
  have hread := @read_of_writeFile path content world
  generalize (Machine.writeFile path content : WorldM _) world = written at hread
  obtain ⟨result, world'⟩ := written
  cases result with
  | error error => rfl
  | ok value =>
    have hfile : (Machine.readFile path : WorldM _) world' = (.ok content, world') :=
      congrArg (·, world') (hread rfl)
    change eval (listFile path kind) run world' = _
    rw [listFile, eval_bind, eval_onFile, hfile]
    rfl

/-- A failing action leaves a run as it was, and of the disk all but the file at a path. -/
def LeavesRun {α : Type} (action : RunM WorldM α) (path : Path) : Prop :=
  ∀ run world failure run' world', eval action run world = ((.error failure, run'), world') →
    run' = run ∧ SameButAt [path] world.disk world'.disk

/-- An artifact that cannot be written is not listed. -/
theorem leavesRun_writeArtifact (path : Path) (kind : String) (content : Bytes) :
    LeavesRun (writeArtifact path kind content) path := by
  intro run world failure run' world' hfailure
  rw [eval_writeArtifact] at hfailure
  have hsame := sameButAt_writeFile path content world
  generalize (Machine.writeFile path content : WorldM _) world = written at hsame hfailure
  obtain ⟨result, world''⟩ := written
  cases result with
  | error error =>
    cases hfailure
    exact ⟨rfl, hsame⟩
  | ok value => cases hfailure

/-- The text of a normalized file that cannot be written leaves neither log nor index. -/
theorem leavesRun_writeNormalized (file : NormalizedFile) (output : Path) :
    LeavesRun (writeNormalized file output) output :=
  leavesRun_writeArtifact output _ _

/-! ## Headers -/

/-- A header is not made: the settings of the run are refused, or the file for it cannot be
written. -/
inductive HeaderFails (run : Run OpenFile) (world : World) : Option Path → Failure → Prop where
  | refused {output : Option Path} {error : ConfigError}
      (hrefused : run.session.config.validate = .error error) :
      HeaderFails run world output (.config (.text (.refused error)))
  | unwritten {path : Path} {config : Config} {error : FileError}
      (hvalid : run.session.config.validate = .ok config)
      (hwrite : ((Machine.writeFile path (Header.text (.ofConfig run.session.config)) :
        WorldM _) world.looked).1 = .error error) :
      HeaderFails run world (some path) (.file error)

/-- A header that is not made leaves neither log nor index. -/
theorem exists_eval_renderHeader {run : Run OpenFile} {world : World} {output : Option Path}
    {failure : Failure} (hfails : HeaderFails run world output failure) :
    ∃ world', eval (renderHeader output) run world = ((.error failure, run), world') ∧
      SameButAt output.toList world.disk world'.disk := by
  have hget (next : Run OpenFile → RunM WorldM Bytes) :
      eval (get >>= next) run world = eval (next run) run world := rfl
  unfold renderHeader
  rw [hget]
  dsimp only
  cases hfails with
  | refused hrefused =>
    simp only [hrefused]
    exact ⟨world, rfl, .refl _ _⟩
  | @unwritten path config error hvalid hwrite =>
    obtain ⟨entry, hdraft⟩ : ∃ entry, eval (draft (m := WorldM) .info "header_rendered") run world =
        ((.ok entry, run), world.looked) := ⟨_, rfl⟩
    have hsame := sameButAt_writeFile path (Header.text (.ofConfig run.session.config)) world.looked
    have hartifact :=
      eval_writeArtifact path "header" (Header.text (.ofConfig run.session.config)) run world.looked
    simp only [hvalid]
    rw [eval_bind, hdraft]
    dsimp only
    rw [eval_bind, hartifact]
    generalize (Machine.writeFile path (Header.text (.ofConfig run.session.config)) :
      WorldM _) world.looked = written at hwrite hsame
    obtain ⟨result, world'⟩ := written
    cases hwrite
    exact ⟨world', rfl, hsame⟩

end RunM

end PlainSync
