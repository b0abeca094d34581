import PlainSync.Proofs.Machine.Triples
import PlainSync.Run

/-!
# Triples for the actions of a run

A run acts on its machine and on the files there. What holds behind that follows from what the
machine does.
-/

namespace PlainSync

open PlainSync.Action (eval eval_bind Triple)

namespace RunM

variable {α : Type} (run : Run OpenFile) (world : World)

/-- An action on the machine never fails and leaves the run as it is. -/
theorem eval_perform (action : WorldM α) :
    eval (perform action) run world = ((.ok (action world).1, run), (action world).2) := rfl

/-- An action on a file fails if the machine does. -/
theorem eval_onFile (action : WorldM (Except FileError α)) :
    eval (onFile action) run world =
      (((action world).1.mapError .file, run), (action world).2) := by
  rw [onFile, eval_bind, eval_perform]
  cases hresult : (action world).1 with
  | ok value => rfl
  | error error => rfl

/-- A file is written where its path leads, as far as no fault stops that. If it leads nowhere,
nothing happens. -/
theorem run_writeFile (path : Path) (content : Bytes) (world : World) :
    (Machine.writeFile path content : WorldM _) world =
      match world.disk.placeToWrite path with
      | .ok place =>
        (match world.fileFault world.files with
          | none => .ok ()
          | some fault => .error fault.error,
          { world with
            disk := world.disk.put place
              (.file (WriteFault.written (world.fileFault world.files) content))
            files := world.files + 1 })
      | .error error => (.error error, world) := by
  change world.writeFile path content = _
  unfold World.writeFile Disk.write
  cases world.disk.placeToWrite path with
  | ok place => rfl
  | error error => rfl

end RunM

namespace Action.Triple

variable {α : Type} {I P : Run OpenFile → World → Prop} {Q : α → Run OpenFile → World → Prop}

/-- What the machine does holds behind the action. -/
theorem perform {action : WorldM α}
    (haction : ∀ run world, P run world → Q (action world).1 run (action world).2) :
    Triple I P (RunM.perform action) Q :=
  ⟨haction⟩

/-- An action on a file fails with the invariant if the machine fails. -/
theorem onFile {action : WorldM (Except FileError α)}
    (hok : ∀ run world value, P run world → (action world).1 = .ok value →
      Q value run (action world).2)
    (herror : ∀ run world error, P run world → (action world).1 = .error error →
      I run (action world).2) : Triple I P (RunM.onFile action) Q := by
  refine ⟨fun run world hstate => ?_⟩
  rw [RunM.eval_onFile]
  cases hresult : (action world).1 with
  | ok value => exact hok run world value hstate hresult
  | error error => exact herror run world error hstate hresult

/-- A file stands where its path leads if it was written. If it was not, it may stand there half
written. -/
theorem writeFile {I P : Run OpenFile → World → Prop} {Q : Unit → Run OpenFile → World → Prop}
    {path : Path} {content : Bytes}
    (hok : ∀ run world place, P run world → world.disk.placeToWrite path = .ok place →
      Q () run { world with
        disk := world.disk.put place (.file content), files := world.files + 1 })
    (hnone : ∀ run world, P run world → I run world)
    (hpart : ∀ run world place part, P run world → world.disk.placeToWrite path = .ok place →
      I run { world with
        disk := world.disk.put place (.file part), files := world.files + 1 }) :
    Triple I P (RunM.onFile (m := WorldM) (Machine.writeFile path content)) Q := by
  refine ⟨fun run world hstate => ?_⟩
  rw [RunM.eval_onFile, RunM.run_writeFile]
  cases hplace : world.disk.placeToWrite path with
  | error error => exact hnone run world hstate
  | ok place =>
    cases hfault : world.fileFault world.files with
    | none => exact hok run world place hstate hplace
    | some fault => exact hpart run world place _ hstate hplace

end Action.Triple

end PlainSync
