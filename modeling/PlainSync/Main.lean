import PlainSync.Command.Arguments
import PlainSync.Command.Run
import Std.Time.DateTime.Timestamp

/-!
# The program

The machine that the program runs on, and its entry point.
-/

namespace PlainSync

/-- Why the system refused a file operation. -/
def FileError.ofSystem (error : IO.Error) : FileError :=
  match error with
  | .noFileOrDirectory _ _ _ => .notFound
  | .alreadyExists _ _ _ => .alreadyExists
  | .inappropriateType _ code _ => if code = 21 then .isADirectory else .notADirectory
  | .invalidArgument _ code details => if code = 36 then .nameTooLong else .other details
  | unnamed => .other unnamed.toString

/-- Do something on the system that may be refused. -/
def trySystem {α : Type} (action : IO α) : IO (Except FileError α) := do
  match ← action.toBaseIO with
  | .ok value => return .ok value
  | .error error => return .error (.ofSystem error)

/-- Do something with a path on the system. Only a path that is text can be looked up here. -/
def tryPath {α : Type} (path : Path) (action : String → IO α) : IO (Except FileError α) :=
  match Bytes.toString? path with
  | some text => trySystem (action text)
  | none => return .error (.other "a path that is not UTF-8 cannot be looked up")

/-- The machine that the program runs on. -/
instance : Machine IO where
  Handle := IO.FS.Handle
  readFile path := tryPath path fun path => do
    return (← IO.FS.readBinFile path).toList
  writeFile path content := tryPath path fun path =>
    IO.FS.writeBinFile path ⟨content.toArray⟩
  makeDirectories path := tryPath path fun path => do
    if !path.isEmpty then IO.FS.createDirAll path
  createFile path := tryPath path fun path => IO.FS.Handle.mk path .write
  -- What the system does not take at once it has to itself, so nothing is left to write again.
  append handle chunk := do
    let result ← trySystem do
      handle.write ⟨chunk.toArray⟩
      handle.flush
    match result with
    | .ok () => return { handle := handle }
    | .error error => return { handle := handle, error? := some error }
  print text := do
    let output ← IO.getStdout
    output.write ⟨text.toArray⟩
    output.flush
  printMessage line := IO.eprintln line
  now := do
    let sinceEpoch := (← Std.Time.Timestamp.now).toMillisecondsSinceUnixEpoch.toInt.toNat
    return ⟨sinceEpoch / 1000, sinceEpoch % 1000⟩
  uptime := IO.monoMsNow

/-- The variables of the environment that matter. -/
def Environment.ofSystem : IO Environment := do
  return { syncAtomics := ← IO.getEnv "CENTRINEL_SYNC_ATOMICS"
           crossRegion := ← IO.getEnv "CENTRINEL_CROSS_REGION" }

end PlainSync

open PlainSync

/-- Run what the command line asks for. Its arguments come as text. The exit code is 1 after a
failure and 2 if the command line is not understood. -/
def main (arguments : List String) : IO UInt32 := do
  match Invocation.ofArguments (arguments.map Bytes.ofString) with
  | .error .help =>
    IO.print helpText
    return 0
  | .error .misuse =>
    IO.eprint helpText
    return 2
  | .ok invocation =>
    match ← Command.run invocation (← Environment.ofSystem) with
    | .ok () => return 0
    | .error failure =>
      IO.eprintln s!"Error: {failure.message}"
      return 1
