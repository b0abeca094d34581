import PlainSync.Calendar
import PlainSync.Files.Error
import PlainSync.Files.Path

/-!
# Machines

What a run needs of the machine that it runs on: files, two streams to print to, and clocks.
The commands are written for any machine.
-/

namespace PlainSync

/-- What came of writing a piece of a file. -/
structure Appended (Handle : Type) where
  /-- The handle of the file, which stands behind what was written. -/
  handle : Handle
  /-- What was not written. -/
  left : Bytes := []
  /-- Why it was not. -/
  error? : Option FileError := none

/-- A machine whose actions are those of a monad. -/
class Machine (m : Type → Type) where
  /-- A file that is being written piece by piece. -/
  Handle : Type
  /-- Read a file. -/
  readFile : Path → m (Except FileError Bytes)
  /-- Write a file, instead of one that may stand there. After an error the file may hold a part of
  what was to be written. -/
  writeFile : Path → Bytes → m (Except FileError Unit)
  /-- Create a directory and those that lead to it, as far as they do not exist. -/
  makeDirectories : Path → m (Except FileError Unit)
  /-- Begin to write a file. One that stands there loses its content. -/
  createFile : Path → m (Except FileError Handle)
  /-- Write behind what was written with the handle, as far as that succeeds. -/
  append : Handle → Bytes → m (Appended Handle)
  /-- Print to the stream for results. -/
  print : Bytes → m Unit
  /-- Print a line to the stream for messages. -/
  printMessage : String → m Unit
  /-- The time of day. -/
  now : m Instant
  /-- Milliseconds on a clock that is never set. -/
  uptime : m Nat

/-- Read a file as text. -/
def Machine.readText {m : Type → Type} [Monad m] [Machine m] (path : Path) :
    m (Except FileError String) := do
  return (← Machine.readFile path).bind fun content =>
    match Bytes.toString? content with
    | some text => .ok text
    | none => .error .invalidData

end PlainSync
