import PlainSync.Machine

/-!
# Log files

A log is written in blocks: what does not fill a block is kept back until more is written or
the log is flushed. What could not be written is kept back as well.
-/

namespace PlainSync

/-- A log that is being written. -/
structure LogFile (Handle : Type) where
  handle : Handle
  /-- What is kept back. -/
  pending : Bytes := []

/-- The actions on a log. They leave a log behind even if they fail. -/
abbrev LogM (m : Type → Type) [Machine m] : Type → Type :=
  ExceptT FileError (StateT (LogFile (Machine.Handle m)) m)

namespace LogFile

/-- How many bytes are kept back at most. -/
def capacity : Nat := 8192

variable {m : Type → Type} [Monad m] [Machine m]

/-- Begin a log. -/
def create (path : Path) : m (Except FileError (LogFile (Machine.Handle m))) := do
  return (← Machine.createFile path).map fun handle => { handle := handle }

/-- Write a text to the file of a log. What is not written comes back, with the reason. -/
def send (text : Bytes) : LogM m (Bytes × Option FileError) := do
  let log ← get
  let appended ← liftM (m := m) (Machine.append log.handle text)
  set { log with handle := appended.handle }
  return (appended.left, appended.error?)

/-- Write what is kept back. -/
def flush : LogM m Unit := do
  let log ← get
  if !log.pending.isEmpty then
    let (left, error?) ← send log.pending
    modify fun log => { log with pending := left }
    if let some error := error? then throw error

/-- Keep a text back, unless it fills a block by itself. -/
def keep (text : Bytes) : LogM m Unit := do
  if text.length < capacity then
    modify fun log => { log with pending := log.pending ++ text }
  else
    let (_, error?) ← send text
    if let some error := error? then throw error

/-- Write a text. One that does not fit beside what is kept back sends that on its way first. -/
def put (text : Bytes) : LogM m Unit := do
  if capacity < (← get).pending.length + text.length then flush
  keep text

/-- Write a line. -/
def putLine (line : String) : LogM m Unit := do
  put (Bytes.ofString line)
  put [Byte.newline]

end LogFile

end PlainSync
