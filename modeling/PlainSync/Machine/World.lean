import PlainSync.Files.Disk
import PlainSync.Machine

/-!
# A machine as a value

A machine that consists of a disk, the texts that were printed and two clocks. Its actions are
plain functions, so what a command does to the machine can be computed and reasoned about. Writing
may stop before its end, as it does on a disk that is full.
-/

namespace PlainSync

/-- Why and where writing stops before its end. -/
structure WriteFault where
  /-- How many bytes are written at most. -/
  limit : Nat
  error : FileError
  deriving DecidableEq, Repr

/-- The state of a machine. -/
structure World where
  disk : Disk := {}
  /-- What was printed as a result. -/
  printed : Bytes := []
  /-- The lines that were printed as messages. -/
  messages : List String := []
  /-- What a look at the clock shows, by how often clocks were looked at before. -/
  clock : Nat → Instant := fun _ => .epoch
  /-- What a look at the clock that is never set shows, likewise. -/
  uptime : Nat → Nat := fun _ => 0
  /-- How often a clock was looked at. -/
  looks : Nat := 0
  /-- What stops the writing of a file, if anything, by how many were written before. -/
  fileFault : Nat → Option WriteFault := fun _ => none
  /-- How many files were written. -/
  files : Nat := 0
  /-- What stops the writing of a piece of a file, likewise. -/
  pieceFault : Nat → Option WriteFault := fun _ => none
  /-- How many pieces were written. -/
  pieces : Nat := 0

/-- The actions of a machine that is a value. -/
abbrev WorldM := StateM World

/-- A file that is being written: its place, and where in it the next byte goes. -/
structure OpenFile where
  place : Location
  offset : Nat
  deriving DecidableEq, Repr

/-- A content with bytes written from an offset on. A gap in front of them is filled with
zeros. -/
def overwrite (content : Bytes) (offset : Nat) (chunk : Bytes) : Bytes :=
  content.take offset ++ List.replicate (offset - content.length) 0 ++ chunk ++
    content.drop (offset + chunk.length)

namespace Disk

/-- Begin to write a file. -/
def create (disk : Disk) (path : Path) : Except FileError (OpenFile × Disk) := do
  let place ← disk.placeToWrite path
  return (⟨place, 0⟩, disk.put place (.file []))

/-- The content of the file at a place. -/
def contentAt (disk : Disk) (place : Location) : Bytes :=
  match disk.node? place with
  | some (.file content) => content
  | _ => []

/-- Write to a file that is being written. -/
def append (disk : Disk) (file : OpenFile) (chunk : Bytes) : OpenFile × Disk :=
  (⟨file.place, file.offset + chunk.length⟩,
    disk.put file.place (.file (overwrite (disk.contentAt file.place) file.offset chunk)))

end Disk

/-- The part of a text that is written. -/
def WriteFault.written (fault? : Option WriteFault) (text : Bytes) : Bytes :=
  match fault? with
  | none => text
  | some fault => text.take fault.limit

namespace World

/-- Replace the disk. -/
def setDisk (world : World) (disk : Disk) : World := { world with disk := disk }

/-- Write a file. The path has to lead to a place for one; then the old content is lost, whether or
not the writing gets to its end. -/
def writeFile (world : World) (path : Path) (content : Bytes) : Except FileError Unit × World :=
  let fault? := world.fileFault world.files
  match world.disk.write path (WriteFault.written fault? content) with
  | .error error => (.error error, world)
  | .ok disk =>
    (match fault? with
      | none => .ok ()
      | some fault => .error fault.error,
      { world with disk := disk, files := world.files + 1 })

/-- Begin to write a file. -/
def createFile (world : World) (path : Path) : Except FileError OpenFile × World :=
  match world.disk.create path with
  | .error error => (.error error, world)
  | .ok (file, disk) => (.ok file, world.setDisk disk)

/-- Write to a file that is being written. -/
def append (world : World) (file : OpenFile) (chunk : Bytes) : Appended OpenFile × World :=
  let fault? := world.pieceFault world.pieces
  let written := WriteFault.written fault? chunk
  let (file, disk) := world.disk.append file written
  (⟨file, chunk.drop written.length, fault?.map WriteFault.error⟩,
    { world with disk := disk, pieces := world.pieces + 1 })

/-- Look at a clock. -/
def look {α : Type} (world : World) (clock : Nat → α) : α × World :=
  (clock world.looks, { world with looks := world.looks + 1 })

end World

/-- The actions on the state of a machine. -/
instance : Machine WorldM where
  Handle := OpenFile
  readFile path := fun world => (world.disk.read path, world)
  writeFile path content := fun world => world.writeFile path content
  makeDirectories path := fun world =>
    let (result, disk) := world.disk.makeDirectories path
    (result, world.setDisk disk)
  createFile path := fun world => world.createFile path
  append file chunk := fun world => world.append file chunk
  print text := fun world => ((), { world with printed := world.printed ++ text })
  printMessage line := fun world =>
    ((), { world with messages := world.messages ++ [line] })
  now := fun world => world.look world.clock
  uptime := fun world => world.look world.uptime

end PlainSync
