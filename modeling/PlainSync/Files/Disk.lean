import PlainSync.Files.Error
import PlainSync.Files.Path

/-!
# Disks

The files and directories of a machine without links. A path is followed name by name from
the root or from the current directory; what it leads to decides how an operation fails.
-/

namespace PlainSync

/-- A place on a disk: the names that lead to it from the root. -/
abbrev Location := List Path

/-- What stands at a place. -/
inductive Node where
  | directory
  | file (content : Bytes)
  deriving DecidableEq, Repr

/-- The contents of a disk. -/
structure Disk where
  nodes : List (Location × Node) := []
  /-- The current directory. -/
  here : Location := []
  deriving DecidableEq, Repr

/-- Where a path leads. -/
structure Target where
  /-- The directory that the path leads through last. -/
  directory : Location
  /-- The name that is looked for in that directory. There is none if the path leads to the
  directory itself. -/
  name : Option Path

namespace Disk

/-- What stands at a place. The root is a directory. -/
def node? (disk : Disk) (location : Location) : Option Node :=
  if location.isEmpty then some .directory else disk.nodes.lookup location

/-- Put something at a place, instead of what stands there. -/
def put (disk : Disk) (location : Location) (node : Node) : Disk :=
  { disk with
    nodes := (location, node) :: disk.nodes.filter fun entry => entry.1 ≠ location }

/-- The place of a name in a directory. -/
def placeOf (directory : Location) (name : Path) : Except FileError Location :=
  if Path.nameLimit < name.length then .error .nameTooLong else .ok (directory ++ [name])

/-- Follow names from one directory to another. -/
def follow (disk : Disk) (location : Location) : List Path → Except FileError Location
  | [] => .ok location
  | name :: more =>
    if name = Path.dot then disk.follow location more
    else if name = Path.dots then disk.follow location.dropLast more
    else do
      let place ← placeOf location name
      match disk.node? place with
      | some .directory => disk.follow place more
      | some (.file _) => .error .notADirectory
      | none => .error .notFound

/-- Where a path starts. -/
def startOf (disk : Disk) (path : Path) : Location :=
  if Path.isAbsolute path then [] else disk.here

/-- Find out where a path leads. An empty path leads nowhere. -/
def locate (disk : Disk) (path : Path) : Except FileError Target :=
  if path.contains 0 then .error .nulInPath
  else if path.isEmpty then .error .notFound
  else if Path.pathLimit < path.length then .error .nameTooLong
  else
    match (Path.names path).getLast? with
    | some name =>
      if name = Path.dot ∨ name = Path.dots then do
        return ⟨← disk.follow (disk.startOf path) (Path.names path), none⟩
      else do
        return ⟨← disk.follow (disk.startOf path) (Path.names path).dropLast, some name⟩
    | none => .ok ⟨disk.startOf path, none⟩

/-- What stands where a path leads. -/
def find (disk : Disk) (target : Target) : Except FileError (Option Node) :=
  match target.name with
  | some name => do return disk.node? (← placeOf target.directory name)
  | none => .ok (some .directory)

/-- Read a file. -/
def read (disk : Disk) (path : Path) : Except FileError Bytes := do
  match ← disk.find (← disk.locate path) with
  | none => .error .notFound
  | some .directory => .error .isADirectory
  | some (.file content) =>
    if Path.endsInSlash path then .error .notADirectory else .ok content

/-- The place at which a path lets a file be written. -/
def placeToWrite (disk : Disk) (path : Path) : Except FileError Location := do
  let target ← disk.locate path
  match target.name with
  | none => .error .isADirectory
  | some name =>
    if Path.endsInSlash path then .error .isADirectory
    else
      let place ← placeOf target.directory name
      if disk.node? place = some .directory then .error .isADirectory else .ok place

/-- Write a file, instead of one that may stand there. -/
def write (disk : Disk) (path : Path) (content : Bytes) : Except FileError Disk := do
  return disk.put (← disk.placeToWrite path) (.file content)

/-- A path leads to a directory. -/
def isDirectory (disk : Disk) (path : Path) : Bool :=
  match disk.locate path >>= disk.find with
  | .ok node => node == some .directory
  | .error _ => false

/-- Create a directory in one that exists. -/
def makeDirectory (disk : Disk) (path : Path) : Except FileError Disk := do
  let target ← disk.locate path
  match target.name, ← disk.find target with
  | some name, none => .ok (disk.put (target.directory ++ [name]) .directory)
  | _, _ => .error .alreadyExists

/-- Create a directory, unless it exists. -/
def ensureDirectory (disk : Disk) (path : Path) : Except FileError Disk :=
  match disk.makeDirectory path with
  | .ok disk => .ok disk
  | .error error => if disk.isDirectory path then .ok disk else .error error

/-- A disk that an operation changed, or the error that left it as it was. -/
def orUnchanged (disk : Disk) : Except FileError Disk → Except FileError Unit × Disk
  | .ok changed => (.ok (), changed)
  | .error error => (.error error, disk)

/-- Create a directory. If what leads to it is missing, create that first with `parents`. What
was created stays even if the directory itself cannot be. -/
def ensureBehind (disk : Disk) (path : Path)
    (parents : Disk → Except FileError Unit × Disk) : Except FileError Unit × Disk :=
  match disk.ensureDirectory path with
  | .error .notFound =>
    match parents disk with
    | (.ok (), disk) => disk.orUnchanged (disk.ensureDirectory path)
    | failed => failed
  | result => disk.orUnchanged result

/-- Create the directory with these components, last one first, and those that lead to it. -/
def makePath (absolute : Bool) : List Path → Disk → Except FileError Unit × Disk
  | [], disk => (.ok (), disk)
  | last :: earlier, disk =>
    disk.ensureBehind (Path.ofComponents absolute (last :: earlier).reverse)
      (makePath absolute earlier)

/-- Create a directory and those that lead to it, as far as they do not exist. -/
def makeDirectories (disk : Disk) (path : Path) : Except FileError Unit × Disk :=
  if path.isEmpty then (.ok (), disk)
  else
    disk.ensureBehind path
      (makePath (Path.isAbsolute path) (Path.components path).reverse.tail)

end Disk

end PlainSync
