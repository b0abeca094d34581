import PlainSync.Text.Display
import PlainSync.Text.Split

/-!
# Paths

A path is a row of bytes, which need not be UTF-8. It is kept as it is given; only its components
are looked at. Empty components and single dots lead nowhere, so `a//./b` has the components of
`a/b`.
-/

namespace PlainSync

/-- A path, or a name on it. -/
abbrev Path := Bytes

namespace Path

/-- A text is a path in its UTF-8 encoding. -/
scoped instance : Coe String Path := ⟨Bytes.ofString⟩

/-- The name that stands for the directory itself. -/
def dot : Path := [Byte.dot]

/-- The name that stands for the directory above. -/
def dots : Path := [Byte.dot, Byte.dot]

/-- The path starts at the root. -/
def isAbsolute (path : Path) : Bool := path.head? == some Byte.slash

/-- The path ends in a slash. -/
def endsInSlash (path : Path) : Bool := path.getLast? == some Byte.slash

/-- What stands between the slashes, without what is empty. -/
def names (path : Path) : List Path :=
  (splitOn Byte.slash path).filter fun part => !part.isEmpty

/-- The names that lead somewhere. -/
def components (path : Path) : List Path := (names path).filter fun name => name ≠ dot

/-- The name of the file that a path leads to. A path to the root, to the directory above or
to nowhere has none. -/
def fileName? (path : Path) : Option Path :=
  (components path).getLast?.filter fun name => name ≠ dots

/-- The most bytes that a name may have. -/
def nameLimit : Nat := 255

/-- The most bytes that a path may have. -/
def pathLimit : Nat := 4095

/-- The path of a name inside a directory. The text of the directory is kept, and an absolute
name takes its place. -/
def join (directory name : Path) : Path :=
  if isAbsolute name then name
  else if directory.isEmpty || endsInSlash directory then directory ++ name
  else directory ++ Byte.slash :: name

/-- The path with these components. -/
def ofComponents (absolute : Bool) (parts : List Path) : Path :=
  (if absolute then [Byte.slash] else []) ++ List.intercalate [Byte.slash] parts

end Path

end PlainSync
