import PlainSync.Files.Path

/-!
# Output paths

Where the normalized texts of several inputs go: into one directory, each under the name of
its input. Inputs of one name are refused, since one text would overwrite the other.
-/

namespace PlainSync

/-- Two inputs whose outputs would have one name, as they are shown. -/
structure NameClash where
  name : String
  first : String
  second : String
  deriving DecidableEq, Repr

namespace NameClash

/-- The clash of an input with an earlier one that has its name. -/
def ofPaths (name first second : Path) : NameClash :=
  ⟨name.display, first.display, second.display⟩

/-- The text of a clash. -/
def message (clash : NameClash) : String :=
  s!"{clash.first} and {clash.second} would both be written as {clash.name}"

end NameClash

/-- The name under which an input is written: its file name, or all of it if it has none. -/
def outputName (input : Path) : Path := (Path.fileName? input).getD input

/-- The outputs of inputs in a directory, the names that are taken being given with the inputs
that took them. -/
def outputPathsBeside (taken : List (Path × Path)) (directory : Path) :
    List Path → Except NameClash (List Path)
  | [] => .ok []
  | input :: more =>
    match taken.lookup (outputName input) with
    | some first => .error (.ofPaths (outputName input) first input)
    | none => do
      let outputs ← outputPathsBeside ((outputName input, input) :: taken) directory more
      return Path.join directory (outputName input) :: outputs

/-- The outputs of inputs in a directory. -/
def outputPaths (directory : Path) (inputs : List Path) : Except NameClash (List Path) :=
  outputPathsBeside [] directory inputs

end PlainSync
