/-!
# File errors

Why a file or directory could not be read or written.
-/

namespace PlainSync

/-- Why a file operation failed. -/
inductive FileError where
  | notFound
  | alreadyExists
  | isADirectory
  | notADirectory
  /-- A name, or the whole path, is longer than a disk admits. -/
  | nameTooLong
  /-- A path holds the byte that ends it for the system. -/
  | nulInPath
  /-- A file that is read as text is not valid UTF-8. -/
  | invalidData
  /-- Anything else, in the words of the system. -/
  | other (text : String)
  deriving DecidableEq, Repr

namespace FileError

/-- The word for the kind of an error. -/
def kind : FileError → String
  | notFound => "NotFound"
  | alreadyExists => "AlreadyExists"
  | isADirectory => "IsADirectory"
  | notADirectory => "NotADirectory"
  | nameTooLong => "InvalidFilename"
  | nulInPath => "InvalidInput"
  | invalidData => "InvalidData"
  | other _ => "Other"

/-- The text of an error. -/
def message : FileError → String
  | notFound => "No such file or directory (os error 2)"
  | alreadyExists => "File exists (os error 17)"
  | isADirectory => "Is a directory (os error 21)"
  | notADirectory => "Not a directory (os error 20)"
  | nameTooLong => "File name too long (os error 36)"
  | nulInPath => "file name contained an unexpected NUL byte"
  | invalidData => "stream did not contain valid UTF-8"
  | other text => text

end FileError

end PlainSync
