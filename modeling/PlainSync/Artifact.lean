import PlainSync.Json.Printer
import PlainSync.Sha256

/-!
# The index of artifacts

The files that a run wrote, each with its digest and its size.
-/

namespace PlainSync

/-- A file that was written. -/
structure Artifact where
  /-- The path of the file, as it is shown. -/
  path : String
  kind : String
  /-- The SHA-256 digest of the contents, in hexadecimal. -/
  sha256 : String
  /-- The number of bytes. -/
  size : Nat
  deriving DecidableEq, Repr

namespace Artifact

/-- The entry of a file with these contents. -/
def ofBytes (path kind : String) (content : Bytes) : Artifact :=
  ⟨path, kind, Sha256.hex content, content.length⟩

/-- The entry as a value. -/
def json (artifact : Artifact) : Json :=
  .object
    [("path", .string artifact.path), ("kind", .string artifact.kind),
      ("sha256", .string artifact.sha256), ("size_bytes", .nat artifact.size)]

end Artifact

/-- The files that a run wrote, in order. -/
structure ArtifactIndex where
  runId : String
  generated : String
  artifacts : List Artifact := []
  deriving DecidableEq, Repr

namespace ArtifactIndex

/-- Record a file. -/
def add (index : ArtifactIndex) (artifact : Artifact) : ArtifactIndex :=
  { index with artifacts := index.artifacts ++ [artifact] }

/-- The index as a value. -/
def json (index : ArtifactIndex) : Json :=
  .object
    [("index_version", .nat 1), ("run_id", .string index.runId),
      ("generated_utc", .string index.generated),
      ("artifacts", .array (index.artifacts.map Artifact.json))]

/-- The index as indented text. -/
def toJson (index : ArtifactIndex) : String := index.json.pretty

end ArtifactIndex

end PlainSync
