import PlainSync.Artifact
import PlainSync.Proofs.Files.Places
import PlainSync.Proofs.Json.Members
import PlainSync.Proofs.Log.Texts
import PlainSync.Proofs.Normalize.Extent

/-!
# Reports and indexes that are read back

What a command writes for itself is indented text. As long as the files that it tells of fit the
memory of a machine, this text is read back as the value that it was written from.
-/

namespace PlainSync

open Json (maxDepth)

/-- The indented text of an object begins with a brace. -/
theorem Json.head?_pretty_object (members : List (String × Json)) :
    (Json.object members).pretty.toList.head? = some '\x7b' := by
  rw [Json.pretty, String.toList_ofList]
  cases members with
  | nil => rfl
  | cons member more => rfl

/-! ## Values in files -/

/-- How many bytes a file has. -/
def Node.size : Node → Nat
  | .directory => 0
  | .file content => content.length

namespace Disk

/-- The files on a disk fit the memory of a machine. -/
def Fits (disk : Disk) : Prop :=
  ∀ place content, disk.node? place = some (.file content) → content.length < Nat.pow 2 63

/-- A disk fits if all that is recorded of it does. -/
theorem fits_of_nodes {disk : Disk}
    (hnodes : ∀ entry ∈ disk.nodes, entry.2.size < Nat.pow 2 63) : disk.Fits := by
  intro place content hnode
  unfold node? at hnode
  split at hnode
  · cases hnode
  · obtain ⟨front, back, hsplit, -⟩ := List.lookup_eq_some_iff.mp hnode
    exact hnodes (place, .file content) (hsplit ▸ List.mem_append_right _ List.mem_cons_self)

/-- A file is read as a value. -/
def ReadsJson (disk : Disk) (path : Path) (value : Json) : Prop :=
  ∃ text, (disk.read path).toOption.bind Bytes.toString? = some text ∧
    Json.parse? text = some value

/-- A file with the indented text of a value is read as that value, with the members of its objects
in order. -/
theorem readsJson_normal {disk : Disk} {path : Path} {value : Json}
    (hread : disk.read path = .ok (Bytes.ofString value.pretty)) (hexact : value.IsExact)
    (hdepth : value.depth ≤ maxDepth) : disk.ReadsJson path value.normal := by
  refine ⟨value.pretty, ?_, ?_⟩
  · rw [hread]
    exact Bytes.toString?_ofString value.pretty
  · rw [Json.parse?_pretty hexact, if_pos hdepth]

/-- A value whose objects have their members in order is read as itself. -/
theorem readsJson {disk : Disk} {path : Path} {value : Json} {limit : Nat}
    (hread : disk.read path = .ok (Bytes.ofString value.pretty)) (hvalue : value.ReadsBackIn limit)
    (hlimit : limit ≤ maxDepth) : disk.ReadsJson path value := by
  have hreads := readsJson_normal hread hvalue.isExact (Nat.le_trans hvalue.depth_le hlimit)
  rwa [Json.normal_of_isOrdered value hvalue.isOrdered] at hreads

end Disk

/-! ## Reports -/

variable {limit : Nat}

/-- A reason is read back if its numbers fit. -/
theorem Source.KeepReason.readsBackIn_json {reason : KeepReason} (hreason : reason.Within limit)
    (hlimit : limit < Nat.pow 2 64) : reason.json.ReadsBackIn 1 := by
  cases reason with
  | arity expected found =>
    obtain ⟨hexpected, hfound⟩ := hreason
    refine .sorted ?_
    simp only [List.forall_mem_cons]
    exact ⟨.string _, .nat (Nat.lt_of_le_of_lt hexpected hlimit),
      .nat (Nat.lt_of_le_of_lt hfound hlimit), List.forall_mem_nil _⟩
  | unterminated =>
    refine .sorted ?_
    simp only [List.forall_mem_cons]
    exact ⟨.string _, List.forall_mem_nil _⟩
  | directive line =>
    refine .sorted ?_
    simp only [List.forall_mem_cons]
    exact ⟨.string _, .nat (Nat.lt_of_le_of_lt hreason hlimit), List.forall_mem_nil _⟩

/-- A call that is kept is read back if its numbers fit. -/
theorem KeptCall.readsBackIn_json {call : KeptCall} (hcall : call.Within limit)
    (hlimit : limit < Nat.pow 2 64) : call.json.ReadsBackIn 2 := by
  refine .sorted ?_
  simp only [List.forall_mem_cons]
  exact ⟨.nat (Nat.lt_of_le_of_lt hcall.line hlimit), .string _,
    Source.KeepReason.readsBackIn_json hcall.reason hlimit, List.forall_mem_nil _⟩

/-- A report is read back if its counts and the numbers in its entries fit 64 bits. -/
theorem Report.readsBackIn_json {report : Report}
    (htotal : report.expanded.length < Nat.pow 2 64)
    (hkept : ∀ call ∈ report.kept, call.Within limit) (hlimit : limit < Nat.pow 2 64) :
    report.json.ReadsBackIn 4 := by
  refine .sorted ?_
  simp only [List.forall_mem_cons]
  refine ⟨.bool _, ?_, ?_, List.forall_mem_nil _⟩
  · refine .sorted (List.forall_mem_map.mpr fun builtin _ => .nat ?_)
    exact Nat.lt_of_le_of_lt List.count_le_length htotal
  · exact .array (List.forall_mem_map.mpr fun call hcall =>
      KeptCall.readsBackIn_json (hkept call hcall) hlimit)

/-- The report of a source that fits the memory of a machine is read back. -/
theorem Session.readsBackIn_report (session : Session) {source : Bytes}
    (hsource : source.length < Nat.pow 2 63) :
    (session.normalize source).1.report.json.ReadsBackIn 4 := by
  obtain ⟨hcount, hwithin⟩ := Source.bounded_report session source
  have hmemory : Nat.pow 2 63 < Nat.pow 2 64 := by decide
  exact Report.readsBackIn_json (by omega) hwithin (by omega)

/-- The reports of sources in a session are read back if all of them fit. -/
theorem Session.readsBackIn_reports {sources : List Bytes}
    (hsources : ∀ source ∈ sources, source.length < Nat.pow 2 63) (session : Session) :
    ∀ normalized ∈ (session.normalizeAll sources).1,
      normalized.report.json.ReadsBackIn 4 := by
  induction sources generalizing session with
  | nil => exact List.forall_mem_nil _
  | cons source more ih =>
    obtain ⟨hsource, hmore⟩ := List.forall_mem_cons.mp hsources
    exact List.forall_mem_cons.mpr ⟨session.readsBackIn_report hsource, ih hmore _⟩

/-! ## Indexes -/

/-- An artifact whose size fits has exact numbers. -/
theorem Artifact.isExact_json {artifact : Artifact} (hsize : artifact.size < Nat.pow 2 64) :
    artifact.json.IsExact :=
  ⟨trivial, trivial, trivial, Json.integerRange_natCast hsize, trivial⟩

/-- An index of artifacts whose sizes fit 64 bits can be read back. -/
theorem ArtifactIndex.isExact_json {index : ArtifactIndex}
    (hsizes : ∀ artifact ∈ index.artifacts, artifact.size < Nat.pow 2 64) :
    index.json.IsExact := by
  refine ⟨Json.integerRange_natCast (by decide), trivial, trivial, ?_, trivial⟩
  exact Json.itemsExact_iff.mpr (List.forall_mem_map.mpr fun artifact hartifact =>
    Artifact.isExact_json (hsizes artifact hartifact))

/-- No index is nested too deep to be read. -/
theorem ArtifactIndex.depth_json_le (index : ArtifactIndex) : index.json.depth ≤ maxDepth := by
  have hitems : Json.depthOfItems (index.artifacts.map Artifact.json) ≤ 1 :=
    Json.depthOfItems_le_iff.mpr (List.forall_mem_map.mpr fun artifact _ => Nat.le_refl 1)
  simp only [json, Json.depth, Json.depthOfMembers, Json.nat, maxDepth]
  omega

end PlainSync
