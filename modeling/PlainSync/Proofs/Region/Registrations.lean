import PlainSync.Region.Index

/-!
# Runs of requests to an index

An index is asked for many things, and only a registration changes it. Whatever is asked in
between, a name keeps the entry of its first registration.
-/

namespace PlainSync.Region

namespace Index

/-- Something that an index is asked for. -/
inductive Request where
  | register (entry : TypeEntry)
  | lookup (name : String)
  | regionOf (name : String)
  | typesIn (region : RegionId)
  | managedRegions
  | size
  | checkAccess (source : Option RegionId) (name : String) (policy : CrossRegionPolicy)
  deriving DecidableEq, Repr

/-- What an index answers. -/
inductive Answer where
  | entry (found : Option TypeEntry)
  | region (region : RegionId)
  | types (types : List TypeEntry)
  | regions (regions : List RegionId)
  | count (count : Nat)
  | access (result : Except AccessError Decision)

/-- The answer to a request, and the index behind it. A registration is answered with the entry
that the name has then. -/
def perform (index : Index) : Request → Answer × Index
  | .register entry => (.entry ((index.register entry).lookup? entry.name), index.register entry)
  | .lookup name => (.entry (index.lookup? name), index)
  | .regionOf name => (.region (index.regionOf name), index)
  | .typesIn region => (.types (index.typesIn region), index)
  | .managedRegions => (.regions index.managedRegions, index)
  | .size => (.count index.size, index)
  | .checkAccess source name policy => (.access (index.checkAccess source name policy), index)

/-- The answers to requests that are made one after the other, and the index behind them. -/
def run (index : Index) : List Request → List Answer × Index
  | [] => ([], index)
  | request :: more =>
    let (answer, index) := index.perform request
    let (answers, index) := index.run more
    (answer :: answers, index)

/-- The entry that a request registers under a name. -/
def Request.registered? (name : String) : Request → Option TypeEntry
  | .register entry => if entry.name = name then some entry else none
  | _ => none

/-- The entry of the first registration of a name. -/
def firstRegistered? (name : String) (requests : List Request) : Option TypeEntry :=
  requests.findSome? (Request.registered? name)

/-! ## Registering one type -/

/-- The types stand in the order of their names, each name once. -/
def InOrder (types : List TypeEntry) : Prop :=
  types.Pairwise fun first second => first.name < second.name

/-- The types are those that were there and the new one. -/
theorem mem_of_mem_insertByName {entry other : TypeEntry} {types : List TypeEntry}
    (hother : other ∈ insertByName entry types) : other = entry ∨ other ∈ types := by
  induction types with
  | nil => exact Or.inl (List.mem_singleton.mp hother)
  | cons first more ih =>
    rw [insertByName] at hother
    split at hother
    · exact List.mem_cons.mp hother
    · split at hother
      · rcases List.mem_cons.mp hother with hfirst | hmore
        · exact Or.inr (List.mem_cons.mpr (Or.inl hfirst))
        · exact (ih hmore).imp_right (List.mem_cons_of_mem first)
      · exact Or.inr hother

/-- A type is inserted in its place. -/
theorem inOrder_insertByName (entry : TypeEntry) {types : List TypeEntry}
    (htypes : InOrder types) : InOrder (insertByName entry types) := by
  induction types with
  | nil => exact List.pairwise_singleton _ _
  | cons first more ih =>
    obtain ⟨hfirst, hmore⟩ := List.pairwise_cons.mp htypes
    rw [insertByName]
    split
    · next hless =>
      refine List.pairwise_cons.mpr ⟨?_, htypes⟩
      intro other hother
      rcases List.mem_cons.mp hother with rfl | hother
      · exact hless
      · exact String.lt_trans hless (hfirst other hother)
    · split
      · next hgreater =>
        refine List.pairwise_cons.mpr ⟨?_, ih hmore⟩
        intro other hother
        rcases mem_of_mem_insertByName hother with rfl | hother
        · exact hgreater
        · exact hfirst other hother
      · exact htypes

/-- A name that is registered keeps its entry, and one that is not gets the new one. -/
theorem find?_insertByName (entry : TypeEntry) {types : List TypeEntry} (htypes : InOrder types)
    (name : String) :
    (insertByName entry types).find? (fun other => other.name == name) =
      (types.find? fun other => other.name == name).or
        (if entry.name = name then some entry else none) := by
  induction types with
  | nil =>
    by_cases hname : entry.name = name <;> simp [insertByName, hname]
  | cons first more ih =>
    obtain ⟨hfirst, hmore⟩ := List.pairwise_cons.mp htypes
    rw [insertByName]
    split
    · next hless =>
      rw [List.find?_cons]
      by_cases hname : entry.name = name
      · -- All registered names come behind the new one.
        have habsent : (first :: more).find? (fun other => other.name == name) = none := by
          rw [List.find?_eq_none]
          intro other hother hsame
          have hsame := beq_iff_eq.mp hsame
          rcases List.mem_cons.mp hother with rfl | hother
          · rw [hname, hsame] at hless
            exact String.lt_irrefl name hless
          · have hbehind := String.lt_trans hless (hfirst other hother)
            rw [hname, hsame] at hbehind
            exact String.lt_irrefl name hbehind
        rw [habsent, hname, beq_self_eq_true, if_pos rfl, Option.none_or]
      · rw [beq_eq_false_iff_ne.mpr hname, if_neg hname, Option.or_none]
    · split
      · next hgreater =>
        rw [List.find?_cons, List.find?_cons]
        split
        · rw [Option.some_or]
        · exact ih hmore
      · next hnotLess hnotGreater =>
        have hsame : entry.name = first.name :=
          String.le_antisymm (String.not_lt.mp hnotGreater) (String.not_lt.mp hnotLess)
        by_cases hname : entry.name = name
        · rw [List.find?_cons, ← hsame, hname, beq_self_eq_true, Option.some_or]
        · rw [if_neg hname, Option.or_none]

/-! ## Runs -/

/-- A request changes an index only by what it registers. -/
theorem inOrder_perform {index : Index} (hindex : InOrder index.types) (request : Request) :
    InOrder (index.perform request).2.types := by
  cases request with
  | register entry => exact inOrder_insertByName entry hindex
  | _ => exact hindex

/-- A request registers a name that was not registered before. -/
theorem lookup?_perform {index : Index} (hindex : InOrder index.types) (request : Request)
    (name : String) :
    (index.perform request).2.lookup? name =
      (index.lookup? name).or (request.registered? name) := by
  cases request with
  | register entry => exact find?_insertByName entry hindex name
  | _ => exact (Option.or_none).symm

/-- Behind a run a name has the entry that it had in front of it, or else that of its first
registration in the run. -/
theorem lookup?_run {index : Index} (hindex : InOrder index.types) (requests : List Request)
    (name : String) :
    (index.run requests).2.lookup? name =
      (index.lookup? name).or (firstRegistered? name requests) := by
  induction requests generalizing index with
  | nil => exact (Option.or_none).symm
  | cons request more ih =>
    have hrest : (index.run (request :: more)).2 = ((index.perform request).2.run more).2 := rfl
    rw [hrest, ih (inOrder_perform hindex request), lookup?_perform hindex, Option.or_assoc]
    unfold firstRegistered?
    rw [List.findSome?_cons]
    cases request.registered? name with
    | none => rw [Option.none_or]
    | some entry => rw [Option.some_or]

/-- In an index that began without types a name has the entry of its first registration. -/
theorem lookup?_run_empty (requests : List Request) (name : String) :
    (empty.run requests).2.lookup? name = firstRegistered? name requests := by
  have hrun : (empty.run requests).2.lookup? name =
      (empty.lookup? name).or (firstRegistered? name requests) :=
    lookup?_run List.Pairwise.nil requests name
  rwa [show empty.lookup? name = none from rfl, Option.none_or] at hrun

/-- What is asked later does not change the first registration of a name. -/
theorem firstRegistered?_append_of_eq_some {name : String} {before : List Request}
    {entry : TypeEntry} (hentry : firstRegistered? name before = some entry)
    (after : List Request) :
    firstRegistered? name (before ++ after) = some entry := by
  unfold firstRegistered? at hentry ⊢
  rw [List.findSome?_append, hentry, Option.some_or]

end Index

end PlainSync.Region
