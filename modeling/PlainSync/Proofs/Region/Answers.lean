import Mathlib.Data.Finset.Card
import Mathlib.Data.List.Sort
import PlainSync.Proofs.Region.Registrations
import PlainSync.Proofs.Text.ByteOrder

/-!
# What an index answers

An index that began without types has the first registration of each name and nothing else, and
its answers say exactly that. Where every name is registered with one entry only, the answers do not
depend on how often and in which order the types were registered.
-/

namespace PlainSync.Region.Index

/-! ## Registrations -/

/-- The entry that a request registers, if it is a registration. -/
def Request.entry? : Request → Option TypeEntry
  | .register entry => some entry
  | _ => none

/-- The entries that are registered, in the order of the requests. -/
def registrations (requests : List Request) : List TypeEntry := requests.filterMap Request.entry?

/-- The first registration of a name is found among all of them. -/
theorem firstRegistered?_eq_find? (name : String) (requests : List Request) :
    firstRegistered? name requests =
      (registrations requests).find? fun entry => entry.name == name := by
  unfold firstRegistered? registrations
  induction requests with
  | nil => rfl
  | cons request more ih =>
    rw [List.findSome?_cons]
    cases request with
    | register entry =>
      have hentries : (Request.register entry :: more).filterMap Request.entry? =
          entry :: more.filterMap Request.entry? := rfl
      rw [hentries, List.find?_cons, ← ih, Request.registered?]
      by_cases hname : entry.name = name
      · rw [if_pos hname, beq_iff_eq.mpr hname]
      · rw [if_neg hname, beq_eq_false_iff_ne.mpr hname]
    | _ => exact ih

variable {name : String} {entry : TypeEntry} {requests : List Request}

/-- The first registration of a name has the name. -/
theorem name_of_firstRegistered? (hentry : firstRegistered? name requests = some entry) :
    entry.name = name := by
  rw [firstRegistered?_eq_find?] at hentry
  have hfound := List.find?_some hentry
  exact beq_iff_eq.mp hfound

/-- The names that have a first registration are those that are registered. -/
theorem exists_firstRegistered?_iff :
    (∃ entry, firstRegistered? name requests = some entry) ↔
      name ∈ (registrations requests).map TypeEntry.name := by
  rw [firstRegistered?_eq_find?, ← Option.isSome_iff_exists, List.find?_isSome]
  simp only [beq_iff_eq, List.mem_map]

/-- Every registration of a name has the same entry. -/
def IsConsistent (requests : List Request) : Prop :=
  ∀ first ∈ registrations requests, ∀ second ∈ registrations requests,
    first.name = second.name → first = second

/-- Where every name has one region, any registration of a name is the first. -/
theorem IsConsistent.firstRegistered?_eq_some_iff (hconsistent : IsConsistent requests) :
    firstRegistered? name requests = some entry ↔
      entry ∈ registrations requests ∧ entry.name = name := by
  constructor
  · intro hentry
    refine ⟨?_, name_of_firstRegistered? hentry⟩
    rw [firstRegistered?_eq_find?] at hentry
    exact List.mem_of_find?_eq_some hentry
  · rintro ⟨hmem, rfl⟩
    obtain ⟨first, hfirst⟩ := exists_firstRegistered?_iff.mpr (List.mem_map_of_mem hmem)
    have hfound := hfirst
    rw [firstRegistered?_eq_find?] at hfound
    rw [hfirst, hconsistent first (List.mem_of_find?_eq_some hfound) entry hmem
      (name_of_firstRegistered? hfirst)]

/-! ## Types in order -/

section InOrder

variable {types others : List TypeEntry}

/-- Types in order have names of their own. -/
theorem InOrder.nodup_names (htypes : InOrder types) : (types.map TypeEntry.name).Nodup :=
  List.pairwise_map.mpr (htypes.imp ne_of_lt)

/-- In order, a type is found under its name. -/
theorem InOrder.mem_iff (htypes : InOrder types) :
    entry ∈ types ↔ types.find? (fun other => other.name == entry.name) = some entry := by
  refine ⟨fun hmem => ?_, List.mem_of_find?_eq_some⟩
  obtain ⟨before, after, rfl⟩ := List.append_of_mem hmem
  obtain ⟨-, -, hbefore⟩ := List.pairwise_append.mp htypes
  rw [List.find?_eq_some_iff_append]
  refine ⟨beq_self_eq_true _, before, after, rfl, fun other hother => ?_⟩
  have hless := hbefore other hother entry List.mem_cons_self
  rw [Bool.not_eq_true', beq_eq_false_iff_ne]
  exact ne_of_lt hless

/-- Types in order are determined by what is found under each name. -/
theorem InOrder.eq_of_find? (htypes : InOrder types) (hothers : InOrder others)
    (hfind : ∀ name, types.find? (fun other => other.name == name) =
      others.find? fun other => other.name == name) : types = others := by
  refine List.Perm.eq_of_pairwise ?_ htypes hothers ?_
  · exact fun first second _ _ hless hgreater => absurd hgreater (lt_asymm hless)
  · rw [List.perm_ext_iff_of_nodup htypes.nodup_names.of_map hothers.nodup_names.of_map]
    intro entry
    rw [htypes.mem_iff, hothers.mem_iff, hfind]

/-- Registrations keep the types in order. -/
theorem inOrder_run {index : Index} (hindex : InOrder index.types) (requests : List Request) :
    InOrder (index.run requests).2.types := by
  induction requests generalizing index with
  | nil => exact hindex
  | cons request more ih => exact ih (inOrder_perform hindex request)

end InOrder

/-! ## Regions in order -/

section Regions

variable {region other : RegionId} {regions : List RegionId}

/-- Regions stand in ascending order, each once. -/
def Ascending (regions : List RegionId) : Prop :=
  regions.Pairwise fun first second => first.number < second.number

/-- The regions are those that were there and the new one. -/
theorem mem_insertRegion :
    other ∈ insertRegion region regions ↔ other = region ∨ other ∈ regions := by
  induction regions with
  | nil => exact List.mem_singleton.trans (by simp)
  | cons first more ih =>
    rw [insertRegion]
    split
    · exact List.mem_cons
    · split
      · rw [List.mem_cons, ih, List.mem_cons, or_left_comm]
      · next hnotLess hnotGreater =>
        have hsame : region = first := by
          cases region
          cases first
          exact congrArg RegionId.mk
            (UInt32.le_antisymm (UInt32.not_lt.mp hnotGreater) (UInt32.not_lt.mp hnotLess))
        rw [hsame, List.mem_cons, or_self_left]

/-- A region is inserted in its place. -/
theorem ascending_insertRegion (hregions : Ascending regions) :
    Ascending (insertRegion region regions) := by
  induction regions with
  | nil => exact List.pairwise_singleton _ _
  | cons first more ih =>
    obtain ⟨hfirst, hmore⟩ := List.pairwise_cons.mp hregions
    rw [insertRegion]
    split
    · next hless =>
      refine List.pairwise_cons.mpr ⟨?_, hregions⟩
      intro other hother
      rcases List.mem_cons.mp hother with rfl | hother
      · exact hless
      · exact UInt32.lt_trans hless (hfirst other hother)
    · split
      · next hgreater =>
        refine List.pairwise_cons.mpr ⟨?_, ih hmore⟩
        intro other hother
        rcases mem_insertRegion.mp hother with rfl | hother
        · exact hgreater
        · exact hfirst other hother
      · exact hregions

/-- Inserting regions loses none and adds none. -/
theorem mem_foldr_insertRegion : other ∈ regions.foldr insertRegion [] ↔ other ∈ regions := by
  induction regions with
  | nil => rfl
  | cons first more ih => rw [List.foldr_cons, mem_insertRegion, ih, List.mem_cons]

/-- The managed regions ascend. -/
theorem ascending_managedRegions (index : Index) : Ascending index.managedRegions := by
  unfold managedRegions
  induction (index.types.map TypeEntry.region).filter RegionId.isManaged with
  | nil => exact List.Pairwise.nil
  | cons first more ih => exact ascending_insertRegion ih

/-- A region is managed if it is not the unmanaged one and has a type. -/
theorem mem_managedRegions {index : Index} :
    region ∈ index.managedRegions ↔
      region.isManaged = true ∧ ∃ entry ∈ index.types, entry.region = region := by
  unfold managedRegions
  rw [mem_foldr_insertRegion, List.mem_filter, List.mem_map, and_comm]

end Regions

/-- The types of a region are those registered for it. -/
theorem mem_typesIn {index : Index} {region : RegionId} :
    entry ∈ index.typesIn region ↔ entry ∈ index.types ∧ entry.region = region := by
  rw [typesIn, List.mem_filter, decide_eq_true_iff]

/-- The types of the regions that occur are the types of the index. -/
theorem perm_flatMap_typesIn {index : Index} (hindex : InOrder index.types) :
    ((.unmanaged :: index.managedRegions).flatMap index.typesIn).Perm index.types := by
  have hnodup : index.types.Nodup := hindex.nodup_names.of_map
  have hregions : (.unmanaged :: index.managedRegions).Nodup := by
    refine List.nodup_cons.mpr ⟨fun hmem => ?_, ?_⟩
    · exact absurd (mem_managedRegions.mp hmem).1 (by decide)
    · exact (ascending_managedRegions index).imp fun hless hsame =>
        UInt32.ne_of_lt hless (congrArg RegionId.number hsame)
  refine (List.perm_ext_iff_of_nodup ?_ hnodup).mpr ?_
  · refine List.nodup_flatMap.mpr ⟨fun region _ => hnodup.filter _, hregions.imp ?_⟩
    intro first second hne entry hfirst hsecond
    exact hne ((mem_typesIn.mp hfirst).2.symm.trans (mem_typesIn.mp hsecond).2)
  · intro entry
    rw [List.mem_flatMap]
    constructor
    · rintro ⟨region, -, hentry⟩
      exact (mem_typesIn.mp hentry).1
    · intro hentry
      refine ⟨entry.region, ?_, mem_typesIn.mpr ⟨hentry, rfl⟩⟩
      rw [List.mem_cons, mem_managedRegions]
      cases hmanaged : entry.region.isManaged with
      | true => exact .inr ⟨rfl, entry, hentry, rfl⟩
      | false =>
        left
        rw [RegionId.isManaged, decide_eq_false_iff_not, not_not] at hmanaged
        exact congrArg RegionId.mk hmanaged

/-! ## Answers -/

/-- An index has the first registration of every name, and answers accordingly. -/
structure Records (index : Index) (requests : List Request) : Prop where
  lookup?_eq : ∀ name, index.lookup? name = firstRegistered? name requests
  regionOf_eq : ∀ name, index.regionOf name =
    ((firstRegistered? name requests).map TypeEntry.region).getD .unmanaged
  mem_types : ∀ entry, entry ∈ index.types ↔ firstRegistered? entry.name requests = some entry
  size_eq : index.size = ((registrations requests).map TypeEntry.name).toFinset.card
  mem_typesIn : ∀ region entry, entry ∈ index.typesIn region ↔
    firstRegistered? entry.name requests = some entry ∧ entry.region = region
  typesIn_inOrder : ∀ region, (index.typesIn region).Pairwise fun first second =>
    Bytes.ofString first.name < Bytes.ofString second.name
  partition : ((.unmanaged :: index.managedRegions).flatMap index.typesIn).Perm index.types
  mem_managedRegions : ∀ region, region ∈ index.managedRegions ↔
    region.number ≠ 0 ∧ ∃ name entry, firstRegistered? name requests = some entry ∧
      entry.region = region
  managedRegions_ascending : index.managedRegions.Pairwise fun first second =>
    first.number < second.number

/-- An index answers from the first registrations. -/
theorem records_run (requests : List Request) : (empty.run requests).2.Records requests := by
  have htypes : InOrder (empty.run requests).2.types := inOrder_run List.Pairwise.nil requests
  have hlookup := lookup?_run_empty requests
  generalize (empty.run requests).2 = index at htypes hlookup
  have hmem (entry : TypeEntry) :
      entry ∈ index.types ↔ firstRegistered? entry.name requests = some entry := by
    rw [htypes.mem_iff, ← hlookup]
    rfl
  refine ⟨hlookup, ?_, hmem, ?_, ?_, ?_, perm_flatMap_typesIn htypes, ?_,
    ascending_managedRegions index⟩
  · intro name
    rw [regionOf, hlookup]
  · have hnames : (index.types.map TypeEntry.name).toFinset =
        ((registrations requests).map TypeEntry.name).toFinset := by
      ext name
      rw [List.mem_toFinset, List.mem_toFinset, ← exists_firstRegistered?_iff, List.mem_map]
      refine exists_congr fun entry => ?_
      rw [hmem]
      constructor
      · rintro ⟨hentry, rfl⟩
        exact hentry
      · intro hentry
        have hname := name_of_firstRegistered? hentry
        exact ⟨hname ▸ hentry, hname⟩
    rw [← hnames, List.toFinset_card_of_nodup htypes.nodup_names, List.length_map, size]
  · intro region entry
    rw [Index.mem_typesIn, hmem]
  · intro region
    exact (htypes.filter _).imp Bytes.ofString_lt_of_lt
  · intro region
    rw [Index.mem_managedRegions, RegionId.isManaged, decide_eq_true_iff]
    refine and_congr_right fun _ => ?_
    constructor
    · rintro ⟨entry, hentry, hregion⟩
      exact ⟨entry.name, entry, (hmem entry).mp hentry, hregion⟩
    · rintro ⟨name, entry, hentry, hregion⟩
      have hname := name_of_firstRegistered? hentry
      exact ⟨entry, (hmem entry).mpr (hname ▸ hentry), hregion⟩

/-- Where every name has one entry only, the first registrations are told by what is registered at
all. -/
theorem firstRegistered?_congr (hconsistent : IsConsistent requests) {others : List Request}
    (hsame : ∀ entry, entry ∈ registrations others ↔ entry ∈ registrations requests)
    (name : String) : firstRegistered? name others = firstRegistered? name requests := by
  have hothers : IsConsistent others := fun first hfirst second hsecond =>
    hconsistent first ((hsame first).mp hfirst) second ((hsame second).mp hsecond)
  ext entry
  rw [hothers.firstRegistered?_eq_some_iff, hconsistent.firstRegistered?_eq_some_iff, hsame]

/-- The answers of an index that began without types are exact: they tell the first registration of
each name, and nothing else. If every name is registered with one entry only, the same types
registered in any other order, and any number of times, give the same answers to everything that is
asked for afterwards. -/
theorem answers_exact (requests : List Request) :
    (empty.run requests).2.Records requests ∧
    (IsConsistent requests → ∀ others,
      (∀ entry, entry ∈ registrations others ↔ entry ∈ registrations requests) →
      ∀ queries, ((empty.run others).2.run queries).1 =
        ((empty.run requests).2.run queries).1) := by
  refine ⟨records_run requests, fun hconsistent others hsame queries => ?_⟩
  have htypes : (empty.run others).2.types = (empty.run requests).2.types := by
    refine (inOrder_run List.Pairwise.nil others).eq_of_find?
      (inOrder_run List.Pairwise.nil requests) fun name => ?_
    exact (lookup?_run_empty others name).trans
      ((firstRegistered?_congr hconsistent hsame name).trans (lookup?_run_empty requests name).symm)
  have hindex : (empty.run others).2 = (empty.run requests).2 := congrArg Index.mk htypes
  rw [hindex]

/-- Types of two regions that are registered in one order, and in another one with a repetition. -/
theorem answers_reorderedTypes :
    let ledger : TypeEntry := ⟨"Ledger", .default, 8, 8⟩
    let scratch : TypeEntry := ⟨"Scratch", .unmanaged, 4, 1⟩
    let journal : TypeEntry := ⟨"Journal", ⟨7⟩, 16, 8⟩
    let requests := [Request.register ledger, .register scratch, .register journal]
    let others := [Request.register journal, .register ledger, .size, .register scratch,
      .register journal]
    IsConsistent requests ∧
      (∀ entry, entry ∈ registrations others ↔ entry ∈ registrations requests) ∧
      (empty.run requests).2.Records requests ∧
      ∀ queries, ((empty.run others).2.run queries).1 =
        ((empty.run requests).2.run queries).1 := by
  intro ledger scratch journal requests others
  have hconsistent : IsConsistent requests := by
    unfold IsConsistent
    decide
  have hsame (entry : TypeEntry) :
      entry ∈ registrations others ↔ entry ∈ registrations requests := by
    simp only [registrations, requests, others, List.filterMap_cons, Request.entry?,
      List.filterMap_nil, List.mem_cons]
    tauto
  obtain ⟨hrecords, hanswers⟩ := answers_exact requests
  exact ⟨hconsistent, hsame, hrecords, hanswers hconsistent others hsame⟩

end PlainSync.Region.Index
