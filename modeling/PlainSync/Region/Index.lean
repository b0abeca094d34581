import PlainSync.Region

/-!
# The index of tagged types

Which region each registered type belongs to. The index is kept in the order of the types'
names, and the first registration of a name stands.
-/

namespace PlainSync.Region

/-- What is recorded of a type. -/
structure TypeEntry where
  name : String
  region : RegionId
  /-- In bytes. -/
  size : Nat
  /-- In bytes. -/
  align : Nat
  deriving DecidableEq, Repr

/-- Values of the type are protected. -/
def TypeEntry.isProtected (entry : TypeEntry) : Bool := entry.region.isManaged

/-- Put a type in its place by name, unless its name stands there already. -/
def insertByName (entry : TypeEntry) : List TypeEntry → List TypeEntry
  | [] => [entry]
  | other :: more =>
    if entry.name < other.name then entry :: other :: more
    else if other.name < entry.name then other :: insertByName entry more
    else other :: more

/-- Registered types, in the order of their names. -/
structure Index where
  types : List TypeEntry := []
  deriving DecidableEq, Repr

namespace Index

/-- An index without types. -/
def empty : Index := ⟨[]⟩

/-- Record a type. A name that is recorded already keeps its entry. -/
def register (index : Index) (entry : TypeEntry) : Index :=
  ⟨insertByName entry index.types⟩

/-- The entry of a type name. -/
def lookup? (index : Index) (name : String) : Option TypeEntry :=
  index.types.find? fun entry => entry.name == name

/-- The region of a type name. A name that is not registered is unmanaged. -/
def regionOf (index : Index) (name : String) : RegionId :=
  ((index.lookup? name).map TypeEntry.region).getD .unmanaged

/-- The types of a region, in the order of their names. -/
def typesIn (index : Index) (region : RegionId) : List TypeEntry :=
  index.types.filter fun entry => entry.region = region

/-- Put a region in its place by number, unless it stands there already. -/
def insertRegion (region : RegionId) : List RegionId → List RegionId
  | [] => [region]
  | other :: more =>
    if region.number < other.number then region :: other :: more
    else if other.number < region.number then other :: insertRegion region more
    else other :: more

/-- The managed regions that have a type, in ascending order. -/
def managedRegions (index : Index) : List RegionId :=
  ((index.types.map TypeEntry.region).filter RegionId.isManaged).foldr insertRegion []

/-- How many names are registered. -/
def size (index : Index) : Nat := index.types.length

/-- Decide about an access to a value of the type of that name. -/
def checkAccess (index : Index) (source : Option RegionId) (name : String)
    (policy : CrossRegionPolicy) : Except AccessError Decision :=
  Region.checkAccess source (index.regionOf name) policy

end Index

end PlainSync.Region
