import PlainSync.Region

/-!
# Values inside a region

A managed value is reached with the capability of an accessor: the one of its own region at
any time, another one as far as the policy permits.
-/

namespace PlainSync.Region

/-- A region as code names it. -/
structure Marker where
  id : RegionId
  name : String
  deriving DecidableEq, Repr

/-- The right of an accessor of a region. -/
structure Capability where
  region : Marker
  deriving DecidableEq, Repr

/-- The text that stands for a capability. -/
def Capability.text (capability : Capability) : String :=
  s!"RegionCapability<{capability.region.name}>({capability.region.id.text})"

/-- A value that belongs to a region. -/
structure Managed (region : Marker) (α : Type) where
  value : α
  deriving DecidableEq, Repr

namespace Managed

variable {region : Marker} {α : Type}

/-- The text that stands for a managed value. It tells the region and nothing of the value. -/
def text (_ : Managed region α) : String := s!"Managed \x7b region: {region.id.text}, .. \x7d"

/-- Store a value as an accessor of the region. -/
def set (managed : Managed region α) (value : α) : Managed region α :=
  { managed with value := value }

/-- Store a value as an accessor of the region and give the one it replaces. -/
def replace (managed : Managed region α) (value : α) : α × Managed region α :=
  (managed.value, managed.set value)

/-- Compute with the value as an accessor of the region. -/
def view {β : Type} (managed : Managed region α) (use : α → β) : β := use managed.value

/-- Change the value as an accessor of the region and give the changed one. -/
def update (managed : Managed region α) (change : α → α) : α × Managed region α :=
  (change managed.value, managed.set (change managed.value))

/-- Load the value with the capability of any region. -/
def getFrom (managed : Managed region α) (capability : Capability)
    (policy : CrossRegionPolicy) : Except AccessError α :=
  (checkAccess (some capability.region.id) region.id policy).map fun _ => managed.value

/-- Store a value with the capability of any region. -/
def setFrom (managed : Managed region α) (capability : Capability)
    (policy : CrossRegionPolicy) (value : α) : Except AccessError (Managed region α) :=
  (checkAccess (some capability.region.id) region.id policy).map fun _ => managed.set value

end Managed

end PlainSync.Region
