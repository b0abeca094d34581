/-!
# Protected regions of memory

A type belongs to no region, which is region zero, or to one managed region. Code may reach a
value of a managed region only as an accessor of a region.
-/

namespace PlainSync

/-- The tag that names a region. -/
structure RegionId where
  number : UInt32
  deriving DecidableEq, Repr

namespace RegionId

/-- The region of every untagged type. -/
def unmanaged : RegionId := ⟨0⟩

/-- The managed region of C sources that name no other. -/
def default : RegionId := ⟨1⟩

/-- Values of the region are protected. -/
def isManaged (region : RegionId) : Bool := region.number ≠ 0

/-- The region's number in decimal. -/
def digits (region : RegionId) : String := toString region.number.toNat

/-- The region as messages name it. -/
def text (region : RegionId) : String := s!"region({region.digits})"

/-- The attribute argument that names the region in C. -/
def attributeText (region : RegionId) : String := s!"__region({region.digits})"

end RegionId

/-- Whether an accessor of one managed region may reach another. -/
inductive CrossRegionPolicy where
  | deny
  | allow
  deriving DecidableEq, Repr

namespace CrossRegionPolicy

/-- The word for a policy. -/
def name : CrossRegionPolicy → String
  | deny => "deny"
  | allow => "allow"

/-- The policy lets an accessor reach a region other than its own. -/
def permits (policy : CrossRegionPolicy) : Bool := policy = allow

end CrossRegionPolicy

namespace Region

/-- Why an access is sanctioned. -/
inductive Decision where
  /-- The target is not managed. -/
  | unrestricted
  /-- The accessor is one of the target's region. -/
  | sameRegion
  /-- The accessor is one of another managed region, and the policy permits that. -/
  | crossRegionAllowed
  deriving DecidableEq, Repr

/-- The word for a decision. -/
def Decision.name : Decision → String
  | unrestricted => "Unrestricted"
  | sameRegion => "SameRegion"
  | crossRegionAllowed => "CrossRegionAllowed"

/-- Why an access is refused. -/
inductive AccessError where
  /-- The code is no accessor of a managed region. -/
  | rawAccess (target : RegionId)
  /-- The code is an accessor of another managed region, and the policy forbids that. -/
  | crossRegion (source target : RegionId)
  deriving DecidableEq, Repr

/-- The text of a refusal. -/
def AccessError.message : AccessError → String
  | rawAccess target => s!"raw access into {target.text} outside a region accessor"
  | crossRegion source target =>
    s!"accessor for {source.text} may not reach {target.text} under the deny policy"

/-- Decide whether code may reach a value of the region `target`. The code is an accessor of
the region `source`, or of none. -/
def checkAccess (source : Option RegionId) (target : RegionId) (policy : CrossRegionPolicy) :
    Except AccessError Decision :=
  if !target.isManaged then .ok .unrestricted
  else
    match source with
    | none => .error (.rawAccess target)
    | some source =>
      if !source.isManaged then .error (.rawAccess target)
      else if source = target then .ok .sameRegion
      else if policy.permits then .ok .crossRegionAllowed
      else .error (.crossRegion source target)

end Region

end PlainSync
