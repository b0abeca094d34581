import PlainSync.Proofs.Region.Registrations

/-!
# Access over runs

The first registration of a name decides, for good, who may reach values of its type: with a
managed region only the accessors of that region, and those of other managed regions as far as
the policy permits; else everybody.
-/

namespace PlainSync.Region

section Decisions

variable {source : Option RegionId} {region : RegionId} {policy : CrossRegionPolicy}

/-- The accessor of a managed region, or nothing: code that is an accessor of none, or of the
unmanaged region, reaches into a value raw. -/
def managedSource? (source : Option RegionId) : Option RegionId :=
  source.filter RegionId.isManaged

/-- Everyone may access what is not managed. -/
theorem checkAccess_of_not_isManaged (hregion : region.isManaged = false) :
    checkAccess source region policy = .ok .unrestricted := by
  unfold checkAccess
  rw [hregion, Bool.not_false, if_pos rfl]

/-- Nobody may access a managed region without a managed source. -/
theorem checkAccess_of_raw (hregion : region.isManaged = true)
    (hsource : managedSource? source = none) :
    checkAccess source region policy = .error (.rawAccess region) := by
  cases source with
  | none => simp [checkAccess, hregion]
  | some source =>
    have hsource : source.isManaged = false := by
      simpa [managedSource?, Option.filter_some] using hsource
    simp [checkAccess, hregion, hsource]

/-- A region may access itself. -/
theorem checkAccess_self (hregion : region.isManaged = true) :
    checkAccess (some region) region policy = .ok .sameRegion := by
  simp [checkAccess, hregion]

/-- The policy decides about access to another region. -/
theorem checkAccess_of_ne {other : RegionId} (hregion : region.isManaged = true)
    (hother : other.isManaged = true) (hne : other ≠ region) :
    checkAccess (some other) region policy =
      if policy.permits then .ok .crossRegionAllowed else .error (.crossRegion other region) := by
  simp [checkAccess, hregion, hother, hne]

/-- What is permitted under the strict policy is permitted alike under the other one. -/
theorem checkAccess_allow_of_deny {decision : Decision}
    (hdeny : checkAccess source region .deny = .ok decision) :
    checkAccess source region .allow = .ok decision := by
  cases hregion : region.isManaged with
  | false =>
    rw [checkAccess_of_not_isManaged hregion] at hdeny ⊢
    exact hdeny
  | true =>
    cases hsource : managedSource? source with
    | none =>
      rw [checkAccess_of_raw hregion hsource] at hdeny
      cases hdeny
    | some other =>
      obtain ⟨rfl, hother⟩ := Option.filter_eq_some_iff.mp hsource
      by_cases hsame : other = region
      · subst hsame
        rw [checkAccess_self hregion] at hdeny ⊢
        exact hdeny
      · rw [checkAccess_of_ne hregion hother hsame] at hdeny
        cases hdeny

end Decisions

namespace Index

/-- Who may reach values of the type of a name that belongs to a managed region. -/
structure Guards (index : Index) (name : String) (region : RegionId) : Prop where
  raw : ∀ source policy, managedSource? source = none →
    index.checkAccess source name policy = .error (.rawAccess region)
  same : ∀ policy, index.checkAccess (some region) name policy = .ok .sameRegion
  allowed : ∀ other, other.isManaged = true → other ≠ region →
    index.checkAccess (some other) name .allow = .ok .crossRegionAllowed
  denied : ∀ other, other.isManaged = true → other ≠ region →
    index.checkAccess (some other) name .deny = .error (.crossRegion other region)

/-- An index guards the types that it has in managed regions. -/
theorem guards_of_lookup? {index : Index} {name : String} {entry : TypeEntry}
    (hentry : index.lookup? name = some entry) (hmanaged : entry.region.isManaged = true) :
    index.Guards name entry.region := by
  have hcheck (source : Option RegionId) (policy : CrossRegionPolicy) :
      index.checkAccess source name policy = Region.checkAccess source entry.region policy := by
    rw [checkAccess, regionOf, hentry]
    rfl
  constructor
  · intro source policy hsource
    rw [hcheck, checkAccess_of_raw hmanaged hsource]
  · intro policy
    rw [hcheck, checkAccess_self hmanaged]
  · intro other hother hne
    rw [hcheck, checkAccess_of_ne hmanaged hother hne]
    rfl
  · intro other hother hne
    rw [hcheck, checkAccess_of_ne hmanaged hother hne]
    rfl

/-- Types that an index does not have in a managed region are not guarded. -/
theorem checkAccess_of_unmanaged {index : Index} {name : String}
    (hunmanaged : ∀ entry ∈ index.lookup? name, entry.region.isManaged = false)
    (source : Option RegionId) (policy : CrossRegionPolicy) :
    index.checkAccess source name policy = .ok .unrestricted := by
  apply checkAccess_of_not_isManaged
  rw [regionOf]
  cases hentry : index.lookup? name with
  | none => rfl
  | some entry => exact hunmanaged entry hentry

/-- Let an index without types be asked for something, and then for more. A name that has been
registered with a managed region is guarded for that region whatever is asked for afterwards,
its later registrations included. A name that was not registered, or was as unmanaged, is free
for everybody. And whatever is permitted under the strict policy is permitted alike under the
other one. It is the first registration of a name that counts, since a later one records
nothing. -/
theorem access_of_firstRegistered? (before after : List Request) (name : String) :
    let index := (empty.run (before ++ after)).2
    (∀ entry, firstRegistered? name before = some entry → entry.region.isManaged = true →
      index.Guards name entry.region) ∧
    ((∀ entry, firstRegistered? name (before ++ after) = some entry →
        entry.region.isManaged = false) →
      ∀ source policy, index.checkAccess source name policy = .ok .unrestricted) ∧
    ∀ source decision, index.checkAccess source name .deny = .ok decision →
      index.checkAccess source name .allow = .ok decision := by
  refine ⟨?_, ?_, ?_⟩
  · intro entry hentry hmanaged
    apply guards_of_lookup? _ hmanaged
    rw [lookup?_run_empty]
    exact firstRegistered?_append_of_eq_some hentry after
  · intro hunmanaged
    apply checkAccess_of_unmanaged
    intro entry hentry
    rw [lookup?_run_empty] at hentry
    exact hunmanaged entry hentry
  · intro source decision
    exact checkAccess_allow_of_deny

/-- A type stays in its managed region although its name is registered again, as unmanaged and
for another region, and is asked about in between. -/
theorem access_reregisteredLedger :
    let ledger : TypeEntry := ⟨"Ledger", .default, 8, 8⟩
    let before := [Request.register ledger]
    let after := [Request.register { ledger with region := .unmanaged },
      .checkAccess none "Ledger" .allow, .register { ledger with region := ⟨2⟩ }]
    firstRegistered? "Ledger" before = some ledger ∧ ledger.region.isManaged = true ∧
      (empty.run (before ++ after)).2.Guards "Ledger" .default := by
  intro ledger before after
  have hfirst : firstRegistered? "Ledger" before = some ledger := by decide
  exact ⟨hfirst, rfl, (access_of_firstRegistered? before after "Ledger").1 ledger hfirst rfl⟩

end Index

end PlainSync.Region
