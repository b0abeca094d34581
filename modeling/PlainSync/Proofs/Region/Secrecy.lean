import PlainSync.Proofs.Region.Access
import PlainSync.Region.Managed

/-!
# Secrecy and integrity of managed values

Code that is refused at a managed value learns nothing of its contents and changes nothing of
them, however it goes on. Code that is let through reads what was stored last.
-/

namespace PlainSync.Region.Managed

/-- Something that is done with a managed value. -/
inductive Step (α : Type) where
  /-- Load the value with the capability of any region. -/
  | load (capability : Capability) (policy : CrossRegionPolicy)
  /-- Store a value with the capability of any region. -/
  | store (capability : Capability) (policy : CrossRegionPolicy) (value : α)
  /-- Store a value as an accessor of the region, and give the one it replaces. -/
  | replace (value : α)
  /-- Change the value as an accessor of the region, and give the changed one. -/
  | update (change : α → α)
  /-- Print the managed value. -/
  | print
  /-- Print a capability. -/
  | printCapability (capability : Capability)

/-- What comes of a step. -/
inductive Outcome (α : Type) where
  | value (value : α)
  | stored
  | refused (error : AccessError)
  | text (text : String)

variable {α : Type} {region : Marker}

/-- What comes of a step, and the managed value behind it. -/
def perform (managed : Managed region α) : Step α → Outcome α × Managed region α
  | .load capability policy =>
    match managed.getFrom capability policy with
    | .ok value => (.value value, managed)
    | .error error => (.refused error, managed)
  | .store capability policy value =>
    match managed.setFrom capability policy value with
    | .ok changed => (.stored, changed)
    | .error error => (.refused error, managed)
  | .replace value =>
    let (previous, changed) := managed.replace value
    (.value previous, changed)
  | .update change =>
    let (value, changed) := managed.update change
    (.value value, changed)
  | .print => (.text managed.text, managed)
  | .printCapability capability => (.text capability.text, managed)

/-- What comes of steps that are done one after the other, and the managed value behind them. -/
def run (managed : Managed region α) : List (Step α) → List (Outcome α) × Managed region α
  | [] => ([], managed)
  | step :: more =>
    let (outcome, managed) := managed.perform step
    let (outcomes, managed) := managed.run more
    (outcome :: outcomes, managed)

/-- An accessor that values of the region are to be kept from: one of the unmanaged region, or,
under the strict policy, of another region. -/
def Denied (region : Marker) (capability : Capability) (policy : CrossRegionPolicy) : Prop :=
  capability.region.id.isManaged = false ∨
    capability.region.id ≠ region.id ∧ policy = .deny

/-- An accessor that may reach values of the region: one of the region itself, or, under the
lenient policy, of another managed region. -/
def Permitted (region : Marker) (capability : Capability) (policy : CrossRegionPolicy) : Prop :=
  capability.region.id = region.id ∨
    capability.region.id.isManaged = true ∧ policy = .allow

instance (region : Marker) (capability : Capability) (policy : CrossRegionPolicy) :
    Decidable (Permitted region capability policy) :=
  inferInstanceAs (Decidable (_ ∨ _ ∧ _))

/-- A step of denied code: it tries to load or to store, or prints what it has. -/
inductive Step.IsDenied (region : Marker) : Step α → Prop where
  | load {capability : Capability} {policy : CrossRegionPolicy}
      (hdenied : Denied region capability policy) : IsDenied region (.load capability policy)
  | store {capability : Capability} {policy : CrossRegionPolicy}
      (hdenied : Denied region capability policy) (value : α) :
      IsDenied region (.store capability policy value)
  | print : IsDenied region .print
  | printCapability (capability : Capability) : IsDenied region (.printCapability capability)

/-- The value that a step stores if it is a permitted write, `value` being there before. -/
def Step.stored? (region : Marker) (value : α) : Step α → Option α
  | .store capability policy new => if Permitted region capability policy then some new else none
  | .replace new => some new
  | .update change => some (change value)
  | _ => none

/-- The last value that permitted writes store, `value` being there before. -/
def lastStored (region : Marker) (value : α) : List (Step α) → α
  | [] => value
  | step :: more => lastStored region ((step.stored? region value).getD value) more

/-! ## Single steps -/

section Steps

variable {capability : Capability} {policy : CrossRegionPolicy}

/-- Code that is denied is refused, with an error that tells the regions alone. -/
theorem exists_refusal (hregion : region.id.isManaged = true)
    (hdenied : Denied region capability policy) :
    ∃ error, checkAccess (some capability.region.id) region.id policy = .error error := by
  rcases hdenied with hraw | ⟨hother, rfl⟩
  · exact ⟨_, checkAccess_of_raw hregion (by simp [managedSource?, Option.filter_some, hraw])⟩
  · cases hsource : capability.region.id.isManaged with
    | false =>
      exact ⟨_, checkAccess_of_raw hregion (by simp [managedSource?, Option.filter_some, hsource])⟩
    | true => exact ⟨_, checkAccess_of_ne hregion hsource hother⟩

/-- Access that is permitted is allowed. -/
theorem exists_decision (hregion : region.id.isManaged = true)
    (hpermitted : Permitted region capability policy) :
    ∃ decision, checkAccess (some capability.region.id) region.id policy = .ok decision := by
  by_cases hsame : capability.region.id = region.id
  · rw [hsame]
    exact ⟨_, checkAccess_self hregion⟩
  · obtain ⟨hmanaged, rfl⟩ := hpermitted.resolve_left hsame
    exact ⟨_, checkAccess_of_ne hregion hmanaged hsame⟩

/-- Access that is not permitted is denied. -/
theorem denied_of_not_permitted (hpermitted : ¬ Permitted region capability policy) :
    Denied region capability policy := by
  obtain ⟨hother, hlenient⟩ := not_or.mp hpermitted
  cases hmanaged : capability.region.id.isManaged with
  | false => exact Or.inl hmanaged
  | true =>
    cases policy with
    | deny => exact Or.inr ⟨hother, rfl⟩
    | allow => exact absurd ⟨hmanaged, rfl⟩ hlenient

/-- A step of denied code comes out alike for all contents and leaves them as they are. -/
theorem exists_perform_of_isDenied (hregion : region.id.isManaged = true) {step : Step α}
    (hstep : step.IsDenied region) :
    ∃ outcome, ∀ managed : Managed region α, managed.perform step = (outcome, managed) := by
  cases hstep with
  | load hdenied =>
    obtain ⟨error, herror⟩ := exists_refusal hregion hdenied
    refine ⟨.refused error, fun managed => ?_⟩
    rw [perform, getFrom, herror]
    rfl
  | store hdenied value =>
    obtain ⟨error, herror⟩ := exists_refusal hregion hdenied
    refine ⟨.refused error, fun managed => ?_⟩
    rw [perform, setFrom, herror]
    rfl
  | print => exact ⟨.text s!"Managed \x7b region: {region.id.text}, .. \x7d", fun managed => rfl⟩
  | printCapability capability => exact ⟨_, fun managed => rfl⟩

/-- A step leaves the value that it stores, or else the one that was there. -/
theorem value_perform (hregion : region.id.isManaged = true) (managed : Managed region α)
    (step : Step α) :
    (managed.perform step).2.value = (step.stored? region managed.value).getD managed.value := by
  cases step with
  | load capability policy =>
    rw [perform]
    cases managed.getFrom capability policy with
    | ok value => rfl
    | error error => rfl
  | store capability policy value =>
    by_cases hpermitted : Permitted region capability policy
    · obtain ⟨decision, hdecision⟩ := exists_decision hregion hpermitted
      rw [perform, setFrom, hdecision, Step.stored?, if_pos hpermitted]
      rfl
    · obtain ⟨error, herror⟩ := exists_refusal hregion (denied_of_not_permitted hpermitted)
      rw [perform, setFrom, herror, Step.stored?, if_neg hpermitted]
      rfl
  | replace value => rfl
  | update change => rfl
  | print => rfl
  | printCapability capability => rfl

end Steps

/-! ## Runs -/

/-- Denied steps neither read nor change what is managed. -/
theorem exists_run_of_isDenied (hregion : region.id.isManaged = true) {steps : List (Step α)}
    (hsteps : ∀ step ∈ steps, step.IsDenied region) :
    ∃ outcomes, ∀ managed : Managed region α, managed.run steps = (outcomes, managed) := by
  induction steps with
  | nil => exact ⟨[], fun managed => rfl⟩
  | cons step more ih =>
    obtain ⟨hstep, hmore⟩ := List.forall_mem_cons.mp hsteps
    obtain ⟨outcome, hperform⟩ := exists_perform_of_isDenied hregion hstep
    obtain ⟨outcomes, hrun⟩ := ih hmore
    refine ⟨outcome :: outcomes, fun managed => ?_⟩
    rw [run, hperform managed]
    dsimp only
    rw [hrun managed]

/-- What is managed is what was last stored with permission. -/
theorem value_run (hregion : region.id.isManaged = true) (managed : Managed region α)
    (steps : List (Step α)) :
    (managed.run steps).2.value = lastStored region managed.value steps := by
  induction steps generalizing managed with
  | nil => rfl
  | cons step more ih =>
    have hmore := ih (managed.perform step).2
    rw [value_perform hregion] at hmore
    exact hmore

/-- Code that is denied at the values of a managed region sees the same of any two of them and
leaves both as they are. Code that is permitted reads the value that permitted writes stored
last, whatever else was tried in between. -/
theorem secrecy_and_integrity (hregion : region.id.isManaged = true) :
    (∀ (first second : Managed region α) (steps : List (Step α)),
      (∀ step ∈ steps, step.IsDenied region) →
        (first.run steps).1 = (second.run steps).1 ∧
          (first.run steps).2 = first ∧ (second.run steps).2 = second) ∧
    ∀ (managed : Managed region α) (steps : List (Step α)) (capability : Capability)
      (policy : CrossRegionPolicy), Permitted region capability policy →
        (managed.run steps).2.getFrom capability policy =
          .ok (lastStored region managed.value steps) := by
  constructor
  · intro first second steps hsteps
    obtain ⟨outcomes, hrun⟩ := exists_run_of_isDenied hregion hsteps
    rw [hrun first, hrun second]
    exact ⟨rfl, rfl, rfl⟩
  · intro managed steps capability policy hpermitted
    obtain ⟨decision, hdecision⟩ := exists_decision hregion hpermitted
    rw [getFrom, hdecision, ← value_run hregion managed steps]
    rfl

/-- Two counters of one region look alike to the accessors of another one and to those of none,
and an accessor of the region still reads what it stored before these tried to store. -/
theorem secrecy_and_integrity_counters :
    let region : Marker := ⟨.default, "managed"⟩
    let device : Capability := ⟨⟨⟨2⟩, "DeviceRegion"⟩⟩
    let raw : Capability := ⟨⟨.unmanaged, "unmanaged"⟩⟩
    let own : Capability := ⟨region⟩
    let tries : List (Step Nat) := [.load device .deny, .store device .deny 7, .print,
      .store raw .allow 8, .printCapability device]
    let first : Managed region Nat := ⟨4⟩
    let second : Managed region Nat := ⟨5⟩
    region.id.isManaged = true ∧ (∀ step ∈ tries, step.IsDenied region) ∧
      ((first.run tries).1 = (second.run tries).1 ∧
        (first.run tries).2 = first ∧ (second.run tries).2 = second) ∧
      Permitted region own .deny ∧
      (first.run (.store device .allow 6 :: tries)).2.getFrom own .deny = .ok 6 := by
  intro region device raw own tries first second
  have htries : ∀ step ∈ tries, step.IsDenied region := by
    have hdevice : Denied region device .deny := Or.inr ⟨by decide, rfl⟩
    have hraw : Denied region raw .allow := Or.inl rfl
    simp only [tries, List.forall_mem_cons]
    exact ⟨.load hdevice, .store hdevice 7, .print, .store hraw 8, .printCapability device,
      List.forall_mem_nil _⟩
  have hown : Permitted region own .deny := Or.inl rfl
  have hmanaged : region.id.isManaged = true := rfl
  have hmain := secrecy_and_integrity (α := Nat) hmanaged
  exact ⟨hmanaged, htries, hmain.1 first second tries htries, hown,
    hmain.2 first (.store device .allow 6 :: tries) own .deny hown⟩

end PlainSync.Region.Managed
