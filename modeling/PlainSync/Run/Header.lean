import PlainSync.Header
import PlainSync.Run

/-!
# Writing the header
-/

namespace PlainSync.RunM

variable {m : Type → Type} [Monad m] [Machine m]

/-- What is logged of a header. -/
def headerDetails (config : Config) (text : Bytes) : Json :=
  .sorted
    [("normalize_atomics", .bool config.normalizeAtomics),
      ("managed_region", .nat config.managedRegion.number.toNat),
      ("sha256", .string (Sha256.hex text))]

/-- Render the header for the settings of the run, and write it to a file if one is given. -/
def renderHeader (output : Option Path) : RunM m Bytes := do
  let config := (← get).session.config
  if let .error error := config.validate then
    throw (.config (.text (.refused error)))
  let text := Header.text (.ofConfig config)
  let entry ← draft .info "header_rendered"
  if let some path := output then
    writeArtifact path "header" text
  log { entry with
    ending := some .pass
    details := some (headerDetails config text)
    artifactRefs := output.map fun path => [path.display] }
  return text

end PlainSync.RunM
