import PlainSync.Contract
import PlainSync.Run

/-!
# Checking the contract
-/

namespace PlainSync.RunM

variable {m : Type → Type} [Monad m] [Machine m]

/-- Log cases that failed, in order. -/
def logMismatches : List ContractCase → RunM m Unit
  | [] => return
  | case :: more => do
    let entry ← draft .error "contract_mismatch"
    log { entry with
      builtin := some case.builtin.name
      width := some case.type.name
      ending := some .fail
      details := some (.sorted case.members) }
    logMismatches more

/-- What is logged of a matrix run. -/
def contractDetails (report : ContractReport) : Json :=
  .sorted
    [("total", .nat report.total), ("passed", .nat report.passed),
      ("failed", .nat report.failed),
      ("widths", .array (report.types.map fun type => .string type.name))]

/-- Log a matrix run. -/
def logContract (report : ContractReport) (start : Nat) : RunM m Unit := do
  logMismatches report.failures
  let entry ← draft (if report.isClean then .info else .error) "contract_matrix_done"
  let stop ← perform Machine.uptime
  log { entry with
    ending := some (if report.isClean then .pass else .fail)
    durationMs := some (elapsedMs start stop)
    details := some (contractDetails report) }

/-- Run the whole contract matrix. -/
def verifyContract : RunM m ContractReport := do
  let start ← perform Machine.uptime
  logContract contractMatrix start
  return contractMatrix

end PlainSync.RunM
