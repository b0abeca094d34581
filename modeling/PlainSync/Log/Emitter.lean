import PlainSync.Log

/-!
# Numbering log entries

An emitter gives entries their trace identifiers: the stage, the run and a number that counts
the identifiers given so far.
-/

namespace PlainSync

/-- The identifier of the record with a number in a run of a stage. -/
def traceId (stage : Stage) (runId : String) (number : Nat) : String :=
  stage.name ++ "::" ++ runId ++ "::" ++ paddedDecimal 3 number

/-- Gives identifiers to the entries of a run. -/
structure Emitter where
  stage : Stage
  runId : String
  /-- How many identifiers have been given. -/
  given : Nat := 0
  deriving DecidableEq, Repr

namespace Emitter

/-- The next identifier. -/
def nextTraceId (emitter : Emitter) : String × Emitter :=
  (traceId emitter.stage emitter.runId (emitter.given + 1),
    { emitter with given := emitter.given + 1 })

/-- A bare entry with the next identifier. -/
def emit (emitter : Emitter) (timestamp : String) (level : Level) (event : String) :
    LogEntry × Emitter :=
  let (id, emitter) := emitter.nextTraceId
  ({ timestamp := timestamp, traceId := id, level := level, event := event,
     stage := some emitter.stage }, emitter)

/-- An entry with its stage, if it has none, and the next identifier, if it has none. -/
def complete (emitter : Emitter) (entry : LogEntry) : LogEntry × Emitter :=
  let entry := { entry with stage := entry.stage.or (some emitter.stage) }
  if entry.traceId.isEmpty then
    let (id, emitter) := emitter.nextTraceId
    ({ entry with traceId := id }, emitter)
  else (entry, emitter)

end Emitter

end PlainSync
