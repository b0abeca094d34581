import PlainSync.Json
import PlainSync.Source.Outline

/-!
# Normalization reports

What was done to a source: which calls were expanded, and which were kept and why.
-/

namespace PlainSync

namespace Source.KeepReason

/-- The reason as a value. -/
def json : KeepReason → Json
  | arity expected found =>
    .sorted [("kind", .string "arity"), ("expected", .nat expected), ("found", .nat found)]
  | unterminated => .sorted [("kind", .string "unterminated")]
  | directive line => .sorted [("kind", .string "directive"), ("line", .nat line)]

end Source.KeepReason

/-- A call that was kept. -/
structure KeptCall where
  /-- The line of the built-in's name, counted from one. -/
  line : Nat
  builtin : Builtin
  reason : Source.KeepReason
  deriving DecidableEq, Repr

/-- The call as a value. -/
def KeptCall.json (call : KeptCall) : Json :=
  .sorted
    [("line", .nat call.line), ("builtin", .string call.builtin.name),
      ("reason", call.reason.json)]

/-- What was done to a source. -/
structure Report where
  /-- Normalization is switched off, and the text is unchanged. -/
  passthrough : Bool := false
  /-- The built-ins whose calls were expanded, in the order of their sites. -/
  expanded : List Builtin := []
  /-- The calls that were kept, in the order of their positions. -/
  kept : List KeptCall := []
  deriving DecidableEq, Repr

namespace Report

/-- How many calls were expanded. -/
def total (report : Report) : Nat := report.expanded.length

/-- How many calls of a built-in were expanded. -/
def count (report : Report) (builtin : Builtin) : Nat := report.expanded.count builtin

/-- The number of expanded calls of each built-in that has any. -/
def countsJson (report : Report) : Json :=
  .sorted
    ((Builtin.all.filter fun builtin => report.count builtin ≠ 0).map fun builtin =>
      (builtin.name, .nat (report.count builtin)))

/-- The report as a value, with its members in the order of their names. -/
def json (report : Report) : Json :=
  .sorted
    [("passthrough", .bool report.passthrough), ("rewritten", report.countsJson),
      ("skipped", .array (report.kept.map KeptCall.json))]

end Report

end PlainSync
