import PlainSync.Builtin.Atomic
import PlainSync.IntType
import PlainSync.Json

/-!
# The contract matrix

Each built-in is evaluated on sample values of each integer type and compared with the same
call on an atomic cell. Both must yield the same and leave the same value.
-/

namespace PlainSync

/-- One comparison. Values are written in decimal. -/
structure ContractCase where
  builtin : Builtin
  type : IntType
  initial : String
  /-- The operands that the built-in needs. -/
  operands : List String
  expectedResult : Option String
  actualResult : Option String
  expectedAfter : String
  actualAfter : String
  passed : Bool
  deriving DecidableEq, Repr

/-- The case as members of an object, in the order of the comparison. -/
def ContractCase.members (case : ContractCase) : List (String × Json) :=
  [("builtin", .string case.builtin.name), ("width", .string case.type.name),
    ("initial", .string case.initial), ("operands", .array (case.operands.map .string)),
    ("expected_result", .stringOrNull case.expectedResult),
    ("actual_result", .stringOrNull case.actualResult),
    ("expected_after", .string case.expectedAfter),
    ("actual_after", .string case.actualAfter), ("passed", .bool case.passed)]

/-- The case as a value. -/
def ContractCase.json (case : ContractCase) : Json := .object case.members

/-- Compare one call with the same call on an atomic cell. -/
def checkCase (type : IntType) (builtin : Builtin) (initial first second : type.Value) :
    ContractCase :=
  let (expected, expectedAfter) := builtin.reference initial first second
  let (actual, actualAfter) := builtin.evaluate initial [first, second]
  let expectedResult := expected.cValue? type.text
  let actualResult := actual.bind (Outcome.cValue? type.text)
  { builtin := builtin
    type := type
    initial := type.text initial
    operands := ([first, second].take builtin.valueCount).map type.text
    expectedResult := expectedResult
    actualResult := actualResult
    expectedAfter := type.text expectedAfter
    actualAfter := type.text actualAfter
    passed := actualResult = expectedResult && actualAfter = expectedAfter }

/-- The sample values of a type: both ends, values near zero and two patterns of bits. -/
def IntType.samples (type : IntType) : List type.Value :=
  [0, 1, type.greatest, type.least,
    BitVec.ofInt type.bits (type.toInt type.greatest / 3),
    BitVec.ofNat type.bits 0x5A5A5A5A5A5A5A5A]

/-- The pairs of operands to try. Only the compare-and-swap built-ins need both. -/
def operandPairs (type : IntType) (builtin : Builtin) : List (type.Value × type.Value) :=
  match builtin.operandCount with
  | 0 | 1 => [(0, 0)]
  | 2 => type.samples.map fun first => (first, 0)
  | _ => type.samples.flatMap fun first => type.samples.map fun second => (first, second)

/-- How often a built-in was compared, and how often it failed. -/
structure ContractCount where
  cases : Nat := 0
  failed : Nat := 0
  deriving DecidableEq, Repr

/-- The results of a matrix run. Only cases that failed are kept. -/
structure ContractReport where
  total : Nat := 0
  passed : Nat := 0
  failed : Nat := 0
  types : List IntType := []
  /-- The built-ins that were compared, in the order of their names. -/
  perBuiltin : List (Builtin × ContractCount) := []
  failures : List ContractCase := []
  deriving DecidableEq, Repr

/-- The counts as a value. -/
def ContractCount.json (count : ContractCount) : Json :=
  .object [("cases", .nat count.cases), ("failed", .nat count.failed)]

/-- Count a case for its built-in, which gets its place by name if it has none yet. -/
def countCase (builtin : Builtin) (failed : Bool) :
    List (Builtin × ContractCount) → List (Builtin × ContractCount)
  | [] => [(builtin, ⟨1, if failed then 1 else 0⟩)]
  | (other, count) :: more =>
    if builtin = other then
      (other, ⟨count.cases + 1, count.failed + if failed then 1 else 0⟩) :: more
    else if builtin.name < other.name then
      (builtin, ⟨1, if failed then 1 else 0⟩) :: (other, count) :: more
    else (other, count) :: countCase builtin failed more

namespace ContractReport

/-- At least one case was compared, and none failed. -/
def isClean (report : ContractReport) : Bool := report.failed = 0 && 0 < report.total

/-- Record a case. -/
def record (report : ContractReport) (case : ContractCase) : ContractReport :=
  { report with
    total := report.total + 1
    passed := report.passed + if case.passed then 1 else 0
    failed := report.failed + if case.passed then 0 else 1
    perBuiltin := countCase case.builtin (!case.passed) report.perBuiltin
    failures := if case.passed then report.failures else report.failures ++ [case] }

end ContractReport

/-- The report as a value. -/
def ContractReport.json (report : ContractReport) : Json :=
  .object
    [("total", .nat report.total), ("passed", .nat report.passed),
      ("failed", .nat report.failed),
      ("widths", .array (report.types.map fun type => .string type.name)),
      ("per_builtin",
        .object (report.perBuiltin.map fun entry => (entry.1.name, entry.2.json))),
      ("failures", .array (report.failures.map ContractCase.json))]

/-- The cases of a type. -/
def contractCases (type : IntType) : List ContractCase :=
  Builtin.all.flatMap fun builtin =>
    type.samples.flatMap fun initial =>
      (operandPairs type builtin).map fun operands =>
        checkCase type builtin initial operands.1 operands.2

namespace ContractReport

/-- Compare all built-ins on a type and add the results to a report. -/
def runType (report : ContractReport) (type : IntType) : ContractReport :=
  (contractCases type).foldl record { report with types := report.types ++ [type] }

/-- Compare all built-ins on types, one after the other. -/
def runTypes (report : ContractReport) (types : List IntType) : ContractReport :=
  types.foldl runType report

end ContractReport

/-- The whole matrix: every type with an atomic cell. -/
def contractMatrix : ContractReport := ContractReport.runTypes {} IntType.atomic

end PlainSync
