import PlainSync.Contract

/-!
# Built-ins agree with the atomic cell

A call of a built-in on a plain target yields what the same call on an atomic cell yields and
leaves the same value, for every width and every value: both do what the table of the built-ins
says. So every comparison passes, and a matrix run only counts: it finds no failure, whichever
types it goes through.
-/

namespace PlainSync

section Values

variable {w : Nat}

/-- What a call yields and what it leaves, from the stored value and the operands. -/
def Builtin.effect (builtin : Builtin) (stored first second : BitVec w) :
    Outcome (BitVec w) × BitVec w :=
  match builtin with
  | fetchAndOp update => (.value stored, update.apply stored first)
  | opAndFetch update => (.value (update.apply stored first), update.apply stored first)
  | boolCompareAndSwap =>
    (.success (stored = first), if stored = first then second else stored)
  | valCompareAndSwap => (.value stored, if stored = first then second else stored)
  | synchronize => (.nothing, stored)
  | lockTestAndSet => (.value stored, first)
  | lockRelease => (.nothing, 0)

variable (stored first second : BitVec w)

/-- What is expected is exchanged. -/
theorem Cell.run_compareExchange_self :
    (Cell.compareExchange stored second).run stored = (.ok stored, second) := by
  unfold Cell.compareExchange
  simp only [StateT.run_modifyGet, if_true]
  rfl

/-- What is not expected stays. -/
theorem Cell.run_compareExchange_of_ne {stored first : BitVec w} (hother : stored ≠ first) :
    (Cell.compareExchange first second).run stored = (.error stored, stored) := by
  unfold Cell.compareExchange
  simp only [StateT.run_modifyGet, if_neg hother]
  rfl

/-- A call on an atomic cell has the effect of the table. -/
theorem Builtin.reference_eq_effect (builtin : Builtin) :
    builtin.reference stored first second = builtin.effect stored first second := by
  cases builtin with
  | fetchAndOp update => cases update <;> rfl
  | opAndFetch update => cases update <;> rfl
  | boolCompareAndSwap =>
    unfold Builtin.reference Builtin.onCell
    by_cases hmatch : stored = first
    · subst hmatch
      rw [StateT.run_bind, Cell.run_compareExchange_self]
      simp only [Builtin.effect, if_true, decide_true]
      rfl
    · rw [StateT.run_bind, Cell.run_compareExchange_of_ne second hmatch]
      simp only [Builtin.effect, hmatch, if_false, decide_false]
      rfl
  | valCompareAndSwap =>
    unfold Builtin.reference Builtin.onCell
    by_cases hmatch : stored = first
    · subst hmatch
      rw [StateT.run_bind, Cell.run_compareExchange_self]
      simp only [Builtin.effect, if_true]
      rfl
    · rw [StateT.run_bind, Cell.run_compareExchange_of_ne second hmatch]
      simp only [Builtin.effect, hmatch, if_false]
      rfl
  | synchronize => rfl
  | lockTestAndSet => rfl
  | lockRelease => rfl

/-- A call on a plain target has the effect of the table, and needs no more than two operands. -/
theorem Builtin.evaluate_eq_effect (builtin : Builtin) :
    builtin.evaluate stored [first, second] =
      (some (builtin.effect stored first second).1, (builtin.effect stored first second).2) := by
  cases builtin with
  | boolCompareAndSwap =>
    unfold Builtin.evaluate Plain.boolCompareAndSwap Builtin.effect
    by_cases hmatch : stored = first
    · simp only [hmatch, if_true, decide_true]
    · simp only [hmatch, if_false, decide_false]
  | _ => rfl

end Values

/-! ## Comparisons -/

/-- A comparison in full: both sides show the effect of the table. -/
theorem checkCase_eq (type : IntType) (builtin : Builtin) (initial first second : type.Value) :
    checkCase type builtin initial first second =
      { builtin := builtin
        type := type
        initial := type.text initial
        operands := ([first, second].take builtin.valueCount).map type.text
        expectedResult := (builtin.effect initial first second).1.cValue? type.text
        actualResult := (builtin.effect initial first second).1.cValue? type.text
        expectedAfter := type.text (builtin.effect initial first second).2
        actualAfter := type.text (builtin.effect initial first second).2
        passed := true } := by
  unfold checkCase
  rw [Builtin.reference_eq_effect, Builtin.evaluate_eq_effect]
  simp only [Option.bind_some, decide_true, Bool.and_self]

/-- On every value of every integer type, a call on a plain target yields and leaves what the
call on an atomic cell yields and leaves, and the comparison of the two passes. -/
theorem evaluate_eq_reference (type : IntType) (builtin : Builtin)
    (initial first second : type.Value) :
    builtin.evaluate initial [first, second] =
        (some (builtin.reference initial first second).1,
          (builtin.reference initial first second).2) ∧
      (checkCase type builtin initial first second).passed = true := by
  constructor
  · rw [Builtin.reference_eq_effect, Builtin.evaluate_eq_effect]
  · rw [checkCase_eq]

/-! ## Matrix runs -/

/-- A report after more cases, all of which passed, on more types. -/
structure ContractReport.OnlyPassed (before after : ContractReport) (cases : Nat)
    (types : List IntType) : Prop where
  failures : after.failures = before.failures
  failed : after.failed = before.failed
  passed : after.passed = before.passed + cases
  total : after.total = before.total + cases
  types : after.types = before.types ++ types

namespace ContractReport.OnlyPassed

/-- No cases change nothing. -/
theorem refl (report : ContractReport) : OnlyPassed report report 0 [] :=
  ⟨rfl, rfl, rfl, rfl, (List.append_nil _).symm⟩

/-- Cases that pass are counted one after the other. -/
theorem trans {first second third : ContractReport} {cases more : Nat}
    {types others : List IntType} (h : OnlyPassed first second cases types)
    (h' : OnlyPassed second third more others) :
    OnlyPassed first third (cases + more) (types ++ others) := by
  constructor
  · rw [h'.failures, h.failures]
  · rw [h'.failed, h.failed]
  · rw [h'.passed, h.passed, Nat.add_assoc]
  · rw [h'.total, h.total, Nat.add_assoc]
  · rw [h'.types, h.types, List.append_assoc]

/-- A case that passed is only counted. -/
theorem record (report : ContractReport) {case : ContractCase} (hpassed : case.passed = true) :
    OnlyPassed report (report.record case) 1 [] := by
  constructor
  · simp only [ContractReport.record, hpassed, if_true]
  · simp only [ContractReport.record, hpassed, if_true, Nat.add_zero]
  · simp only [ContractReport.record, hpassed, if_true]
  · rfl
  · exact (List.append_nil _).symm

/-- Cases that pass are only counted. -/
theorem foldl_record (report : ContractReport) {cases : List ContractCase}
    (hpassed : ∀ case ∈ cases, case.passed = true) :
    OnlyPassed report (cases.foldl ContractReport.record report) cases.length [] := by
  induction cases generalizing report with
  | nil => exact refl report
  | cons case more ih =>
    have hcase := record report (hpassed case List.mem_cons_self)
    have hmore := ih (report.record case) fun other hother =>
      hpassed other (List.mem_cons_of_mem case hother)
    rw [List.length_cons, Nat.add_comm]
    exact hcase.trans hmore

end ContractReport.OnlyPassed

/-- Every case of a type passes. -/
theorem passed_of_mem_contractCases {type : IntType} {case : ContractCase}
    (hcase : case ∈ contractCases type) : case.passed = true := by
  unfold contractCases at hcase
  simp only [List.mem_flatMap, List.mem_map] at hcase
  obtain ⟨builtin, -, initial, -, operands, -, rfl⟩ := hcase
  rw [checkCase_eq]

/-- How many cases a type has: 13 built-ins are tried on pairs of samples, two on triples and
two on the samples themselves. -/
theorem length_contractCases (type : IntType) : (contractCases type).length = 912 := by
  have hsamples : type.samples.length = 6 := rfl
  simp only [contractCases, Builtin.all, Update.all, List.map_cons, List.map_nil,
    List.cons_append, List.nil_append, List.flatMap_cons, List.flatMap_nil, List.length_append,
    List.length_flatMap, List.length_map, operandPairs, Builtin.operandCount, List.length_cons,
    List.length_nil, List.map_const', hsamples]
  rfl

namespace ContractReport.OnlyPassed

/-- All cases of a type pass. -/
theorem runType (report : ContractReport) (type : IntType) :
    OnlyPassed report (report.runType type) 912 [type] := by
  have htypes : OnlyPassed report { report with types := report.types ++ [type] } 0 [type] :=
    ⟨rfl, rfl, rfl, rfl, rfl⟩
  have hpassed : ∀ case ∈ contractCases type, case.passed = true := fun _ hcase =>
    passed_of_mem_contractCases hcase
  have hcases := foldl_record { report with types := report.types ++ [type] } hpassed
  rw [length_contractCases] at hcases
  exact htypes.trans hcases

/-- A run over any types finds no failure and adds none to a report. -/
theorem runTypes (report : ContractReport) (types : List IntType) :
    OnlyPassed report (report.runTypes types) (912 * types.length) types := by
  induction types generalizing report with
  | nil => exact refl report
  | cons type more ih =>
    have hboth := (runType report type).trans (ih (report.runType type))
    have hcount : 912 + 912 * more.length = 912 * (type :: more).length := by
      rw [List.length_cons]
      omega
    rw [hcount, List.singleton_append] at hboth
    unfold ContractReport.runTypes at hboth ⊢
    rw [List.foldl_cons]
    exact hboth

end ContractReport.OnlyPassed

end PlainSync
