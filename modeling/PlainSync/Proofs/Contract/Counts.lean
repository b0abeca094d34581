import Mathlib.Algebra.GroupWithZero.Nat
import PlainSync.Proofs.Contract.AtomicReference
import PlainSync.Proofs.Source.Lexeme

/-!
# The report of a matrix run balances

A report counts its cases four times: all of them, those that passed and those that failed, those of
each built-in, and the failures that it keeps. Recording a case keeps the counts in step, whatever
the case is, so they are in step behind every sequence of cases. A matrix run records the same
number of cases for every type.
-/

namespace PlainSync

/-! ## Counting one case -/

/-- One more case. -/
def ContractCount.add (count : ContractCount) (failed : Bool) : ContractCount :=
  ⟨count.cases + 1, count.failed + if failed then 1 else 0⟩

/-- The counts stand in the order of the built-ins' names, each name once. -/
def CountsInOrder (counts : List (Builtin × ContractCount)) : Prop :=
  counts.Pairwise fun first second => first.1.name < second.1.name

/-- A built-in can be told from its name. -/
theorem Builtin.eq_of_name {builtin other : Builtin} (hname : builtin.name = other.name) :
    builtin = other := by
  have hspelling : builtin.spelling = other.spelling := congrArg Bytes.ofString hname
  have hfound := Source.ofSpelling?_spelling builtin
  rw [hspelling, Source.ofSpelling?_spelling] at hfound
  exact (Option.some.inj hfound).symm

/-- Where the count of a built-in stands: in front of the counts of later names. Counting a case
changes nothing else. -/
theorem exists_countCase (builtin : Builtin) {counts : List (Builtin × ContractCount)}
    (hcounts : CountsInOrder counts) :
    ∃ front old? back, counts = front ++ (Option.map (builtin, ·) old?).toList ++ back ∧
      (∀ failed, countCase builtin failed counts =
        front ++ (builtin, (old?.getD {}).add failed) :: back) ∧
      (∀ entry ∈ front, entry.1.name < builtin.name) ∧
      ∀ entry ∈ back, builtin.name < entry.1.name := by
  have hfirst (failed : Bool) : (⟨1, if failed then 1 else 0⟩ : ContractCount) =
      ContractCount.add {} failed := by cases failed <;> rfl
  induction counts with
  | nil => exact ⟨[], none, [], rfl, fun failed => by rw [countCase, hfirst]; rfl, nofun, nofun⟩
  | cons entry more ih =>
    obtain ⟨other, count⟩ := entry
    obtain ⟨hother, hmore⟩ := List.pairwise_cons.mp hcounts
    by_cases hsame : builtin = other
    · subst hsame
      exact ⟨[], some count, more, rfl, fun failed => by rw [countCase, if_pos rfl]; rfl, nofun,
        hother⟩
    · by_cases hless : builtin.name < other.name
      · refine ⟨[], none, (other, count) :: more, rfl, fun failed => ?_, nofun, ?_⟩
        · rw [countCase, if_neg hsame, if_pos hless, hfirst]
          rfl
        · exact List.forall_mem_cons.mpr
            ⟨hless, fun entry hentry => String.lt_trans hless (hother entry hentry)⟩
      · obtain ⟨front, old?, back, rfl, hcount, hfront, hback⟩ := ih hmore
        refine ⟨(other, count) :: front, old?, back, rfl, fun failed => ?_, ?_, hback⟩
        · rw [countCase, if_neg hsame, if_neg hless, hcount]
          rfl
        · have hgreater : other.name < builtin.name := String.not_le.mp fun hle =>
            hsame (Builtin.eq_of_name (String.le_antisymm hle (String.not_lt.mp hless)))
          exact List.forall_mem_cons.mpr ⟨hgreater, hfront⟩

/-- Counting a case keeps the counts in order. -/
theorem CountsInOrder.countCase {counts : List (Builtin × ContractCount)}
    (hcounts : CountsInOrder counts) (builtin : Builtin) (failed : Bool) :
    CountsInOrder (countCase builtin failed counts) := by
  obtain ⟨front, old?, back, rfl, hcount, hfront, hback⟩ := exists_countCase builtin hcounts
  rw [hcount]
  obtain ⟨hinit, hends, -⟩ := List.pairwise_append.mp hcounts
  refine List.pairwise_append.mpr ⟨(List.pairwise_append.mp hinit).1,
    List.pairwise_cons.mpr ⟨hback, hends⟩, fun entry hentry => ?_⟩
  exact List.forall_mem_cons.mpr ⟨hfront entry hentry, fun other hother =>
    String.lt_trans (hfront entry hentry) (hback other hother)⟩

/-! ## Recording cases -/

/-- How often a built-in is among cases, and how often it fails in them. -/
def ContractCount.of (builtin : Builtin) (cases : List ContractCase) : ContractCount :=
  ⟨cases.countP (·.builtin = builtin),
    cases.countP fun case => case.builtin = builtin && !case.passed⟩

/-- One more case is counted for its built-in only. -/
theorem ContractCount.of_append_singleton (builtin : Builtin) (cases : List ContractCase)
    (case : ContractCase) :
    of builtin (cases ++ [case]) =
      if case.builtin = builtin then (of builtin cases).add (!case.passed)
      else of builtin cases := by
  by_cases hsame : case.builtin = builtin
  · cases hpassed : case.passed <;> simp [of, add, hsame, hpassed]
  · simp [of, hsame]

/-- A built-in that is not among the cases has no count. -/
theorem ContractCount.of_eq_empty {builtin : Builtin} {cases : List ContractCase}
    (habsent : ∀ case ∈ cases, case.builtin ≠ builtin) : of builtin cases = {} := by
  rw [of, List.countP_eq_zero.mpr fun case hcase => by simp [habsent case hcase],
    List.countP_eq_zero.mpr fun case hcase => by simp [habsent case hcase]]

namespace ContractReport

/-- A report is about cases that were recorded one after the other. -/
structure Balances (report : ContractReport) (cases : List ContractCase) : Prop where
  total : report.total = cases.length
  parts : report.total = report.passed + report.failed
  failed : report.failed = report.failures.length
  failures : report.failures = cases.filter (!·.passed)
  /-- Each built-in is counted once. -/
  inOrder : CountsInOrder report.perBuiltin
  /-- Those are counted that are among the cases, and their counts are exact. -/
  counts : ∀ builtin count, (builtin, count) ∈ report.perBuiltin ↔
    (∃ case ∈ cases, case.builtin = builtin) ∧ count = .of builtin cases
  caseSum : (report.perBuiltin.map (·.2.cases)).sum = report.total
  failedSum : (report.perBuiltin.map (·.2.failed)).sum = report.failed
  clean : report.isClean = true ↔ cases ≠ [] ∧ ∀ case ∈ cases, case.passed = true

/-- A report is clean if it has cases and none of them failed. -/
theorem isClean_iff {report : ContractReport} {cases : List ContractCase}
    (htotal : report.total = cases.length) (hfailed : report.failed = report.failures.length)
    (hfailures : report.failures = cases.filter (!·.passed)) :
    report.isClean = true ↔ cases ≠ [] ∧ ∀ case ∈ cases, case.passed = true := by
  rw [isClean, Bool.and_eq_true, decide_eq_true_eq, decide_eq_true_eq, hfailed, htotal,
    List.length_eq_zero_iff, hfailures, List.filter_eq_nil_iff, List.length_pos_iff, and_comm]
  simp

/-- An empty report balances no cases. -/
theorem balances_empty : Balances {} [] where
  total := rfl
  parts := rfl
  failed := rfl
  failures := rfl
  inOrder := List.Pairwise.nil
  counts := by simp
  caseSum := rfl
  failedSum := rfl
  clean := isClean_iff rfl rfl rfl

/-- The counts of the built-ins are in step behind one more case. -/
theorem mem_countCase_iff {counts : List (Builtin × ContractCount)} {cases : List ContractCase}
    (hcounts : CountsInOrder counts)
    (hexact : ∀ builtin count, (builtin, count) ∈ counts ↔
      (∃ case ∈ cases, case.builtin = builtin) ∧ count = .of builtin cases)
    (case : ContractCase) (builtin : Builtin) (count : ContractCount) :
    (builtin, count) ∈ countCase case.builtin (!case.passed) counts ↔
      (∃ other ∈ cases ++ [case], other.builtin = builtin) ∧
        count = .of builtin (cases ++ [case]) := by
  obtain ⟨front, old?, back, rfl, hcount, hfront, hback⟩ := exists_countCase case.builtin hcounts
  rw [hcount, ContractCount.of_append_singleton]
  by_cases hsame : case.builtin = builtin
  · subst hsame
    have hnotFront (count : ContractCount) : (case.builtin, count) ∉ front := by
      intro hmem
      exact String.lt_irrefl case.builtin.name (hfront (case.builtin, count) hmem)
    have hnotBack (count : ContractCount) : (case.builtin, count) ∉ back := by
      intro hmem
      exact String.lt_irrefl case.builtin.name (hback (case.builtin, count) hmem)
    have hold : old?.getD {} = .of case.builtin cases := by
      cases old? with
      | none =>
        refine (ContractCount.of_eq_empty fun other hother hname => ?_).symm
        have hmem := (hexact case.builtin _).mpr ⟨⟨other, hother, hname⟩, rfl⟩
        simp [hnotFront, hnotBack] at hmem
      | some old => exact ((hexact case.builtin old).mp (by simp)).2
    simp [hnotFront, hnotBack, hold]
  · have hother := hexact builtin count
    have hne : builtin ≠ case.builtin := Ne.symm hsame
    have hold : (builtin, count) ∉ (Option.map (case.builtin, ·) old?).toList := by
      cases old? <;> simp [hne]
    simp only [List.mem_append, hold, or_false] at hother
    simp [hsame, hne, ← hother]

/-- A report stays in step with its cases when one more is recorded. -/
theorem Balances.record {report : ContractReport} {cases : List ContractCase}
    (hreport : report.Balances cases) (case : ContractCase) :
    (report.record case).Balances (cases ++ [case]) := by
  have htotal : (report.record case).total = (cases ++ [case]).length := by
    rw [List.length_append, ← hreport.total]
    rfl
  have hfailures : (report.record case).failures = (cases ++ [case]).filter (!·.passed) := by
    rw [List.filter_append, ← hreport.failures]
    cases hpassed : case.passed <;> simp [ContractReport.record, hpassed]
  have hfailed : (report.record case).failed = (report.record case).failures.length := by
    have hbefore := hreport.failed
    cases hpassed : case.passed <;> simp [ContractReport.record, hpassed, hbefore]
  have hsums (select : ContractCount → Nat) (more : Nat)
      (hmore : ∀ count : ContractCount, select (count.add (!case.passed)) = select count + more)
      (hnone : select {} = 0) :
      ((report.record case).perBuiltin.map (select ·.2)).sum =
        (report.perBuiltin.map (select ·.2)).sum + more := by
    obtain ⟨front, old?, back, hcounts, hcount, -, -⟩ :=
      exists_countCase case.builtin hreport.inOrder
    have hafter : (report.record case).perBuiltin = _ := hcount (!case.passed)
    rw [hafter, hcounts]
    cases old? with
    | none =>
      simp only [Option.getD_none, hmore, hnone, List.map_append, List.map_cons, List.sum_append,
        List.sum_cons, Option.map_none, Option.toList_none, List.map_nil, List.sum_nil]
      omega
    | some old =>
      simp only [Option.getD_some, hmore, List.map_append, List.map_cons, List.sum_append,
        List.sum_cons, Option.map_some, Option.toList_some, List.map_nil, List.sum_nil]
      omega
  constructor
  · exact htotal
  · have hparts := hreport.parts
    cases hpassed : case.passed <;>
      simp only [ContractReport.record, hpassed, if_true, if_false, Bool.false_eq_true] <;> omega
  · exact hfailed
  · exact hfailures
  · exact hreport.inOrder.countCase case.builtin (!case.passed)
  · exact mem_countCase_iff hreport.inOrder hreport.counts case
  · rw [hsums ContractCount.cases 1 (fun _ => rfl) rfl, hreport.caseSum]
    rfl
  · rw [hsums ContractCount.failed (if case.passed then 0 else 1) ?_ rfl, hreport.failedSum]
    · rfl
    · intro count
      cases case.passed <;> rfl
  · exact isClean_iff htotal hfailed hfailures

/-- A report is in step with its cases behind every sequence of further ones. -/
theorem Balances.foldl_record {report : ContractReport} {cases : List ContractCase}
    (hreport : report.Balances cases) (more : List ContractCase) :
    (more.foldl ContractReport.record report).Balances (cases ++ more) := by
  induction more generalizing report cases with
  | nil => rwa [List.append_nil]
  | cons case more ih =>
    have hmore := ih (hreport.record case)
    rwa [List.append_assoc, List.singleton_append] at hmore

/-! ## Matrix runs -/

/-- A report balances the cases of one more type. -/
theorem Balances.runType {report : ContractReport} {cases : List ContractCase}
    (hreport : report.Balances cases) (type : IntType) :
    (report.runType type).Balances (cases ++ contractCases type) := by
  have htypes : Balances { report with types := report.types ++ [type] } cases :=
    ⟨hreport.total, hreport.parts, hreport.failed, hreport.failures, hreport.inOrder,
      hreport.counts, hreport.caseSum, hreport.failedSum, hreport.clean⟩
  exact htypes.foldl_record (contractCases type)

/-- A report balances the cases of more types. -/
theorem Balances.runTypes {report : ContractReport} {cases : List ContractCase}
    (hreport : report.Balances cases) (types : List IntType) :
    (report.runTypes types).Balances (cases ++ types.flatMap contractCases) := by
  induction types generalizing report cases with
  | nil =>
    rw [List.flatMap_nil, List.append_nil]
    exact hreport
  | cons type more ih =>
    have hmore := ih (hreport.runType type)
    rw [List.append_assoc, ← List.flatMap_cons] at hmore
    unfold ContractReport.runTypes at hmore ⊢
    rwa [List.foldl_cons]

end ContractReport

/-- How often a built-in is compared on each type. -/
def Builtin.caseCount : Builtin → Nat
  | fetchAndOp _ | opAndFetch _ | lockTestAndSet => 36
  | boolCompareAndSwap | valCompareAndSwap => 216
  | synchronize | lockRelease => 6

/-- The cases of a built-in are among those of a type. -/
theorem countP_builtin (type : IntType) (builtin : Builtin) :
    (contractCases type).countP (·.builtin = builtin) = builtin.caseCount := by
  have hcases (other : Builtin) :
      (type.samples.flatMap fun initial => (operandPairs type other).map fun operands =>
        checkCase type other initial operands.1 operands.2).countP (·.builtin = builtin) =
          if other = builtin then other.caseCount else 0 := by
    split
    · next hsame =>
      rw [List.countP_eq_length.mpr]
      · have hsamples : type.samples.length = 6 := rfl
        cases other <;>
          simp only [operandPairs, Builtin.operandCount, List.length_flatMap, List.length_map,
            List.length_cons, List.length_nil, List.map_const', hsamples] <;> rfl
      · intro case hcase
        simp only [List.mem_flatMap, List.mem_map] at hcase
        obtain ⟨initial, -, operands, -, rfl⟩ := hcase
        simp [checkCase, hsame]
    · next hother =>
      refine List.countP_eq_zero.mpr fun case hcase => ?_
      simp only [List.mem_flatMap, List.mem_map] at hcase
      obtain ⟨initial, -, operands, -, rfl⟩ := hcase
      simp [checkCase, hother]
  have hall : (contractCases type).countP (·.builtin = builtin) =
      (Builtin.all.map fun other => if other = builtin then other.caseCount else 0).sum := by
    rw [contractCases, List.countP_flatMap]
    exact congrArg List.sum (List.map_congr_left fun other _ => hcases other)
  rw [hall]
  cases builtin with
  | fetchAndOp update | opAndFetch update => cases update <;> decide
  | _ => decide

/-- The matrix run records the same cases for every type. -/
theorem countP_flatMap_contractCases (types : List IntType) (builtin : Builtin) :
    (types.flatMap contractCases).countP (·.builtin = builtin) =
      types.length * builtin.caseCount := by
  induction types with
  | nil => exact (Nat.zero_mul _).symm
  | cons type more ih =>
    rw [List.flatMap_cons, List.countP_append, countP_builtin, ih, List.length_cons,
      Nat.add_mul, Nat.one_mul, Nat.add_comm]

/-- A built-in fails in no case of a matrix run. -/
theorem countOf_flatMap_contractCases (types : List IntType) (builtin : Builtin) :
    ContractCount.of builtin (types.flatMap contractCases) =
      ⟨types.length * builtin.caseCount, 0⟩ := by
  rw [ContractCount.of, countP_flatMap_contractCases, List.countP_eq_zero.mpr]
  intro case hcase
  obtain ⟨type, -, hcase⟩ := List.mem_flatMap.mp hcase
  simp [passed_of_mem_contractCases hcase]

/-- Every built-in is among the cases of a matrix run on any types at all. -/
theorem exists_case_iff (types : List IntType) (builtin : Builtin) :
    (∃ case ∈ types.flatMap contractCases, case.builtin = builtin) ↔ types ≠ [] := by
  have hpositive : 0 < builtin.caseCount := by cases builtin <;> exact Nat.succ_pos _
  have hcount := countP_flatMap_contractCases types builtin
  have hsome : (∃ case ∈ types.flatMap contractCases, case.builtin = builtin) ↔
      0 < (types.flatMap contractCases).countP (·.builtin = builtin) := by
    simp only [List.countP_pos_iff, decide_eq_true_eq]
  rw [hsome, hcount, Nat.mul_pos_iff_of_pos_right hpositive, List.length_pos_iff]

namespace ContractReport

/-- What a matrix run on types reports. -/
structure Ran (report : ContractReport) (types : List IntType) : Prop where
  total : report.total = 912 * types.length
  counts : ∀ builtin count, (builtin, count) ∈ report.perBuiltin ↔
    types ≠ [] ∧ count = ⟨types.length * builtin.caseCount, 0⟩
  clean : report.isClean = true ↔ types ≠ []
  types : report.types = types

/-- A report on types has run the cases of each. -/
theorem ran_runTypes (types : List IntType) : Ran (runTypes {} types) types := by
  have hreport := balances_empty.runTypes types
  have hpassed := OnlyPassed.runTypes {} types
  rw [List.nil_append] at hreport
  constructor
  · exact hpassed.total.trans (Nat.zero_add _)
  · intro builtin count
    rw [hreport.counts, exists_case_iff, countOf_flatMap_contractCases]
  · rw [isClean, Bool.and_eq_true, decide_eq_true_eq, decide_eq_true_eq, hpassed.failed,
      hpassed.total, ← List.length_pos_iff]
    simp
  · exact hpassed.types.trans (List.nil_append types)

/-- A report balances behind every sequence of cases, whichever of them passed, and so does that of
a matrix run, which records as many cases for each type and is clean if there are types. -/
theorem balances_recorded (cases : List ContractCase) (types : List IntType) :
    (cases.foldl record {}).Balances cases ∧
      (runTypes {} types).Balances (types.flatMap contractCases) ∧ (runTypes {} types).Ran types :=
  ⟨balances_empty.foldl_record cases, balances_empty.runTypes types, ran_runTypes types⟩

end ContractReport

end PlainSync
