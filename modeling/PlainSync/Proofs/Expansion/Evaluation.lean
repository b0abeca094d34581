import PlainSync.IntType
import PlainSync.Proofs.Expansion.Meaning

/-!
# Expansions mean their built-ins

Every expansion reads as one C expression, and running that expression on any memory does
what the built-in does by definition: it yields the same value, leaves the same value at the
target, touches no other cell, and evaluates the pointer operand once.
-/

namespace PlainSync.Reading

/-- The operator of the compound assignment that performs an update, if there is one. -/
def Operator.ofUpdate? : Update → Option Operator
  | .add => some .plus
  | .sub => some .minus
  | .or => some .bitOr
  | .and => some .bitAnd
  | .xor => some .bitXor
  | .nand => none

/-! ## What the expansions spell -/

namespace Spelled

/-- A load or store through the pointer temporary. -/
def bound : List Token := [.star, .slot .pointerName]

/-- A load or store through the pointer operand. -/
def direct : List Token := [.star, .openParen, .slot .pointer, .closeParen]

/-- A value operand. -/
def value (index : Nat) : List Token := [.openParen, .slot (.value index), .closeParen]

/-- The declaration of the pointer temporary. -/
def bindPointer : List Token :=
  [.typeofWord, .openParen, .openParen, .slot .pointerType, .closeParen, .closeParen,
    .slot .pointerName, .assign, .openParen, .slot .pointer, .closeParen, .semicolon]

/-- The declaration of the value temporary. -/
def bindSaved : List Token :=
  [.typeofWord, .openParen] ++ bound ++ [.closeParen, .slot .savedName, .assign] ++ bound ++
    [.semicolon]

/-- A statement expression. -/
def block (body : List Token) : List Token :=
  [.openParen, .openBrace] ++ body ++ [.semicolon, .closeBrace, .closeParen]

/-- The tokens of the expansion of a built-in. -/
def tokens : Builtin → List Token
  | .fetchAndOp update =>
    block (bindPointer ++ bindSaved ++ bound ++
      (match Operator.ofUpdate? update with
        | some operator => .combine operator :: value 0
        | none =>
          [.assign, .tilde, .openParen, .slot .savedName, .ampersand] ++ value 0 ++
            [.closeParen]) ++
      [.semicolon, .slot .savedName])
  | .opAndFetch update =>
    match Operator.ofUpdate? update with
    | some operator => [.openParen] ++ direct ++ .combine operator :: value 0 ++ [.closeParen]
    | none =>
      block (bindPointer ++ bound ++ [.assign, .tilde, .openParen] ++ bound ++
        .ampersand :: value 0 ++ [.closeParen, .semicolon] ++ bound)
  | .boolCompareAndSwap =>
    block (bindPointer ++ [.openParen] ++ bound ++ .equal :: value 0 ++
      [.closeParen, .question, .openParen, .openParen] ++ bound ++ .assign :: value 1 ++
      [.closeParen, .comma, .number 1, .closeParen, .colon, .number 0])
  | .valCompareAndSwap =>
    block (bindPointer ++ bindSaved ++ [.ifWord, .openParen, .slot .savedName, .equal] ++
      value 0 ++ [.closeParen, .openBrace] ++ bound ++ .assign :: value 1 ++
      [.semicolon, .closeBrace, .slot .savedName])
  | .synchronize => [.openParen, .openParen, .voidWord, .closeParen, .number 0, .closeParen]
  | .lockTestAndSet =>
    block (bindPointer ++ bindSaved ++ bound ++ .assign :: value 0 ++
      [.semicolon, .slot .savedName])
  | .lockRelease =>
    [.openParen, .openParen, .voidWord, .closeParen, .openParen] ++ direct ++
      [.assign, .number 0, .closeParen, .closeParen]

end Spelled

/-- A load or store through the pointer temporary. -/
abbrev Expression.bound : Expression := .dereference (.temporary .pointer)

/-- A load or store through the pointer operand. -/
abbrev Expression.direct : Expression := .dereference .pointer

/-- The declaration of the pointer temporary. -/
abbrev Statement.bindPointer : Statement := .declare .pointerType .pointer .pointer

/-- The declaration of the value temporary. -/
abbrev Statement.bindSaved : Statement := .declare .bound .saved .bound

/-- The expression that the expansion of a built-in is read as. -/
def Expression.ofBuiltin : Builtin → Expression
  | .fetchAndOp update =>
    .block
      [.bindPointer, .bindSaved,
        .perform
          (match Operator.ofUpdate? update with
          | some operator => .combine operator .bound (.value 0)
          | none => .assign .bound (.complement (.conjunction (.temporary .saved) (.value 0)))),
        .perform (.temporary .saved)]
  | .opAndFetch update =>
    match Operator.ofUpdate? update with
    | some operator => .combine operator .direct (.value 0)
    | none =>
      .block
        [.bindPointer, .perform (.assign .bound (.complement (.conjunction .bound (.value 0)))),
          .perform .bound]
  | .boolCompareAndSwap =>
    .block
      [.bindPointer,
        .perform
          (.choose (.equal .bound (.value 0))
            (.sequence (.assign .bound (.value 1)) (.number 1)) (.number 0))]
  | .valCompareAndSwap =>
    .block
      [.bindPointer, .bindSaved,
        .when (.equal (.temporary .saved) (.value 0)) [.perform (.assign .bound (.value 1))],
        .perform (.temporary .saved)]
  | .synchronize => .discard (.number 0)
  | .lockTestAndSet =>
    .block
      [.bindPointer, .bindSaved, .perform (.assign .bound (.value 0)),
        .perform (.temporary .saved)]
  | .lockRelease => .discard (.assign .direct (.number 0))

/-- The symbols of an expansion are read as its tokens. -/
theorem tokens?_template (builtin : Builtin) :
    tokens? [] (template builtin) = some (Spelled.tokens builtin) := by
  cases builtin with
  | fetchAndOp update | opAndFetch update => cases update <;> decide +kernel
  | _ => decide +kernel

/-- The tokens of an expansion are read as its expression. -/
theorem readExpression_tokens (builtin : Builtin) :
    readExpression (8 * (Spelled.tokens builtin).length) (Spelled.tokens builtin) =
      some (.ofBuiltin builtin, []) := by
  cases builtin with
  | fetchAndOp update | opAndFetch update => cases update <;> rfl
  | _ => rfl

/-- The template of every built-in has a reading. -/
theorem read?_template (builtin : Builtin) :
    read? (template builtin) = some (.ofBuiltin builtin) := by
  unfold read?
  rw [tokens?_template, Option.bind_eq_bind, Option.bind_some, readExpression_tokens]
  rfl

/-! ## Running the parts -/

/-- The operator of an update computes it. -/
theorem Operator.apply_of_ofUpdate? {w : Nat} {update : Update} {operator : Operator}
    (hoperator : Operator.ofUpdate? update = some operator) (stored operand : BitVec w) :
    operator.apply stored operand = update.apply stored operand := by
  cases update <;> cases hoperator <;> rfl

/-- Only the complement of the conjunction has no operator. -/
theorem Operator.eq_nand_of_ofUpdate? {update : Update}
    (hoperator : Operator.ofUpdate? update = none) : update = .nand := by
  cases update <;> first | rfl | cases hoperator

section Run

variable {Address : Type} [DecidableEq Address] {w : Nat}
variable (environment : Environment Address w) (machine : Machine Address w)

/-- A statement expression runs its statements. Its temporaries are gone behind it. -/
theorem Expression.run_block (body : List Statement) :
    (Expression.block body).run environment machine =
      (runBody environment machine body).map fun done =>
        (done.1, { done.2 with pointer := machine.pointer, saved := machine.saved }) := by
  cases hrun : runBody environment machine body <;> simp [hrun]

/-- The declaration of the pointer temporary evaluates the pointer operand. -/
theorem runBody_bindPointer (next : Statement) (more : List Statement) :
    runBody environment machine (.bindPointer :: next :: more) =
      runBody environment
        { machine with
          pointer := some (environment.pointer machine.evaluations)
          evaluations := machine.evaluations + 1 } (next :: more) := by
  simp [Expression.kind?, Machine.declare?]

/-- Both declarations evaluate the pointer operand once, and the second one loads. -/
theorem runBody_bindBoth (next : Statement) (more : List Statement) :
    runBody environment machine (.bindPointer :: .bindSaved :: next :: more) =
      runBody environment
        { machine with
          pointer := some (environment.pointer machine.evaluations)
          saved := some (machine.memory (environment.pointer machine.evaluations))
          evaluations := machine.evaluations + 1 } (next :: more) := by
  rw [runBody_bindPointer]
  simp [Expression.kind?, Machine.declare?, Datum.address?]

end Run

/-! ## Running the expansions -/

section Builtins

variable {Address : Type} [DecidableEq Address] {w : Nat}
variable (pointer : Nat → Address) (memory : Address → BitVec w) (first second : BitVec w)

/-- What evaluating a fetch in front of an operation gives. -/
theorem run_fetchAndOp (update : Update) :
    (Expression.ofBuiltin (.fetchAndOp update)).run ⟨pointer, [first, second]⟩
        { memory := memory } =
      some (.scalar (memory (pointer 0)),
        { memory :=
            Function.update memory (pointer 0) (update.apply (memory (pointer 0)) first)
          evaluations := 1 }) := by
  rw [Expression.ofBuiltin, Expression.run_block, runBody_bindBoth]
  cases hoperator : Operator.ofUpdate? update with
  | some operator =>
    simp [Datum.address?, Datum.stored?, Machine.store, Operator.apply_of_ofUpdate? hoperator]
  | none =>
    obtain rfl := Operator.eq_nand_of_ofUpdate? hoperator
    simp [Datum.address?, Datum.stored?, Machine.store, Update.apply]

/-- What evaluating an operation in front of a fetch gives. -/
theorem run_opAndFetch (update : Update) :
    (Expression.ofBuiltin (.opAndFetch update)).run ⟨pointer, [first, second]⟩
        { memory := memory } =
      some (.scalar (update.apply (memory (pointer 0)) first),
        { memory :=
            Function.update memory (pointer 0) (update.apply (memory (pointer 0)) first)
          evaluations := 1 }) := by
  rw [Expression.ofBuiltin]
  cases hoperator : Operator.ofUpdate? update with
  | some operator =>
    simp [Datum.address?, Datum.stored?, Machine.store, Operator.apply_of_ofUpdate? hoperator]
  | none =>
    obtain rfl := Operator.eq_nand_of_ofUpdate? hoperator
    simp only [Expression.run_block, runBody_bindPointer]
    simp [Datum.address?, Datum.stored?, Machine.store, Update.apply]

/-- What evaluating a swap that tells whether it was made gives. -/
theorem run_boolCompareAndSwap :
    (Expression.ofBuiltin .boolCompareAndSwap).run ⟨pointer, [first, second]⟩
        { memory := memory } =
      some (.int (if memory (pointer 0) = first then 1 else 0),
        { memory :=
            Function.update memory (pointer 0)
              (if memory (pointer 0) = first then second else memory (pointer 0))
          evaluations := 1 }) := by
  rw [Expression.ofBuiltin, Expression.run_block, runBody_bindPointer]
  by_cases hequal : memory (pointer 0) = first <;>
    simp [Datum.address?, Datum.stored?, Datum.truth?, Machine.store, hequal]

/-- What evaluating a swap that tells the old value gives. -/
theorem run_valCompareAndSwap :
    (Expression.ofBuiltin .valCompareAndSwap).run ⟨pointer, [first, second]⟩
        { memory := memory } =
      some (.scalar (memory (pointer 0)),
        { memory :=
            Function.update memory (pointer 0)
              (if memory (pointer 0) = first then second else memory (pointer 0))
          evaluations := 1 }) := by
  rw [Expression.ofBuiltin, Expression.run_block, runBody_bindBoth]
  by_cases hequal : memory (pointer 0) = first <;>
    simp [Datum.address?, Datum.stored?, Datum.truth?, Machine.store, hequal]

/-- What evaluating an exchange gives. -/
theorem run_lockTestAndSet :
    (Expression.ofBuiltin .lockTestAndSet).run ⟨pointer, [first, second]⟩
        { memory := memory } =
      some (.scalar (memory (pointer 0)),
        { memory := Function.update memory (pointer 0) first, evaluations := 1 }) := by
  rw [Expression.ofBuiltin, Expression.run_block, runBody_bindBoth]
  simp [Datum.address?, Datum.stored?, Machine.store]

/-- What evaluating a release gives. -/
theorem run_lockRelease :
    (Expression.ofBuiltin .lockRelease).run ⟨pointer, [first, second]⟩ { memory := memory } =
      some (.void,
        { memory := Function.update memory (pointer 0) 0, evaluations := 1 }) := by
  simp [Expression.ofBuiltin, Datum.address?, Datum.stored?, Machine.store]

end Builtins

/-- The text of an expansion is its template with the operands and names filled in, and
there is none exactly if operands are missing. The template reads as one C expression. Run
on any memory of cells of the pointee's type, that expression yields what the built-in
yields, leaves at the address of the pointer operand what the built-in leaves there, changes
no other cell, and evaluates the pointer operand once, or not at all if there is none. -/
theorem expansion_means_builtin (builtin : Builtin) :
    (∀ operands names,
      expand? builtin operands names =
        if operands.values.length < builtin.valueCount then none
        else some (fill operands names (template builtin))) ∧
    ∃ expression, read? (template builtin) = some expression ∧
      ∀ (t : IntType) (Address : Type) [DecidableEq Address] (pointer : Nat → Address)
        (memory : Address → t.Value) (first second : t.Value),
        ∃ outcome after,
          builtin.evaluate (memory (pointer 0)) [first, second] = (some outcome, after) ∧
          expression.run ⟨pointer, [first, second]⟩ { memory := memory } =
            some (.ofOutcome outcome,
              { memory := Function.update memory (pointer 0) after
                evaluations := if builtin.operandCount = 0 then 0 else 1 }) := by
  refine ⟨fun operands names => ?_, .ofBuiltin builtin, read?_template builtin, ?_⟩
  · rw [fill_template]
    rfl
  · intro t Address _ pointer memory first second
    cases builtin with
    | fetchAndOp update => exact ⟨_, _, rfl, run_fetchAndOp pointer memory first second update⟩
    | opAndFetch update => exact ⟨_, _, rfl, run_opAndFetch pointer memory first second update⟩
    | boolCompareAndSwap =>
      refine ⟨.success (memory (pointer 0) = first),
        if memory (pointer 0) = first then second else memory (pointer 0), ?_,
        (run_boolCompareAndSwap pointer memory first second).trans ?_⟩ <;>
        by_cases hequal : memory (pointer 0) = first <;>
        simp [Builtin.evaluate, Plain.boolCompareAndSwap, Datum.ofOutcome, Builtin.operandCount,
          hequal]
    | valCompareAndSwap =>
      exact ⟨_, _, rfl, run_valCompareAndSwap pointer memory first second⟩
    | synchronize =>
      refine ⟨_, _, rfl, ?_⟩
      simp [Expression.ofBuiltin, Datum.ofOutcome, Builtin.operandCount]
    | lockTestAndSet => exact ⟨_, _, rfl, run_lockTestAndSet pointer memory first second⟩
    | lockRelease => exact ⟨_, _, rfl, run_lockRelease pointer memory first second⟩

end PlainSync.Reading
