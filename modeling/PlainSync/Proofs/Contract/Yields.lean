import Mathlib.Data.List.Basic
import PlainSync.Builtin.Evaluate

/-!
# What calls yield

Three tables speak of the built-ins: what a call evaluates to, what the operation of the same name
does with the arguments, and what kind of result there is. They agree on every width: which
operands are needed and in which order, what is stored, and what is yielded.
-/

namespace PlainSync

variable {w : Nat}

/-- The outcome of a call, and the value that it leaves, are what a kind of result promises about
the stored value and the operands. -/
def Yield.Describes (yields : Yield) (stored : BitVec w) (operands : List (BitVec w))
    (outcome : Outcome (BitVec w)) (left : BitVec w) : Prop :=
  match yields with
  | before => outcome = .value stored
  | after => outcome = .value left
  | success =>
    ∃ expected new more, operands = expected :: new :: more ∧
      outcome = .success (stored = expected) ∧ left = if stored = expected then new else stored
  | nothing => outcome = .nothing

namespace Builtin

variable (target : BitVec w)

/-- Without the operands that it needs, a call does nothing. -/
theorem evaluate_of_lt {builtin : Builtin} {operands : List (BitVec w)}
    (hfewer : operands.length < builtin.valueCount) :
    builtin.evaluate target operands = (none, target) := by
  cases builtin with
  | fetchAndOp | opAndFetch | lockTestAndSet =>
    obtain rfl : operands = [] := List.length_eq_zero_iff.mp (Nat.lt_one_iff.mp hfewer)
    rfl
  | boolCompareAndSwap | valCompareAndSwap =>
    match operands with
    | [] => rfl
    | [expected] => rfl
    | expected :: new :: more =>
      exact absurd hfewer (Nat.not_lt.mpr (Nat.le_add_left 2 more.length))
  | synchronize | lockRelease => exact absurd hfewer (Nat.not_lt_zero _)

/-- The operands that a call needs, and those that it ignores. -/
theorem exists_needed {builtin : Builtin} {operands : List (BitVec w)}
    (henough : builtin.valueCount ≤ operands.length) :
    ∃ needed ignored, operands = needed ++ ignored ∧ needed.length = builtin.valueCount :=
  ⟨operands.take builtin.valueCount, operands.drop builtin.valueCount,
    (List.take_append_drop _ _).symm, List.length_take_of_le henough⟩

/-- Operands behind those that a call needs are ignored. -/
theorem evaluate_append {builtin : Builtin} {needed : List (BitVec w)}
    (hneeded : needed.length = builtin.valueCount) (ignored : List (BitVec w)) :
    builtin.evaluate target (needed ++ ignored) = builtin.evaluate target needed := by
  cases builtin with
  | fetchAndOp | opAndFetch | lockTestAndSet =>
    obtain ⟨operand, rfl⟩ := List.length_eq_one_iff.mp hneeded
    rfl
  | boolCompareAndSwap | valCompareAndSwap =>
    obtain ⟨expected, new, rfl⟩ := List.length_eq_two.mp hneeded
    rfl
  | synchronize => rfl
  | lockRelease => rfl

/-- A call that has its operands yields what its kind of result promises. -/
theorem exists_evaluate_describes {builtin : Builtin} {operands : List (BitVec w)}
    (henough : builtin.valueCount ≤ operands.length) :
    ∃ outcome left, builtin.evaluate target operands = (some outcome, left) ∧
      builtin.yields.Describes target operands outcome left := by
  obtain ⟨needed, ignored, rfl, hneeded⟩ := exists_needed henough
  cases builtin with
  | fetchAndOp | opAndFetch | lockTestAndSet =>
    obtain ⟨operand, rfl⟩ := List.length_eq_one_iff.mp hneeded
    exact ⟨_, _, rfl, rfl⟩
  | boolCompareAndSwap =>
    obtain ⟨expected, new, rfl⟩ := List.length_eq_two.mp hneeded
    by_cases hmatch : target = expected
    · exact ⟨.success true, new, by simp [evaluate, Plain.boolCompareAndSwap, hmatch],
        expected, new, ignored, rfl, by simp [hmatch], by simp [hmatch]⟩
    · exact ⟨.success false, target, by simp [evaluate, Plain.boolCompareAndSwap, hmatch],
        expected, new, ignored, rfl, by simp [hmatch], by simp [hmatch]⟩
  | valCompareAndSwap =>
    obtain ⟨expected, new, rfl⟩ := List.length_eq_two.mp hneeded
    exact ⟨_, _, rfl, rfl⟩
  | synchronize | lockRelease => exact ⟨_, _, rfl, rfl⟩

/-- The operation of a built-in's name does what a call of the built-in does, and needs as many
operands. -/
theorem callByName_shortName (builtin : Builtin) (operands : List (BitVec w)) :
    callByName builtin.shortName target operands =
      (builtin.evaluate target operands).1.map fun outcome =>
        (outcome, (builtin.evaluate target operands).2) := by
  cases builtin with
  | fetchAndOp update | opAndFetch update =>
    cases operands with
    | nil => cases update <;> rfl
    | cons operand more => cases update <;> rfl
  | boolCompareAndSwap | valCompareAndSwap =>
    match operands with
    | [] => rfl
    | [expected] => rfl
    | expected :: new :: more => rfl
  | lockTestAndSet => cases operands <;> rfl
  | synchronize | lockRelease => rfl

/-- A call without the operands that it needs yields nothing and leaves the target. Every other call
depends on those operands alone, yields and leaves what the operation of its name yields and leaves,
and keeps the promise of its kind of result. -/
theorem evaluate_describes (builtin : Builtin) (operands : List (BitVec w)) :
    if operands.length < builtin.valueCount then
      builtin.evaluate target operands = (none, target)
    else
      ∃ outcome left, builtin.evaluate target operands = (some outcome, left) ∧
        builtin.evaluate target (operands.take builtin.valueCount) = (some outcome, left) ∧
        callByName builtin.shortName target operands = some (outcome, left) ∧
        builtin.yields.Describes target operands outcome left := by
  split
  · next hfewer => exact evaluate_of_lt target hfewer
  · next hfewer =>
    have henough : builtin.valueCount ≤ operands.length := Nat.not_lt.mp hfewer
    obtain ⟨outcome, left, hevaluate, hdescribes⟩ := exists_evaluate_describes target henough
    refine ⟨outcome, left, hevaluate, ?_, ?_, hdescribes⟩
    · have hneeded : (operands.take builtin.valueCount).length = builtin.valueCount :=
        List.length_take_of_le henough
      rw [← hevaluate, ← evaluate_append target hneeded (operands.drop builtin.valueCount),
        List.take_append_drop]
    · rw [callByName_shortName, hevaluate]
      rfl

end Builtin

end PlainSync
