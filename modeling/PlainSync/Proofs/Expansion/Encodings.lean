import PlainSync.Normalize
import PlainSync.Proofs.Text.Characters

/-!
# Encodings of expansions

An expansion puts its operands between texts of its own. So it is a text if its operands are.
-/

namespace PlainSync

open Bytes

/-- What is put into an expansion are texts. -/
structure FilledWithUtf8 (operands : Operands) (names : Temporaries) : Prop where
  pointer : IsUtf8 operands.pointer
  pointerType : IsUtf8 operands.pointerType
  values : ∀ value ∈ operands.values, IsUtf8 value
  pointerName : IsUtf8 names.pointer
  savedName : IsUtf8 names.saved

namespace FilledWithUtf8

open Expansion

variable {operands : Operands} {names : Temporaries}

/-- An operand in parentheses is well encoded. -/
theorem parenthesized {operand : Bytes} (hoperand : IsUtf8 operand) :
    IsUtf8 (Expansion.parenthesized operand) :=
  ((isUtf8_char '(').append hoperand).append (isUtf8_char ')')

/-- What an expansion stores to is well encoded. -/
theorem place (h : FilledWithUtf8 operands names) (place : Place) :
    IsUtf8 (place.text operands names) := by
  cases place with
  | bound => exact (isUtf8_char '*').append h.pointerName
  | direct => exact (isUtf8_char '*').append (parenthesized h.pointer)

/-- The values of an expansion are well encoded. -/
theorem value (h : FilledWithUtf8 operands names) (value : Value) :
    IsUtf8 (value.text operands names) := by
  induction value with
  | saved => exact h.savedName
  | loaded => exact h.place .bound
  | operand index =>
    refine parenthesized ?_
    cases hvalue : operands.values[index]? with
    | none => exact isUtf8_nil
    | some value => exact h.values value (List.mem_of_getElem? hvalue)
  | nand left right hleft hright =>
    exact ((((isUtf8_ofString _).append hleft).append (isUtf8_ofString _)).append hright).append
      (isUtf8_ofString _)
  | zero => exact isUtf8_ofString _

/-- The assignments of an expansion are well encoded. -/
theorem assignment (h : FilledWithUtf8 operands names) (assignment : Assignment) :
    IsUtf8 (assignment.text operands names) := by
  cases assignment with
  | store place value => exact ((h.place place).append (isUtf8_ofString _)).append (h.value value)
  | combine place update value =>
    exact ((((h.place place).append (isUtf8_ofString _)).append (isUtf8_ofString _)).append
      (isUtf8_ofString _)).append (h.value value)

/-- The statements of an expansion are well encoded. -/
theorem statement (h : FilledWithUtf8 operands names) (statement : Statement) :
    IsUtf8 (statement.text operands names) := by
  cases statement with
  | bindPointer =>
    exact ((((((isUtf8_ofString _).append (parenthesized h.pointerType)).append
      (isUtf8_ofString _)).append h.pointerName).append (isUtf8_ofString _)).append
      (parenthesized h.pointer)).append (isUtf8_ofString _)
  | bindSaved =>
    exact ((((((isUtf8_ofString _).append (h.place .bound)).append (isUtf8_ofString _)).append
      h.savedName).append (isUtf8_ofString _)).append (h.place .bound)).append (isUtf8_ofString _)
  | assign assignment => exact (h.assignment assignment).append (isUtf8_ofString _)
  | assignIfSaved expected assignment =>
    exact ((((((isUtf8_ofString _).append h.savedName).append (isUtf8_ofString _)).append
      (h.value expected)).append (isUtf8_ofString _)).append (h.assignment assignment)).append
      (isUtf8_ofString _)

/-- The result of an expansion is well encoded. -/
theorem result (h : FilledWithUtf8 operands names) (result : Result) :
    IsUtf8 (result.text operands names) := by
  cases result with
  | value left => exact h.value left
  | assignIfLoaded expected assignment =>
    exact (((parenthesized (((h.place .bound).append (isUtf8_ofString _)).append
      (h.value expected))).append (isUtf8_ofString _)).append
      (parenthesized (h.assignment assignment))).append (isUtf8_ofString _)

/-- An expansion is a text. -/
theorem program (h : FilledWithUtf8 operands names) (program : Program) :
    IsUtf8 (program.text operands names) := by
  cases program with
  | block body result =>
    have hbody := isUtf8_flatMap fun statement (_ : statement ∈ body) =>
      (h.statement statement).append (isUtf8_ofString " ")
    exact (((isUtf8_ofString _).append hbody).append (h.result result)).append (isUtf8_ofString _)
  | yielded assignment => exact parenthesized (h.assignment assignment)
  | discarded assignment =>
    cases assignment with
    | none => exact isUtf8_ofString _
    | some assignment =>
      exact ((isUtf8_ofString _).append (parenthesized (h.assignment assignment))).append
        (isUtf8_ofString _)

end FilledWithUtf8

end PlainSync
