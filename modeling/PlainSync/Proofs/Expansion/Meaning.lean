import Mathlib.Logic.Function.Basic
import PlainSync.Builtin.Evaluate
import PlainSync.Proofs.Expansion.Reading

/-!
# The meaning of an expansion

A small machine runs the C programs that expansions spell. It has a memory of cells of the
pointee's width, the two temporaries, and a count of how often the pointer operand has been
evaluated. Each evaluation of that operand may give another address, so an expansion that
evaluated it twice would be found out. The main result is that running the text of an
expansion does what the built-in does by definition.
-/

namespace PlainSync.Reading

variable {Address : Type} [DecidableEq Address] {w : Nat}

/-- What a C expression yields. -/
inductive Datum (Address : Type) (w : Nat) where
  /-- A value of the pointee's type. -/
  | scalar (value : BitVec w)
  | address (value : Address)
  /-- A value of type `int`. -/
  | int (value : Int)
  | void
  deriving DecidableEq

/-- What an expansion is run on. -/
structure Environment (Address : Type) (w : Nat) where
  /-- The address that the pointer operand has at its first, second, ... evaluation. -/
  pointer : Nat → Address
  /-- The values of the other operands. -/
  values : List (BitVec w)

/-- The state of the machine. -/
structure Machine (Address : Type) (w : Nat) where
  memory : Address → BitVec w
  /-- The temporary that holds the pointer, once it is declared. -/
  pointer : Option Address := none
  /-- The temporary that holds the value from before, once it is declared. -/
  saved : Option (BitVec w) := none
  /-- How often the pointer operand has been evaluated. -/
  evaluations : Nat := 0

namespace Datum

/-- The value as it is stored in a cell. An `int` is converted to the pointee's type. -/
def stored? : Datum Address w → Option (BitVec w)
  | scalar value => some value
  | int value => some (BitVec.ofInt w value)
  | _ => none

/-- Whether the value counts as true. -/
def truth? : Datum Address w → Option Bool
  | scalar value => some (value ≠ 0)
  | int value => some (value ≠ 0)
  | _ => none

/-- The address that a pointer holds. -/
def address? : Datum Address w → Option Address
  | address value => some value
  | _ => none

/-- The outcome of a built-in as the value of a C expression. -/
def ofOutcome : Outcome (BitVec w) → Datum Address w
  | .value value => scalar value
  | .success true => int 1
  | .success false => int 0
  | .nothing => void

end Datum

/-- What a compound assignment stores. Arithmetic wraps on the pointee's width. -/
def Operator.apply : Operator → BitVec w → BitVec w → BitVec w
  | plus, stored, value => stored + value
  | minus, stored, value => stored - value
  | bitOr, stored, value => stored ||| value
  | bitAnd, stored, value => stored &&& value
  | bitXor, stored, value => stored ^^^ value

/-- The types that `typeof` finds in an expansion. -/
inductive Kind where
  | pointer
  | pointee
  deriving DecidableEq, Repr

/-- The type of an expression inside `typeof`, which does not evaluate it. -/
def Expression.kind? (machine : Machine Address w) : Expression → Option Kind
  | .pointerType => some .pointer
  | .temporary .pointer => machine.pointer.map fun _ => .pointer
  | .temporary .saved => machine.saved.map fun _ => .pointee
  | .dereference operand => if operand.kind? machine = some .pointer then some .pointee else none
  | _ => none

namespace Machine

/-- Store a value at an address. -/
def store (machine : Machine Address w) (target : Address) (value : BitVec w) :
    Machine Address w :=
  { machine with memory := Function.update machine.memory target value }

/-- Give a temporary its initial value, which must have the declared type. -/
def declare? (machine : Machine Address w) (name : Temporary) (kind : Kind)
    (initial : Datum Address w) : Option (Machine Address w) :=
  match name, kind, initial with
  | .pointer, .pointer, .address value => some { machine with pointer := some value }
  | .saved, .pointee, .scalar value => some { machine with saved := some value }
  | _, _, _ => none

end Machine

mutual

/-- Evaluate an expression. There is no result where C gives the program no meaning. -/
@[simp] def Expression.run (environment : Environment Address w) (machine : Machine Address w) :
    Expression → Option (Datum Address w × Machine Address w)
  | .number value => some (.int value, machine)
  | .pointer =>
    some (.address (environment.pointer machine.evaluations),
      { machine with evaluations := machine.evaluations + 1 })
  | .pointerType => none
  | .value index => do return (.scalar (← environment.values[index]?), machine)
  | .temporary .pointer => do return (.address (← machine.pointer), machine)
  | .temporary .saved => do return (.scalar (← machine.saved), machine)
  | .dereference operand => do
    let (place, machine) ← operand.run environment machine
    return (.scalar (machine.memory (← place.address?)), machine)
  | .complement operand => do
    let (value, machine) ← operand.run environment machine
    return (.scalar (~~~(← value.stored?)), machine)
  | .conjunction left right => do
    let (left, machine) ← left.run environment machine
    let (right, machine) ← right.run environment machine
    return (.scalar ((← left.stored?) &&& (← right.stored?)), machine)
  | .equal left right => do
    let (left, machine) ← left.run environment machine
    let (right, machine) ← right.run environment machine
    return (.int (if (← left.stored?) = (← right.stored?) then 1 else 0), machine)
  | .choose condition yes no => do
    let (condition, machine) ← condition.run environment machine
    if ← condition.truth? then yes.run environment machine else no.run environment machine
  | .assign (.dereference operand) value => do
    let (place, machine) ← operand.run environment machine
    let (value, machine) ← value.run environment machine
    let target ← place.address?
    let stored ← value.stored?
    return (.scalar stored, machine.store target stored)
  | .combine operator (.dereference operand) value => do
    let (place, machine) ← operand.run environment machine
    let (value, machine) ← value.run environment machine
    let target ← place.address?
    let stored := operator.apply (machine.memory target) (← value.stored?)
    return (.scalar stored, machine.store target stored)
  | .assign _ _ => none
  | .combine _ _ _ => none
  | .sequence first second => do
    let (_, machine) ← first.run environment machine
    second.run environment machine
  | .discard operand => do
    let (_, machine) ← operand.run environment machine
    return (.void, machine)
  | .block body => do
    let (value, after) ← runBody environment machine body
    return (value, { after with pointer := machine.pointer, saved := machine.saved })

/-- Run a statement. What it yields is the value of its expression, if it is one. -/
@[simp] def Statement.run (environment : Environment Address w) (machine : Machine Address w) :
    Statement → Option (Datum Address w × Machine Address w)
  | .declare type name initial => do
    let kind ← type.kind? machine
    let (initial, machine) ← initial.run environment machine
    return (.void, ← machine.declare? name kind initial)
  | .perform expression => expression.run environment machine
  | .when condition body => do
    let (condition, machine) ← condition.run environment machine
    if ← condition.truth? then
      let (_, after) ← runBody environment machine body
      return (.void, after)
    else return (.void, machine)

/-- Run statements one after the other. The last one's value is that of all. -/
@[simp] def runBody (environment : Environment Address w) (machine : Machine Address w) :
    List Statement → Option (Datum Address w × Machine Address w)
  | [] => some (.void, machine)
  | [statement] => statement.run environment machine
  | statement :: more => do
    let (_, machine) ← statement.run environment machine
    runBody environment machine more

end

end PlainSync.Reading
