import PlainSync.Builtin

/-!
# Plain expansions of the built-ins

What a call of a built-in is replaced by: a small C program of plain loads and stores, and its
text. The pointer operand is evaluated in one initializer or one assignment; its only other
occurrence stands inside `typeof`, which does not evaluate. Each value operand occurs once.
-/

namespace PlainSync

/-- The operands of a call, as texts. -/
structure Operands where
  /-- The pointer as it is evaluated. -/
  pointer : Bytes
  /-- The pointer as it stands inside `typeof`. -/
  pointerType : Bytes
  /-- The other operands, in order. -/
  values : List Bytes
  deriving DecidableEq, Repr

/-- The names of the temporaries that an expansion declares. -/
structure Temporaries where
  /-- Holds the pointer. -/
  pointer : Bytes
  /-- Holds the value from before the call. -/
  saved : Bytes
  deriving DecidableEq, Repr

namespace Temporaries

/-- The names in the header, where no expansion stands inside another. -/
def fixed : Temporaries :=
  ⟨Bytes.ofString "__centrinel_ptr", Bytes.ofString "__centrinel_tmp"⟩

/-- The names at a call site, which no other site of a session has. -/
def numbered (site : Nat) : Temporaries :=
  ⟨Bytes.ofString ("__centrinel_ptr_" ++ toString site),
    Bytes.ofString ("__centrinel_tmp_" ++ toString site)⟩

end Temporaries

namespace Expansion

/-- Where an expansion loads and stores. -/
inductive Place where
  /-- Through the pointer temporary. -/
  | bound
  /-- Through the pointer operand itself. -/
  | direct
  deriving DecidableEq, Repr

/-- A value that an expansion computes. -/
inductive Value where
  /-- The value temporary. -/
  | saved
  /-- A load through the pointer temporary. -/
  | loaded
  /-- A value operand, counted from zero. -/
  | operand (index : Nat)
  /-- The complement of a conjunction. -/
  | nand (left right : Value)
  | zero
  deriving DecidableEq, Repr

/-- An assignment. -/
inductive Assignment where
  | store (place : Place) (value : Value)
  /-- A compound assignment. -/
  | combine (place : Place) (update : Update) (value : Value)
  deriving DecidableEq, Repr

/-- A statement of an expansion. -/
inductive Statement where
  /-- Declare the pointer temporary. -/
  | bindPointer
  /-- Declare the value temporary, initialized by a load. -/
  | bindSaved
  | assign (assignment : Assignment)
  /-- Assign if the saved value equals another. -/
  | assignIfSaved (expected : Value) (assignment : Assignment)
  deriving DecidableEq, Repr

/-- What a block of statements yields. -/
inductive Result where
  | value (value : Value)
  /-- Assign and yield one if the stored value equals another, else yield zero. -/
  | assignIfLoaded (expected : Value) (assignment : Assignment)
  deriving DecidableEq, Repr

/-- A whole expansion. -/
inductive Program where
  /-- A statement expression. -/
  | block (body : List Statement) (result : Result)
  /-- An assignment that yields the value it stores. -/
  | yielded (assignment : Assignment)
  /-- An assignment, if any, that yields nothing. -/
  | discarded (assignment : Option Assignment)
  deriving DecidableEq, Repr

/-- The program that stands for a call of a built-in. -/
def program : Builtin → Program
  | .fetchAndOp .nand =>
    .block [.bindPointer, .bindSaved, .assign (.store .bound (.nand .saved (.operand 0)))]
      (.value .saved)
  | .fetchAndOp update =>
    .block [.bindPointer, .bindSaved, .assign (.combine .bound update (.operand 0))]
      (.value .saved)
  | .opAndFetch .nand =>
    .block [.bindPointer, .assign (.store .bound (.nand .loaded (.operand 0)))]
      (.value .loaded)
  | .opAndFetch update => .yielded (.combine .direct update (.operand 0))
  | .boolCompareAndSwap =>
    .block [.bindPointer] (.assignIfLoaded (.operand 0) (.store .bound (.operand 1)))
  | .valCompareAndSwap =>
    .block [.bindPointer, .bindSaved, .assignIfSaved (.operand 0) (.store .bound (.operand 1))]
      (.value .saved)
  | .synchronize => .discarded none
  | .lockTestAndSet =>
    .block [.bindPointer, .bindSaved, .assign (.store .bound (.operand 0))] (.value .saved)
  | .lockRelease => .discarded (some (.store .direct .zero))

/-! ## The text of a program -/

section Text

variable (operands : Operands) (names : Temporaries)

/-- An operand in parentheses. -/
def parenthesized (operand : Bytes) : Bytes := Byte.openParen :: operand ++ [Byte.closeParen]

/-- The text of a place. -/
def Place.text : Place → Bytes
  | bound => Byte.star :: names.pointer
  | direct => Byte.star :: parenthesized operands.pointer

/-- The text of a value. -/
def Value.text : Value → Bytes
  | saved => names.saved
  | loaded => Place.bound.text operands names
  | operand index => parenthesized (operands.values[index]?.getD [])
  | nand left right =>
    Bytes.ofString "~(" ++ left.text ++ Bytes.ofString " & " ++ right.text ++ Bytes.ofString ")"
  | zero => Bytes.ofString "0"

/-- The operator of a compound assignment. -/
def Assignment.operator (update : Update) : Bytes :=
  Bytes.ofString (update.assignment?.getD "=")

/-- The text of an assignment. -/
def Assignment.text : Assignment → Bytes
  | store place value =>
    place.text operands names ++ Bytes.ofString " = " ++ value.text operands names
  | combine place update value =>
    place.text operands names ++ Bytes.ofString " " ++ operator update ++ Bytes.ofString " " ++
      value.text operands names

/-- The text of a statement. -/
def Statement.text : Statement → Bytes
  | bindPointer =>
    Bytes.ofString "typeof(" ++ parenthesized operands.pointerType ++ Bytes.ofString ") " ++
      names.pointer ++ Bytes.ofString " = " ++ parenthesized operands.pointer ++
      Bytes.ofString ";"
  | bindSaved =>
    Bytes.ofString "typeof(" ++ Place.bound.text operands names ++ Bytes.ofString ") " ++
      names.saved ++ Bytes.ofString " = " ++ Place.bound.text operands names ++
      Bytes.ofString ";"
  | assign assignment => assignment.text operands names ++ Bytes.ofString ";"
  | assignIfSaved expected assignment =>
    Bytes.ofString "if (" ++ names.saved ++ Bytes.ofString " == " ++
      expected.text operands names ++ Bytes.ofString ") \x7b " ++
      assignment.text operands names ++ Bytes.ofString "; \x7d"

/-- The text of a result. -/
def Result.text : Result → Bytes
  | value left => left.text operands names
  | assignIfLoaded expected assignment =>
    parenthesized (Place.bound.text operands names ++ Bytes.ofString " == " ++
        expected.text operands names) ++
      Bytes.ofString " ? (" ++ parenthesized (assignment.text operands names) ++
      Bytes.ofString ", 1) : 0"

/-- The text of a program: one statement expression, or one expression. -/
def Program.text : Program → Bytes
  | block body result =>
    Bytes.ofString "(\x7b " ++
      body.flatMap (fun statement => statement.text operands names ++ Bytes.ofString " ") ++
      result.text operands names ++ Bytes.ofString "; \x7d)"
  | yielded assignment => parenthesized (assignment.text operands names)
  | discarded none => Bytes.ofString "((void)0)"
  | discarded (some assignment) =>
    Bytes.ofString "((void)" ++ parenthesized (assignment.text operands names) ++
      Bytes.ofString ")"

end Text

end Expansion

/-- The text that a call is replaced by, unless operands are missing. -/
def expand? (builtin : Builtin) (operands : Operands) (names : Temporaries) : Option Bytes :=
  if operands.values.length < builtin.valueCount then none
  else some ((Expansion.program builtin).text operands names)

end PlainSync
