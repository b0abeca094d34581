/-!
# Integer types

The integer types that a built-in may operate on. A value is the bit pattern of its type's
width, so arithmetic wraps; the sign of the type only decides how the pattern is written.
-/

namespace PlainSync

/-- How many bits an integer type has. A pointer-sized integer has 64. -/
inductive Width where
  | w8 | w16 | w32 | w64 | w128 | pointer
  deriving DecidableEq, Repr

namespace Width

/-- The number of bits. -/
def bits : Width → Nat
  | w8 => 8
  | w16 => 16
  | w32 => 32
  | w64 => 64
  | w128 => 128
  | pointer => 64

/-- The width as it ends a type's name. -/
def name : Width → String
  | w8 => "8"
  | w16 => "16"
  | w32 => "32"
  | w64 => "64"
  | w128 => "128"
  | pointer => "size"

end Width

/-- An integer type. -/
structure IntType where
  signed : Bool
  width : Width
  deriving DecidableEq, Repr

namespace IntType

abbrev i8 : IntType := ⟨true, .w8⟩
abbrev i16 : IntType := ⟨true, .w16⟩
abbrev i32 : IntType := ⟨true, .w32⟩
abbrev i64 : IntType := ⟨true, .w64⟩
abbrev i128 : IntType := ⟨true, .w128⟩
abbrev isize : IntType := ⟨true, .pointer⟩
abbrev u8 : IntType := ⟨false, .w8⟩
abbrev u16 : IntType := ⟨false, .w16⟩
abbrev u32 : IntType := ⟨false, .w32⟩
abbrev u64 : IntType := ⟨false, .w64⟩
abbrev u128 : IntType := ⟨false, .w128⟩
abbrev usize : IntType := ⟨false, .pointer⟩

/-- Every integer type. -/
def all : List IntType := [i8, i16, i32, i64, i128, isize, u8, u16, u32, u64, u128, usize]

/-- The types whose values fit an atomic cell, in the order in which they are checked. -/
def atomic : List IntType := [i8, i16, i32, i64, isize, u8, u16, u32, u64, usize]

/-- The number of bits of a value. -/
abbrev bits (t : IntType) : Nat := t.width.bits

/-- The values of an integer type. -/
abbrev Value (t : IntType) := BitVec t.bits

/-- The name in reports: a letter for the sign, then the width. -/
def name (t : IntType) : String := (if t.signed then "i" else "u") ++ t.width.name

/-- The type of that name. -/
def ofName? (name : String) : Option IntType := all.find? fun t => t.name == name

/-- The number that a value stands for. -/
def toInt (t : IntType) (value : t.Value) : Int :=
  if t.signed then value.toInt else value.toNat

/-- A value in decimal. -/
def text (t : IntType) (value : t.Value) : String := ToString.toString (t.toInt value)

/-- The least value. -/
def least (t : IntType) : t.Value := if t.signed then BitVec.intMin t.bits else 0

/-- The greatest value. -/
def greatest (t : IntType) : t.Value :=
  if t.signed then BitVec.intMax t.bits else BitVec.allOnes t.bits

end IntType

end PlainSync
