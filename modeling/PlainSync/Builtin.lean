import PlainSync.Text.Bytes

/-!
# The legacy atomic built-ins

The seventeen `__sync` built-ins of C compilers: their names, how many arguments each needs
and what a call of each yields.
-/

namespace PlainSync

/-- How a fetch-and-op or op-and-fetch built-in combines the stored value with its operand. -/
inductive Update where
  | add | sub | or | and | xor
  /-- The complement of the conjunction. -/
  | nand
  deriving DecidableEq, Repr

namespace Update

/-- Every update, in the order of the built-ins' documentation. -/
def all : List Update := [add, sub, or, and, xor, nand]

/-- The word for an update in a built-in's name. -/
def name : Update → String
  | add => "add"
  | sub => "sub"
  | or => "or"
  | and => "and"
  | xor => "xor"
  | nand => "nand"

/-- The update of that name. -/
def ofName? (name : String) : Option Update := all.find? fun u => u.name == name

/-- The compound assignment operator of C that performs an update. The complement of a
conjunction has none. -/
def assignment? : Update → Option String
  | add => some "+="
  | sub => some "-="
  | or => some "|="
  | and => some "&="
  | xor => some "^="
  | nand => none

end Update

/-- What a call of a built-in yields. -/
inductive Yield where
  /-- The stored value from before the call. -/
  | before
  /-- The value that the call leaves behind. -/
  | after
  /-- Whether the call stored a new value. -/
  | success
  | nothing
  deriving DecidableEq, Repr

/-- A legacy atomic built-in. -/
inductive Builtin where
  | fetchAndOp (update : Update)
  | opAndFetch (update : Update)
  | boolCompareAndSwap
  | valCompareAndSwap
  | synchronize
  | lockTestAndSet
  | lockRelease
  deriving DecidableEq, Repr

namespace Builtin

/-- Every built-in, in the order of reports. -/
def all : List Builtin :=
  Update.all.map fetchAndOp ++ Update.all.map opAndFetch ++
    [boolCompareAndSwap, valCompareAndSwap, synchronize, lockTestAndSet, lockRelease]

/-- The built-in's name without the leading marker that all of them share. -/
def shortName : Builtin → String
  | fetchAndOp u => "fetch_and_" ++ u.name
  | opAndFetch u => u.name ++ "_and_fetch"
  | boolCompareAndSwap => "bool_compare_and_swap"
  | valCompareAndSwap => "val_compare_and_swap"
  | synchronize => "synchronize"
  | lockTestAndSet => "lock_test_and_set"
  | lockRelease => "lock_release"

/-- The name as C sources spell it. -/
def name (b : Builtin) : String := "__sync_" ++ b.shortName

/-- The name in the bytes of a source. -/
def spelling (b : Builtin) : Bytes := Bytes.ofString b.name

/-- Every built-in with its spelling. -/
def spellings : List (Builtin × Bytes) := all.map fun b => (b, b.spelling)

/-- The built-in that an identifier names. -/
def ofSpelling? (identifier : Bytes) : Option Builtin :=
  (spellings.find? fun entry => entry.2 == identifier).map Prod.fst

/-- The built-in of that name. -/
def ofName? (name : String) : Option Builtin := all.find? fun b => b.name == name

/-- The update that a built-in of the two families performs. -/
def update? : Builtin → Option Update
  | fetchAndOp u | opAndFetch u => some u
  | _ => none

/-- How many arguments a call needs, the pointer included. More are accepted and ignored. -/
def operandCount : Builtin → Nat
  | fetchAndOp _ | opAndFetch _ | lockTestAndSet => 2
  | boolCompareAndSwap | valCompareAndSwap => 3
  | synchronize => 0
  | lockRelease => 1

/-- How many of the needed arguments are values and not the pointer. -/
def valueCount (b : Builtin) : Nat := b.operandCount - 1

/-- What a call yields. -/
def yields : Builtin → Yield
  | fetchAndOp _ | valCompareAndSwap | lockTestAndSet => .before
  | opAndFetch _ => .after
  | boolCompareAndSwap => .success
  | synchronize | lockRelease => .nothing

end Builtin

end PlainSync
