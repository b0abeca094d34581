import PlainSync.Builtin

/-!
# The values of the built-ins

What a call yields and what it leaves behind, for a target of any width. Each operation is a
plain load, update and store; a result comes with the value that the target holds afterwards.
-/

namespace PlainSync

variable {w : Nat}

/-- The new stored value from the stored one and the operand. Arithmetic wraps. -/
def Update.apply (update : Update) (stored operand : BitVec w) : BitVec w :=
  match update with
  | add => stored + operand
  | sub => stored - operand
  | or => stored ||| operand
  | and => stored &&& operand
  | xor => stored ^^^ operand
  | nand => ~~~(stored &&& operand)

/-- What a call yields. -/
inductive Outcome (α : Type) where
  | value (value : α)
  | success (success : Bool)
  | nothing
  deriving DecidableEq, Repr

namespace Outcome

/-- The outcome as the value of the C expression, if that has one. -/
def cValue? {α : Type} (text : α → String) : Outcome α → Option String
  | value v => some (text v)
  | success true => some "1"
  | success false => some "0"
  | nothing => none

end Outcome

/-! ## The operations -/

namespace Plain

/-- Update the target and yield its value from before. -/
def fetchAndOp (update : Update) (target operand : BitVec w) : BitVec w × BitVec w :=
  (target, update.apply target operand)

/-- Update the target and yield its new value. -/
def opAndFetch (update : Update) (target operand : BitVec w) : BitVec w × BitVec w :=
  (update.apply target operand, update.apply target operand)

/-! Each built-in of the two families has its operation under its own name. -/

def fetchAndAdd (target operand : BitVec w) : BitVec w × BitVec w :=
  fetchAndOp .add target operand

def fetchAndSub (target operand : BitVec w) : BitVec w × BitVec w :=
  fetchAndOp .sub target operand

def fetchAndOr (target operand : BitVec w) : BitVec w × BitVec w :=
  fetchAndOp .or target operand

def fetchAndAnd (target operand : BitVec w) : BitVec w × BitVec w :=
  fetchAndOp .and target operand

def fetchAndXor (target operand : BitVec w) : BitVec w × BitVec w :=
  fetchAndOp .xor target operand

def fetchAndNand (target operand : BitVec w) : BitVec w × BitVec w :=
  fetchAndOp .nand target operand

def addAndFetch (target operand : BitVec w) : BitVec w × BitVec w :=
  opAndFetch .add target operand

def subAndFetch (target operand : BitVec w) : BitVec w × BitVec w :=
  opAndFetch .sub target operand

def orAndFetch (target operand : BitVec w) : BitVec w × BitVec w :=
  opAndFetch .or target operand

def andAndFetch (target operand : BitVec w) : BitVec w × BitVec w :=
  opAndFetch .and target operand

def xorAndFetch (target operand : BitVec w) : BitVec w × BitVec w :=
  opAndFetch .xor target operand

def nandAndFetch (target operand : BitVec w) : BitVec w × BitVec w :=
  opAndFetch .nand target operand

/-- Store the new value if the target holds the expected one, and tell whether it did. -/
def boolCompareAndSwap (target expected new : BitVec w) : Bool × BitVec w :=
  if target = expected then (true, new) else (false, target)

/-- Store the new value if the target holds the expected one, and yield the value from
before. -/
def valCompareAndSwap (target expected new : BitVec w) : BitVec w × BitVec w :=
  (target, if target = expected then new else target)

/-- Store a value and yield the one from before. -/
def lockTestAndSet (target new : BitVec w) : BitVec w × BitVec w := (target, new)

/-- Store zero. -/
def lockRelease (_ : BitVec w) : BitVec w := 0

end Plain

namespace Builtin

/-- What a call on a target yields, and the target afterwards. The operands do not include the
pointer. Nothing happens if too few are given; those that are not needed are ignored. -/
def evaluate (builtin : Builtin) (target : BitVec w) (operands : List (BitVec w)) :
    Option (Outcome (BitVec w)) × BitVec w :=
  match builtin, operands with
  | fetchAndOp update, operand :: _ =>
    let (old, target) := Plain.fetchAndOp update target operand
    (some (.value old), target)
  | opAndFetch update, operand :: _ =>
    let (new, target) := Plain.opAndFetch update target operand
    (some (.value new), target)
  | boolCompareAndSwap, expected :: new :: _ =>
    let (success, target) := Plain.boolCompareAndSwap target expected new
    (some (.success success), target)
  | valCompareAndSwap, expected :: new :: _ =>
    let (old, target) := Plain.valCompareAndSwap target expected new
    (some (.value old), target)
  | synchronize, _ => (some .nothing, target)
  | lockTestAndSet, new :: _ =>
    let (old, target) := Plain.lockTestAndSet target new
    (some (.value old), target)
  | lockRelease, _ => (some .nothing, Plain.lockRelease target)
  | _, _ => (none, target)

/-- Call the operation that a short name stands for, with the arguments of the built-in of that
name behind the pointer. More arguments than needed are dropped. -/
def callByName (name : String) (target : BitVec w) (operands : List (BitVec w)) :
    Option (Outcome (BitVec w) × BitVec w) :=
  let yieldValue (result : BitVec w × BitVec w) := (Outcome.value result.1, result.2)
  match name, operands with
  | "fetch_and_add", v :: _ => some (yieldValue (Plain.fetchAndAdd target v))
  | "fetch_and_sub", v :: _ => some (yieldValue (Plain.fetchAndSub target v))
  | "fetch_and_or", v :: _ => some (yieldValue (Plain.fetchAndOr target v))
  | "fetch_and_and", v :: _ => some (yieldValue (Plain.fetchAndAnd target v))
  | "fetch_and_xor", v :: _ => some (yieldValue (Plain.fetchAndXor target v))
  | "fetch_and_nand", v :: _ => some (yieldValue (Plain.fetchAndNand target v))
  | "add_and_fetch", v :: _ => some (yieldValue (Plain.addAndFetch target v))
  | "sub_and_fetch", v :: _ => some (yieldValue (Plain.subAndFetch target v))
  | "or_and_fetch", v :: _ => some (yieldValue (Plain.orAndFetch target v))
  | "and_and_fetch", v :: _ => some (yieldValue (Plain.andAndFetch target v))
  | "xor_and_fetch", v :: _ => some (yieldValue (Plain.xorAndFetch target v))
  | "nand_and_fetch", v :: _ => some (yieldValue (Plain.nandAndFetch target v))
  | "bool_compare_and_swap", e :: n :: _ =>
    let (success, target) := Plain.boolCompareAndSwap target e n
    some (.success success, target)
  | "val_compare_and_swap", e :: n :: _ => some (yieldValue (Plain.valCompareAndSwap target e n))
  | "synchronize", _ => some (.nothing, target)
  | "lock_test_and_set", v :: _ => some (yieldValue (Plain.lockTestAndSet target v))
  | "lock_release", _ => some (.nothing, Plain.lockRelease target)
  | _, _ => none

end Builtin

end PlainSync
