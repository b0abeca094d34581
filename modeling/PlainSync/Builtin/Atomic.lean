import PlainSync.Builtin.Evaluate

/-!
# Atomic cells

The sequential meaning of the operations on an atomic cell, and the built-ins in terms of
them. This is the reference that the plain operations are checked against.
-/

namespace PlainSync

/-- A computation on one atomic cell of `w` bits. -/
abbrev CellM (w : Nat) := StateM (BitVec w)

namespace Cell

variable {w : Nat}

/-- The value in the cell. -/
def load : CellM w (BitVec w) := get

/-- Replace the value. -/
def store (value : BitVec w) : CellM w Unit := set value

/-- Replace the value and give the one from before. -/
def swap (value : BitVec w) : CellM w (BitVec w) := modifyGet fun old => (old, value)

def fetchAdd (value : BitVec w) : CellM w (BitVec w) := modifyGet fun old => (old, old + value)

def fetchSub (value : BitVec w) : CellM w (BitVec w) := modifyGet fun old => (old, old - value)

def fetchOr (value : BitVec w) : CellM w (BitVec w) := modifyGet fun old => (old, old ||| value)

def fetchAnd (value : BitVec w) : CellM w (BitVec w) := modifyGet fun old => (old, old &&& value)

def fetchXor (value : BitVec w) : CellM w (BitVec w) := modifyGet fun old => (old, old ^^^ value)

/-- Leave the complement of the conjunction and give the value from before. -/
def fetchNand (value : BitVec w) : CellM w (BitVec w) :=
  modifyGet fun old => (old, ~~~(old &&& value))

/-- Replace the value if it is the expected one. Gives the value from before, as an error if
it was another. -/
def compareExchange (expected new : BitVec w) : CellM w (Except (BitVec w) (BitVec w)) :=
  modifyGet fun old => if old = expected then (.ok old, new) else (.error old, old)

/-- Apply an update and give the value from before. -/
def fetch (update : Update) (value : BitVec w) : CellM w (BitVec w) :=
  match update with
  | .add => fetchAdd value
  | .sub => fetchSub value
  | .or => fetchOr value
  | .and => fetchAnd value
  | .xor => fetchXor value
  | .nand => fetchNand value

/-- Tell whether an exchange took place. -/
def exchanged : Except (BitVec w) (BitVec w) → Bool
  | .ok _ => true
  | .error _ => false

/-- The value from before an exchange. -/
def previous : Except (BitVec w) (BitVec w) → BitVec w
  | .ok old => old
  | .error old => old

end Cell

/-- A call of a built-in as operations on an atomic cell. -/
def Builtin.onCell {w : Nat} (builtin : Builtin) (first second : BitVec w) :
    CellM w (Outcome (BitVec w)) :=
  match builtin with
  | fetchAndOp update => do
    let old ← Cell.fetch update first
    return .value old
  | opAndFetch update => do
    let _ ← Cell.fetch update first
    return .value (← Cell.load)
  | boolCompareAndSwap => do
    let result ← Cell.compareExchange first second
    return .success (Cell.exchanged result)
  | valCompareAndSwap => do
    let result ← Cell.compareExchange first second
    return .value (Cell.previous result)
  | synchronize => return .nothing
  | lockTestAndSet => do
    let old ← Cell.swap first
    return .value old
  | lockRelease => do
    Cell.store 0
    return .nothing

/-- What a call yields on a fresh atomic cell with an initial value, and what it leaves. -/
def Builtin.reference {w : Nat} (builtin : Builtin) (initial first second : BitVec w) :
    Outcome (BitVec w) × BitVec w :=
  (builtin.onCell first second).run initial

end PlainSync
