import ValueHeap.Error

/-!
# Fixed-width integers

Operations on the bits of an integer of one width. Sums, differences and products wrap around.
Division fails for a zero divisor, and signed division also where the quotient does not fit. Counts are
read as unsigned 32-bit numbers: a shift goes by the low bits of its count, a rotation by the remainder
modulo the width.
-/

namespace ValueHeap.Fixed

variable {w : Nat}

/-- How far a count shifts: by the bits of it that number the positions of a word. -/
def shiftCount (y : BitVec w) : Nat := (y.setWidth 32 &&& BitVec.ofNat 32 (w - 1)).toNat

/-- How far a count rotates. -/
def turnCount (y : BitVec w) : Nat := (y.setWidth 32).toNat % w

def shl (x y : BitVec w) : BitVec w := x <<< shiftCount y

/-- Shifts copies of the sign in. -/
def shr (x y : BitVec w) : BitVec w := x.sshiftRight (shiftCount y)

/-- Shifts zeros in. -/
def shrU (x y : BitVec w) : BitVec w := x >>> shiftCount y

def rotl (x y : BitVec w) : BitVec w := x.rotateLeft (turnCount y)

def rotr (x y : BitVec w) : BitVec w := x.rotateRight (turnCount y)

/-- The signed quotient, cut towards zero. -/
def div (x y : BitVec w) : Except Error (BitVec w) :=
  if y = 0 then .error .divideByZero
  else if x = BitVec.intMin w ∧ y = -1 then .error .quotientOverflow
  else .ok (x.sdiv y)

/-- The unsigned quotient. -/
def divU (x y : BitVec w) : Except Error (BitVec w) :=
  if y = 0 then .error .divideByZero else .ok (x.udiv y)

/-- The signed remainder with the sign of the dividend. It is nothing for the divisor -1, also where the
quotient does not fit. -/
def rem (x y : BitVec w) : Except Error (BitVec w) :=
  if y = 0 then .error .moduloByZero
  else if y = -1 then .ok 0
  else .ok (x.srem y)

/-- The unsigned remainder. -/
def remU (x y : BitVec w) : Except Error (BitVec w) :=
  if y = 0 then .error .moduloByZero else .ok (x.umod y)

/-- The signed remainder with the sign of the divisor. -/
def modulo (x y : BitVec w) : Except Error (BitVec w) := do
  let r ← rem x y
  if r ≠ 0 ∧ r.msb ≠ y.msb then return r + y else return r

/-- The number of zeros above the highest one. -/
def clz (x : BitVec w) : BitVec w := BitVec.ofNat w ((List.range w).findIdx x.getMsbD)

/-- The number of zeros below the lowest one. -/
def ctz (x : BitVec w) : BitVec w := BitVec.ofNat w ((List.range w).findIdx x.getLsbD)

/-- The number of ones. -/
def popcnt (x : BitVec w) : BitVec w := BitVec.ofNat w ((List.range w).countP x.getLsbD)

end ValueHeap.Fixed
