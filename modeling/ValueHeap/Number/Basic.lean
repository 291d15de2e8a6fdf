import ValueHeap.Binary.Arith

/-!
# Numbers

The numeric tower: small integers, boxed integers of two widths, floats of two widths, and
fractions. Numbers of different representations compare by value.

* `Number.same` is numeric equality, `Number.compare?` the order; a NaN equals nothing and has no
  place in the order;
* `Number.key` is what a number contributes to a hash: numbers that are the same have one key.
-/

namespace ValueHeap

/-- A number in one of the representations that a value can have. -/
inductive Number where
  | small (n : Int64)
  | int32 (n : Int32)
  | int64 (n : Int64)
  /-- A 32-bit float, given by its pattern. -/
  | float32 (bits : UInt32)
  /-- A 64-bit float, given by its pattern. -/
  | float64 (bits : UInt64)
  /-- A fraction; constructed ones are in lowest terms with a denominator above one. -/
  | rational (num den : Int64)
  deriving Repr, DecidableEq

/-- What a number contributes to a hash. -/
inductive NumberKey where
  | integer (n : Int64)
  | float (bits : UInt64)
  | rational (num den : Int64)
  deriving Repr, DecidableEq

/-- The arithmetic meaning of a number, its width apart. Floats are 64-bit patterns. -/
inductive Quantity where
  | integer (n : Int64)
  | float (bits : UInt64)
  | ratio (num den : Int64)
  deriving Repr, DecidableEq

namespace Number

open Binary (single double)

/-- A number without its width. -/
def quantity : Number → Quantity
  | small n => .integer n
  | int32 n => .integer n.toInt64
  | int64 n => .integer n
  | float32 bits => .float (.ofNat (Binary.widen single double bits.toNat))
  | float64 bits => .float bits
  | rational num den => .ratio num den

def isInteger (x : Number) : Bool :=
  match x.quantity with
  | .integer _ => true
  | _ => false

def isFloat : Number → Bool
  | float32 _ | float64 _ => true
  | _ => false

/-- Does `n` fit in 64 signed bits? -/
def fitsInt64 (n : Int) : Bool := -0x8000000000000000 ≤ n && n < 0x8000000000000000

/-- The 64-bit integer that the float stands for exactly, if any. -/
def wholeFloat? (bits : UInt64) : Option Int64 :=
  match double.toInt? bits.toNat with
  | some n => if fitsInt64 n then some (.ofInt n) else none
  | none => none

/-- What the number contributes to a hash. -/
def key (x : Number) : NumberKey :=
  match x.quantity with
  | .integer n => .integer n
  | .float bits =>
    match wholeFloat? bits with
    | some n => .integer n
    | none => .float bits
  | .ratio num den => .rational num den

/-- Numeric equality. An integral float equals the matching integer; a fraction equals only the same
fraction. -/
def same (x y : Number) : Bool :=
  match x.quantity, y.quantity with
  | .integer a, .integer b => a == b
  | .float a, .float b => double.compare? a.toNat b.toNat == some .eq
  | .integer n, .float b => wholeFloat? b == some n
  | .float a, .integer n => wholeFloat? a == some n
  | .ratio a b, .ratio c d => a == c && b == d
  | _, _ => false

/-- The float as a 64-bit integer, cut towards zero. What is out of range becomes the nearest one. -/
def toInt64 (p : Nat) : Int64 :=
  if double.isNaN p then 0
  else .ofInt (max (-0x8000000000000000) (min 0x7fffffffffffffff (double.truncate p)))

/-- The pattern of 2^63, the first whole number past the 64-bit integers. -/
def pastInt64 : Nat := 0x43e0000000000000

/-- The order of an integer and a float. A float past the integers is settled by its side; any other
is cut to an integer, and its fraction counts only against that same integer. -/
def compareIntFloat (n : Int64) (bits : UInt64) : Option Ordering :=
  let p := bits.toNat
  if double.isNaN p then none
  else if double.compare? p pastInt64 != some .lt then some .lt
  else if double.compare? p (double.neg pastInt64) == some .lt then some .gt
  else
    let whole := double.whole p
    match compare n.toInt (toInt64 whole).toInt with
    | .eq => double.compare? 0 (double.sub p whole)
    | order => some order

/-- An integer with 128 bits, enough for a product of two. -/
def wide (n : Int64) : BitVec 128 := n.toBitVec.signExtend 128

/-- The fraction as a float: numerator and denominator are rounded, then their quotient. -/
def ratioToFloat (num den : Int64) : Nat :=
  double.div (double.ofInt num.toInt) (double.ofInt den.toInt)

/-- The order of two numbers, none when one of them is a NaN. Fractions are compared by their cross
products; a fraction meets a float as a float. -/
def compare? (x y : Number) : Option Ordering :=
  match x.quantity, y.quantity with
  | .integer a, .integer b => some (compare a.toInt b.toInt)
  | .float a, .float b => double.compare? a.toNat b.toNat
  | .integer n, .float b => compareIntFloat n b
  | .float a, .integer n => (compareIntFloat n a).map Ordering.swap
  | .ratio a b, .ratio c d => some (compare (wide a * wide d).toInt (wide c * wide b).toInt)
  | .ratio a b, .integer n => some (compare (wide a).toInt (wide n * wide b).toInt)
  | .integer n, .ratio a b => some (compare (wide n * wide b).toInt (wide a).toInt)
  | .ratio a b, .float p => double.compare? (ratioToFloat a b) p.toNat
  | .float p, .ratio a b => double.compare? p.toNat (ratioToFloat a b)

end Number

end ValueHeap
