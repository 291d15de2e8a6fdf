import ValueHeap.Integer.Fixed
import ValueHeap.Number.Boxed

/-!
# Arithmetic on boxed numbers

Every operation takes boxed operands of one representation and gives a boxed result of the same one,
or a truth value for a test. The first operand's type is checked before the second's, and both before
the operation itself can fail.
-/

namespace ValueHeap

/-- The boxed integer representations. -/
inductive IntType where
  | int32 | int64
  deriving Repr, DecidableEq

namespace IntType

def bits : IntType → Nat
  | int32 => 32
  | int64 => 64

/-- The number with these bits. -/
def number : (t : IntType) → BitVec t.bits → Number
  | int32, x => .int32 (.ofBitVec x)
  | int64, x => .int64 (.ofBitVec x)

/-- The bits of a value that has to be an integer of this representation. -/
def expect : (t : IntType) → Word → Heap → Except Error (BitVec t.bits)
  | int32, w, h => (h.expectInt32 w).map Int32.toBitVec
  | int64, w, h => (h.expectInt64 w).map Int64.toBitVec

end IntType

/-- The boxed float representations. -/
inductive FloatType where
  | float32 | float64
  deriving Repr, DecidableEq

namespace FloatType

def format : FloatType → Binary.Format
  | float32 => Binary.single
  | float64 => Binary.double

/-- The number with this pattern. -/
def number : FloatType → Nat → Number
  | float32, p => .float32 (.ofNat p)
  | float64, p => .float64 (.ofNat p)

/-- The pattern of a value that has to be a float of this representation. -/
def expect : FloatType → Word → Heap → Except Error Nat
  | float32, w, h => (h.expectFloat32 w).map UInt32.toNat
  | float64, w, h => (h.expectFloat64 w).map UInt64.toNat

end FloatType

inductive IntBinary where
  | add | sub | mul | and | or | xor | shl | shr | shrU | rotl | rotr | div | divU | rem | remU
  | modulo
  deriving Repr, DecidableEq

def IntBinary.apply {w : Nat} (x y : BitVec w) : IntBinary → Except Error (BitVec w)
  | add => .ok (x + y)
  | sub => .ok (x - y)
  | mul => .ok (x * y)
  | and => .ok (x &&& y)
  | or => .ok (x ||| y)
  | xor => .ok (x ^^^ y)
  | shl => .ok (Fixed.shl x y)
  | shr => .ok (Fixed.shr x y)
  | shrU => .ok (Fixed.shrU x y)
  | rotl => .ok (Fixed.rotl x y)
  | rotr => .ok (Fixed.rotr x y)
  | div => Fixed.div x y
  | divU => Fixed.divU x y
  | rem => Fixed.rem x y
  | remU => Fixed.remU x y
  | modulo => Fixed.modulo x y

inductive IntUnary where
  | not | clz | ctz | popcnt
  deriving Repr, DecidableEq

def IntUnary.apply {w : Nat} (x : BitVec w) : IntUnary → BitVec w
  | not => ~~~x
  | clz => Fixed.clz x
  | ctz => Fixed.ctz x
  | popcnt => Fixed.popcnt x

/-- A test of two numbers. -/
inductive Relation where
  | eq | ne | lt | gt | le | ge
  deriving Repr, DecidableEq

/-- Does the relation hold of numbers in this order? Without an order only inequality does. -/
def Relation.holds (o : Option Ordering) : Relation → Bool
  | eq => o == some .eq
  | ne => o != some .eq
  | lt => o == some .lt
  | gt => o == some .gt
  | le => o == some .lt || o == some .eq
  | ge => o == some .gt || o == some .eq

inductive FloatBinary where
  | add | sub | mul | div | minimum | maximum
  deriving Repr, DecidableEq

def FloatBinary.apply (f : Binary.Format) (x y : Nat) : FloatBinary → Nat
  | add => f.add x y
  | sub => f.sub x y
  | mul => f.mul x y
  | div => f.div x y
  | minimum => f.minimum x y
  | maximum => f.maximum x y

inductive FloatUnary where
  | neg | abs
  deriving Repr, DecidableEq

def FloatUnary.apply (f : Binary.Format) (x : Nat) : FloatUnary → Nat
  | neg => f.neg x
  | abs => f.abs x

namespace Action

def intBinary (t : IntType) (op : IntBinary) (x y : Word) : Action Word := do
  let a ← read (t.expect x)
  let b ← read (t.expect y)
  let c ← result (op.apply a b)
  newBoxed (t.number c)

def intUnary (t : IntType) (op : IntUnary) (x : Word) : Action Word := do
  let a ← read (t.expect x)
  newBoxed (t.number (op.apply a))

/-- Compares two integers, as signed or as unsigned numbers. -/
def intTest (t : IntType) (r : Relation) (signed : Bool) (x y : Word) : Action Word := do
  let a ← read (t.expect x)
  let b ← read (t.expect y)
  let o := if signed then compare a.toInt b.toInt else compare a.toNat b.toNat
  return .ofBool (r.holds (some o))

def floatBinary (t : FloatType) (op : FloatBinary) (x y : Word) : Action Word := do
  let a ← read (t.expect x)
  let b ← read (t.expect y)
  newBoxed (t.number (op.apply t.format a b))

def floatUnary (t : FloatType) (op : FloatUnary) (x : Word) : Action Word := do
  let a ← read (t.expect x)
  newBoxed (t.number (op.apply t.format a))

def floatTest (t : FloatType) (r : Relation) (x y : Word) : Action Word := do
  let a ← read (t.expect x)
  let b ← read (t.expect y)
  return .ofBool (r.holds (t.format.compare? a b))

end Action

end ValueHeap
