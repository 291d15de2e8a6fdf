import ValueHeap.Heap.Action
import ValueHeap.Number.Basic

/-!
# Numbers on the heap

A number is a small-number word or a boxed number. Boxed numbers keep their representation as a
subtype tag; a tag without a meaning gives a block that counts as a number but holds none.

`Fraction.reduce` brings a fraction to lowest terms with a positive denominator; whole results are
integers. The common divisor is found on magnitudes, and the rest is worked out with 128 bits, since
the negative of the least integer has no place in 64.
-/

namespace ValueHeap

namespace Number

/-- The number in a boxed-number block. Narrow representations use the low half of the payload. -/
def unbox (subtype : UInt32) (payload extra : BitVec 64) : Option Number :=
  match NumberTag.ofTag? subtype with
  | some .int32 => some (.int32 (.ofBitVec (payload.setWidth 32)))
  | some .int64 => some (.int64 (.ofBitVec payload))
  | some .float32 => some (.float32 (.ofBitVec (payload.setWidth 32)))
  | some .float64 => some (.float64 (.ofBitVec payload))
  | some .rational => some (.rational (.ofBitVec payload) (.ofBitVec extra))
  | none => none

/-- The block that boxes a number. A small number is boxed with 64 bits. -/
def box : Number → Block
  | .small n | .int64 n => .number NumberTag.int64.tag n.toBitVec 0
  | .int32 n => .number NumberTag.int32.tag (n.toBitVec.setWidth 64) 0
  | .float32 bits => .number NumberTag.float32.tag (bits.toBitVec.setWidth 64) 0
  | .float64 bits => .number NumberTag.float64.tag bits.toBitVec 0
  | .rational num den => .number NumberTag.rational.tag num.toBitVec den.toBitVec

end Number

namespace Heap

/-- Is the value a small number or a boxed number, readable or not? -/
def isNumber (h : Heap) (w : Word) : Bool :=
  w.small?.isSome || (h.block? w).map Block.kind == some .number

/-- The number that a value is. -/
def number? (h : Heap) (w : Word) : Option Number :=
  match w.small?, h.block? w with
  | some n, _ => some (.small n)
  | none, some (.number subtype payload extra) => Number.unbox subtype payload extra
  | none, _ => none

/-- The number that the value has to be. -/
def expectNumber (h : Heap) (w : Word) : Except Error Number :=
  match h.number? w with
  | some x => .ok x
  | none => .error (.wrongType (.block .number) (h.typeName w))

def expectInt32 (h : Heap) (w : Word) : Except Error Int32 :=
  match h.number? w with
  | some (.int32 n) => .ok n
  | _ => .error (.wrongType (.number .int32) (h.typeName w))

def expectInt64 (h : Heap) (w : Word) : Except Error Int64 :=
  match h.number? w with
  | some (.int64 n) => .ok n
  | _ => .error (.wrongType (.number .int64) (h.typeName w))

def expectFloat32 (h : Heap) (w : Word) : Except Error UInt32 :=
  match h.number? w with
  | some (.float32 bits) => .ok bits
  | _ => .error (.wrongType (.number .float32) (h.typeName w))

def expectFloat64 (h : Heap) (w : Word) : Except Error UInt64 :=
  match h.number? w with
  | some (.float64 bits) => .ok bits
  | _ => .error (.wrongType (.number .float64) (h.typeName w))

/-- Are both values numbers, and the same number? -/
def numbersSame (h : Heap) (x y : Word) : Bool :=
  match h.number? x, h.number? y with
  | some a, some b => a.same b
  | _, _ => false

/-- The order of two values that have to be numbers. -/
def compareNumbers (h : Heap) (x y : Word) : Except Error (Option Ordering) := do
  let a ← h.expectNumber x
  let b ← h.expectNumber y
  return a.compare? b

end Heap

/-- A quotient of integers in its final form. -/
inductive Fraction where
  | whole (n : Int64)
  /-- In lowest terms, the denominator above one. -/
  | proper (num den : Int64)
  deriving Repr, DecidableEq

namespace Fraction

/-- The magnitude of an integer. That of the least one takes all the bits. -/
def magnitude (n : Int64) : UInt64 := .ofBitVec n.toBitVec.abs

/-- The greatest common divisor, by Euclid's rule. -/
def euclid (a b : UInt64) : UInt64 :=
  if b = 0 then a else euclid b (a % b)
termination_by b.toNat
decreasing_by
  next hb =>
    rw [UInt64.toNat_mod]
    exact Nat.mod_lt _ (Nat.pos_of_ne_zero fun h => hb (UInt64.toNat_inj.mp h))

/-- The greatest common divisor of two integers, with 128 bits. -/
def divisor (num den : Int64) : BitVec 128 :=
  (euclid (magnitude num) (magnitude den)).toBitVec.setWidth 128

/-- Numerator and denominator without their common divisor, with 128 bits. -/
def cancel (num den : Int64) : BitVec 128 × BitVec 128 :=
  ((Number.wide num).sdiv (divisor num den), (Number.wide den).sdiv (divisor num den))

/-- The same fraction with the sign in the numerator. -/
def orient (f : BitVec 128 × BitVec 128) : BitVec 128 × BitVec 128 :=
  if f.2.slt 0 then (-f.1, -f.2) else f

/-- Brings `num / den` to its final form. -/
def reduce (num den : Int64) : Except Error Fraction :=
  if den = 0 then .error .divideByZero
  else
    let n := (orient (cancel num den)).1.toInt
    let d := (orient (cancel num den)).2.toInt
    if !Number.fitsInt64 n then .error .numeratorOverflow
    else if !Number.fitsInt64 d then .error .denominatorOverflow
    else if d = 1 then .ok (.whole (.ofInt n))
    else .ok (.proper (.ofInt n) (.ofInt d))

end Fraction

namespace Action

/-- A boxed number. -/
def newBoxed (x : Number) : Action Word := allocate x.box

/-- An integer, as a small number if it fits in 63 bits. -/
def newInteger (n : Int64) : Action Word :=
  match Pattern.ofInt? n with
  | some p => pure (.immediate p)
  | none => newBoxed (.int64 n)

/-- The quotient of two integers. -/
def newRational (num den : Int64) : Action Word := do
  match ← result (Fraction.reduce num den) with
  | .whole n => newInteger n
  | .proper n d => newBoxed (.rational n d)

end Action

end ValueHeap
