import ValueHeap.Error

/-!
# Byte sequences

What the buffer operations do to the bytes, and the checks that come before. Numbers are stored with
their lowest byte first. Single accesses fail with an index error, operations on ranges with an
argument error; neither check can be fooled by large numbers, since it is made on integers.
-/

namespace ValueHeap.Bytes

/-- The place of an access to `width` bytes at `index`. -/
def checkIndex (index : Int) (width size : Nat) : Except Error Nat :=
  if index < 0 ∨ (size : Int) < index + width then .error (.indexOutOfBounds index width size)
  else .ok index.toNat

/-- The place and length of a range. -/
def checkRange (use : RangeUse) (start len : Int) (size : Nat) : Except Error (Nat × Nat) :=
  if start < 0 ∨ len < 0 ∨ (size : Int) < start + len then
    .error (.rangeOutOfBounds use start len size)
  else .ok (start.toNat, len.toNat)

/-- `n` zero bytes. -/
def zeros (n : Nat) : List UInt8 := List.replicate n 0

/-- The `len` bytes from `start` on. -/
def slice (bs : List UInt8) (start len : Nat) : List UInt8 := (bs.drop start).take len

/-- The bytes with `part` written over those from `start` on. -/
def overwrite (bs : List UInt8) (start : Nat) (part : List UInt8) : List UInt8 :=
  bs.take start ++ part ++ bs.drop (start + part.length)

/-- Is `n` a signed 64-bit integer? -/
def inRange (n : Int) : Bool := -0x8000000000000000 ≤ n && n < 0x8000000000000000

/-- The size after growing by `left` and then by `right`. There is none if it would be negative, or if
one of the sums is no 64-bit integer. -/
def newSize? (size : Nat) (left right : Int) : Option Nat :=
  let grown := size + left
  let total := grown + right
  if inRange grown && inRange total && 0 ≤ total then some total.toNat else none

/-- The bytes that stay when the size changes. -/
structure Kept where
  /-- Where the first of them is. -/
  source : Int
  /-- Where it goes. -/
  target : Int
  /-- How many they are; not positive if none stays. -/
  count : Int
  deriving Repr, DecidableEq

/-- What stays of `size` bytes that are grown or shrunk by `left` in front and by `right` at the back. -/
def kept (size : Nat) (left right : Int) : Kept :=
  let source := if left < 0 then -left else 0
  { source
    target := if 0 < left then left else 0
    count := size + min right 0 - source }

/-- The bytes grown or shrunk by `left` in front and by `right` at the back. Negative counts drop
bytes, added bytes are zero. -/
def resize (bs : List UInt8) (left right : Int) : Except Error (List UInt8) :=
  match newSize? bs.length left right with
  | none => .error (.badResize bs.length left right)
  | some total =>
    let k := kept bs.length left right
    if 0 < k.count then
      .ok (overwrite (zeros total) k.target.toNat (slice bs k.source.toNat k.count.toNat))
    else .ok (zeros total)

/-- The number with these bytes, the first of them lowest. -/
def toNat (bs : List UInt8) : Nat := bs.foldr (fun b n => b.toNat + 256 * n) 0

/-- The `width` lowest bytes of a number, lowest first. -/
def ofNat : (width n : Nat) → List UInt8
  | 0, _ => []
  | width + 1, n => UInt8.ofNat n :: ofNat width (n / 256)

/-- How the bytes of an integer are read. -/
structure IntLayout where
  width : Nat
  signed : Bool
  deriving Repr, DecidableEq

/-- The integer that `n` stands for. -/
def IntLayout.toInt (l : IntLayout) (n : Nat) : Int :=
  if l.signed && Nat.pow 2 (8 * l.width - 1) ≤ n then (n : Int) - Nat.pow 2 (8 * l.width) else n

/-- The low bits of an integer. -/
def lowBits (width : Nat) (n : Int) : Nat := (n % Nat.pow 2 (8 * width)).toNat

end ValueHeap.Bytes
