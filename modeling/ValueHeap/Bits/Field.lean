/-!
# Fields of a 64-bit word

A `BitField` is a run of `size` bits that starts at bit `position` of a 64-bit word. A signed field
is sign-extended when it is read. Tagged words keep their tag and their small-number payload in
such fields.
-/

namespace ValueHeap

/-- A run of `size` bits at bit `position` of a 64-bit word. -/
structure BitField where
  size : Nat
  position : Nat
  signed : Bool
  deriving Repr, DecidableEq

namespace BitField

variable (f : BitField)

/-- The first bit above the field. -/
def nextBit : Nat := f.position + f.size

/-- As many ones as the field has bits, at the bottom of the word. -/
def mask : BitVec 64 := (1#64 <<< f.size) - 1#64

/-- The bits that the field occupies. -/
def maskInPlace : BitVec 64 := f.mask <<< f.position

/-- The field's contents in the word `w`. -/
def decode (w : BitVec 64) : BitVec 64 :=
  if f.signed then (w <<< (64 - f.nextBit)).sshiftRight (64 - f.size)
  else (w >>> f.position) &&& f.mask

/-- The word that holds the low bits of `v` in the field and zeros elsewhere. -/
def encode (v : BitVec 64) : BitVec 64 := (v &&& f.mask) <<< f.position

/-- Does `v` fit, that is, does it survive being written and read? -/
def isValid (v : BitVec 64) : Bool := f.decode (f.encode v) == v

/-- The word `w` with the field set to `v`. -/
def update (v w : BitVec 64) : BitVec 64 := f.encode v ||| (~~~f.maskInPlace &&& w)

end BitField

/-- The least multiple of `align` that is at least `x`, for a power of two `align`: the low bits of
`x + align - 1` are taken off. -/
def roundUp (x align : Nat) : Nat :=
  let y := x + align - 1
  y - (y &&& (align - 1))

end ValueHeap
