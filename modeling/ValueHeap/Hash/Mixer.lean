import ValueHeap.Bits.Octets

/-!
# The mixer

An incremental hash over 32-bit blocks. Words are mixed in one at a time; a run of bytes is cut into
blocks of four, lowest byte first, and what is left at its end is mixed in without the rotation that a
full block gets. The final step spreads every bit of the state, and of the number of bytes written,
over the result.
-/

namespace ValueHeap

/-- The state of a hash in progress. -/
structure Hasher where
  state : UInt32
  /-- The number of bytes written, modulo 2^32. -/
  length : UInt32
  deriving Repr, DecidableEq

namespace Hasher

/-- The word turned left by `n` bits. -/
def rotate (x n : UInt32) : UInt32 := x <<< n ||| x >>> (32 - n)

def scramble (k : UInt32) : UInt32 := rotate (k * 0xcc9e2d51) 15 * 0x1b873593

/-- The state after a full block. -/
def mix (state k : UInt32) : UInt32 := rotate (state ^^^ scramble k) 13 * 5 + 0xe6546b64

/-- The final spreading of bits. -/
def avalanche (x : UInt32) : UInt32 :=
  let x := (x ^^^ x >>> 16) * 0x85ebca6b
  let x := (x ^^^ x >>> 13) * 0xc2b2ae35
  x ^^^ x >>> 16

/-- Nothing written yet. -/
def start (seed : UInt32) : Hasher := ⟨seed, 0⟩

def write32 (s : Hasher) (k : UInt32) : Hasher := ⟨mix s.state k, s.length + 4⟩

/-- Writes the low half, then the high half. -/
def write64 (s : Hasher) (k : UInt64) : Hasher :=
  (s.write32 k.toUInt32).write32 (k >>> 32).toUInt32

/-- The state after a run of bytes. -/
def mixBytes (state : UInt32) : List UInt8 → UInt32
  | a :: b :: c :: d :: rest => mixBytes (mix state (Octets.toWord [a, b, c, d])) rest
  | [] => state
  | tail => state ^^^ scramble (Octets.toWord tail)

def writeBytes (s : Hasher) (bs : List UInt8) : Hasher :=
  ⟨mixBytes s.state bs, s.length + UInt32.ofNat bs.length⟩

/-- The hash of everything written so far. -/
def finish (s : Hasher) : UInt32 := avalanche (s.state ^^^ s.length)

end Hasher

end ValueHeap
