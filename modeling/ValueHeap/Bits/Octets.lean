/-!
# Octets of a word

A 32-bit word as four bytes, the lowest first.
-/

namespace ValueHeap.Octets

/-- The four bytes of a word, lowest first. -/
def ofWord (w : UInt32) : List UInt8 :=
  [w.toUInt8, (w >>> 8).toUInt8, (w >>> 16).toUInt8, (w >>> 24).toUInt8]

/-- The word with at most four given bytes, the first of them lowest. -/
def toWord (bs : List UInt8) : UInt32 := bs.foldr (fun b w => w <<< 8 ||| b.toUInt32) 0

end ValueHeap.Octets
