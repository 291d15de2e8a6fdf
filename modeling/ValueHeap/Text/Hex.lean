/-!
# Hexadecimal text

Lower-case hexadecimal, without leading zeros, or padded to a number of digits.
-/

namespace ValueHeap.Text

/-- The digits of `n` in base sixteen, most significant first. -/
def hexDigits (n : Nat) : List Char := Nat.toDigits 16 n

/-- The digits of `n`, with zeros in front up to `width` digits. -/
def hexPadded (width n : Nat) : String :=
  let ds := hexDigits n
  String.ofList (List.replicate (width - ds.length) '0' ++ ds)

/-- `0x` and the digits of `n`. -/
def hex (n : Nat) : String := "0x" ++ String.ofList (hexDigits n)

/-- `0x` and the two digits of a byte. -/
def hexByte (b : UInt8) : String := "0x" ++ hexPadded 2 b.toNat

/-- Two digits a byte, nothing between them. -/
def hexBytes (bs : List UInt8) : String := String.join (bs.map fun b => hexPadded 2 b.toNat)

end ValueHeap.Text
