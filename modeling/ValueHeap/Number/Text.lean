import ValueHeap.Decimal.Shortest
import ValueHeap.Number.Basic

/-!
# The text of a number

Integers are written in decimal, fractions as numerator and denominator with a stroke between them.
A float is written with the fewest digits that read back in its own width: positionally, and with at
least one place after the point, when its leading digit stands from the fourth place after the point
up to the sixteenth before it; with an exponent otherwise.
-/

namespace ValueHeap

namespace Decimal

/-- Digits with a point among them or beside them, and at least one place after it. -/
def positional (d : Decimal) : String :=
  let ds := Nat.toDigits 10 d.digits
  let e := d.leading
  if 0 ≤ d.exponent then String.ofList (ds ++ List.replicate d.exponent.toNat '0') ++ ".0"
  else if 0 ≤ e then
    String.ofList (ds.take (e.toNat + 1)) ++ "." ++ String.ofList (ds.drop (e.toNat + 1))
  else "0." ++ String.ofList (List.replicate (-e - 1).toNat '0' ++ ds)

/-- The leading digit, the others after a point if there are any, and the exponent. -/
def scientific (d : Decimal) : String :=
  let ds := Nat.toDigits 10 d.digits
  let tail := ds.drop 1
  String.ofList (ds.take 1) ++ (if tail.isEmpty then "" else "." ++ String.ofList tail) ++ "e" ++
    toString d.leading

/-- The text of a positive decimal. -/
def text (d : Decimal) : String :=
  if -4 ≤ d.leading && d.leading < 16 then d.positional else d.scientific

end Decimal

/-- The text of a float. -/
def Binary.Format.text (f : Binary.Format) (p : Nat) : String :=
  if f.isNaN p then "NaN"
  else
    (if f.isNegative p then "-" else "") ++
      (if f.isInfinite p then "inf"
       else if f.isZero p then "0.0"
       else (Decimal.shortest f (f.magnitude p)).text)

/-- The text of a number. -/
def Number.text : Number → String
  | .small n | .int64 n => toString n.toInt
  | .int32 n => toString n.toInt
  | .float32 bits => Binary.single.text bits.toNat
  | .float64 bits => Binary.double.text bits.toNat
  | .rational num den => toString num.toInt ++ "/" ++ toString den.toInt

end ValueHeap
