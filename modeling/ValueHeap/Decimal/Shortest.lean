import ValueHeap.Binary.Format

/-!
# Shortest decimals

The decimal of fewest digits that reads back as a given finite floating-point value, the nearest of
those when there are several.

A decimal reads back as a value when it lies between the midpoints to the two neighbouring values;
the midpoints themselves count when the value's pattern is even. For each number of digits the two
decimals around the value are tried, so the first hit has the fewest digits.
-/

namespace ValueHeap

/-- The number `digits * 10 ^ exponent`. -/
structure Decimal where
  digits : Nat
  exponent : Int
  deriving Repr, DecidableEq

namespace Decimal

/-- The number of decimal digits of `n`. -/
def digitCount (n : Nat) : Nat := (Nat.toDigits 10 n).length

/-- The exponent of the leading digit. -/
def leading (d : Decimal) : Int := d.exponent + digitCount d.digits - 1

/-- The least `k` with `num / den < 10 ^ k`, for positive `num` and `den`. -/
def scale (num den : Nat) : Int :=
  if den ≤ num then digitCount (num / den) else 1 - (digitCount ((den - 1) / num) : Int)

/-- The order of `d` and the quotient `num / den`. -/
def compareRatio (d : Decimal) (num den : Nat) : Ordering :=
  compare (d.digits * Nat.pow 10 d.exponent.toNat * den) (num * Nat.pow 10 (-d.exponent).toNat)

/-- Does `d` read back as the finite magnitude `m`? -/
def readsBack (f : Binary.Format) (m : Nat) (d : Decimal) : Bool :=
  let low := d.compareRatio (f.units (m - 1) + f.units m) (2 * f.one)
  let high := d.compareRatio (f.units m + f.units (m + 1)) (2 * f.one)
  (low == .gt || (m % 2 == 0 && low == .eq)) && (high == .lt || (m % 2 == 0 && high == .eq))

/-- The largest multiple of `10 ^ exponent` that is at most `num / den`. -/
def below (num den : Nat) (exponent : Int) : Decimal :=
  ⟨num * Nat.pow 10 (-exponent).toNat / (den * Nat.pow 10 exponent.toNat), exponent⟩

/-- The multiple of the same power of ten that comes next. -/
def next (d : Decimal) : Decimal := ⟨d.digits + 1, d.exponent⟩

/-- The multiple of `10 ^ exponent` nearest to the magnitude `m` among the two around it that read
back; of two equally near ones the larger. -/
def nearest? (f : Binary.Format) (m : Nat) (exponent : Int) : Option Decimal :=
  let lower := below (f.units m) f.one exponent
  let upper := lower.next
  let midpoint : Decimal := ⟨10 * lower.digits + 5, exponent - 1⟩
  match readsBack f m lower, readsBack f m upper with
  | true, true => some (if midpoint.compareRatio (f.units m) f.one == .gt then lower else upper)
  | true, false => some lower
  | false, true => some upper
  | false, false => none

/-- The exact value of the magnitude `m`. -/
def exact (f : Binary.Format) (m : Nat) : Decimal :=
  ⟨f.units m * Nat.pow 5 f.unitExponent, -f.unitExponent⟩

/-- The same number with no zero at the end of its digits. -/
def trim (digits : Nat) (exponent : Int) : Decimal :=
  if h : digits ≠ 0 ∧ digits % 10 = 0 then trim (digits / 10) (exponent + 1) else ⟨digits, exponent⟩
termination_by digits
decreasing_by omega

/-- The shortest decimal that reads back as the positive finite magnitude `m`. Seventeen digits are
enough for every magnitude of 64 bits. -/
def shortest (f : Binary.Format) (m : Nat) : Decimal :=
  let k := scale (f.units m) f.one
  let d := ((List.range 17).findSome? fun n : Nat => nearest? f m (k - 1 - n)).getD (exact f m)
  trim d.digits d.exponent

end Decimal

end ValueHeap
