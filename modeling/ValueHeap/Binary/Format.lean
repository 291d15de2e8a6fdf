/-!
# Binary floating-point formats

A format has a sign bit, an exponent field and a fraction field, from the highest bit down. Its
finite values are the whole multiples of one smallest unit that the fraction field can resolve, so a
finite value *is* an integer number of units, and every question about values becomes one about
integers:

* `units` reads a pattern without its sign as a number of units; patterns and units have the same
  order, and the pattern of infinity follows that of the largest finite value;
* `round` gives the pattern nearest to a quotient of naturals in units, ties to the even pattern.

Patterns are natural numbers below `2 * signBit`.
-/

namespace ValueHeap.Binary

/-- The widths of the fraction field and of the exponent field. -/
structure Format where
  fraction : Nat
  exponent : Nat
  deriving Repr, DecidableEq

/-- The 32-bit format. -/
def single : Format := ⟨23, 8⟩

/-- The 64-bit format. -/
def double : Format := ⟨52, 11⟩

namespace Format

variable (f : Format)

/-- The pattern that holds only a sign. -/
def signBit : Nat := Nat.pow 2 (f.fraction + f.exponent)

/-- The pattern of infinity without its sign. -/
def infinity : Nat := (Nat.pow 2 f.exponent - 1) * Nat.pow 2 f.fraction

/-- The bit that marks a quiet NaN. -/
def quietBit : Nat := Nat.pow 2 (f.fraction - 1)

/-- The NaN that stands for "no operand was one". -/
def quietNaN : Nat := f.infinity + f.quietBit

/-- One unit is the quotient of 1 by two to this power. -/
def unitExponent : Nat := Nat.pow 2 (f.exponent - 1) + f.fraction - 2

/-- The number of units in 1. -/
def one : Nat := Nat.pow 2 f.unitExponent

def isNegative (p : Nat) : Bool := p / f.signBit % 2 == 1

/-- The pattern without its sign. -/
def magnitude (p : Nat) : Nat := p % f.signBit

def isNaN (p : Nat) : Bool := f.infinity < f.magnitude p

def isInfinite (p : Nat) : Bool := f.magnitude p == f.infinity

def isFinite (p : Nat) : Bool := f.magnitude p < f.infinity

def isZero (p : Nat) : Bool := f.magnitude p == 0

/-- The pattern with the given sign and magnitude. -/
def withSign (negative : Bool) (m : Nat) : Nat := if negative then f.signBit + m else m

/-- The number of units that a finite magnitude stands for. -/
def units (m : Nat) : Nat :=
  let e := m / Nat.pow 2 f.fraction
  let r := m % Nat.pow 2 f.fraction
  if e = 0 then r else (Nat.pow 2 f.fraction + r) * Nat.pow 2 (e - 1)

/-- The units of a finite pattern, with its sign. -/
def value (p : Nat) : Int :=
  if f.isNegative p then -(f.units (f.magnitude p) : Int) else f.units (f.magnitude p)

/-- The whole number nearest to `num / den`, a half going to the even one. -/
def divNearest (num den : Nat) : Nat :=
  let q := num / den
  let r := num % den
  if den < 2 * r || (2 * r == den && q % 2 == 1) then q + 1 else q

/-- The magnitude nearest to `num / den` units, a half going to the even one, infinity when it is
past the largest finite value. Rounding up to the next power of two carries into the exponent
field. -/
def round (num den : Nat) : Nat :=
  let k := (num / den).log2 - f.fraction
  min (k * Nat.pow 2 f.fraction + divNearest num (den * Nat.pow 2 k)) f.infinity

/-- A place on the number line that orders all patterns but NaN; both zeros have place 0. -/
def place (p : Nat) : Int :=
  if f.isNegative p then -(f.magnitude p : Int) else f.magnitude p

/-- The pattern nearest to the quotient `num / den`. -/
def ofRatio (num : Int) (den : Nat) : Nat :=
  f.withSign (num < 0) (f.round (num.natAbs * f.one) den)

/-- The pattern nearest to an integer. -/
def ofInt (n : Int) : Nat := f.ofRatio n 1

/-- The whole part of a finite pattern, cut towards zero. -/
def truncate (p : Nat) : Int := (f.value p).tdiv f.one

/-- The integer that the pattern stands for, if it stands for one. -/
def toInt? (p : Nat) : Option Int :=
  if f.isFinite p && f.value p % f.one == 0 then some (f.value p / f.one) else none

end Format

/-- The same number in a wider format. A NaN keeps its sign and its payload and becomes quiet. -/
def widen (narrow wide : Format) (p : Nat) : Nat :=
  let m := narrow.magnitude p
  wide.withSign (narrow.isNegative p) <|
    if narrow.isNaN p then
      wide.infinity +
        ((m - narrow.infinity) * Nat.pow 2 (wide.fraction - narrow.fraction) ||| wide.quietBit)
    else if narrow.isInfinite p then wide.infinity
    else wide.round (narrow.units m * Nat.pow 2 (wide.unitExponent - narrow.unitExponent)) 1

end ValueHeap.Binary
