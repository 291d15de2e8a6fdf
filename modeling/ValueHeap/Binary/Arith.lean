import ValueHeap.Binary.Format

/-!
# Floating-point arithmetic

The operations on patterns of one format. Sums, products and quotients of finite values are computed
exactly in units and rounded once. A NaN operand is passed on, made quiet, the first of two; an
operation without an answer gives the negative quiet NaN.

`minimum` and `maximum` order the negative zero below the positive one and give a NaN when an
operand is one.
-/

namespace ValueHeap.Binary.Format

variable (f : Format)

/-- The quiet form of a NaN. -/
def quiet (p : Nat) : Nat := p ||| f.quietBit

/-- The NaN of an operation without an answer. -/
def invalid : Nat := f.withSign true f.quietNaN

/-- A NaN operand decides the result; otherwise `k` does. -/
def propagating (x y k : Nat) : Nat :=
  if f.isNaN x then f.quiet x else if f.isNaN y then f.quiet y else k

/-- The pattern with the sign turned over. -/
def neg (p : Nat) : Nat := f.withSign (!f.isNegative p) (f.magnitude p)

/-- The pattern with the sign cleared. -/
def abs (p : Nat) : Nat := f.magnitude p

/-- The pattern of the whole part, cut towards zero. The sign stays, also that of a zero. -/
def whole (p : Nat) : Nat :=
  if f.isFinite p then f.withSign (f.isNegative p) (f.round ((f.truncate p).natAbs * f.one) 1) else p

/-- The sum of two patterns of which none is a NaN. -/
def addNumbers (x y : Nat) : Nat :=
  if f.isInfinite x then
    if f.isInfinite y && f.isNegative x != f.isNegative y then f.invalid else x
  else if f.isInfinite y then y
  else
    let s := f.value x + f.value y
    if s = 0 then f.withSign (f.isNegative x && f.isNegative y) 0
    else f.withSign (s < 0) (f.round s.natAbs 1)

def add (x y : Nat) : Nat := f.propagating x y (f.addNumbers x y)

def sub (x y : Nat) : Nat := f.propagating x y (f.addNumbers x (f.neg y))

def mul (x y : Nat) : Nat :=
  let negative := f.isNegative x != f.isNegative y
  f.propagating x y <|
    if f.isInfinite x || f.isInfinite y then
      if f.isZero x || f.isZero y then f.invalid else f.withSign negative f.infinity
    else f.withSign negative
      (f.round (f.units (f.magnitude x) * f.units (f.magnitude y)) f.one)

def div (x y : Nat) : Nat :=
  let negative := f.isNegative x != f.isNegative y
  f.propagating x y <|
    if f.isInfinite x then
      if f.isInfinite y then f.invalid else f.withSign negative f.infinity
    else if f.isInfinite y then f.withSign negative 0
    else if f.isZero y then
      if f.isZero x then f.invalid else f.withSign negative f.infinity
    else f.withSign negative
      (f.round (f.units (f.magnitude x) * f.one) (f.units (f.magnitude y)))

/-- The order of two patterns, none when one of them is a NaN. -/
def compare? (x y : Nat) : Option Ordering :=
  if f.isNaN x || f.isNaN y then none else some (compare (f.place x) (f.place y))

def minimum (x y : Nat) : Nat :=
  match f.compare? x y with
  | none => f.quietNaN
  | some .lt => x
  | some .gt => y
  | some .eq => if f.isNegative x then x else y

def maximum (x y : Nat) : Nat :=
  match f.compare? x y with
  | none => f.quietNaN
  | some .lt => y
  | some .gt => x
  | some .eq => if f.isNegative x then y else x

end ValueHeap.Binary.Format
