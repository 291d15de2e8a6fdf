import ValueHeap.Binary.Format
import ValueHeap.Decimal.Shortest

/-!
# Decimal literals

Reading a number as text: an optional sign, digits with an optional point among them or at either end,
and an optional exponent; or the words for infinity and for "not a number", in any case.

`Decimal.toBinary` gives the floating-point pattern nearest to a decimal. Decimals far outside the
format's range are settled by their leading digit.
-/

namespace ValueHeap

/-- A number as it was written. -/
inductive Literal where
  | nan
  | infinite (negative : Bool)
  | finite (negative : Bool) (d : Decimal)
  deriving Repr, DecidableEq

namespace Literal

/-- The number that decimal digits stand for. -/
def digitsToNat (ds : List Char) : Nat := ds.foldl (fun n c => 10 * n + (c.toNat - '0'.toNat)) 0

/-- Is there a minus sign, and what comes after the sign. -/
def splitSign : List Char → Bool × List Char
  | '-' :: cs => (true, cs)
  | '+' :: cs => (false, cs)
  | cs => (false, cs)

/-- The exponent that makes up the rest of a literal; none is zero. -/
def exponent? : List Char → Option Int
  | [] => some 0
  | c :: cs =>
    let (negative, ds) := splitSign cs
    if (c = 'e' ∨ c = 'E') ∧ ds ≠ [] ∧ ds.all Char.isDigit then
      some (if negative then -(digitsToNat ds : Int) else digitsToNat ds)
    else none

/-- Digits, the digits after a point, and what comes then. -/
def splitPoint (cs : List Char) : List Char × List Char × List Char :=
  let whole := cs.takeWhile Char.isDigit
  match cs.dropWhile Char.isDigit with
  | '.' :: rest => (whole, rest.takeWhile Char.isDigit, rest.dropWhile Char.isDigit)
  | rest => (whole, [], rest)

/-- The decimal that unsigned text stands for. -/
def decimal? (cs : List Char) : Option Decimal :=
  let (whole, places, rest) := splitPoint cs
  if whole = [] ∧ places = [] then none
  else (exponent? rest).map fun e => ⟨digitsToNat (whole ++ places), e - places.length⟩

/-- The number that a text stands for. -/
def read? (cs : List Char) : Option Literal :=
  let (negative, body) := splitSign cs
  let word := String.ofList (body.map Char.toLower)
  if word = "nan" then some .nan
  else if word = "inf" ∨ word = "infinity" then some (.infinite negative)
  else (decimal? body).map (.finite negative)

end Literal

/-- The magnitude nearest to a decimal. -/
def Decimal.toBinary (f : Binary.Format) (d : Decimal) : Nat :=
  if d.digits = 0 then 0
  else if (f.unitExponent : Int) < d.leading then f.infinity
  else if d.leading < -(f.unitExponent + 1 : Int) then 0
  else f.round (d.digits * Nat.pow 10 d.exponent.toNat * f.one) (Nat.pow 10 (-d.exponent).toNat)

/-- The pattern nearest to a number as it was written. -/
def Literal.toBinary (f : Binary.Format) : Literal → Nat
  | nan => f.quietNaN
  | infinite negative => f.withSign negative f.infinity
  | finite negative d => f.withSign negative (d.toBinary f)

end ValueHeap
