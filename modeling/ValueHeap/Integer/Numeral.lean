import ValueHeap.Error

/-!
# Numerals

Reading a signed 64-bit integer in a radix from 2 to 36. A leading minus sign negates. A zero followed
by `b`, `o` or `x` in either case selects radix 2, 8 or 16 whatever radix was asked for, provided that
something follows. Underscores are skipped.

The value is built up negatively, because the lowest integer has no positive counterpart. The digits are
counted on 32 bits, which wrap around.
-/

namespace ValueHeap.Numeral

/-- The lowest 64-bit integer. -/
def lowest : Int := -0x8000000000000000

/-- The value of a digit in the radix. -/
def digit? (radix : Nat) (c : Char) : Option Nat :=
  let v :=
    if '0' ≤ c ∧ c ≤ '9' then c.toNat - '0'.toNat
    else if 'a' ≤ c ∧ c ≤ 'z' then c.toNat - 'a'.toNat + 10
    else if 'A' ≤ c ∧ c ≤ 'Z' then c.toNat - 'A'.toNat + 10
    else radix
  if v < radix then some v else none

/-- The radix that a letter after a leading zero selects. -/
def radixMark? (c : Char) : Option Nat :=
  if c = 'b' ∨ c = 'B' then some 2
  else if c = 'o' ∨ c = 'O' then some 8
  else if c = 'x' ∨ c = 'X' then some 16
  else none

/-- Is the first character a minus sign, and what comes after it. -/
def splitSign : List Char → Bool × List Char
  | '-' :: cs => (true, cs)
  | cs => (false, cs)

/-- The radix in force and what comes after its mark. -/
def splitRadix (radix : Nat) : List Char → Nat × List Char
  | '0' :: c :: d :: cs =>
    match radixMark? c with
    | some r => (r, d :: cs)
    | none => (radix, '0' :: c :: d :: cs)
  | cs => (radix, cs)

/-- The negative value with one more digit, unless that is below the lowest integer. -/
def pushDigit? (radix : Nat) (value : Int) (digit : Nat) : Option Int :=
  if value < lowest.tdiv radix then none
  else
    let shifted := value * radix
    if shifted < lowest + digit then none else some (shifted - digit)

/-- Reads digits onto the negative `value`, with the count `seen` of the digits that were read before. The
text `numeral` is what an error speaks of. -/
def readDigits (numeral : String) (radix : Nat) : Int → Int32 → List Char → Except Error (Int × Int32)
  | value, seen, [] => .ok (value, seen)
  | value, seen, c :: cs =>
    if c = '_' then readDigits numeral radix value seen cs
    else
      match digit? radix c with
      | none => .error (.invalidDigit c radix)
      | some d =>
        match pushDigit? radix value d with
        | none => .error (.numeralOverflow numeral)
        | some value => readDigits numeral radix value (seen + 1) cs

/-- The integer that a text stands for in a radix. -/
def parse (numeral : String) (radix : Int) : Except Error Int64 :=
  if radix < 2 ∨ 36 < radix then .error (.radixOutOfRange radix)
  else if numeral.isEmpty then .error .emptyNumeral
  else do
    let (negative, body) := splitSign numeral.toList
    let (radix, body) := splitRadix radix.toNat body
    let (value, seen) ← readDigits numeral radix 0 0 body
    if seen = 0 then .error (.noDigits numeral)
    else if negative then .ok (.ofInt value)
    else if value = lowest then .error (.numeralOverflow numeral)
    else .ok (.ofInt (-value))

end ValueHeap.Numeral
