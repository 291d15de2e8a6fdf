import ValueHeap.Text.Quoted
import ValueHeap.Text.Utf8
import ValueHeap.Word

/-!
# Errors

Every way in which an operation can fail, with the one function that words it. `Error.category` is
the class that the wording starts with.
-/

namespace ValueHeap

/-- What an operation wanted an argument to be. -/
inductive Expected where
  | block (kind : Kind)
  | number (tag : NumberTag)
  /-- A number of an integer representation. -/
  | integer
  deriving Repr, DecidableEq

/-- The wording of an expectation. -/
def Expected.label : Expected → String
  | block kind => kind.name
  | number tag => tag.name
  | integer => "integer Number"

/-- Operations that take a range of a buffer. -/
inductive RangeUse where
  | slice | move
  deriving Repr, DecidableEq

def RangeUse.label : RangeUse → String
  | slice => "slice"
  | move => "move"

/-- The classes of errors. -/
inductive Category where
  | malformedUtf8 | invalidArgument | indexOutOfBounds | overflow | divideByZero | moduloByZero
  | invalidDigit | wrongType
  deriving Repr, DecidableEq

/-- Why an operation failed. -/
inductive Error where
  /-- A packed character is not UTF-8. -/
  | malformedChar (fault : Utf8.Fault)
  /-- A text is not UTF-8 from byte `offset` on. -/
  | malformedText (offset : Nat)
  | radixOutOfRange (radix : Int)
  | emptyNumeral
  | noDigits (numeral : String)
  | notScalar (code : Int64)
  | noNextScalar
  | noPreviousScalar
  | rangeOutOfBounds (use : RangeUse) (start len : Int) (size : Nat)
  | badResize (size : Nat) (left right : Int)
  | indexOutOfBounds (index : Int) (width size : Nat)
  | quotientOverflow
  | numeratorOverflow
  | denominatorOverflow
  | numeralOverflow (numeral : String)
  | divideByZero
  | moduloByZero
  | invalidDigit (digit : Char) (radix : Nat)
  | wrongType (expected : Expected) (got : TypeName)
  deriving Repr, DecidableEq

namespace Error

open Text

/-- The class of an error. -/
def category : Error → Category
  | malformedChar _ | malformedText _ => .malformedUtf8
  | radixOutOfRange _ | emptyNumeral | noDigits _ | notScalar _ | noNextScalar | noPreviousScalar
  | rangeOutOfBounds .. | badResize .. => .invalidArgument
  | indexOutOfBounds .. => .indexOutOfBounds
  | quotientOverflow | numeratorOverflow | denominatorOverflow | numeralOverflow _ => .overflow
  | divideByZero => .divideByZero
  | moduloByZero => .moduloByZero
  | invalidDigit .. => .invalidDigit
  | wrongType .. => .wrongType

/-- The wording of a fault in a packed character. -/
def faultText : Utf8.Fault → String
  | .lead b => "invalid leading byte " ++ hexByte b
  | .continuation b low high =>
    "continuation byte " ++ hexByte b ++ " outside " ++ hexByte low ++ "..=" ++ hexByte high
  | .truncated => "truncated character"
  | .notScalar code => hex code ++ " is not a Unicode scalar value"

/-- The wording of an error. -/
def message : Error → String
  | malformedChar fault => "MalformedUtf8: " ++ faultText fault
  | malformedText offset => "MalformedUtf8: invalid UTF-8 at byte " ++ toString offset ++ " of string"
  | radixOutOfRange radix => "InvalidArgument: radix " ++ toString radix ++ " outside 2..=36"
  | emptyNumeral => "InvalidArgument: empty string"
  | noDigits numeral => "InvalidArgument: no digits in " ++ quoteText numeral
  | notScalar code =>
    "InvalidArgument: " ++ hex code.toUInt64.toNat ++ " is not a Unicode scalar value"
  | noNextScalar => "InvalidArgument: no scalar value after U+10FFFF"
  | noPreviousScalar => "InvalidArgument: no scalar value before U+0000"
  | rangeOutOfBounds use start len size =>
    "InvalidArgument: " ++ use.label ++ ": range " ++ toString start ++ "+" ++ toString len ++
      " outside buffer of " ++ toString size ++ " byte(s)"
  | badResize size left right =>
    "InvalidArgument: resize: cannot resize " ++ toString size ++ " byte(s) by " ++ toString left ++
      " and " ++ toString right
  | indexOutOfBounds index width size =>
    "IndexOutOfBounds: access of " ++ toString width ++ " byte(s) at " ++ toString index ++
      " in a buffer of " ++ toString size ++ " byte(s)"
  | quotientOverflow => "Overflow: integer division overflow"
  | numeratorOverflow => "Overflow: rational numerator"
  | denominatorOverflow => "Overflow: rational denominator"
  | numeralOverflow numeral =>
    "Overflow: " ++ quoteText numeral ++ " is out of the 64-bit integer range"
  | divideByZero => "DivisionByZero"
  | moduloByZero => "ModuloByZero"
  | invalidDigit digit radix =>
    "InvalidDigit: " ++ quoteChar digit ++ " is not a digit in radix " ++ toString radix
  | wrongType expected got => "WrongType: expected " ++ expected.label ++ ", got " ++ got.label

end Error

end ValueHeap
