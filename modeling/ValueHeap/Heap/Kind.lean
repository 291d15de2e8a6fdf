/-!
# Kinds of heap block

Every block carries the tag of its kind, then a header, then a payload. `Kind` lists the kinds with
their tags, names and the places of length and payload; `NumberTag` lists the representations of a
boxed number; `Shape` says what a composite block holds besides its fields.
-/

namespace ValueHeap

/-- The kind of a heap block. -/
inductive Kind where
  | text | char | variant | record | array | number | closure | tuple | bytes
  deriving Repr, DecidableEq

namespace Kind

/-- Every kind, in the order of the tags. -/
def all : List Kind := [text, char, variant, record, array, number, closure, tuple, bytes]

/-- The tag at the start of a block of this kind. -/
def tag : Kind → UInt32
  | text => 1
  | char => 2
  | variant => 3
  | record => 4
  | array => 5
  | number => 6
  | closure => 7
  | tuple => 8
  | bytes => 9

/-- The kind with the given tag. -/
def ofTag? (t : UInt32) : Option Kind := all.find? fun k => k.tag == t

/-- The name by which messages call a value of this kind. -/
def name : Kind → String
  | text => "String"
  | char => "Char"
  | variant => "Variant"
  | record => "Record"
  | array => "Array"
  | number => "Number"
  | closure => "Closure"
  | tuple => "Tuple"
  | bytes => "Bytes"

/-- Is the payload a sequence of words? -/
def isComposite : Kind → Bool
  | variant | record | array | closure | tuple => true
  | text | char | number | bytes => false

/-- Offset of the number of payload words or bytes; 0 for kinds that have none. -/
def lengthOffset : Kind → Nat
  | text | bytes | tuple | array => 4
  | record | closure => 12
  | variant => 16
  | char | number => 0

/-- Offset of the payload; 0 for kinds of fixed size. -/
def fieldsOffset : Kind → Nat
  | text | bytes | tuple | array => 8
  | record | closure => 16
  | variant => 24
  | char | number => 0

end Kind

/-- How a boxed number represents its value. -/
inductive NumberTag where
  | float32 | float64 | int32 | int64 | rational
  deriving Repr, DecidableEq

namespace NumberTag

/-- Every representation, in the order of the tags. -/
def all : List NumberTag := [float32, float64, int32, int64, rational]

/-- The subtype tag in the header of a boxed number. -/
def tag : NumberTag → UInt32
  | float32 => 1
  | float64 => 2
  | int32 => 3
  | int64 => 4
  | rational => 5

/-- The representation with the given subtype tag. -/
def ofTag? (t : UInt32) : Option NumberTag := all.find? fun k => k.tag == t

/-- The name of the representation. -/
def name : NumberTag → String
  | float32 => "Float32"
  | float64 => "Float64"
  | int32 => "Int32"
  | int64 => "Int64"
  | rational => "Rational"

end NumberTag

/-- What a composite block is, its fields apart: its kind and the numbers that go with it. -/
inductive Shape where
  | tuple
  | array
  | record (module type : UInt32)
  | variant (module type variant : UInt32)
  | closure (arity code : UInt32)
  deriving Repr, DecidableEq

/-- The kind of a composite of this shape. -/
def Shape.kind : Shape → Kind
  | tuple => .tuple
  | array => .array
  | record .. => .record
  | variant .. => .variant
  | closure .. => .closure

end ValueHeap
