import ValueHeap.Bits.Field
import ValueHeap.Heap.Kind

/-!
# Tagged words

A value is one word. The low bits of a 64-bit pattern say what it is:

* low bit 1: a small number, 63 bits of two's complement above the tag;
* low bits 110: a constant, of which `false`, `true` and `void` are in use;
* low bits 000: a reference to a heap block, or, when all bits are zero, the empty word;
* anything else is an immediate without a meaning.

`Pattern` reads this classification off the bits. `Word` is what the rest of the library computes
with: an immediate pattern, or a reference that names a heap block.
-/

namespace ValueHeap

/-- The 64 bits of a word. -/
abbrev Pattern := BitVec 64

namespace Pattern

/-- The three low bits. -/
def tagField : BitField := ⟨3, 0, false⟩

/-- The low bit, set for small numbers. -/
def numberTagField : BitField := ⟨1, 0, false⟩

/-- The payload of a small number. -/
def smallField : BitField := ⟨63, 1, true⟩

/-- The contents of a field that was never written. -/
def empty : Pattern := 0#64

def falsehood : Pattern := 0x06#64

def truth : Pattern := 0x0e#64

def void : Pattern := 0x16#64

/-- The pattern of a truth value. -/
def ofBool (b : Bool) : Pattern := if b then truth else falsehood

/-- The pattern of `n` as a small number, if it needs at most 63 bits. -/
def ofInt? (n : Int64) : Option Pattern :=
  if smallField.isValid n.toBitVec then some (smallField.encode n.toBitVec ||| 1#64) else none

def isSmall (p : Pattern) : Bool := numberTagField.decode p == 1#64

def isConstant (p : Pattern) : Bool := tagField.decode p == 0b110#64

def isReference (p : Pattern) : Bool := tagField.decode p == 0#64 && p != 0#64

def isImmediate (p : Pattern) : Bool := !isReference p

def isEmpty (p : Pattern) : Bool := p == empty

def isBool (p : Pattern) : Bool := p == truth || p == falsehood

def isVoid (p : Pattern) : Bool := p == void

/-- The number that a small-number pattern stands for. -/
def toInt (p : Pattern) : Int64 := .ofBitVec (smallField.decode p)

/-- The truth value that the pattern stands for. -/
def toBool? (p : Pattern) : Option Bool := if isBool p then some (p == truth) else none

end Pattern

/-- Names a heap block. No name is given out twice. -/
abbrev BlockId := Nat

/-- A value: an immediate pattern, or a reference to a heap block. -/
inductive Word where
  | immediate (bits : Pattern)
  | reference (block : BlockId)
  deriving Repr, DecidableEq

namespace Word

def empty : Word := .immediate Pattern.empty

def void : Word := .immediate Pattern.void

def ofBool (b : Bool) : Word := .immediate (Pattern.ofBool b)

/-- The block that the word refers to. -/
def block? : Word → Option BlockId
  | immediate _ => none
  | reference b => some b

/-- The small number that the word holds. -/
def small? : Word → Option Int64
  | immediate p => if p.isSmall then some p.toInt else none
  | reference _ => none

end Word

/-- The name of a value's type, as messages give it. -/
inductive TypeName where
  | number | bool | void | empty | unknown
  | block (kind : Kind)
  deriving Repr, DecidableEq

namespace TypeName

/-- The type of an immediate. -/
def ofPattern (p : Pattern) : TypeName :=
  if p.isSmall then .number
  else if p.isBool then .bool
  else if p.isVoid then .void
  else if p.isEmpty then .empty
  else .unknown

def label : TypeName → String
  | number => "Number"
  | bool => "Bool"
  | void => "Void"
  | empty => "Empty"
  | unknown => "Unknown"
  | block kind => kind.name

end TypeName

end ValueHeap
