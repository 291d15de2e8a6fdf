import ValueHeap.Heap.Text

/-!
# Characters

A character block holds one scalar value as packed UTF-8. Successor and predecessor step over the gap
that the surrogates leave.
-/

namespace ValueHeap

/-- The last scalar value. -/
def lastScalar : Nat := 0x10ffff

/-- The number in 32 unsigned bits, if it has that many. -/
def unsigned32? (n : Int64) : Option UInt32 :=
  if 0 ≤ n.toInt ∧ n.toInt < 0x100000000 then some (.ofNat n.toInt.toNat) else none

/-- The scalar value of a packed character. -/
def unpackChar (packed : UInt32) : Except Error Nat := (Utf8.unpack packed).mapError .malformedChar

namespace Heap

/-- The packed form of a value that has to be a character. -/
def packedChar (h : Heap) (w : Word) : Except Error UInt32 :=
  match h.block? w with
  | some (.char packed) => .ok packed
  | _ => .error (h.mismatch .char w)

/-- The scalar value of a character. -/
def charCode (h : Heap) (w : Word) : Except Error Nat := do unpackChar (← h.packedChar w)

/-- The character that a value is. -/
def charValue (h : Heap) (w : Word) : Except Error Char := do
  let code ← h.charCode w
  match Utf8.char? code with
  | some c => .ok c
  | none => .error (.malformedChar (.notScalar code))

end Heap

namespace Action

def newChar (c : Char) : Action Word := allocate (.char (Utf8.pack c))

/-- The character with the given scalar value: a number of 32 unsigned bits that is the code point of a
character. -/
def newCharOfCode (code : Int64) : Action Word :=
  match (unsigned32? code).bind (Utf8.char? ·.toNat) with
  | some c => newChar c
  | none => throw (.notScalar code)

/-- The text of one character. -/
def charText (w : Word) : Action Word := do
  let c ← read (·.charValue w)
  newText c.toString

/-- The next scalar value. -/
def charSucc (w : Word) : Action Word := do
  let code ← read (·.charCode w)
  if code = lastScalar then throw .noNextScalar
  else if code = 0xd7ff then newCharOfCode 0xe000
  else newCharOfCode (.ofNat (code + 1))

/-- The scalar value before. -/
def charPred (w : Word) : Action Word := do
  let code ← read (·.charCode w)
  if code = 0 then throw .noPreviousScalar
  else if code = 0xe000 then newCharOfCode 0xd7ff
  else newCharOfCode (.ofNat (code - 1))

end Action

end ValueHeap
