import ValueHeap.Heap.Composite
import ValueHeap.Heap.Text
import ValueHeap.Integer.Numeral
import ValueHeap.Number.Boxed

/-!
# Reading integers from texts

`parseInteger` never fails: it answers with a variant that holds either the integer or the wording of
the error.
-/

namespace ValueHeap

/-- The shape of an answer that holds a result. -/
def Shape.success : Shape := .variant 0 1 0

/-- The shape of an answer that holds the wording of an error. -/
def Shape.failure : Shape := .variant 0 1 1

namespace Heap

/-- The radix that a value has to be: a number of an integer representation. -/
def expectRadix (h : Heap) (w : Word) : Except Error Int64 :=
  match h.number? w with
  | some (.small n) | some (.int64 n) => .ok n
  | some (.int32 n) => .ok n.toInt64
  | _ => .error (.wrongType .integer (h.typeName w))

/-- The integer that a text stands for. The radix is checked first. -/
def readInteger (h : Heap) (text radix : Word) : Except Error Int64 := do
  let r ← h.expectRadix radix
  let s ← h.textString text
  Numeral.parse s r.toInt

end Heap

namespace Action

/-- The integer that a text stands for, or what is wrong with it, as a variant. -/
def parseInteger (text radix : Word) : Action Word := do
  match ← read (fun h => .ok (h.readInteger text radix)) with
  | .ok n => newComposite .success [← newInteger n]
  | .error e => newComposite .failure [← newText e.message]

end Action

end ValueHeap
