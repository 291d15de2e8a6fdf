import ValueHeap.Heap.Action

/-!
# Texts

A text block holds bytes. Its length is counted in bytes; it is read as characters only on demand,
which fails where the bytes are not UTF-8.
-/

namespace ValueHeap

namespace Heap

/-- The bytes of a value that has to be a text. -/
def textBytes (h : Heap) (w : Word) : Except Error (List UInt8) :=
  match h.block? w with
  | some (.text bs) => .ok bs
  | _ => .error (h.mismatch .text w)

/-- The number of bytes of a text. -/
def textLength (h : Heap) (w : Word) : Except Error Nat := (h.textBytes w).map List.length

/-- The characters of a text. -/
def textString (h : Heap) (w : Word) : Except Error String := do
  match Utf8.decode? (← h.textBytes w) with
  | .ok s => .ok s
  | .error offset => .error (.malformedText offset)

end Heap

namespace Action

/-- A text with these bytes. -/
def newTextBytes (bs : List UInt8) : Action Word := allocate (.text bs)

/-- A text with these characters. -/
def newText (s : String) : Action Word := newTextBytes (Utf8.encode s)

/-- The bytes of one text followed by those of another. -/
def textConcat (x y : Word) : Action Word := do
  let a ← read (·.textBytes x)
  let b ← read (·.textBytes y)
  newTextBytes (a ++ b)

end Action

end ValueHeap
