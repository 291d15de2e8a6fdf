import ValueHeap.Buffer.Basic
import ValueHeap.Heap.Text

/-!
# Byte buffers

Buffers are changed in place. Making one from another copies its bytes.
-/

namespace ValueHeap

namespace Heap

/-- The bytes of a value that has to be a buffer. -/
def bufferBytes (h : Heap) (w : Word) : Except Error (List UInt8) :=
  match h.block? w with
  | some (.bytes data) => .ok data
  | _ => .error (h.mismatch .bytes w)

def bufferLength (h : Heap) (w : Word) : Except Error Nat := (h.bufferBytes w).map List.length

/-- The `width` bytes at `index`, as a number. -/
def bufferGet (h : Heap) (width : Nat) (w : Word) (index : Int) : Except Error Nat := do
  let data ← h.bufferBytes w
  let i ← Bytes.checkIndex index width data.length
  return Bytes.toNat (Bytes.slice data i width)

/-- The integer at `index`. -/
def bufferGetInt (h : Heap) (layout : Bytes.IntLayout) (w : Word) (index : Int) : Except Error Int :=
  (h.bufferGet layout.width w index).map layout.toInt

/-- Gives a buffer new contents. -/
def setBuffer (w : Word) (data : List UInt8) (h : Heap) : Heap :=
  match w with
  | .immediate _ => h
  | .reference b => h.modifyBlock b fun _ => .bytes data

end Heap

namespace Action

def newBuffer (data : List UInt8) : Action Word := allocate (.bytes data)

/-- A buffer with the bytes of a text. -/
def bufferOfText (w : Word) : Action Word := do newBuffer (← read (·.textBytes w))

/-- A text with the bytes of a buffer, whatever they are. -/
def textOfBuffer (w : Word) : Action Word := do newTextBytes (← read (·.bufferBytes w))

def bufferCopy (w : Word) : Action Word := do newBuffer (← read (·.bufferBytes w))

/-- Sets every byte to the low bits of `n`. -/
def bufferFill (w : Word) (n : Int) : Action Unit := do
  let data ← read (·.bufferBytes w)
  update (·.setBuffer w (List.replicate data.length (UInt8.ofNat (Bytes.lowBits 1 n))))

/-- A new buffer with the `len` bytes from `start` on. -/
def bufferSlice (w : Word) (start len : Int) : Action Word := do
  let data ← read (·.bufferBytes w)
  let (s, l) ← result (Bytes.checkRange .slice start len data.length)
  newBuffer (Bytes.slice data s l)

/-- A new buffer, grown or shrunk at both ends. -/
def bufferResize (w : Word) (left right : Int) : Action Word := do
  let data ← read (·.bufferBytes w)
  newBuffer (← result (Bytes.resize data left right))

/-- Copies a range of one buffer over a range of another. The two may be the same buffer and the
ranges may overlap: the bytes written are those that were there before. -/
def bufferMove (srcIndex dstIndex len : Int) (src dst : Word) : Action Unit := do
  let source ← read (·.bufferBytes src)
  let target ← read (·.bufferBytes dst)
  let (s, l) ← result (Bytes.checkRange .move srcIndex len source.length)
  let (t, _) ← result (Bytes.checkRange .move dstIndex len target.length)
  update (·.setBuffer dst (Bytes.overwrite target t (Bytes.slice source s l)))

/-- A new buffer with the bytes of `x` followed by those of `y`: `x` with room for `y` at its back,
and `y` moved there. The type of `y` is checked first. -/
def bufferConcat (x y : Word) : Action Word := do
  let tail ← read (·.bufferLength y)
  let joined ← bufferResize x 0 tail
  orRelease joined do
    let front ← read (·.bufferLength x)
    bufferMove 0 front tail y joined
  return joined

/-- Writes the `width` lowest bytes of `n` at `index`. -/
def bufferSet (width : Nat) (w : Word) (index : Int) (n : Nat) : Action Unit := do
  let data ← read (·.bufferBytes w)
  let i ← result (Bytes.checkIndex index width data.length)
  update (·.setBuffer w (Bytes.overwrite data i (Bytes.ofNat width n)))

/-- Writes the low bits of an integer at `index`. -/
def bufferSetInt (width : Nat) (w : Word) (index value : Int) : Action Unit :=
  bufferSet width w index (Bytes.lowBits width value)

end Action

end ValueHeap
