import ValueHeap.Heap.Buffer
import ValueHeap.Heap.Character
import ValueHeap.Heap.Composite
import ValueHeap.Number.Boxed

/-!
# Value expressions

How a session writes down the values it works on. An expression builds a fresh value, or gives a new
owner of what is in a register. Parts are built from left to right; if a part fails, what was built
before it is released and the expression fails with it.
-/

namespace ValueHeap

/-- Named values, the latest first. -/
abbrev Registers := List (String × Word)

/-- The value in a register; void if it was never written. -/
def Registers.get (r : Registers) (name : String) : Word := (r.lookup name).getD .void

inductive Expr where
  | immediate (p : Pattern)
  | register (name : String)
  | integer (n : Int64)
  | boxed (x : Number)
  | rational (num den : Int64)
  | text (s : String)
  /-- A text with any bytes, made from a buffer. -/
  | rawText (data : List UInt8)
  | buffer (data : List UInt8)
  | char (code : Int64)
  | composite (shape : Shape) (fields : List Expr)
  /-- A value inside `n` composites of one field each. -/
  | nest (shape : Shape) (n : Nat) (inner : Expr)
  /-- A value behind `n` pairs that are numbered from the inside. -/
  | chain (n : Nat) (inner : Expr)

namespace Action

/-- Puts a value into `n` composites of one field each. Takes the value over. -/
def nest (shape : Shape) : (n : Nat) → Word → Action Word
  | 0, w => pure w
  | n + 1, w => do nest shape n (← newComposite shape [w])

/-- Puts a value behind `n` pairs, numbered from `first` on. Takes the value over. -/
def chain (first : Nat) : (n : Nat) → Word → Action Word
  | 0, w => pure w
  | n + 1, w => do
    let number ← newInteger (.ofNat first)
    chain (first + 1) n (← newComposite .tuple [number, w])

/-- A text made from a buffer that is dropped again. -/
def newRawText (data : List UInt8) : Action Word := do
  let b ← newBuffer data
  thenRelease b (textOfBuffer b)

end Action

namespace Expr

mutual

/-- Builds the value. -/
def eval (r : Registers) : Expr → Action Word
  | immediate p => pure (.immediate p)
  | register name => do
    Action.update (·.acquire (r.get name))
    return r.get name
  | integer n => Action.newInteger n
  | boxed x => Action.newBoxed x
  | rational num den => Action.newRational num den
  | text s => Action.newText s
  | rawText data => Action.newRawText data
  | buffer data => Action.newBuffer data
  | char code => Action.newCharOfCode code
  | composite shape fields => do Action.newComposite shape (← evalAll r fields)
  | nest shape n inner => do Action.nest shape n (← eval r inner)
  | chain n inner => do Action.chain 0 n (← eval r inner)

/-- Builds the values of a list of expressions. -/
def evalAll (r : Registers) : List Expr → Action (List Word)
  | [] => pure []
  | e :: es => do
    let w ← eval r e
    let ws ← Action.orRelease w (evalAll r es)
    return w :: ws

end

end Expr

end ValueHeap
