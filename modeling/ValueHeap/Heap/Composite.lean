import ValueHeap.Heap.Action

/-!
# Composites

Tuples, arrays, records, variants and closures: blocks whose fields are words. Reading a field gives a
new owner of what is in it; writing a field takes the new value over and releases the old one, also
when the old one is what kept other blocks alive.
-/

namespace ValueHeap

namespace Heap

/-- The name, shape and fields of a value that has to be a composite of the given kind. -/
def composite (h : Heap) (kind : Kind) (w : Word) : Except Error (BlockId × Shape × List Word) :=
  match w, h.block? w with
  | .reference b, some (.composite shape fields) =>
    if shape.kind = kind then .ok (b, shape, fields) else .error (h.mismatch kind w)
  | _, _ => .error (h.mismatch kind w)

/-- The number of fields. -/
def fieldCount (h : Heap) (kind : Kind) (w : Word) : Except Error Nat :=
  (h.composite kind w).map fun c => c.2.2.length

/-- The shape of a composite of the given kind. -/
def shapeOf (h : Heap) (kind : Kind) (w : Word) : Except Error Shape :=
  (h.composite kind w).map fun c => c.2.1

/-- The error of a field index that is too large. Indices are unsigned words; the message shows them
as signed ones. -/
def badField (index : UInt64) (fields : List Word) : Error :=
  .indexOutOfBounds index.toInt64.toInt 1 fields.length

/-- Writes a field without a change of owners. -/
def setField (b : BlockId) (i : Nat) (w : Word) (h : Heap) : Heap :=
  h.modifyBlock b fun
    | .composite shape fields => .composite shape (fields.set i w)
    | block => block

/-- Adds `n` owners. -/
def acquireTimes (n : Nat) (w : Word) (h : Heap) : Heap := Nat.repeat (acquire w) n h

end Heap

namespace Action

/-- A composite. It takes over its fields. -/
def newComposite (shape : Shape) (fields : List Word) : Action Word :=
  allocate (.composite shape fields)

/-- An array of `n` fields that all hold `w`. -/
def newFilled (n : Nat) (w : Word) : Action Word := do
  update (·.acquireTimes n w)
  newComposite .array (List.replicate n w)

/-- The value in a field. -/
def getField (kind : Kind) (w : Word) (index : UInt64) : Action Word := do
  let (_, _, fields) ← read (·.composite kind w)
  match fields[index.toNat]? with
  | some x =>
    update (·.acquire x)
    return x
  | none => throw (Heap.badField index fields)

/-- Stores `x` in a field. Takes `x` over, also when it fails. -/
def setField (kind : Kind) (w : Word) (index : UInt64) (x : Word) : Action Unit := do
  let place : Heap → Except Error (BlockId × Word) := fun h => do
    let (b, _, fields) ← h.composite kind w
    match fields[index.toNat]? with
    | some old => return (b, old)
    | none => throw (Heap.badField index fields)
  fun h =>
    match place h with
    | .ok (b, old) => (.ok (), (h.setField b index.toNat x).release old)
    | .error e => (.error e, h.release x)

end Action

end ValueHeap
