import ValueHeap.Heap.Basic

/-!
# Actions on a heap

An operation that may change the heap and may fail. A failure keeps the heap as the operation left
it.

Who owns what: an action that takes a word only looks at it unless its doc comment says that it takes
the word over; a word that an action returns is owned by the caller.
-/

namespace ValueHeap

/-- A computation on a heap that may fail. -/
abbrev Action := ExceptT Error (StateM Heap)

namespace Action

variable {α : Type}

/-- Looks at the heap. -/
def read (f : Heap → Except Error α) : Action α := fun h => (f h, h)

/-- Changes the heap. -/
def update (f : Heap → Heap) : Action Unit := fun h => (.ok (), f h)

/-- A result that does not depend on the heap. -/
def result (r : Except Error α) : Action α := fun h => (r, h)

/-- A new block. It takes over the words in its fields. -/
def allocate (block : Block) : Action Word := fun h =>
  let (w, h) := h.allocate block
  (.ok w, h)

/-- Runs an action that needs `w` afterwards: if it fails, `w` is released. -/
def orRelease (w : Word) (action : Action α) : Action α := fun h =>
  match action h with
  | (.ok a, h) => (.ok a, h)
  | (.error e, h) => (.error e, h.release w)

/-- Runs an action and releases `w`, whether it fails or not. -/
def thenRelease (w : Word) (action : Action α) : Action α := fun h =>
  let (r, h) := action h
  (r, h.release w)

end Action

end ValueHeap
