import ValueHeap.Error

/-!
# The heap

Reference-counted blocks. A heap maps block names to cells; a cell holds a block together with its
count and its size. Names are given out in order and never again, so a name that has been freed stays
free. Where a block lies in memory is not for the heap to decide: it is told for every name.

* `allocate` makes a block with count 1, which the caller owns;
* `acquire` adds one owner, `release` takes one away;
* a block without owners is freed, and with it goes one owner of each block in its fields. `releaseAll`
  works such owners off a list, so that long chains need no recursion.

The heap keeps running totals of its live blocks, of their bytes and of all allocations ever made. It
also counts its `faults`: the times that an owner was to be added to, or taken from, a block that has
none; and its `overdrafts`: the times that more was to be taken off a total than it held.
`cell?` is the view through which the other modules see a heap.
-/

namespace ValueHeap

/-- The contents of a heap block. -/
inductive Block where
  /-- A text: bytes that should be UTF-8, but may be anything. -/
  | text (bytes : List UInt8)
  /-- A byte buffer. -/
  | bytes (data : List UInt8)
  /-- A character as packed UTF-8. -/
  | char (packed : UInt32)
  /-- A boxed number: its subtype tag and two payload words, the second used by fractions only. -/
  | number (subtype : UInt32) (payload extra : BitVec 64)
  /-- Words under a shape. -/
  | composite (shape : Shape) (fields : List Word)
  deriving Repr, DecidableEq

namespace Block

def kind : Block → Kind
  | text _ => .text
  | bytes _ => .bytes
  | char _ => .char
  | number .. => .number
  | composite shape _ => shape.kind

/-- The words that the block holds, each of them owned by it. -/
def fields : Block → List Word
  | composite _ fs => fs
  | _ => []

/-- The bytes that the block takes, before they are rounded to whole words. -/
def extent : Block → Nat
  | text bs | bytes bs => 8 + bs.length
  | char _ => 8
  | number subtype _ _ => if subtype = NumberTag.rational.tag then 24 else 16
  | composite shape fs => shape.kind.fieldsOffset + 8 * fs.length

/-- The block of a kind that is all zeros after its tag. -/
def blank : Kind → Block
  | .text => text []
  | .bytes => bytes []
  | .char => char 0
  | .number => number 0 0 0
  | .tuple => composite .tuple []
  | .array => composite .array []
  | .record => composite (.record 0 0) []
  | .variant => composite (.variant 0 0 0) []
  | .closure => composite (.closure 0 0) []

end Block

/-- A live block with the number of its owners and its size in bytes. -/
structure Cell where
  count : Nat
  size : Nat
  block : Block
  deriving Repr, DecidableEq

structure Heap where
  /-- Where the block of each name lies. -/
  address : BlockId → Pattern
  /-- The cell of each name that was ever given out; none once the block is freed. -/
  cells : Array (Option Cell)
  liveBlocks : Nat
  liveBytes : Nat
  allocations : Nat
  /-- Changes of owners that met a block without owners. -/
  faults : Nat
  /-- Blocks that were freed when the totals held less than the block. -/
  overdrafts : Nat

namespace Heap

/-- The heap on which nothing was ever allocated, with places for the blocks to come. -/
def empty (address : BlockId → Pattern) : Heap := ⟨address, #[], 0, 0, 0, 0, 0⟩

/-- Places one after the other, from 8 on, and round again when there are no more. -/
def sequential (b : BlockId) : Pattern := BitVec.ofNat 64 (8 * (b % 0x1fffffffffffffff + 1))

/-- The empty heap with these places. -/
def vacant : Heap := empty sequential

/-- The bits of a word as they stand in a field. -/
def bits (h : Heap) : Word → Pattern
  | .immediate p => p
  | .reference b => h.address b

/-- The cell of a live block. -/
def cell? (h : Heap) (b : BlockId) : Option Cell := h.cells[b]?.join

/-- The live block that a word refers to. -/
def block? (h : Heap) : Word → Option Block
  | .immediate _ => none
  | .reference b => (h.cell? b).map Cell.block

/-- The number of owners of the block that a word refers to; 0 for immediates. -/
def count (h : Heap) : Word → Nat
  | .immediate _ => 0
  | .reference b => ((h.cell? b).map Cell.count).getD 0

/-- The type of a value. -/
def typeName (h : Heap) : Word → TypeName
  | .immediate p => .ofPattern p
  | .reference b => ((h.cell? b).map fun c => TypeName.block c.block.kind).getD .unknown

/-- The error of a value that should have been a block of the given kind. -/
def mismatch (h : Heap) (kind : Kind) (w : Word) : Error := .wrongType (.block kind) (h.typeName w)

/-- The number of live blocks, counted. -/
def population (h : Heap) : Nat := h.cells.countP Option.isSome

/-! ## Allocation -/

/-- Sizes are whole words, and at least one. -/
def blockSize (extent : Nat) : Nat := roundUp (max extent 8) 8

/-- A new block that takes `extent` bytes, owned by the caller. -/
def allocateSized (extent : Nat) (block : Block) (h : Heap) : Word × Heap :=
  let size := blockSize extent
  (.reference h.cells.size,
    { h with
      cells := h.cells.push (some ⟨1, size, block⟩)
      liveBlocks := h.liveBlocks + 1
      liveBytes := h.liveBytes + size
      allocations := h.allocations + 1 })

/-- A new block, owned by the caller. It becomes the owner of the words in its fields. -/
def allocate (block : Block) (h : Heap) : Word × Heap := h.allocateSized block.extent block

/-! ## Owners -/

/-- Applies `f` to the cell of `b`, if `b` is live. -/
def modifyCell (b : BlockId) (f : Cell → Cell) (h : Heap) : Heap :=
  { h with cells := h.cells.modify b (Option.map f) }

/-- Applies `f` to the contents of `b`, if `b` is live. -/
def modifyBlock (b : BlockId) (f : Block → Block) (h : Heap) : Heap :=
  h.modifyCell b fun c => { c with block := f c.block }

/-- Notes a change of owners that met a block without owners. -/
def fault (h : Heap) : Heap := { h with faults := h.faults + 1 }

/-- Adds an owner. Immediates have none. -/
def acquire (w : Word) (h : Heap) : Heap :=
  match w with
  | .immediate _ => h
  | .reference b =>
    if h.count w = 0 then h.fault else h.modifyCell b fun c => { c with count := c.count + 1 }

/-- Takes the block `b` with cell `c` off the heap. -/
def free (b : BlockId) (c : Cell) (h : Heap) : Heap :=
  { h with
    cells := h.cells.setIfInBounds b none
    liveBlocks := h.liveBlocks - 1
    liveBytes := h.liveBytes - c.size
    overdrafts := h.overdrafts + (if h.liveBlocks < 1 || h.liveBytes < c.size then 1 else 0) }

theorem population_free {h : Heap} {b : BlockId} {c : Cell} (hc : h.cell? b = some c) :
    (h.free b c).population < h.population := by
  have hb : h.cells[b]? = some (some c) := by
    simpa [cell?, Option.join_eq_some_iff] using hc
  obtain ⟨hlt, hget⟩ := Array.getElem?_eq_some_iff.mp hb
  have hpos : 0 < h.cells.countP Option.isSome :=
    Array.countP_pos_iff.mpr ⟨some c, by rw [← hget]; exact Array.getElem_mem hlt, rfl⟩
  simp only [population, free, Array.setIfInBounds, hlt, dite_true]
  rw [Array.countP_set hlt, hget]
  simp only [Option.isSome_some, Option.isSome_none, if_true, Bool.false_eq_true, if_false]
  omega

theorem population_modifyCell (h : Heap) (b : BlockId) (f : Cell → Cell) :
    (h.modifyCell b f).population = h.population := by
  have hmap : (h.cells.modify b (Option.map f)).map Option.isSome = h.cells.map Option.isSome := by
    apply Array.ext_getElem?
    intro i
    rw [Array.getElem?_map, Array.getElem?_map, Array.getElem?_modify]
    by_cases hi : b = i
    · cases h.cells[i]? <;> simp [hi]
    · simp [hi]
  have hcount (xs : Array (Option Cell)) :
      xs.countP Option.isSome = (xs.map Option.isSome).countP id := by
    rw [Array.countP_map]
    rfl
  rw [population, population, hcount, hcount h.cells, ← hmap]
  rfl

/-- Takes one owner away for each word on the list. A block that loses its last owner is freed, and
its fields go onto the list. -/
def releaseAll (pending : List Word) (h : Heap) : Heap :=
  match pending with
  | [] => h
  | .immediate _ :: rest => releaseAll rest h
  | .reference b :: rest =>
    match _hc : h.cell? b with
    | none => releaseAll rest h.fault
    | some c =>
      if c.count = 0 then releaseAll rest h.fault
      else if c.count = 1 then releaseAll (c.block.fields ++ rest) (h.free b c)
      else releaseAll rest (h.modifyCell b fun c => { c with count := c.count - 1 })
termination_by (h.population, pending.length)
decreasing_by
  · exact Prod.Lex.right _ (Nat.lt_succ_self _)
  · exact Prod.Lex.right _ (Nat.lt_succ_self _)
  · exact Prod.Lex.right _ (Nat.lt_succ_self _)
  · exact Prod.Lex.left _ _ (population_free _hc)
  · rw [population_modifyCell]
    exact Prod.Lex.right _ (Nat.lt_succ_self _)

/-- Takes one owner away. -/
def release (w : Word) (h : Heap) : Heap := h.releaseAll [w]

/-! ## The view -/

theorem cell?_allocateSized (h : Heap) (extent : Nat) (block : Block) (b : BlockId) :
    (h.allocateSized extent block).2.cell? b =
      if b = h.cells.size then some ⟨1, blockSize extent, block⟩ else h.cell? b := by
  unfold allocateSized cell?
  by_cases hb : b = h.cells.size
  · simp [hb]
  · simp [Array.getElem?_push, hb]

theorem cell?_modifyCell (h : Heap) (b : BlockId) (f : Cell → Cell) (i : BlockId) :
    (h.modifyCell b f).cell? i = if b = i then (h.cell? i).map f else h.cell? i := by
  unfold modifyCell cell?
  rw [Array.getElem?_modify]
  by_cases hi : b = i
  · rw [if_pos hi, if_pos hi]
    cases h.cells[i]? with
    | none => rfl
    | some c => rfl
  · rw [if_neg hi, if_neg hi]

theorem cell?_free (h : Heap) (b : BlockId) (c : Cell) (i : BlockId) :
    (h.free b c).cell? i = if b = i then none else h.cell? i := by
  unfold free cell?
  rw [Array.getElem?_setIfInBounds]
  by_cases hi : b = i
  · rw [if_pos hi, if_pos hi]
    by_cases hlt : b < h.cells.size <;> simp [hlt]
  · rw [if_neg hi, if_neg hi]

end Heap

end ValueHeap
