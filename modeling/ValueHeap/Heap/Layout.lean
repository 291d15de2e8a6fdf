import ValueHeap.Heap.Action

/-!
# Block layout

The header words of a block as they lie in memory, and raw writes to them. Raw writes keep no rule: they
can make a character that is not UTF-8 or a number without a meaning.
-/

namespace ValueHeap

namespace Block

/-- The 32-bit words before the payload. -/
def header : Block → List UInt32
  | text bs => [Kind.text.tag, .ofNat bs.length]
  | bytes bs => [Kind.bytes.tag, .ofNat bs.length]
  | char packed => [Kind.char.tag, packed]
  | number subtype _ _ => [Kind.number.tag, subtype]
  | composite .tuple fields => [Kind.tuple.tag, .ofNat fields.length]
  | composite .array fields => [Kind.array.tag, .ofNat fields.length]
  | composite (.record module type) fields =>
    [Kind.record.tag, module, type, .ofNat fields.length]
  | composite (.variant module type index) fields =>
    [Kind.variant.tag, module, type, index, .ofNat fields.length, 0]
  | composite (.closure arity code) fields => [Kind.closure.tag, arity, code, .ofNat fields.length]

/-- The payload of a boxed number; fractions have two words. -/
def payload : Block → List (BitVec 64)
  | number subtype first second =>
    if subtype = NumberTag.rational.tag then [first, second] else [first]
  | _ => []

/-- The block with the header word at `offset` replaced. Tags and lengths stay. -/
def patch (offset : Nat) (v : UInt32) : Block → Block
  | char packed => char (if offset = 4 then v else packed)
  | number subtype first second => number (if offset = 4 then v else subtype) first second
  | composite (.record module type) fields =>
    composite (.record (if offset = 4 then v else module) (if offset = 8 then v else type)) fields
  | composite (.variant module type index) fields =>
    composite (.variant (if offset = 4 then v else module) (if offset = 8 then v else type)
      (if offset = 12 then v else index)) fields
  | block => block

/-- The block with one byte of a text replaced. -/
def patchByte (index : Nat) (v : UInt8) : Block → Block
  | text bs => text (bs.set index v)
  | block => block

end Block

namespace Action

/-- Replaces contents without a change of owners. -/
def patchBlock (w : Word) (f : Block → Block) : Action Unit :=
  match w with
  | .immediate _ => pure ()
  | .reference b => update (·.modifyBlock b f)

/-- A block of zeros that takes `extent` bytes. -/
def newBlank (kind : Kind) (extent : Nat) : Action Word := fun h =>
  let (w, h) := h.allocateSized extent (Block.blank kind)
  (.ok w, h)

end Action

end ValueHeap
