import Std.Data.HashMap
import ValueHeap.Hash.Mixer
import ValueHeap.Number.Boxed

/-!
# Structural hashing

The hash of a value is that of its unrolling to a number of levels; what lies deeper does not count,
and so values that are equal through a cycle hash alike. Numbers contribute their key, so the same
number in two representations contributes the same. A composite contributes a digest of its shape, its
size and its fields one level down.

A digest depends on the block and on the levels that are left. `Memo` keeps the digests that were
computed, so that a shared or cyclic graph is walked at most once a level.
-/

namespace ValueHeap

/-- Digests of composites by block and by the levels left for their fields. -/
abbrev Memo := Std.HashMap (BlockId × Nat) UInt32

namespace Hasher

/-- Writes a number's key. -/
def writeKey (s : Hasher) : NumberKey → Hasher
  | .integer n => (s.write32 1).write64 n.toUInt64
  | .float bits => (s.write32 2).write64 bits
  | .rational num den => ((s.write32 3).write64 num.toUInt64).write64 den.toUInt64

def writePattern (s : Hasher) (p : Pattern) : Hasher := s.write64 (.ofBitVec p)

/-- Writes what identifies a shape beside its kind. -/
def writeShape (s : Hasher) : Shape → Hasher
  | .tuple | .array | .closure .. => s
  | .record module type => (s.write32 module).write32 type
  | .variant module type index => ((s.write32 module).write32 type).write32 index

/-- The start of a composite's digest: its shape and the number of its fields. -/
def digestStart (seed : UInt32) (shape : Shape) (count : Nat) : Hasher :=
  ((start seed).writeShape shape).write32 (.ofNat count)

end Hasher

namespace Heap

/-- Writes a value, unrolled to the given number of levels. Code, and numbers without a meaning, have
no structure and contribute the place where they lie. -/
def hashWord (h : Heap) (seed : UInt32) : (levels : Nat) → Word → Hasher × Memo → Hasher × Memo
  | 0, _, s => s
  | levels + 1, w, (s, memo) =>
    match h.number? w, w with
    | some x, _ => (s.writeKey x.key, memo)
    | none, .immediate p => (s.writePattern p, memo)
    | none, .reference b =>
      match h.cell? b with
      | none => (s, memo)
      | some c =>
        let s := s.write32 c.block.kind.tag
        match c.block with
        | .text bs | .bytes bs => ((s.write32 (.ofNat bs.length)).writeBytes bs, memo)
        | .char packed => (s.write32 (Utf8.mask packed), memo)
        | .number .. | .composite (.closure ..) _ => (s.writePattern (h.address b), memo)
        | .composite shape fields =>
          match memo[(b, levels)]? with
          | some digest => (s.write32 digest, memo)
          | none =>
            let (inner, memo) := fields.foldl (fun s x => hashWord h seed levels x s)
              (Hasher.digestStart seed shape fields.length, memo)
            let digest := inner.finish
            (s.write32 digest, memo.insert (b, levels) digest)

/-- The hash of a value, unrolled to the given number of levels. -/
def hash (h : Heap) (seed : UInt32) (levels : Nat) (w : Word) : UInt32 :=
  (h.hashWord seed levels w (.start seed, ∅)).1.finish

end Heap

namespace Action

/-- The hash of a value as an integer. -/
def newHash (seed : UInt32) (levels : Nat) (w : Word) : Action Word := do
  newInteger (.ofNat (← read fun h => .ok (h.hash seed levels w)).toNat)

end Action

end ValueHeap
