import ValueHeap.Hash.Walk
import ValueHeap.Proofs.Murmur3
import ValueHeap.Proofs.Structure

/-!
# Outlines

What a hash can see of a value, as a finite tree: the value cut off below a number of levels, with
numbers given by their keys and characters by their masked form. Code, and numbers without a meaning, are
given by the places where they lie; of other blocks no place is kept.

* `Heap.outline` cuts a value off; `Outline.writes` lists what an outline writes to a hash.

Results:
* `outline_of_agrees`: values that agree have the same outline.
* `IsBisimulation.outline_eq`: values that a bisimulation relates have the same outlines, to any number
  of levels and on cyclic heaps too.
-/

namespace ValueHeap

/-- A value without what lies below a number of levels. -/
inductive Outline where
  /-- Below the last level, or a reference to no block. -/
  | nothing
  | number (key : NumberKey)
  | immediate (bits : Pattern)
  /-- A text or a buffer. -/
  | bytes (kind : Kind) (data : List UInt8)
  /-- A character, as masked packed UTF-8. -/
  | char (masked : UInt32)
  /-- A block that is known by its place only. -/
  | place (kind : Kind) (address : Pattern)
  | composite (shape : Shape) (fields : List Outline)

/-- The hash of what is written, one call after the other. -/
def Hasher.digest (seed : UInt32) (ws : List Hasher.Write) : UInt32 :=
  (ws.foldl Hasher.write (.start seed)).finish

/-- What a number writes: the kind of its key, and the key. -/
def NumberKey.writes : NumberKey → List Hasher.Write
  | .integer n => [.word32 1, .word64 n.toUInt64]
  | .float bits => [.word32 2, .word64 bits]
  | .rational num den => [.word32 3, .word64 num.toUInt64, .word64 den.toUInt64]

/-- The numbers that identify a shape beside its kind. -/
def Shape.ids : Shape → List UInt32
  | .tuple | .array | .closure .. => []
  | .record module type => [module, type]
  | .variant module type index => [module, type, index]

namespace Outline

open Hasher (Write)

mutual

/-- What an outline writes. A composite contributes a digest of its own: of its ids, of the number of its
fields and of the fields. -/
def writes (seed : UInt32) : Outline → List Write
  | nothing => []
  | number key => key.writes
  | immediate bits => [.word64 (.ofBitVec bits)]
  | bytes kind data => [.word32 kind.tag, .word32 (.ofNat data.length), .bytes data]
  | char masked => [.word32 Kind.char.tag, .word32 masked]
  | place kind address => [.word32 kind.tag, .word64 (.ofBitVec address)]
  | composite shape fields => [.word32 shape.kind.tag, .word32 (Hasher.digest seed
      (shape.ids.map .word32 ++ .word32 (.ofNat fields.length) :: writesAll seed fields))]

/-- What outlines write one after the other. -/
def writesAll (seed : UInt32) : List Outline → List Write
  | [] => []
  | o :: os => writes seed o ++ writesAll seed os

end

theorem writesAll_eq_flatMap (seed : UInt32) (os : List Outline) :
    writesAll seed os = os.flatMap (writes seed) := by
  induction os with
  | nil => rfl
  | cons o os ih => rw [writesAll, ih, List.flatMap_cons]

/-- The outline of a block, with the fields of composites outlined by `inner`. -/
def ofBlock (inner : Word → Outline) (address : Pattern) : Block → Outline
  | .text data => bytes .text data
  | .bytes data => bytes .bytes data
  | .char packed => char (Utf8.mask packed)
  | .number .. => place .number address
  | .composite (.closure ..) _ => place .closure address
  | .composite shape fields => composite shape (fields.map inner)

end Outline

namespace Heap

/-- The value down to the given number of levels. -/
def outline (h : Heap) : (levels : Nat) → Word → Outline
  | 0, _ => .nothing
  | levels + 1, w =>
    match h.number? w, w with
    | some x, _ => .number x.key
    | none, .immediate p => .immediate p
    | none, .reference b =>
      match h.cell? b with
      | none => .nothing
      | some c => .ofBlock (outline h levels) (h.address b) c.block

variable {h : Heap} {x y : Word}

/-! ## One level -/

theorem number?_of_block? {block : Block} (hx : h.block? x = some block)
    (hkind : block.kind ≠ .number) : h.number? x = none := by
  obtain ⟨a, c, rfl, -, -⟩ := exists_reference hx
  unfold number?
  rw [hx]
  cases block with
  | number subtype payload extra => exact absurd rfl hkind
  | _ => rfl

theorem outline_of_number {a : Number} (hx : h.number? x = some a) (levels : Nat) :
    h.outline (levels + 1) x = .number a.key := by
  unfold outline
  simp only [hx]

theorem outline_of_block {b : BlockId} {block : Block} (hb : h.block? (.reference b) = some block)
    (hkind : block.kind ≠ .number) (levels : Nat) :
    h.outline (levels + 1) (.reference b) = .ofBlock (h.outline levels) (h.address b) block := by
  have hn := number?_of_block? hb hkind
  obtain ⟨c, hc, rfl⟩ := Option.map_eq_some_iff.mp hb
  conv_lhs => unfold outline
  simp only [hn, hc]

theorem outline_of_composite {shape : Shape} {fields : List Word}
    (hx : h.block? x = some (.composite shape fields)) (hcode : shape.isStructural = true)
    (levels : Nat) :
    h.outline (levels + 1) x = .composite shape (fields.map (h.outline levels)) := by
  obtain ⟨b, -, rfl, -, -⟩ := exists_reference hx
  rw [outline_of_block hx (Block.kind_composite_ne shape fields)]
  cases shape with
  | closure _ _ => cases hcode
  | _ => rfl

/-- Blocks of which the outline is the same in any place. -/
theorem outline_of_blocks {s t : Block} (hx : h.block? x = some s) (hy : h.block? y = some t)
    (hs : s.kind ≠ .number) (ht : t.kind ≠ .number) (levels : Nat)
    (heq : ∀ p q, Outline.ofBlock (h.outline levels) p s = .ofBlock (h.outline levels) q t) :
    h.outline (levels + 1) x = h.outline (levels + 1) y := by
  obtain ⟨a, -, rfl, -, -⟩ := exists_reference hx
  obtain ⟨b, -, rfl, -, -⟩ := exists_reference hy
  rw [outline_of_block hx hs, outline_of_block hy ht]
  exact heq _ _

/-- **Values that agree have the same outline.** -/
theorem outline_of_agrees (hxy : (h.surface x).Agrees (h.surface y)) (levels : Nat) :
    h.outline (levels + 1) x = h.outline (levels + 1) y := by
  cases hxy with
  | identical heq => exact congrArg (h.outline (levels + 1)) heq
  | number ha hb heq =>
    rw [number?_surface] at ha hb
    rw [outline_of_number ha, outline_of_number hb, Number.key_eq_of_same heq]
  | text hx hy =>
    exact outline_of_blocks hx hy (by simp [Block.kind]) (by simp [Block.kind]) levels fun _ _ => rfl
  | bytes hx hy =>
    exact outline_of_blocks hx hy (by simp [Block.kind]) (by simp [Block.kind]) levels fun _ _ => rfl
  | char hx hy heq =>
    exact outline_of_blocks hx hy (by simp [Block.kind]) (by simp [Block.kind]) levels fun _ _ =>
      congrArg Outline.char heq

/-! ## Bisimilar values -/

/-- **Bisimilar values have the same outlines**, to any number of levels. -/
theorem IsBisimulation.outline_eq {R : Word → Word → Prop} (hR : h.IsBisimulation R) (levels : Nat)
    (hxy : R x y) : h.outline levels x = h.outline levels y := by
  induction levels generalizing x y with
  | zero => rfl
  | succ levels ih =>
    rcases hR.cases x y hxy with hagree | ⟨hpairs, hparts⟩
    · exact outline_of_agrees hagree levels
    · obtain ⟨shape, hx, hy, hcode, hlen⟩ := exists_shape_of_pairs hpairs
      have hfields : (h.parts x).map (h.outline levels) = (h.parts y).map (h.outline levels) := by
        refine List.ext_getElem (by simp [hlen]) fun i hi hj => ?_
        rw [List.getElem_map, List.getElem_map]
        exact ih (hparts i _ _ (List.getElem?_eq_getElem _) (List.getElem?_eq_getElem _))
      rw [outline_of_composite hx hcode, outline_of_composite hy hcode, hfields]

end Heap

end ValueHeap
