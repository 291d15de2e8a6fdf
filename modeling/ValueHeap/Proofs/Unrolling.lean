import ValueHeap.Proofs.Bisimilarity
import ValueHeap.Proofs.Outline
import ValueHeap.Proofs.Sharing

/-!
# Hashing by unrolling

A hash is that of the unrolled value: `unrolled` lists what a value writes down to a number of levels, by
recursion alone, with no digest remembered and every word spelled out. The walk that remembers digests
writes the same.

Results:
* `hashWord_eq_unrolled`: a walk that starts from right digests writes the unrolled value, and all digests
  that it remembers are right; `hash_eq_unrolled` is the case of a whole hash.
* `unrolled_eq_writes`: what is written is a function of the outline. `hash_by_unrolling` puts the two
  together: the walk computes the plain unrolling, and nothing below its levels can change a hash.
* `hash_eq_of_bisimilar`: values that a bisimulation relates hash alike, on cyclic heaps too.
* `hash_eq_of_same`: on a heap without cycles, values found equal hash alike unless the left side enfolds
  the right one, which is the case exactly when they are not found equal the other way round.
-/

namespace ValueHeap

open Hasher (Write digest)

/-- What a block writes, if its fields write `inner`: the tag of its kind; then the length and the bytes, the
masked character, the place where it lies, or the digest of the ids, the number of fields and the fields. -/
def Block.writes (inner : Word → List Write) (seed : UInt32) (address : Pattern) : Block → List Write
  | .text data => [.word32 1, .word32 (.ofNat data.length), .bytes data]
  | .char packed => [.word32 2, .word32 (Utf8.mask packed)]
  | .composite (.variant module type index) fields =>
    [.word32 3, .word32 (digest seed ([.word32 module, .word32 type, .word32 index,
      .word32 (.ofNat fields.length)] ++ fields.flatMap inner))]
  | .composite (.record module type) fields =>
    [.word32 4, .word32 (digest seed ([.word32 module, .word32 type, .word32 (.ofNat fields.length)] ++
      fields.flatMap inner))]
  | .composite .array fields =>
    [.word32 5, .word32 (digest seed ([.word32 (.ofNat fields.length)] ++ fields.flatMap inner))]
  | .number .. => [.word32 6, .word64 (.ofBitVec address)]
  | .composite (.closure ..) _ => [.word32 7, .word64 (.ofBitVec address)]
  | .composite .tuple fields =>
    [.word32 8, .word32 (digest seed ([.word32 (.ofNat fields.length)] ++ fields.flatMap inner))]
  | .bytes data => [.word32 9, .word32 (.ofNat data.length), .bytes data]

namespace Heap

/-- What a value writes, unrolled to the given number of levels. -/
def unrolled (h : Heap) (seed : UInt32) : (levels : Nat) → Word → List Write
  | 0, _ => []
  | levels + 1, w =>
    match h.number? w, w with
    | some x, _ => x.key.writes
    | none, .immediate p => [.word64 (.ofBitVec p)]
    | none, .reference b =>
      match h.cell? b with
      | none => []
      | some c => c.block.writes (unrolled h seed levels) seed (h.address b)

end Heap

/-! ## Composites -/

/-- A composite with fields to hash writes its kind and its digest. -/
theorem Block.writes_composite {shape : Shape} (hcode : shape.isStructural = true) (fields : List Word)
    (inner : Word → List Write) (seed : UInt32) (address : Pattern) :
    (Block.composite shape fields).writes inner seed address =
      [.word32 shape.kind.tag, .word32 (digest seed
        (shape.ids.map .word32 ++ .word32 (.ofNat fields.length) :: fields.flatMap inner))] := by
  cases shape with
  | closure _ _ => cases hcode
  | _ => rfl

/-- A digest starts with the ids and the number of fields. -/
theorem Hasher.digestStart_eq_foldl (seed : UInt32) (shape : Shape) (count : Nat) :
    digestStart seed shape count =
      (shape.ids.map Write.word32 ++ [Write.word32 (.ofNat count)]).foldl write (start seed) := by
  cases shape with
  | _ => rfl

theorem Hasher.writeKey_eq_foldl (s : Hasher) (key : NumberKey) :
    s.writeKey key = key.writes.foldl write s := by
  cases key with
  | _ => rfl

namespace Heap

/-- Every digest on the memo is that of the block it is kept for. -/
def IsRight (h : Heap) (seed : UInt32) (memo : Memo) : Prop :=
  ∀ b levels d, memo[(b, levels)]? = some d → ∃ shape fields,
    h.block? (.reference b) = some (.composite shape fields) ∧
      d = digest seed (shape.ids.map .word32 ++ .word32 (.ofNat fields.length) ::
        fields.flatMap (h.unrolled seed levels))

variable {h : Heap} {seed : UInt32} {x y : Word}

theorem isRight_empty : h.IsRight seed ∅ := by
  intro b levels d hd
  rw [Std.HashMap.getElem?_empty] at hd
  cases hd

/-- Remembering the digest of a composite. -/
theorem IsRight.insert {memo : Memo} (hm : h.IsRight seed memo) {b : BlockId} {shape : Shape}
    {fields : List Word} (hb : h.block? (.reference b) = some (.composite shape fields)) {levels : Nat}
    {d : UInt32} (hd : d = digest seed (shape.ids.map .word32 ++ .word32 (.ofNat fields.length) ::
      fields.flatMap (h.unrolled seed levels))) : h.IsRight seed (memo.insert (b, levels) d) := by
  intro b' levels' d' hd'
  rw [Std.HashMap.getElem?_insert] at hd'
  split at hd'
  · next heq =>
    cases eq_of_beq heq
    cases hd'
    exact ⟨shape, fields, hb, hd⟩
  · exact hm b' levels' d' hd'

/-! ## One level -/

/-- A block that is not a number writes its kind and what it holds. -/
theorem unrolled_of_block {b : BlockId} {block : Block} (hb : h.block? (.reference b) = some block)
    (hkind : block.kind ≠ .number) (levels : Nat) : h.unrolled seed (levels + 1) (.reference b) =
      block.writes (h.unrolled seed levels) seed (h.address b) := by
  have hn := number?_of_block? hb hkind
  obtain ⟨c, hc, rfl⟩ := Option.map_eq_some_iff.mp hb
  conv_lhs => unfold unrolled
  simp only [hn, hc]

/-- The walk over a composite, by what is remembered of it. -/
theorem hashWord_of_composite {b : BlockId} {shape : Shape} {fields : List Word}
    (hb : h.block? (.reference b) = some (.composite shape fields))
    (hcode : shape.isStructural = true) (levels : Nat) (s : Hasher) (memo : Memo) :
    h.hashWord seed (levels + 1) (.reference b) (s, memo) =
      match memo[(b, levels)]? with
      | some d => ((s.write32 shape.kind.tag).write32 d, memo)
      | none =>
        let inner := fields.foldl (fun s x => h.hashWord seed levels x s)
          (Hasher.digestStart seed shape fields.length, memo)
        ((s.write32 shape.kind.tag).write32 inner.1.finish,
          inner.2.insert (b, levels) inner.1.finish) := by
  have hn := number?_of_block? hb (Block.kind_composite_ne shape fields)
  obtain ⟨c, hc, hcb⟩ := Option.map_eq_some_iff.mp hb
  conv_lhs => unfold hashWord
  simp only [hn, hc, hcb]
  cases shape with
  | closure _ _ => cases hcode
  | _ => rfl

/-- Everything else is written without a look at the memo. -/
theorem hashWord_of_flat (hx : ∀ shape fields, h.block? x = some (.composite shape fields) →
      shape.isStructural = false) (levels : Nat) (s : Hasher) (memo : Memo) :
    h.hashWord seed (levels + 1) x (s, memo) =
      ((h.unrolled seed (levels + 1) x).foldl Hasher.write s, memo) := by
  unfold hashWord unrolled
  cases hn : h.number? x with
  | some a => exact congrArg (·, memo) (s.writeKey_eq_foldl a.key)
  | none =>
    cases x with
    | immediate p => rfl
    | reference b =>
      simp only
      cases hc : h.cell? b with
      | none => rfl
      | some c =>
        have hb : h.block? (.reference b) = some c.block := by
          rw [block?, hc]
          rfl
        cases hblock : c.block with
        | composite shape fields =>
          rw [hblock] at hb
          have hcode := hx shape fields hb
          cases shape with
          | closure _ _ =>
            simp only [hblock]
            rfl
          | _ => cases hcode
        | _ =>
          simp only [hblock]
          rfl

/-! ## The walk -/

/-- A walk over fields writes them unrolled, if the walk over each of them does. -/
theorem foldl_hashWord {levels : Nat}
    (step : ∀ (w : Word) (s : Hasher) (memo : Memo), h.IsRight seed memo →
      (h.hashWord seed levels w (s, memo)).1 = (h.unrolled seed levels w).foldl Hasher.write s ∧
        h.IsRight seed (h.hashWord seed levels w (s, memo)).2)
    (fields : List Word) (s : Hasher) (memo : Memo) (hm : h.IsRight seed memo) :
    (fields.foldl (fun s x => h.hashWord seed levels x s) (s, memo)).1 =
        (fields.flatMap (h.unrolled seed levels)).foldl Hasher.write s ∧
      h.IsRight seed (fields.foldl (fun s x => h.hashWord seed levels x s) (s, memo)).2 := by
  induction fields generalizing s memo with
  | nil => exact ⟨rfl, hm⟩
  | cons x xs ih =>
    obtain ⟨hwrite, hright⟩ := step x s memo hm
    obtain ⟨hwrites, hrights⟩ := ih _ _ hright
    rw [Prod.mk.eta] at hwrites hrights
    rw [hwrite] at hwrites
    rw [List.flatMap_cons, List.foldl_append]
    exact ⟨hwrites, hrights⟩

/-- **The walk writes the unrolled value** and keeps its digests right. -/
theorem hashWord_eq_unrolled (levels : Nat) (w : Word) (s : Hasher) (memo : Memo)
    (hm : h.IsRight seed memo) :
    (h.hashWord seed levels w (s, memo)).1 = (h.unrolled seed levels w).foldl Hasher.write s ∧
      h.IsRight seed (h.hashWord seed levels w (s, memo)).2 := by
  induction levels generalizing w s memo with
  | zero => exact ⟨rfl, hm⟩
  | succ levels ih =>
    by_cases hcomposite : ∃ shape fields, h.block? w = some (.composite shape fields) ∧
        shape.isStructural = true
    · obtain ⟨shape, fields, hw, hcode⟩ := hcomposite
      obtain ⟨b, c, rfl, -, -⟩ := exists_reference hw
      rw [hashWord_of_composite hw hcode, unrolled_of_block hw (Block.kind_composite_ne shape fields),
        Block.writes_composite hcode]
      cases hd : memo[(b, levels)]? with
      | some d =>
        obtain ⟨shape', fields', hw', rfl⟩ := hm b levels d hd
        cases hw.symm.trans hw'
        exact ⟨rfl, hm⟩
      | none =>
        obtain ⟨hinner, hright⟩ := foldl_hashWord ih fields
          (Hasher.digestStart seed shape fields.length) memo hm
        have hdigest : (fields.foldl (fun s x => h.hashWord seed levels x s)
            (Hasher.digestStart seed shape fields.length, memo)).1.finish =
              digest seed (shape.ids.map .word32 ++ .word32 (.ofNat fields.length) ::
                fields.flatMap (h.unrolled seed levels)) := by
          rw [hinner, Hasher.digestStart_eq_foldl, ← List.foldl_append, List.append_assoc,
            List.singleton_append, digest]
        simp only
        rw [hdigest]
        exact ⟨rfl, hright.insert hw rfl⟩
    · have hflat : ∀ shape fields, h.block? w = some (.composite shape fields) →
          shape.isStructural = false := fun shape fields hw =>
        Bool.eq_false_iff.mpr fun hcode => hcomposite ⟨shape, fields, hw, hcode⟩
      rw [hashWord_of_flat hflat]
      exact ⟨rfl, hm⟩

theorem hash_eq_unrolled (h : Heap) (seed : UInt32) (levels : Nat) (w : Word) :
    h.hash seed levels w = digest seed (h.unrolled seed levels w) := by
  rw [hash, (hashWord_eq_unrolled levels w (.start seed) ∅ isRight_empty).1]
  rfl

/-! ## Outlines -/

/-- A block writes what its outline does, if the fields do. -/
theorem writes_ofBlock {inner : Word → List Write} {cut : Word → Outline}
    (hinner : ∀ x, inner x = (cut x).writes seed) (address : Pattern) (block : Block) :
    block.writes inner seed address = (Outline.ofBlock cut address block).writes seed := by
  cases block with
  | composite shape fields =>
    have hfields : fields.flatMap inner = Outline.writesAll seed (fields.map cut) := by
      rw [Outline.writesAll_eq_flatMap, List.flatMap_map, funext hinner]
    cases hcode : shape.isStructural with
    | true =>
      rw [Block.writes_composite hcode, hfields]
      cases shape with
      | closure _ _ => cases hcode
      | _ => simp only [Outline.ofBlock, Outline.writes, List.length_map]
    | false =>
      cases shape with
      | closure _ _ => rfl
      | _ => cases hcode
  | _ => rfl

/-- **What is written is a function of the outline.** -/
theorem unrolled_eq_writes (levels : Nat) (w : Word) :
    h.unrolled seed levels w = (h.outline levels w).writes seed := by
  induction levels generalizing w with
  | zero => rfl
  | succ levels ih =>
    unfold unrolled outline
    cases h.number? w with
    | some a => rfl
    | none =>
      cases w with
      | immediate p => rfl
      | reference b =>
        simp only
        cases h.cell? b with
        | none => rfl
        | some c => exact writes_ofBlock ih (h.address b) c.block

theorem hash_eq_outline (h : Heap) (seed : UInt32) (levels : Nat) (w : Word) :
    h.hash seed levels w = digest seed ((h.outline levels w).writes seed) := by
  rw [hash_eq_unrolled, unrolled_eq_writes]

/-- **A hash is that of the plain unrolling.** So values whose outlines coincide, on one heap or on two,
hash alike, whatever lies deeper. -/
theorem hash_by_unrolling (h : Heap) (seed : UInt32) (levels : Nat) (w : Word) :
    h.hash seed levels w = ((h.unrolled seed levels w).foldl Hasher.write (.start seed)).finish ∧
      ∀ (h' : Heap) (w' : Word), h.outline levels w = h'.outline levels w' →
        h.hash seed levels w = h'.hash seed levels w' := by
  refine ⟨hash_eq_unrolled h seed levels w, fun h' w' houtline => ?_⟩
  rw [hash_eq_outline, hash_eq_outline, houtline]

/-- The 8 in the last ring lies at the third level. -/
theorem hash_by_unrolling_rings :
    rings.outline 2 (.reference 1) = rings.outline 2 (.reference 7) ∧
      (∀ seed, rings.hash seed 2 (.reference 1) = rings.hash seed 2 (.reference 7)) ∧
      rings.hash 0x9747b28c 3 (.reference 1) ≠ rings.hash 0x9747b28c 3 (.reference 7) := by
  have houtline : rings.outline 2 (.reference 1) = rings.outline 2 (.reference 7) := rfl
  refine ⟨houtline, fun seed => (hash_by_unrolling rings seed 2 _).2 rings _ houtline, ?_⟩
  rw [hash_eq_unrolled, hash_eq_unrolled]
  decide

/-! ## Bisimilar values -/

/-- **Bisimilar values hash alike**, with any seed and to any number of levels. -/
theorem IsBisimulation.hash_eq {R : Word → Word → Prop} (hR : h.IsBisimulation R) (seed : UInt32)
    (levels : Nat) (hxy : R x y) : h.hash seed levels x = h.hash seed levels y := by
  rw [hash_eq_outline, hash_eq_outline, hR.outline_eq levels hxy]

/-- **Hashing depends on structure only**: bisimilar values hash alike on every heap, with any seed and
to any number of levels. -/
theorem hash_eq_of_bisimilar (h : Heap) (x y : Word) (hxy : h.Bisimilar x y) (seed : UInt32)
    (levels : Nat) : h.hash seed levels x = h.hash seed levels y := by
  obtain ⟨R, hR, hxy⟩ := hxy
  exact hR.hash_eq seed levels hxy

theorem hash_eq_of_bisimilar_rings : rings.Bisimilar (.reference 1) (.reference 4) ∧
    ∀ seed levels, rings.hash seed levels (.reference 1) = rings.hash seed levels (.reference 4) :=
  ⟨bisimilar_rings, hash_eq_of_bisimilar rings _ _ bisimilar_rings⟩

/-! ## Values found equal -/

/-- **Values found equal hash alike** on a heap without cycles, unless the left one enfolds the right
one. That is the case exactly where they are not found equal in the other order. -/
theorem hash_eq_of_same (h : Heap) (x y : Word) (hacyclic : h.Acyclic) (hsame : h.same x y = true) :
    (h.Enfolds x y ↔ h.same y x = false) ∧
      (¬ h.Enfolds x y → ∀ seed levels, h.hash seed levels x = h.hash seed levels y) := by
  refine ⟨enfolds_iff_same_swapped hacyclic hsame, fun henfold seed levels => ?_⟩
  have halike : h.Alike x y := alike_of_same (hacyclic.acyclicFrom x) henfold hsame
  exact (isBisimulation_alike h).hash_eq seed levels halike

theorem same_twins : twins.same (.reference 2) (.reference 6) = true := by
  have hpair : twins.shallow (.reference 2) (.reference 6) =
      .descend 2 6 [(.reference 1, .reference 4), (.reference 1, .reference 5)] := rfl
  have hleft : twins.shallow (.reference 1) (.reference 4) =
      .descend 1 4 [(.reference 0, .reference 3)] := rfl
  have hright : twins.shallow (.reference 1) (.reference 5) =
      .descend 1 5 [(.reference 0, .reference 0)] := rfl
  have htext : twins.shallow (.reference 0) (.reference 3) = .agree := rfl
  have hshared : twins.shallow (.reference 0) (.reference 0) = .agree := rfl
  rw [same_eq_sameUnder, sameUnder_of_descend hpair]
  simp only [List.all_cons, List.all_nil, sameUnder_of_descend hleft, sameUnder_of_descend hright,
    sameUnder_of_agree htext, sameUnder_of_agree hshared, Bool.and_true, Bool.or_true]

theorem hash_eq_of_same_twins : twins.Acyclic ∧ twins.same (.reference 2) (.reference 6) = true ∧
    ¬ twins.Enfolds (.reference 2) (.reference 6) ∧ ∀ seed levels,
      twins.hash seed levels (.reference 2) = twins.hash seed levels (.reference 6) :=
  ⟨acyclic_twins, same_twins, not_enfolds_of_apart apart_twins,
    (hash_eq_of_same twins _ _ acyclic_twins same_twins).2 (not_enfolds_of_apart apart_twins)⟩

/-- The outer of three boxes is found equal to the middle one and does not hash like it. -/
theorem boxes_hash_apart : boxes.Acyclic ∧ boxes.same (.reference 2) (.reference 1) = true ∧
    boxes.hash 0x9747b28c 31 (.reference 2) ≠ boxes.hash 0x9747b28c 31 (.reference 1) := by
  refine ⟨acyclic_boxes, same_boxes, ?_⟩
  rw [hash_eq_unrolled, hash_eq_unrolled, boxes_eq]
  decide

end Heap

end ValueHeap
