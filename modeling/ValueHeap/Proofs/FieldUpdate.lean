import ValueHeap.Proofs.Reclamation

/-!
# Writing a field

A write to a field stores the new value first and releases the old one then. The old value may be the last
reference to a graph that leads back to the composite, or to the new value; the new value may be the
composite itself, or hold it, or be what the field held before.

The release leaves a remnant of the heap after the store (`Balanced.remnant_release`), and a remnant that is
balanced has every block that an owner reaches along the fields of the heap before
(`Remnant.isSome_of_reaches`). So nothing has to be said about how the values overlap.

Result:
* `setField_updates_one_field`: a write to a field changes this one field, and keeps all blocks that can
  still be reached.
-/

namespace ValueHeap

namespace Heap

variable {base h : Heap} {owners : List Word} {kind : Kind} {shape : Shape} {fields : List Word}
  {b : BlockId} {w : Word}

/-! ## Remnants -/

/-- A release leaves a remnant. -/
theorem Balanced.remnant_release (hb : h.Balanced (w :: owners)) : h.Remnant (h.release w) :=
  (Releasing.underway_release hb).remnant

/-- A block that is left has its contents. -/
theorem Remnant.contents_of_live (hr : base.Remnant h) {a : BlockId} (ha : (h.cell? a).isSome) :
    (h.cell? a).map Cell.contents = (base.cell? a).map Cell.contents := by
  obtain ⟨c, hc⟩ := Option.isSome_iff_exists.mp ha
  obtain ⟨d, hd, hcd⟩ := hr.contents_eq a c hc
  rw [hc, hd, Option.map_some, Option.map_some, hcd]

theorem Remnant.block?_of_live (hr : base.Remnant h) {a : BlockId} (ha : (h.cell? a).isSome) :
    h.block? (.reference a) = base.block? (.reference a) := by
  have hcontents := congrArg (Option.map Prod.snd) (hr.contents_of_live ha)
  rw [Option.map_map, Option.map_map] at hcontents
  exact hcontents

/-- **What an owner reaches is left.** The way there is one of blocks that are left themselves. -/
theorem Remnant.isSome_of_reaches (hr : base.Remnant h) (hb : h.Balanced owners) {y : Word}
    (hy : y ∈ owners) {a : BlockId} (hreach : base.Reaches y a) : (h.cell? a).isSome := by
  obtain ⟨first, rfl, hpath⟩ := hreach
  induction hpath with
  | refl => exact hb.isLive_of_mem hy first rfl
  | @tail before next _ hlast ih =>
    have hheld : h.Holds before next := by
      unfold Holds
      rw [fieldsOf_congr (hr.contents_of_live ih)]
      exact hlast
    exact hb.isLive_of_field hheld next rfl

/-! ## Composites -/

theorem composite_eq_ok_iff :
    h.composite kind w = .ok (b, shape, fields) ↔
      w = .reference b ∧ h.block? w = some (.composite shape fields) ∧ shape.kind = kind := by
  constructor
  · intro hw
    obtain ⟨rfl, hblock⟩ := Action.composite_eq_ok hw
    refine ⟨rfl, hblock, ?_⟩
    by_contra hkind
    simp [composite, hblock, hkind] at hw
  · rintro ⟨rfl, hblock, hkind⟩
    simp [composite, hblock, hkind]

theorem block?_setField (hblock : h.block? (.reference b) = some (.composite shape fields)) (i : Nat)
    (w : Word) : (h.setField b i w).block? (.reference b) = some (.composite shape (fields.set i w)) := by
  obtain ⟨c, hc, hcb⟩ := Option.map_eq_some_iff.mp hblock
  rw [block?, Heap.setField, modifyBlock, cell?_modifyCell, if_pos rfl, hc, Option.map_some, hcb]
  rfl

theorem cell?_setField_of_ne {a : BlockId} (hne : a ≠ b) (i : Nat) (w : Word) :
    (h.setField b i w).cell? a = h.cell? a := by
  rw [Heap.setField, modifyBlock, cell?_modifyCell, if_neg (Ne.symm hne)]

end Heap

namespace Action

variable {h : Heap} {owners : List Word} {kind : Kind} {shape : Shape} {fields : List Word}
  {b : BlockId} {c w : Word}

/-- What reading a field answers with. -/
theorem getField_fst (hc : h.composite kind c = .ok (b, shape, fields)) (j : UInt64) :
    (getField kind c j h).1 =
      (fields[j.toNat]?).elim (.error (Heap.badField j fields)) Except.ok := by
  unfold getField
  rw [read_bind_of_ok hc]
  cases hj : fields[j.toNat]? with
  | none =>
    simp only [hj]
    rfl
  | some x =>
    simp only [hj]
    rfl

theorem setField_of_lt (hc : h.composite kind c = .ok (b, shape, fields)) {i : UInt64} {old : Word}
    (hold : fields[i.toNat]? = some old) (w : Word) :
    setField kind c i w h = (.ok (), (h.setField b i.toNat w).release old) := by
  unfold setField
  simp only [hc, bind, Except.bind, hold]
  rfl

theorem setField_of_le (hc : h.composite kind c = .ok (b, shape, fields)) {i : UInt64}
    (hi : fields.length ≤ i.toNat) (w : Word) :
    setField kind c i w h = (.error (Heap.badField i fields), h.release w) := by
  have hnone : fields[i.toNat]? = none := List.getElem?_eq_none hi
  unfold setField
  simp only [hc, bind, Except.bind, hnone]
  rfl

/-- Reading another field sees nothing of a write. -/
theorem getElem?_set_elim (fields : List Word) {i j : UInt64} (hne : j ≠ i) (w : Word) :
    ((fields.set i.toNat w)[j.toNat]?).elim (.error (Heap.badField j (fields.set i.toNat w)))
        Except.ok =
      (fields[j.toNat]?).elim (.error (Heap.badField j fields)) Except.ok := by
  have hne' : i.toNat ≠ j.toNat := fun heq => hne (UInt64.toNat_inj.mp heq.symm)
  rw [List.getElem?_set_ne hne', Heap.badField, Heap.badField, List.length_set]

/-- **A write to a field changes this field only.** On every heap with exact counts, and so after any
requests (`Session.sound_run`), let `c` be a composite that somebody owns and `w` a value that is handed
over, whatever the two have to do with each other. The write succeeds exactly when there is such a field.
Then every reference to the composite finds `w` in the field; its other fields, its shape and its length
are what they were, as are the contents of all other blocks that are left; and every block that an owner
still reaches once `w` is in its place is left. -/
theorem setField_updates_one_field (h : Heap) (owners : List Word) (kind : Kind) (c w : Word)
    (i : UInt64) (b : BlockId) (shape : Shape) (fields : List Word)
    (hb : h.Balanced (w :: owners)) (hc : c ∈ owners)
    (hcomposite : h.composite kind c = .ok (b, shape, fields)) :
    let after := setField kind c i w h
    (after.1 = .ok () ↔ i.toNat < fields.length) ∧
      (i.toNat < fields.length →
        (∀ x : Word, x.block? = c.block? → (getField kind x i after.2).1 = .ok w) ∧
        (∀ j, j ≠ i → (getField kind c j after.2).1 = (getField kind c j h).1) ∧
        after.2.shapeOf kind c = h.shapeOf kind c ∧
        after.2.fieldCount kind c = h.fieldCount kind c ∧
        (∀ a, a ≠ b → (after.2.cell? a).isSome →
          (after.2.cell? a).map Cell.contents = (h.cell? a).map Cell.contents) ∧
        (∀ y ∈ owners, ∀ a, (h.setField b i.toNat w).Reaches y a → (after.2.cell? a).isSome)) := by
  obtain ⟨rfl, hblock, hkind⟩ := Heap.composite_eq_ok_iff.mp hcomposite
  by_cases hi : i.toNat < fields.length
  · -- the heap after the store, and what the release of the old value leaves of it
    have hold : fields[i.toNat]? = some fields[i.toNat] := List.getElem?_eq_getElem hi
    have hstored := hb.setField hblock hold
    have hremnant := hstored.remnant_release
    have hbalanced := hstored.release
    rw [setField_of_lt hcomposite hold]
    generalize (h.setField b i.toNat w).release fields[i.toNat] = h' at hremnant hbalanced ⊢
    have hcomposite' : h'.composite kind (.reference b) = .ok (b, shape, fields.set i.toNat w) := by
      refine Heap.composite_eq_ok_iff.mpr ⟨rfl, ?_, hkind⟩
      rw [hremnant.block?_of_live (hbalanced.isLive_of_mem hc b rfl)]
      exact Heap.block?_setField hblock _ w
    refine ⟨iff_of_true rfl hi, fun _ => ⟨fun x hx => ?_, fun j hne => ?_, ?_, ?_, ?_, ?_⟩⟩
    · have hx' : x = .reference b := by
        cases x with
        | immediate p => cases hx
        | reference a => exact congrArg Word.reference (Option.some.inj hx)
      rw [hx', getField_fst hcomposite', List.getElem?_set_self hi]
      rfl
    · rw [getField_fst hcomposite', getField_fst hcomposite, getElem?_set_elim fields hne w]
    · rw [Heap.shapeOf, Heap.shapeOf, hcomposite', hcomposite]
      rfl
    · rw [Heap.fieldCount, Heap.fieldCount, hcomposite', hcomposite]
      exact congrArg Except.ok List.length_set
    · intro a hne ha
      rw [hremnant.contents_of_live ha, Heap.cell?_setField_of_ne hne]
    · exact fun y hy a hreach => hremnant.isSome_of_reaches hbalanced hy hreach
  · rw [setField_of_le hcomposite (Nat.le_of_not_lt hi)]
    exact ⟨iff_of_false nofun hi, fun hlt => absurd hlt hi⟩

/-- Two pairs that hold each other; the first one is owned twice. -/
def entwined : Heap :=
  ⟨Heap.sequential, #[some ⟨3, 16, .composite .tuple [.reference 1]⟩,
    some ⟨1, 16, .composite .tuple [.reference 0]⟩], 2, 32, 2, 0, 0⟩

/-- The first pair is stored into itself. What it held goes, and with it a reference to the pair. -/
theorem setField_updates_one_field_entwined :
    let after := setField .tuple (.reference 0) 0 (.reference 0) entwined
    entwined.Balanced [.reference 0, .reference 0] ∧
      entwined.composite .tuple (.reference 0) = .ok (0, .tuple, [.reference 1]) ∧
      after.1 = .ok () ∧
      (getField .tuple (.reference 0) 0 after.2).1 = .ok (.reference 0) ∧
      (after.2.cell? 0).isSome := by
  have hb : entwined.Balanced [.reference 0, .reference 0] := by decide +kernel
  obtain ⟨hok, hlaw⟩ := setField_updates_one_field entwined [.reference 0] .tuple (.reference 0)
    (.reference 0) 0 0 .tuple [.reference 1] hb List.mem_cons_self rfl
  obtain ⟨hget, -, -, -, -, hreach⟩ := hlaw (by decide)
  exact ⟨hb, rfl, hok.mpr (by decide), hget _ rfl, hreach _ List.mem_cons_self 0 (.refl 0)⟩

end Action

end ValueHeap
