import ValueHeap.Proofs.NewBlocks

/-!
# New numbers read back

A number that is put on the heap, or into a word, is the number that the value is read as.

* `Number.unbox_box`: the block of a boxed number holds the number.
* `Pattern.ofInt?_eq_some`: a small-number word holds the integer.
* `Action.exists_newBoxed`, `Action.exists_newInteger`: the actions that make such values never fail, the
  values read back, and the numbers that were there stay.
-/

namespace ValueHeap

/-- A number is boxed as itself. Small numbers are the exception: they are boxed as 64-bit integers. -/
theorem Number.unbox_box (x : Number) (hx : ∀ n, x ≠ .small n) {subtype : UInt32}
    {payload extra : BitVec 64} (hbox : x.box = .number subtype payload extra) :
    Number.unbox subtype payload extra = some x := by
  cases x with
  | small n => exact absurd rfl (hx n)
  | int32 n =>
    cases hbox
    show some (Number.int32 (.ofBitVec ((n.toBitVec.setWidth 64).setWidth 32))) = _
    rw [BitVec.setWidth_setWidth_of_le _ (by decide), BitVec.setWidth_eq]
    rfl
  | float32 bits =>
    cases hbox
    show some (Number.float32 (.ofBitVec ((bits.toBitVec.setWidth 64).setWidth 32))) = _
    rw [BitVec.setWidth_setWidth_of_le _ (by decide), BitVec.setWidth_eq]
  | int64 n =>
    cases hbox
    rfl
  | float64 bits =>
    cases hbox
    rfl
  | rational num den =>
    cases hbox
    rfl

namespace Pattern

theorem shifted_or_one (x : BitVec 64) : (x <<< 1 ||| 1#64) &&& 1#64 = 1#64 := by
  ext i hi
  by_cases hzero : i = 0
  · subst hzero
    simp
  · simp [hzero]

theorem decode_smallField (x : BitVec 64) : smallField.decode x = x.sshiftRight 1 := by
  show (x <<< 0).sshiftRight 1 = _
  rw [BitVec.shiftLeft_zero]

/-- The tag of a small number is set, and does not reach its payload. -/
theorem ofInt?_eq_some {n : Int64} {p : Pattern} (hp : ofInt? n = some p) :
    p.isSmall = true ∧ p.toInt = n := by
  unfold ofInt? at hp
  split at hp
  · next hvalid =>
    cases hp
    have hback : smallField.decode (smallField.encode n.toBitVec) = n.toBitVec :=
      beq_iff_eq.mp hvalid
    refine ⟨beq_iff_eq.mpr (shifted_or_one _), ?_⟩
    rw [toInt, decode_smallField, BitVec.sshiftRight_or_distrib, ← decode_smallField, hback]
    show Int64.ofBitVec (n.toBitVec ||| 0#64) = n
    rw [BitVec.or_zero]
    rfl
  · cases hp

end Pattern

/-- What reads as a number before still reads as that number. -/
def Heap.KeepsNumbers (h h' : Heap) : Prop := ∀ w x, h.number? w = some x → h'.number? w = some x

theorem Heap.KeepsCells.keepsNumbers {h h' : Heap} (hkeeps : h.KeepsCells h') : h.KeepsNumbers h' := by
  intro w x hx
  unfold Heap.number? at hx ⊢
  cases hs : w.small? with
  | some n =>
    rw [hs] at hx
    exact hx
  | none =>
    cases hb : h.block? w with
    | none =>
      rw [hs, hb] at hx
      cases hx
    | some block =>
      rw [hs, hb] at hx
      rw [hkeeps.block? hb]
      exact hx

namespace Action

/-- **A boxed number reads back**, and the others stay. -/
theorem exists_newBoxed (x : Number) (hx : ∀ n, x ≠ .small n) (h : Heap) :
    ∃ w h', newBoxed x h = (.ok w, h') ∧ h'.number? w = some x ∧ h.KeepsNumbers h' := by
  have hbox : ∃ subtype payload extra, x.box = .number subtype payload extra := by
    cases x <;> exact ⟨_, _, _, rfl⟩
  obtain ⟨subtype, payload, extra, hbox⟩ := hbox
  refine ⟨(h.allocate x.box).1, (h.allocate x.box).2, rfl, ?_, (h.keepsCells_allocate _).keepsNumbers⟩
  have hsmall : (h.allocate x.box).1.small? = none := rfl
  rw [Heap.number?, hsmall, h.block?_allocate, hbox]
  exact x.unbox_box hx hbox

/-- **An integer reads back**, as a small number or as a boxed one. -/
theorem exists_newInteger (n : Int64) (h : Heap) :
    ∃ w h' x, newInteger n h = (.ok w, h') ∧ h'.number? w = some x ∧
      x.quantity = .integer n ∧ h.KeepsNumbers h' := by
  unfold newInteger
  cases hp : Pattern.ofInt? n with
  | some p =>
    obtain ⟨hsmall, hback⟩ := Pattern.ofInt?_eq_some hp
    refine ⟨.immediate p, h, .small n, rfl, ?_, rfl, fun _ _ hx => hx⟩
    have hread : (Word.immediate p).small? = some n := by
      rw [Word.small?, if_pos hsmall, hback]
    unfold Heap.number?
    rw [hread]
  | none =>
    obtain ⟨w, h', hnew, hback, hkeeps⟩ := exists_newBoxed (.int64 n) nofun h
    exact ⟨w, h', .int64 n, hnew, hback, rfl, hkeeps⟩

end Action

end ValueHeap
