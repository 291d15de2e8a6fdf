import Mathlib.Algebra.Order.Ring.Int
import ValueHeap.Proofs.Division

/-!
# The laws of shifts and rotations

A count is cut to 32 bits and then reduced to the width, by its low bits in a shift and by a remainder in
a rotation. Where the width is a power of two, as it is for both representations, all of this comes to one
number: the residue of the signed count modulo the width.

* `shiftCount_eq_residue`, `turnCount_eq_residue`: both reductions give the residue, for every count.
* `residue_ofNat`, `residue_neg`: the counts that the laws of rotation are about.
* `ShiftLaws`: what the shifts do to the number that the bits stand for, and what the rotations are to the
  shifts and to each other.

Results:
* `Action.intBinary_shifts`: the operations on values are operations on bits that obey the laws.
-/

namespace ValueHeap

namespace Fixed

variable {w : Nat}

/-- The count that `y` stands for: the non-negative residue of the signed number modulo the width. -/
def residue (y : BitVec w) : Nat := (y.toInt % w).toNat

/-! ## One residue -/

theorem dvd_two_pow {e n : Nat} (hw : w = 2 ^ e) (he : e ≤ n) : w ∣ 2 ^ n :=
  hw ▸ Nat.pow_dvd_pow 2 he

theorem dvd_two_pow_self {e : Nat} (hw : w = 2 ^ e) : w ∣ 2 ^ w :=
  dvd_two_pow hw (hw ▸ Nat.lt_two_pow_self.le)

/-- The sign does not matter for the residue, since the width divides the number of words. -/
theorem residue_eq_toNat_mod (hw : w ∣ 2 ^ w) (y : BitVec w) : residue y = y.toNat % w := by
  have hsigned : y.toInt % (2 ^ w : Nat) = (y.toNat : Int) % (2 ^ w : Nat) := by
    rw [BitVec.toInt_eq_toNat_bmod, Int.bmod_emod]
  have hmod : y.toInt % w = (y.toNat : Int) % w := by
    rw [← Int.emod_emod_of_dvd y.toInt (Int.natCast_dvd_natCast.mpr hw), hsigned,
      Int.emod_emod_of_dvd _ (Int.natCast_dvd_natCast.mpr hw)]
  rw [residue, hmod, ← Int.natCast_emod, Int.toNat_natCast]

theorem residue_lt (hw : 0 < w) (hdvd : w ∣ 2 ^ w) (y : BitVec w) : residue y < w := by
  rw [residue_eq_toNat_mod hdvd]
  exact Nat.mod_lt _ hw

section PowerOfTwo

variable {e : Nat} (hw : w = 2 ^ e) (he : e ≤ 32)
include hw he

/-- The cut to 32 bits does not change the residue. -/
theorem turnCount_eq_residue (y : BitVec w) : turnCount y = residue y := by
  rw [residue_eq_toNat_mod (dvd_two_pow_self hw), turnCount, BitVec.toNat_setWidth,
    Nat.mod_mod_of_dvd _ (dvd_two_pow hw he)]

/-- The low bits of a count are its remainder. -/
theorem shiftCount_eq_turnCount (y : BitVec w) : shiftCount y = turnCount y := by
  have hmask : (BitVec.ofNat 32 (w - 1)).toNat = 2 ^ e - 1 := by
    have hlt : 2 ^ e - 1 < 2 ^ 32 :=
      Nat.lt_of_lt_of_le (Nat.sub_lt (Nat.two_pow_pos e) Nat.one_pos)
        (Nat.pow_le_pow_right Nat.two_pos he)
    rw [BitVec.toNat_ofNat, hw, Nat.mod_eq_of_lt hlt]
  rw [shiftCount, turnCount, BitVec.toNat_and, hmask, Nat.and_two_pow_sub_one_eq_mod, ← hw]

theorem shiftCount_eq_residue (y : BitVec w) : shiftCount y = residue y :=
  (shiftCount_eq_turnCount hw he y).trans (turnCount_eq_residue hw he y)

end PowerOfTwo

theorem residue_ofNat (hw : w ∣ 2 ^ w) {k : Nat} (hk : k < w) : residue (BitVec.ofNat w k) = k := by
  rw [residue_eq_toNat_mod hw, BitVec.toNat_ofNat, Nat.mod_mod_of_dvd _ hw, Nat.mod_eq_of_lt hk]

/-- The residue of the wrapped negation. -/
theorem residue_neg (hpos : 0 < w) (hw : w ∣ 2 ^ w) (y : BitVec w) :
    residue (0 - y) = (w - residue y) % w := by
  have hcast : ((residue y : Nat) : Int) = y.toInt % w :=
    Int.toNat_of_nonneg (Int.emod_nonneg _ (Int.natCast_ne_zero.mpr hpos.ne'))
  have hle : residue y ≤ w := (residue_lt hpos hw y).le
  have hneg : (0 - y).toInt % (2 ^ w : Nat) = -y.toInt % (2 ^ w : Nat) := by
    show (0#w - y).toInt % _ = _
    rw [BitVec.zero_sub, BitVec.toInt_neg, Int.bmod_emod]
  have hmod : (0 - y).toInt % w = ((w - residue y : Nat) : Int) % w := by
    rw [← Int.emod_emod_of_dvd _ (Int.natCast_dvd_natCast.mpr hw), hneg,
      Int.emod_emod_of_dvd _ (Int.natCast_dvd_natCast.mpr hw), Int.ofNat_sub hle, hcast,
      Int.sub_emod_emod, Int.neg_emod_eq_sub_emod]
  rw [residue, hmod, ← Int.natCast_emod, Int.toNat_natCast]

/-! ## Shifts and rotations by a number of places -/

theorem shiftLeft_eq_ofInt (x : BitVec w) (k : Nat) : x <<< k = BitVec.ofInt w (x.toInt * 2 ^ k) := by
  have hpow : BitVec.ofInt w (2 ^ k) = BitVec.twoPow w k := by
    apply BitVec.eq_of_toNat_eq
    rw [BitVec.toNat_ofInt, BitVec.toNat_twoPow]
    norm_cast
  rw [BitVec.ofInt_mul, BitVec.ofInt_toInt, hpow, BitVec.mul_twoPow_eq_shiftLeft]

theorem toInt_sshiftRight (x : BitVec w) (k : Nat) :
    (x.sshiftRight k).toInt = x.toInt.fdiv (2 ^ k) := by
  have hpos : (0 : Int) ≤ 2 ^ k := pow_nonneg (by decide) k
  rw [BitVec.toInt_sshiftRight, Int.shiftRight_eq_div_pow, Int.fdiv_eq_ediv_of_nonneg _ hpos]
  norm_cast

theorem rotateLeft_of_lt {k : Nat} (x : BitVec w) (hk : k < w) :
    x.rotateLeft k = x <<< k ||| x >>> (w - k) := by
  rw [BitVec.rotateLeft_def, Nat.mod_eq_of_lt hk]

theorem rotateLeft_zero (x : BitVec w) : x.rotateLeft 0 = x := by
  simp [BitVec.rotateLeft_def, BitVec.ushiftRight_eq_zero]

/-- A turn to the left is the rest of a whole turn to the right. -/
theorem rotateRight_sub {k : Nat} (x : BitVec w) (hk : k < w) :
    x.rotateRight (w - k) = x.rotateLeft k := by
  by_cases hzero : k = 0
  · subst hzero
    simp [BitVec.rotateRight_def, rotateLeft_zero]
  · rw [BitVec.rotateRight_def, rotateLeft_of_lt x hk, Nat.mod_eq_of_lt (by omega),
      Nat.sub_sub_self hk.le, BitVec.or_comm]

theorem rotateRight_rotateLeft {k : Nat} (x : BitVec w) (hk : k < w) :
    (x.rotateLeft k).rotateRight k = x := by
  ext i hi
  simp only [BitVec.getElem_rotateRight, BitVec.getElem_rotateLeft, Nat.mod_eq_of_lt hk]
  by_cases hlow : i < w - k
  · simp [hlow]
  · have hwrap : i - (w - k) < k := by omega
    have hback : w - k + (i - (w - k)) = i := by omega
    simp [hlow, hwrap, hback]

/-! ## The laws -/

/-- The laws of shifts and rotations, where `run` answers for each operation on two operands. -/
structure ShiftLaws (run : IntBinary → BitVec w → BitVec w → Except Error (BitVec w)) : Prop where
  /-- A shift to the left multiplies, and wraps around. -/
  shl : ∀ x y, ∃ r, run .shl x y = .ok r ∧ r.toInt = (x.toInt * 2 ^ residue y).bmod (2 ^ w)
  /-- A shift to the right divides, and rounds down. -/
  shr : ∀ x y, ∃ r, run .shr x y = .ok r ∧ r.toInt = x.toInt.fdiv (2 ^ residue y)
  shrU : ∀ x y, ∃ r, run .shrU x y = .ok r ∧ r.toNat = x.toNat / 2 ^ residue y
  rotl_whole : ∀ x y, residue y = 0 → run .rotl x y = .ok x
  /-- A rotation puts the bits that a shift loses at the other end. -/
  rotl_part : ∀ x y, 0 < residue y → ∃ high low,
    run .shl x (BitVec.ofNat w (residue y)) = .ok high ∧
      run .shrU x (BitVec.ofNat w (w - residue y)) = .ok low ∧ run .rotl x y = .ok (high ||| low)
  rotr_rotl : ∀ x y, ∃ r, run .rotl x y = .ok r ∧ run .rotr r y = .ok x
  rotl_neg : ∀ x y, run .rotl x y = run .rotr x (0 - y)

/-- **The operations obey the laws of shifts and rotations**, for every width that is a power of two. -/
theorem shiftLaws {e : Nat} (hw : w = 2 ^ e) (he : e ≤ 32) :
    ShiftLaws fun op (x y : BitVec w) => op.apply x y := by
  have hpos : 0 < w := hw ▸ Nat.two_pow_pos e
  have hdvd : w ∣ 2 ^ w := dvd_two_pow_self hw
  have hlt : ∀ y : BitVec w, residue y < w := residue_lt hpos hdvd
  have hshift : ∀ y : BitVec w, shiftCount y = residue y := shiftCount_eq_residue hw he
  have hturn : ∀ y : BitVec w, turnCount y = residue y := turnCount_eq_residue hw he
  constructor
  case shl =>
    intro x y
    refine ⟨x <<< shiftCount y, rfl, ?_⟩
    rw [hshift, shiftLeft_eq_ofInt, BitVec.toInt_ofInt]
  case shr =>
    intro x y
    refine ⟨x.sshiftRight (shiftCount y), rfl, ?_⟩
    rw [hshift, toInt_sshiftRight]
  case shrU =>
    intro x y
    refine ⟨x >>> shiftCount y, rfl, ?_⟩
    rw [hshift, BitVec.toNat_ushiftRight, Nat.shiftRight_eq_div_pow]
  case rotl_whole =>
    intro x y hzero
    show Except.ok (x.rotateLeft (turnCount y)) = _
    rw [hturn, hzero, rotateLeft_zero]
  case rotl_part =>
    intro x y hk
    refine ⟨_, _, rfl, rfl, ?_⟩
    show Except.ok (x.rotateLeft (turnCount y)) = .ok (x <<< shiftCount _ ||| x >>> shiftCount _)
    rw [hshift, hshift, hturn, residue_ofNat hdvd (hlt y), residue_ofNat hdvd (Nat.sub_lt hpos hk),
      rotateLeft_of_lt x (hlt y)]
  case rotr_rotl =>
    intro x y
    refine ⟨_, rfl, ?_⟩
    show Except.ok ((x.rotateLeft (turnCount y)).rotateRight (turnCount y)) = _
    rw [hturn, rotateRight_rotateLeft x (hlt y)]
  case rotl_neg =>
    intro x y
    show Except.ok (x.rotateLeft (turnCount y)) = .ok (x.rotateRight (turnCount (0 - y)))
    rw [hturn, hturn, residue_neg hpos hdvd, BitVec.rotateRight_mod_eq_rotateRight,
      rotateRight_sub x (hlt y)]

end Fixed

/-! ## Shifts and rotations of values -/

namespace Action

/-- **Boxed integers of either representation are shifted and rotated by the laws**, whatever the count. -/
theorem intBinary_shifts (t : IntType) :
    (∀ op (a b : BitVec t.bits) (h : Heap) (x y : Word), h.number? x = some (t.number a) →
      h.number? y = some (t.number b) → answer t op x y h = op.apply a b) ∧
    Fixed.ShiftLaws fun op (a b : BitVec t.bits) => op.apply a b := by
  refine ⟨fun op a b h x y hx hy => answer_eq_apply hx hy op, ?_⟩
  cases t with
  | int32 => exact Fixed.shiftLaws (show 32 = 2 ^ 5 from rfl) (by decide)
  | int64 => exact Fixed.shiftLaws (show 64 = 2 ^ 6 from rfl) (by decide)

/-- The greatest integer counts 63 places, which leave nothing of the least integer but its sign. -/
theorem intBinary_shifts_extremes :
    ∃ r, answer .int64 .shr (.reference 0) (.reference 2) extremes = .ok r ∧ r.toInt = -1 := by
  obtain ⟨hvalues, hlaws⟩ := intBinary_shifts .int64
  obtain ⟨r, hr, hfloor⟩ := hlaws.shr (.intMin 64) (.intMax 64)
  refine ⟨r, ?_, ?_⟩
  · rw [hvalues .shr (.intMin 64) (.intMax 64) extremes _ _ rfl rfl]
    exact hr
  · rw [hfloor]
    decide +kernel

end Action

end ValueHeap
