import Mathlib.Algebra.Order.Group.Unbundled.Int
import ValueHeap.Number.Basic

/-!
# Numbers that are the same

Numeric equality across the representations, and the keys that numbers contribute to a hash.

Results:
* `Number.same_comm`: numeric equality has no direction.
* `Binary.Format.eq_or_zeros_of_place_eq`: two patterns at one place of the number line are one pattern, or
  the two zeros.
* `Number.key_eq_of_same`: numbers that are the same have the same key.
-/

namespace ValueHeap

namespace Binary.Format

variable {f : Format} {p q : Nat}

theorem compare?_eq_comm (f : Format) (p q : Nat) :
    (f.compare? p q == some .eq) = (f.compare? q p == some .eq) := by
  unfold compare?
  rw [Bool.or_comm]
  split
  · rfl
  · rw [Bool.eq_iff_iff]
    simp only [beq_iff_eq, Option.some.injEq, compare_eq_iff_eq]
    exact eq_comm

/-- Patterns that compare as equal have one place. -/
theorem place_eq_of_compare? (hpq : f.compare? p q = some .eq) : f.place p = f.place q := by
  unfold compare? at hpq
  split at hpq
  · cases hpq
  · exact compare_eq_iff_eq.mp (Option.some.inj hpq)

/-- A pattern is its sign and its magnitude. -/
theorem eq_of_sign_of_magnitude (hp : p < 2 * f.signBit) (hq : q < 2 * f.signBit)
    (hsign : f.isNegative p = f.isNegative q) (hmag : f.magnitude p = f.magnitude q) : p = q := by
  have hp2 : p / f.signBit < 2 := Nat.div_lt_of_lt_mul (by rwa [Nat.mul_comm])
  have hq2 : q / f.signBit < 2 := Nat.div_lt_of_lt_mul (by rwa [Nat.mul_comm])
  have hdiv : p / f.signBit = q / f.signBit := by
    rw [isNegative, isNegative, Nat.mod_eq_of_lt hp2, Nat.mod_eq_of_lt hq2, Bool.eq_iff_iff,
      beq_iff_eq, beq_iff_eq] at hsign
    generalize p / f.signBit = a at hp2 hsign ⊢
    generalize q / f.signBit = b at hq2 hsign ⊢
    omega
  rw [← Nat.div_add_mod p f.signBit, ← Nat.div_add_mod q f.signBit, hdiv]
  exact congrArg (f.signBit * (q / f.signBit) + ·) hmag

/-- **One place, one pattern**, apart from the two zeros. -/
theorem eq_or_zeros_of_place_eq (hp : p < 2 * f.signBit) (hq : q < 2 * f.signBit)
    (hplace : f.place p = f.place q) : p = q ∨ f.magnitude p = 0 ∧ f.magnitude q = 0 := by
  unfold place at hplace
  cases hsp : f.isNegative p <;> cases hsq : f.isNegative q <;>
    simp only [hsp, hsq, if_true, if_false, Bool.false_eq_true] at hplace
  · exact Or.inl (eq_of_sign_of_magnitude hp hq (hsp.trans hsq.symm) (by omega))
  · exact Or.inr (by omega)
  · exact Or.inr (by omega)
  · exact Or.inl (eq_of_sign_of_magnitude hp hq (hsp.trans hsq.symm) (by omega))

/-- Both zeros stand for the integer 0. -/
theorem toInt?_of_magnitude_eq_zero (hf : 0 < f.infinity) (hp : f.magnitude p = 0) :
    f.toInt? p = some 0 := by
  have hunits : f.units 0 = 0 := by simp [units]
  have hvalue : f.value p = 0 := by
    unfold value
    rw [hp, hunits]
    simp
  have hfinite : f.isFinite p = true := by
    unfold isFinite
    rw [hp]
    exact decide_eq_true hf
  unfold toInt?
  rw [hvalue, hfinite]
  simp

end Binary.Format

namespace Number

open Binary (double)

/-- Numeric equality has no direction. -/
theorem same_comm (x y : Number) : x.same y = y.same x := by
  unfold same
  cases x.quantity with
  | integer a =>
    cases y.quantity with
    | integer b => exact Bool.eq_iff_iff.mpr (by simp only [beq_iff_eq]; exact eq_comm)
    | float b => rfl
    | ratio c d => rfl
  | float a =>
    cases y.quantity with
    | integer b => rfl
    | float b => exact Binary.Format.compare?_eq_comm _ _ _
    | ratio c d => rfl
  | ratio a b =>
    cases y.quantity with
    | integer b => rfl
    | float b => rfl
    | ratio c d =>
      refine Bool.eq_iff_iff.mpr ?_
      simp only [Bool.and_eq_true, beq_iff_eq]
      exact and_congr eq_comm eq_comm

theorem toNat_lt_signBit (bits : UInt64) : bits.toNat < 2 * double.signBit := bits.toNat_lt

/-- Floats that compare as equal are the same pattern, or stand for the integer 0. -/
theorem floats_of_compare? {a b : UInt64} (hab : double.compare? a.toNat b.toNat = some .eq) :
    a = b ∨ wholeFloat? a = some 0 ∧ wholeFloat? b = some 0 := by
  have whole {bits : UInt64} (hzero : double.magnitude bits.toNat = 0) :
      wholeFloat? bits = some 0 := by
    unfold wholeFloat?
    rw [Binary.Format.toInt?_of_magnitude_eq_zero (by decide) hzero]
    rfl
  rcases Binary.Format.eq_or_zeros_of_place_eq (toNat_lt_signBit a) (toNat_lt_signBit b)
    (Binary.Format.place_eq_of_compare? hab) with heq | ⟨ha, hb⟩
  · exact Or.inl (UInt64.toNat_inj.mp heq)
  · exact Or.inr ⟨whole ha, whole hb⟩

/-- **Numbers that are the same have the same key.** -/
theorem key_eq_of_same {x y : Number} (hxy : x.same y = true) : x.key = y.key := by
  unfold same at hxy
  unfold key
  split at hxy
  · next a b ha hb =>
    rw [ha, hb, eq_of_beq hxy]
  · next a b ha hb =>
    rw [ha, hb]
    rcases floats_of_compare? (eq_of_beq hxy) with rfl | ⟨hwa, hwb⟩
    · rfl
    · simp only [hwa, hwb]
  · next n b ha hb =>
    rw [ha, hb]
    simp only [eq_of_beq hxy]
  · next a n ha hb =>
    rw [ha, hb]
    simp only [eq_of_beq hxy]
  · next a b c d ha hb =>
    rw [Bool.and_eq_true, beq_iff_eq, beq_iff_eq] at hxy
    rw [ha, hb, hxy.1, hxy.2]
  · cases hxy

end Number

end ValueHeap
