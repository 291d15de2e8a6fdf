import Mathlib.Data.Nat.Log
import Mathlib.Tactic.Linarith
import Mathlib.Tactic.Ring
import ValueHeap.Proofs.NumberEquality

/-!
# Rounding to a binary format

A magnitude is a step and a significand: `k * 2^fraction + s` stands for `s * 2^k` units, where `s` has
at most one bit more than the fraction field, and that bit unless `k` is zero (`units_of_significand`).
Rounding picks the step by the size of the quotient and the whole number nearest to it as the
significand, which may carry into the next step; `nearest` is the result before it is capped at infinity.

Results:
* `units_nearest`: what a rounded quotient stands for.
* `nearest_error`: the quotient is off by at most half a step, so by at most one part in
  `2^(fraction + 1)` where it is not below the first step (`nearest_error_relative`).
* `units_nearest_of_significand`: what has a short significand is not changed.
* `round_of_moderate`: a quotient that is neither below the first step nor near the last is not capped.
-/

namespace ValueHeap.Binary.Format

variable {f : Format} {m num den : Nat}

theorem natPow_eq (k : Nat) : Nat.pow 2 k = 2 ^ k := rfl

theorem one_eq (f : Format) : f.one = 2 ^ f.unitExponent := rfl

/-! ## Significands -/

/-- A magnitude is a step and a significand. -/
theorem units_of_significand {k s : Nat} (hs : s ≤ 2 ^ (f.fraction + 1))
    (hk : k = 0 ∨ 2 ^ f.fraction ≤ s) : f.units (k * 2 ^ f.fraction + s) = s * 2 ^ k := by
  have hpos : 0 < 2 ^ f.fraction := Nat.two_pow_pos _
  unfold units
  simp only [natPow_eq]
  rw [Nat.pow_succ] at hs
  generalize 2 ^ f.fraction = F at hs hk hpos ⊢
  by_cases hlow : s < F
  · obtain rfl : k = 0 := by omega
    rw [Nat.zero_mul, Nat.zero_add, Nat.div_eq_of_lt hlow, Nat.mod_eq_of_lt hlow]
    simp
  · by_cases hfull : s = F * 2
    · -- the significand carries into the next step
      have hsum : k * F + s = F * (k + 2) := by rw [hfull]; ring
      rw [hsum, Nat.mul_div_cancel_left _ hpos, Nat.mul_mod_right, hfull]
      rw [if_neg (by omega), Nat.add_zero, Nat.add_succ_sub_one, Nat.pow_succ]
      ring
    · have hsum : k * F + s = F * (k + 1) + (s - F) := by
        have hsplit : s = F + (s - F) := by omega
        calc k * F + s = k * F + (F + (s - F)) := by rw [← hsplit]
          _ = F * (k + 1) + (s - F) := by ring
      have hrest : s - F < F := by omega
      rw [hsum, Nat.mul_add_div hpos, Nat.div_eq_of_lt hrest, Nat.mul_add_mod,
        Nat.mod_eq_of_lt hrest, if_neg (by omega)]
      have hback : F + (s - F) = s := by omega
      rw [hback, Nat.add_zero, Nat.add_sub_cancel]

/-- The significand of a magnitude. -/
theorem exists_significand (f : Format) (m : Nat) :
    ∃ k s, s < 2 ^ (f.fraction + 1) ∧ f.units m = s * 2 ^ k := by
  have hpos : 0 < 2 ^ f.fraction := Nat.two_pow_pos _
  have hr := Nat.mod_lt m hpos
  unfold units
  simp only [natPow_eq]
  rw [Nat.pow_succ]
  split
  · exact ⟨0, m % 2 ^ f.fraction, by omega, by rw [Nat.pow_zero, Nat.mul_one]⟩
  · exact ⟨m / 2 ^ f.fraction - 1, 2 ^ f.fraction + m % 2 ^ f.fraction, by omega, rfl⟩

/-! ## The nearest whole number -/

theorem le_divNearest (num den : Nat) : num / den ≤ divNearest num den := by
  unfold divNearest
  simp only
  split <;> omega

theorem divNearest_le (num den : Nat) : divNearest num den ≤ num / den + 1 := by
  unfold divNearest
  simp only
  split <;> omega

theorem divNearest_of_dvd (hden : 0 < den) (hdvd : den ∣ num) : divNearest num den = num / den := by
  have hr : num % den = 0 := Nat.mod_eq_zero_of_dvd hdvd
  have hne : 0 ≠ den := Nat.ne_of_lt hden
  unfold divNearest
  simp [hr, hne]

/-- The nearest whole number is off by at most one half. -/
theorem divNearest_error (num : Nat) (hden : 0 < den) :
    2 * num ≤ 2 * (divNearest num den * den) + den ∧
      2 * (divNearest num den * den) ≤ 2 * num + den := by
  have hsplit : num / den * den + num % den = num := Nat.div_add_mod' num den
  have hr := Nat.mod_lt num hden
  unfold divNearest
  simp only
  split
  · next hup =>
    rw [Bool.or_eq_true, decide_eq_true_eq, Bool.and_eq_true, beq_iff_eq] at hup
    rw [Nat.add_mul, Nat.one_mul]
    omega
  · next hdown =>
    rw [Bool.or_eq_true, decide_eq_true_eq, not_or] at hdown
    omega

/-! ## The nearest magnitude -/

/-- The step at which a quotient is rounded. -/
def roundStep (f : Format) (num den : Nat) : Nat := (num / den).log2 - f.fraction

/-- The magnitude nearest to a quotient, as if there were no largest one. -/
def nearest (f : Format) (num den : Nat) : Nat :=
  f.roundStep num den * 2 ^ f.fraction + divNearest num (den * 2 ^ f.roundStep num den)

/-- A quotient fits in its step. -/
theorem quotient_bounds (f : Format) (num den : Nat) :
    num / (den * 2 ^ f.roundStep num den) < 2 ^ (f.fraction + 1) ∧
      (f.roundStep num den = 0 ∨ 2 ^ f.fraction ≤ num / (den * 2 ^ f.roundStep num den)) := by
  unfold roundStep
  rw [← Nat.div_div_eq_div_mul]
  generalize num / den = q
  constructor
  · have hlt : q < 2 ^ (q.log2 + 1) := Nat.lt_log2_self
    have hle : 2 ^ (q.log2 + 1) ≤ 2 ^ (f.fraction + 1 + (q.log2 - f.fraction)) :=
      Nat.pow_le_pow_right (by decide) (by omega)
    rw [Nat.div_lt_iff_lt_mul (Nat.two_pow_pos _), ← Nat.pow_add]
    exact lt_of_lt_of_le hlt hle
  · by_cases hstep : q.log2 - f.fraction = 0
    · exact Or.inl hstep
    · right
      have hq : q ≠ 0 := by
        rintro rfl
        simp at hstep
      rw [Nat.le_div_iff_mul_le (Nat.two_pow_pos _), ← Nat.pow_add]
      have hsum : f.fraction + (q.log2 - f.fraction) = q.log2 := by omega
      rw [hsum]
      exact Nat.log2_self_le hq

/-- **What a rounded quotient stands for.** -/
theorem units_nearest (f : Format) (num den : Nat) :
    f.units (f.nearest num den) =
      divNearest num (den * 2 ^ f.roundStep num den) * 2 ^ f.roundStep num den := by
  obtain ⟨hlt, hstep⟩ := f.quotient_bounds num den
  have hge := le_divNearest num (den * 2 ^ f.roundStep num den)
  have hle := divNearest_le num (den * 2 ^ f.roundStep num den)
  exact units_of_significand (by omega) (hstep.imp_right fun h => h.trans hge)

/-- Rounding is off by at most half a step. -/
theorem nearest_error (f : Format) (num : Nat) (hden : 0 < den) :
    2 * num ≤ 2 * (f.units (f.nearest num den) * den) + den * 2 ^ f.roundStep num den ∧
      2 * (f.units (f.nearest num den) * den) ≤ 2 * num + den * 2 ^ f.roundStep num den := by
  have hpos : 0 < den * 2 ^ f.roundStep num den := Nat.mul_pos hden (Nat.two_pow_pos _)
  have hmul : f.units (f.nearest num den) * den =
      divNearest num (den * 2 ^ f.roundStep num den) * (den * 2 ^ f.roundStep num den) := by
    rw [units_nearest]
    ring
  obtain ⟨hlow, hhigh⟩ := divNearest_error num hpos
  rw [hmul]
  exact ⟨hlow, hhigh⟩

/-- **Rounding is off by at most one part in `2^(fraction + 1)`**, if the quotient is not below the
first step. -/
theorem nearest_error_relative (hden : 0 < den) (hnormal : 2 ^ f.fraction * den ≤ num) :
    2 ^ (f.fraction + 1) * num ≤ 2 ^ (f.fraction + 1) * (f.units (f.nearest num den) * den) + num ∧
      2 ^ (f.fraction + 1) * (f.units (f.nearest num den) * den) ≤
        2 ^ (f.fraction + 1) * num + num := by
  -- a step of the quotient is no more than its fraction bits allow
  have hstep : 2 ^ f.fraction * (den * 2 ^ f.roundStep num den) ≤ num := by
    rcases (f.quotient_bounds num den).2 with hzero | hfull
    · rw [hzero, Nat.pow_zero, Nat.mul_one]
      exact hnormal
    · exact (Nat.le_div_iff_mul_le (Nat.mul_pos hden (Nat.two_pow_pos _))).mp hfull
  obtain ⟨hlow, hhigh⟩ := f.nearest_error num hden
  rw [Nat.pow_succ]
  have hlow' := Nat.mul_le_mul_left (2 ^ f.fraction) hlow
  have hhigh' := Nat.mul_le_mul_left (2 ^ f.fraction) hhigh
  constructor
  · nlinarith
  · nlinarith

/-- **A short significand is not changed by rounding.** -/
theorem units_nearest_of_significand {k s : Nat} (hs : s < 2 ^ (f.fraction + 1)) :
    f.units (f.nearest (s * 2 ^ k) 1) = s * 2 ^ k := by
  have hdvd : 2 ^ f.roundStep (s * 2 ^ k) 1 ∣ s * 2 ^ k := by
    rcases (f.quotient_bounds (s * 2 ^ k) 1).2 with hzero | hfull
    · rw [hzero]
      exact Nat.one_dvd _
    · -- a step above `k` would leave a quotient below the first one
      refine Nat.dvd_mul_left_of_dvd (Nat.pow_dvd_pow 2 ?_) s
      by_contra hlt
      rw [Nat.one_mul, Nat.le_div_iff_mul_le (Nat.two_pow_pos _), ← Nat.pow_add] at hfull
      have hbig : s * 2 ^ k < 2 ^ (f.fraction + 1 + k) := by
        rw [Nat.pow_add]
        exact Nat.mul_lt_mul_of_pos_right hs (Nat.two_pow_pos _)
      have hpow := Nat.pow_le_pow_right (show 0 < 2 by decide)
        (show f.fraction + 1 + k ≤ f.fraction + f.roundStep (s * 2 ^ k) 1 by omega)
      omega
  rw [units_nearest, Nat.one_mul, divNearest_of_dvd (Nat.two_pow_pos _) hdvd,
    Nat.div_mul_cancel hdvd]

/-- What is smaller than infinity is not capped. -/
theorem round_eq_nearest (h : f.units (f.nearest num den) < f.units f.infinity) :
    f.round num den = f.nearest num den :=
  Nat.min_eq_left (le_of_lt (f.units_strictMono.lt_iff_lt.mp h))

/-- A quotient of a moderate size is not capped. -/
theorem round_of_moderate (hden : 0 < den) (hlow : 2 ^ f.fraction * den ≤ num)
    (hhigh : 2 * num < f.units f.infinity * den) :
    f.round num den = f.nearest num den ∧ f.nearest num den < f.infinity := by
  have hle : f.units (f.nearest num den) * den ≤ 2 * num := by
    refine Nat.le_of_mul_le_mul_left ?_ (Nat.two_pow_pos (f.fraction + 1))
    calc 2 ^ (f.fraction + 1) * (f.units (f.nearest num den) * den)
        ≤ 2 ^ (f.fraction + 1) * num + 1 * num := by
          rw [Nat.one_mul]
          exact (nearest_error_relative hden hlow).2
      _ ≤ 2 ^ (f.fraction + 1) * num + 2 ^ (f.fraction + 1) * num :=
          Nat.add_le_add_left (Nat.mul_le_mul_right num (Nat.one_le_two_pow)) _
      _ = 2 ^ (f.fraction + 1) * (2 * num) := by ring
  have hlt : f.units (f.nearest num den) < f.units f.infinity :=
    Nat.lt_of_mul_lt_mul_right (lt_of_le_of_lt hle hhigh)
  exact ⟨round_eq_nearest hlt, f.units_strictMono.lt_iff_lt.mp hlt⟩

end ValueHeap.Binary.Format
