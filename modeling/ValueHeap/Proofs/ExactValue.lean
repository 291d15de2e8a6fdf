import Mathlib.Algebra.Order.Ring.Rat
import Mathlib.Order.Compare
import Mathlib.Order.WithBot
import Mathlib.Tactic.FieldSimp
import ValueHeap.Proofs.Rounding

/-!
# Exact values

A finite float denotes a rational number, which is read off its three fields: the sign, a power of two,
and a fraction of it (`denoted`). The infinities are the ends of the number line (`Extended`), and a NaN
has no value.

Results:
* `denoted_eq`: a finite pattern denotes its units.
* `exactValue_le_iff`, `compare?_eq_exactValue`: patterns have the order of their exact values.
* `exactValue?_eq_int_iff`, `toInt?_eq_some_iff`: the patterns of an integer.
* `Binary.exactValue_widen`: a float keeps its exact value when it is widened.
-/

namespace ValueHeap

/-- The rational numbers with an end on either side. -/
abbrev Extended := WithBot (WithTop ℚ)

/-- Pairs that are ordered alike in both directions compare alike. -/
theorem compare_congr {α β : Type*} [LinearOrder α] [LinearOrder β] {a b : α} {c d : β}
    (hle : a ≤ b ↔ c ≤ d) (hge : b ≤ a ↔ d ≤ c) : compare a b = compare c d := by
  rcases lt_trichotomy a b with hlt | rfl | hgt
  · rw [compare_lt_iff_lt.mpr hlt, compare_lt_iff_lt.mpr (lt_of_not_ge fun h => ?_)]
    exact absurd (hge.mpr h) (not_le_of_gt hlt)
  · rw [compare_eq_iff_eq.mpr rfl,
      compare_eq_iff_eq.mpr (le_antisymm (hle.mp le_rfl) (hge.mp le_rfl))]
  · rw [compare_gt_iff_gt.mpr hgt, compare_gt_iff_gt.mpr (lt_of_not_ge fun h => ?_)]
    exact absurd (hle.mpr h) (not_le_of_gt hgt)

namespace Extended

/-- A rational number on the line. -/
def rat (r : ℚ) : Extended := ((r : WithTop ℚ) : WithBot (WithTop ℚ))

theorem rat_le_rat {r s : ℚ} : rat r ≤ rat s ↔ r ≤ s := by
  rw [rat, rat, WithBot.coe_le_coe, WithTop.coe_le_coe]

theorem rat_lt_rat {r s : ℚ} : rat r < rat s ↔ r < s := by
  rw [rat, rat, WithBot.coe_lt_coe, WithTop.coe_lt_coe]

theorem rat_inj {r s : ℚ} : rat r = rat s ↔ r = s := by
  rw [rat, rat, WithBot.coe_inj, WithTop.coe_inj]

theorem compare_rat (r s : ℚ) : compare (rat r) (rat s) = compare r s :=
  compare_congr rat_le_rat rat_le_rat

theorem rat_lt_top (r : ℚ) : rat r < ⊤ := WithBot.coe_lt_coe.mpr (WithTop.coe_lt_top r)

theorem bot_lt_rat (r : ℚ) : ⊥ < rat r := WithBot.bot_lt_coe _

end Extended

namespace Binary.Format

variable {f : Format} {p q : Nat}

/-! ## Reading a pattern -/

/-- What the exponent field is above the exponent. -/
def bias (f : Format) : ℤ := 2 ^ (f.exponent - 1) - 1

/-- The rational number that a finite pattern denotes: the sign, and a power of two times one plus the
fraction; with an empty exponent field the power is the least one and the one is missing. -/
def denoted (f : Format) (p : Nat) : ℚ :=
  let e := f.magnitude p / 2 ^ f.fraction
  let r := f.magnitude p % 2 ^ f.fraction
  (if f.isNegative p then -1 else 1) *
    if e = 0 then (r / 2 ^ f.fraction : ℚ) * 2 ^ (1 - f.bias)
    else (1 + r / 2 ^ f.fraction : ℚ) * 2 ^ (e - f.bias)

/-- The exact value of a pattern that is no NaN. -/
def exactValue (f : Format) (p : Nat) : Extended :=
  if f.isInfinite p then if f.isNegative p then ⊥ else ⊤ else .rat (f.denoted p)

/-- The exact value of a pattern. A NaN has none. -/
def exactValue? (f : Format) (p : Nat) : Option Extended :=
  if f.isNaN p then none else some (f.exactValue p)

theorem cast_one (f : Format) : (f.one : ℚ) = 2 ^ f.unitExponent := by
  rw [one_eq]
  push_cast
  rfl

/-- A finite pattern denotes its units. -/
theorem denoted_eq (hf : 1 < f.exponent) (p : Nat) : f.denoted p = f.value p / f.one := by
  have htwo : 2 ≤ 2 ^ (f.exponent - 1) + f.fraction := by
    have := Nat.pow_le_pow_right (show 0 < 2 by decide) (show 1 ≤ f.exponent - 1 by omega)
    omega
  have hunit : (2 : ℚ) ^ (1 - f.bias) = 2 ^ f.fraction / 2 ^ f.unitExponent := by
    rw [eq_div_iff (by positivity), ← zpow_natCast, ← zpow_natCast, ← zpow_add₀ (by norm_num)]
    congr 1
    unfold bias unitExponent
    rw [natPow_eq, Nat.cast_sub htwo]
    push_cast
    ring
  have hunits : f.units (f.magnitude p) =
      if f.magnitude p / 2 ^ f.fraction = 0 then f.magnitude p % 2 ^ f.fraction
      else (2 ^ f.fraction + f.magnitude p % 2 ^ f.fraction) *
        2 ^ (f.magnitude p / 2 ^ f.fraction - 1) := rfl
  have hvalue : (f.value p : ℚ) =
      (if f.isNegative p then -1 else 1) * (f.units (f.magnitude p) : ℚ) := by
    unfold value
    split <;> simp
  unfold denoted
  rw [hvalue, hunits, cast_one]
  simp only
  generalize f.magnitude p / 2 ^ f.fraction = e
  generalize f.magnitude p % 2 ^ f.fraction = r
  rw [mul_div_assoc]
  congr 1
  by_cases he : e = 0
  · rw [if_pos he, if_pos he, hunit]
    field_simp
  · have hpow : (2 : ℚ) ^ ((e : ℤ) - f.bias) = 2 ^ (e - 1) * 2 ^ (1 - f.bias) := by
      rw [← zpow_natCast, ← zpow_add₀ (by norm_num), Nat.cast_sub (by omega)]
      congr 1
      push_cast
      ring
    rw [if_neg he, if_neg he, hpow, hunit]
    push_cast
    field_simp

/-! ## The order of exact values -/

theorem one_pos (f : Format) : 0 < f.one := two_pow_pos _

theorem infinity_pos (hf : 1 < f.exponent) : 0 < f.infinity := by
  have hpow : 2 ^ 1 < 2 ^ f.exponent := Nat.pow_lt_pow_right (by decide) hf
  unfold infinity
  rw [natPow_eq, natPow_eq]
  exact Nat.mul_pos (by omega) (Nat.two_pow_pos _)

theorem magnitude_le_infinity (hp : f.isNaN p = false) : f.magnitude p ≤ f.infinity := by
  unfold isNaN at hp
  rw [decide_eq_false_iff_not] at hp
  omega

theorem isFinite_iff : f.isFinite p = true ↔ f.magnitude p < f.infinity := by
  unfold isFinite
  rw [decide_eq_true_eq]

theorem isInfinite_eq_false_of_isFinite (hp : f.isFinite p = true) : f.isInfinite p = false := by
  unfold isInfinite
  rw [beq_eq_false_iff_ne]
  exact Nat.ne_of_lt (isFinite_iff.mp hp)

theorem isFinite_of_not (hnan : f.isNaN p = false) (hinf : f.isInfinite p = false) :
    f.isFinite p = true := by
  have hle := magnitude_le_infinity hnan
  have hne : f.magnitude p ≠ f.infinity := by
    unfold isInfinite at hinf
    exact ne_of_beq_false hinf
  exact isFinite_iff.mpr (by omega)

theorem exactValue_of_finite (hp : f.isInfinite p = false) :
    f.exactValue p = .rat (f.denoted p) := by
  unfold exactValue
  rw [hp]
  rfl

theorem exactValue_of_infinite (hp : f.isInfinite p = true) :
    f.exactValue p = if f.isNegative p then ⊥ else ⊤ := by
  unfold exactValue
  rw [hp]
  rfl

theorem exactValue?_of_finite (hp : f.isFinite p = true) :
    f.exactValue? p = some (.rat (f.denoted p)) := by
  rw [exactValue?, isNaN_eq_false_of_isFinite hp,
    exactValue_of_finite (isInfinite_eq_false_of_isFinite hp)]
  rfl

theorem isFinite_of_exactValue? {r : ℚ} (hp : f.exactValue? p = some (.rat r)) :
    f.isFinite p = true := by
  unfold exactValue? at hp
  split at hp
  · cases hp
  · next hnan =>
    rw [Option.some.injEq] at hp
    refine isFinite_of_not (Bool.eq_false_of_not_eq_true hnan) ?_
    cases hinf : f.isInfinite p with
    | false => rfl
    | true =>
      rw [exactValue_of_infinite hinf] at hp
      split at hp
      · exact absurd hp (Extended.bot_lt_rat r).ne
      · exact absurd hp (Extended.rat_lt_top r).ne'

/-- The patterns of an integer. -/
theorem exactValue?_eq_int_iff (hf : 1 < f.exponent) {n : ℤ} :
    f.exactValue? p = some (.rat n) ↔ f.isFinite p = true ∧ f.value p = n * f.one := by
  have hone : (0 : ℚ) < f.one := by exact_mod_cast f.one_pos
  have hvalue : f.denoted p = n ↔ f.value p = n * f.one := by
    rw [denoted_eq hf, div_eq_iff hone.ne']
    exact_mod_cast Iff.rfl
  constructor
  · intro hp
    have hfinite := isFinite_of_exactValue? hp
    rw [exactValue?_of_finite hfinite, Option.some.injEq, Extended.rat_inj] at hp
    exact ⟨hfinite, hvalue.mp hp⟩
  · rintro ⟨hfinite, hp⟩
    rw [exactValue?_of_finite hfinite, hvalue.mpr hp]

theorem toInt?_eq_some_iff {n : ℤ} :
    f.toInt? p = some n ↔ f.isFinite p = true ∧ f.value p = n * f.one := by
  have hone : (f.one : ℤ) ≠ 0 := by exact_mod_cast f.one_pos.ne'
  constructor
  · exact toInt?_eq_some
  · rintro ⟨hfinite, hvalue⟩
    rw [toInt?, hfinite, hvalue, Int.mul_emod_left, Int.mul_ediv_cancel _ hone]
    rfl

theorem denoted_le_denoted_iff (hf : 1 < f.exponent) :
    f.denoted p ≤ f.denoted q ↔ f.place p ≤ f.place q := by
  have hone : (0 : ℚ) < f.one := by exact_mod_cast f.one_pos
  rw [denoted_eq hf, denoted_eq hf, div_le_div_iff_of_pos_right hone, Int.cast_le, value_le_value_iff]

/-- The places of an infinity are past all others. -/
theorem place_of_infinite (hp : f.isInfinite p = true) :
    f.place p = if f.isNegative p then -(f.infinity : ℤ) else f.infinity := by
  unfold isInfinite at hp
  unfold place
  rw [eq_of_beq hp]

theorem place_bounds (hp : f.isNaN p = false) :
    -(f.infinity : ℤ) ≤ f.place p ∧ f.place p ≤ f.infinity := by
  have := magnitude_le_infinity hp
  unfold place
  split <;> omega

theorem place_bounds_of_finite (hp : f.isNaN p = false) (hfin : f.isInfinite p = false) :
    -(f.infinity : ℤ) < f.place p ∧ f.place p < f.infinity := by
  have hlt := isFinite_iff.mp (isFinite_of_not hp hfin)
  unfold place
  split <;> omega

/-- **Exact values have the order of the places.** -/
theorem exactValue_le_iff (hf : 1 < f.exponent) (hp : f.isNaN p = false) (hq : f.isNaN q = false) :
    f.exactValue p ≤ f.exactValue q ↔ f.place p ≤ f.place q := by
  have hinf := infinity_pos hf
  have hbp := place_bounds hp
  have hbq := place_bounds hq
  cases hip : f.isInfinite p with
  | true =>
    rw [exactValue_of_infinite hip, place_of_infinite hip]
    cases f.isNegative p with
    | true => exact iff_of_true bot_le hbq.1
    | false =>
      cases hiq : f.isInfinite q with
      | true =>
        rw [exactValue_of_infinite hiq, place_of_infinite hiq]
        cases f.isNegative q with
        | true => exact iff_of_false (not_le_of_gt bot_lt_top) (by simp; omega)
        | false => exact iff_of_true le_rfl le_rfl
      | false =>
        rw [exactValue_of_finite hiq]
        exact iff_of_false (not_le_of_gt (Extended.rat_lt_top _))
          (not_le_of_gt (place_bounds_of_finite hq hiq).2)
  | false =>
    have hfp := place_bounds_of_finite hp hip
    rw [exactValue_of_finite hip]
    cases hiq : f.isInfinite q with
    | true =>
      rw [exactValue_of_infinite hiq, place_of_infinite hiq]
      cases f.isNegative q with
      | true => exact iff_of_false (not_le_of_gt (Extended.bot_lt_rat _)) (not_le_of_gt hfp.1)
      | false => exact iff_of_true le_top hbp.2
    | false =>
      rw [exactValue_of_finite hiq, Extended.rat_le_rat, denoted_le_denoted_iff hf]

theorem compare?_of_numbers (hf : 1 < f.exponent) (hp : f.isNaN p = false) (hq : f.isNaN q = false) :
    f.compare? p q = some (compare (f.exactValue p) (f.exactValue q)) := by
  have hle := exactValue_le_iff hf hp hq
  have hge := exactValue_le_iff hf hq hp
  unfold compare?
  rw [hp, hq]
  exact congrArg some (compare_congr hle.symm hge.symm)

/-- The order of two patterns is that of their exact values. -/
theorem compare?_eq_exactValue (hf : 1 < f.exponent) (p q : Nat) :
    f.compare? p q = Option.map₂ compare (f.exactValue? p) (f.exactValue? q) := by
  unfold exactValue?
  cases hp : f.isNaN p with
  | true => simp [compare?, hp]
  | false =>
    cases hq : f.isNaN q with
    | true => simp [compare?, hq]
    | false => exact compare?_of_numbers hf hp hq

/-! ## Signs -/

theorem isNegative_withSign {m : Nat} (hm : m < f.signBit) (negative : Bool) :
    f.isNegative (f.withSign negative m) = negative := by
  have hpos : 0 < f.signBit := two_pow_pos _
  unfold isNegative withSign
  cases negative with
  | true => simp [Nat.add_div_left m hpos, Nat.div_eq_of_lt hm]
  | false => simp [Nat.div_eq_of_lt hm]

/-- The value of a sign and a magnitude. -/
theorem value_withSign {m : Nat} (hm : m < f.signBit) (negative : Bool) :
    f.value (f.withSign negative m) = if negative then -(f.units m : ℤ) else f.units m := by
  unfold value
  rw [isNegative_withSign hm, magnitude_withSign hm]

theorem place_withSign {m : Nat} (hm : m < f.signBit) (negative : Bool) :
    f.place (f.withSign negative m) = if negative then -(m : ℤ) else m := by
  unfold place
  rw [isNegative_withSign hm, magnitude_withSign hm]

theorem units_infinity (hf : 1 < f.exponent) :
    f.units f.infinity = 2 ^ f.fraction * 2 ^ (2 ^ f.exponent - 2) := by
  have hpow : 2 ^ 1 < 2 ^ f.exponent := Nat.pow_lt_pow_right (by decide) hf
  have hsum : f.infinity = (2 ^ f.exponent - 2) * 2 ^ f.fraction + 2 ^ f.fraction := by
    unfold infinity
    rw [natPow_eq, natPow_eq, ← Nat.succ_mul]
    congr 1
    omega
  rw [hsum, units_of_significand (Nat.pow_le_pow_right (by decide) (Nat.le_succ _)) (Or.inr le_rfl)]

end Binary.Format

/-! ## Widening -/

namespace Binary

open Format

/-- How many halvings a wide unit is below a narrow one. -/
def unitGap : Nat := double.unitExponent - single.unitExponent

/-- The units of a narrow magnitude, in the units of the wide format, are a wide magnitude. -/
theorem units_round_widened {m : Nat} (hm : m < single.infinity) :
    double.round (single.units m * 2 ^ unitGap) 1 < double.infinity ∧
      double.units (double.round (single.units m * 2 ^ unitGap) 1) =
        single.units m * 2 ^ unitGap := by
  obtain ⟨k, s, hs, hunits⟩ := single.exists_significand m
  have hs' : s < 2 ^ (double.fraction + 1) := lt_of_lt_of_le hs (by decide)
  have hexact : double.units (double.nearest (single.units m * 2 ^ unitGap) 1) =
      single.units m * 2 ^ unitGap := by
    rw [hunits, mul_assoc, ← pow_add]
    exact units_nearest_of_significand hs'
  have hbound : single.units m * 2 ^ unitGap < double.units double.infinity := by
    have hlt := single.units_strictMono hm
    rw [units_infinity (by decide), ← pow_add] at hlt ⊢
    calc single.units m * 2 ^ unitGap
        < 2 ^ (single.fraction + (2 ^ single.exponent - 2)) * 2 ^ unitGap :=
          Nat.mul_lt_mul_of_pos_right hlt (Nat.two_pow_pos _)
      _ = 2 ^ (single.fraction + (2 ^ single.exponent - 2) + unitGap) := (pow_add _ _ _).symm
      _ ≤ 2 ^ (double.fraction + (2 ^ double.exponent - 2)) :=
          Nat.pow_le_pow_right (by decide) (by decide)
  have hlt : double.units (double.nearest (single.units m * 2 ^ unitGap) 1) <
      double.units double.infinity := by
    rw [hexact]
    exact hbound
  rw [round_eq_nearest hlt]
  exact ⟨double.units_strictMono.lt_iff_lt.mp hlt, hexact⟩

theorem denoted_widened {p m : Nat} (hm : m < double.infinity)
    (hunits : double.units m = single.units (single.magnitude p) * 2 ^ unitGap) :
    double.denoted (double.withSign (single.isNegative p) m) = single.denoted p := by
  have hm' : m < double.signBit := hm.trans double.infinity_lt_signBit
  have hone : (double.one : ℚ) = single.one * 2 ^ unitGap := by
    rw [cast_one, cast_one, ← pow_add]
    congr 1
  have hvalue : double.value (double.withSign (single.isNegative p) m) =
      single.value p * 2 ^ unitGap := by
    rw [value_withSign hm', hunits, value]
    split <;> push_cast <;> ring
  have hpos : (0 : ℚ) < single.one := by exact_mod_cast single.one_pos
  rw [denoted_eq (by decide), denoted_eq (by decide), hvalue, hone]
  push_cast
  field_simp

/-- **Widening keeps the exact value.** -/
theorem exactValue_widen {p : Nat} (hp : single.isNaN p = false) :
    double.exactValue (widen single double p) = single.exactValue p := by
  have hinf := double.infinity_lt_signBit
  cases hip : single.isInfinite p with
  | true =>
    have hwiden : widen single double p = double.withSign (single.isNegative p) double.infinity := by
      simp [widen, hp, hip]
    have hwide : double.isInfinite (widen single double p) = true := by
      rw [hwiden, isInfinite, magnitude_withSign hinf, beq_self_eq_true]
    rw [exactValue_of_infinite hwide, exactValue_of_infinite hip, hwiden, isNegative_withSign hinf]
  | false =>
    have hwiden : widen single double p = double.withSign (single.isNegative p)
        (double.round (single.units (single.magnitude p) * 2 ^ unitGap) 1) := by
      simp only [widen, hp, hip, Bool.false_eq_true, if_false, natPow_eq, unitGap]
    obtain ⟨hlt, hunits⟩ := units_round_widened (isFinite_iff.mp (isFinite_of_not hp hip))
    have hwide : double.isInfinite (widen single double p) = false := by
      rw [hwiden, isInfinite, magnitude_withSign (hlt.trans hinf), beq_eq_false_iff_ne]
      exact Nat.ne_of_lt hlt
    rw [exactValue_of_finite hwide, exactValue_of_finite hip, hwiden, denoted_widened hlt hunits]

end Binary

end ValueHeap
