import Mathlib.Algebra.Order.Ring.Abs
import ValueHeap.Proofs.NumberOrder

/-!
# Transitivity of the order of numbers

A fraction meets a float as a float, and all other numbers meet at their exact values. So three numbers
with just one float among them are not compared on one line: the two others meet at their exact values,
and each of them meets the float at its own float (`near?`). The order goes on from one pair to the
next, and the three chain (`Chains`), if the two others have the order of their floats (`KeepsOrder`).

Results:
* `Number.ratioToFloat_error`: the float of a fraction whose parts have at most 26 bits is off by at most
  one part in `2^53`.
* `Number.keepsOrder_iff`: two numbers keep their order exactly if they chain with every float.
* `Number.keepsOrder_of_short`: fractions with such parts keep their order, because two of them are
  further apart than their floats are off.
* `Number.compare?_transitive` says where the order is transitive, and `Number.half_above_not_chains`
  gives three numbers that do not chain.
-/

namespace ValueHeap

namespace Binary.Format

variable {f : Format} {p q : Nat}

/-! ## Quotients -/

theorem div_of_finite (hp : f.isFinite p = true) (hq : f.isFinite q = true)
    (hzero : 0 < f.magnitude q) :
    f.div p q = f.withSign (f.isNegative p != f.isNegative q)
      (f.round (f.units (f.magnitude p) * f.one) (f.units (f.magnitude q))) := by
  have hz : f.isZero q = false := by
    unfold isZero
    rw [beq_eq_false_iff_ne]
    omega
  simp [div, propagating, isNaN_eq_false_of_isFinite hp, isNaN_eq_false_of_isFinite hq,
    isInfinite_eq_false_of_isFinite hp, isInfinite_eq_false_of_isFinite hq, hz]

theorem isNaN_withSign_round (negative : Bool) (num den : Nat) :
    f.isNaN (f.withSign negative (f.round num den)) = false := by
  have hle : f.round num den ≤ f.infinity := Nat.min_le_right _ _
  have hlt := lt_of_le_of_lt hle f.infinity_lt_signBit
  rw [isNaN, magnitude_withSign hlt]
  simpa using hle

end Binary.Format

namespace Number

open Binary (double)
open Binary.Format

/-! ## Fractions as floats -/

/-- The units of the float nearest to an integer. -/
def floatUnits (n : ℤ) : Nat := double.units (double.nearest (n.natAbs * double.one) 1)

/-- A 64-bit integer becomes a finite float of its own sign, and no zero. -/
theorem ofInt_of_ne_zero {n : Int64} (hn : n.toInt ≠ 0) :
    double.isFinite (double.ofInt n.toInt) = true ∧ 0 < double.magnitude (double.ofInt n.toInt) ∧
      double.isNegative (double.ofInt n.toInt) = decide (n.toInt < 0) ∧
      double.units (double.magnitude (double.ofInt n.toInt)) = floatUnits n.toInt := by
  have hbound : n.toInt.natAbs ≤ 2 ^ 63 := by
    have := n.le_toInt
    have := n.toInt_lt
    omega
  have hpos : 0 < n.toInt.natAbs := by omega
  have hlow : 2 ^ double.fraction * 1 ≤ n.toInt.natAbs * double.one := by
    rw [Nat.mul_one, one_eq]
    exact le_trans (Nat.pow_le_pow_right (by decide) (by decide)) (Nat.le_mul_of_pos_left _ hpos)
  have hhigh : 2 * (n.toInt.natAbs * double.one) < double.units double.infinity * 1 := by
    rw [units_infinity (by decide), Nat.mul_one, one_eq, ← pow_add]
    calc 2 * (n.toInt.natAbs * 2 ^ double.unitExponent)
        ≤ 2 * (2 ^ 63 * 2 ^ double.unitExponent) :=
          Nat.mul_le_mul_left 2 (Nat.mul_le_mul_right _ hbound)
      _ = 2 ^ (1 + (63 + double.unitExponent)) := by rw [pow_add, pow_add, pow_one]
      _ < 2 ^ (double.fraction + (2 ^ double.exponent - 2)) :=
          Nat.pow_lt_pow_right (by decide) (by decide)
  obtain ⟨hround, hlt⟩ := round_of_moderate Nat.one_pos hlow hhigh
  have hrpos := round_pos (f := double) (by decide) (Nat.mul_pos hpos double.one_pos)
  have hsign := hlt.trans double.infinity_lt_signBit
  have hof : double.ofInt n.toInt =
      double.withSign (n.toInt < 0) (double.nearest (n.toInt.natAbs * double.one) 1) := by
    rw [← hround]
    rfl
  rw [hround] at hrpos
  rw [hof, isFinite_iff, magnitude_withSign hsign, isNegative_withSign hsign]
  exact ⟨hlt, hrpos, rfl, rfl⟩

/-- A fraction becomes the rounded quotient of two rounded integers. -/
theorem ratioToFloat_eq {num den : Int64} (hnum : num.toInt ≠ 0) (hden : 0 < den.toInt) :
    ratioToFloat num den = double.withSign (num.toInt < 0)
      (double.round (floatUnits num.toInt * double.one) (floatUnits den.toInt)) := by
  obtain ⟨hfn, -, hsn, hun⟩ := ofInt_of_ne_zero hnum
  obtain ⟨hfd, hpd, hsd, hud⟩ := ofInt_of_ne_zero (n := den) (by omega)
  rw [ratioToFloat, div_of_finite hfn hfd hpd, hsn, hsd, hun, hud,
    decide_eq_false (show ¬den.toInt < 0 by omega), Bool.bne_false]

theorem IsReduced.num_ne_zero {num den : Int64} (h : (rational num den).IsReduced) :
    num.toInt ≠ 0 := by
  obtain ⟨hden, hcop⟩ := h
  intro hzero
  rw [hzero, Int.natAbs_zero, Nat.coprime_zero_left] at hcop
  omega

/-- The floats of fractions are numbers, and 64 bits hold them. -/
theorem ratioToFloat_isNumber {num den : Int64} (h : (rational num den).IsReduced) :
    double.isNaN (ratioToFloat num den) = false ∧ ratioToFloat num den < UInt64.size := by
  have hden : 0 < den.toInt := by
    have := h.1
    omega
  rw [ratioToFloat_eq h.num_ne_zero hden]
  refine ⟨isNaN_withSign_round _ _ _, ?_⟩
  exact withSign_lt (lt_of_le_of_lt (Nat.min_le_right _ _) double.infinity_lt_signBit) _

/-! ## Short fractions -/

/-- Fractions whose parts have at most 26 bits. -/
def IsShort : Number → Prop
  | rational num den => num.toInt.natAbs < 2 ^ 26 ∧ den.toInt < 2 ^ 26
  | _ => True

theorem floatUnits_of_lt {n : ℤ} (hn : n.natAbs < 2 ^ 53) : floatUnits n = n.natAbs * double.one := by
  rw [floatUnits, one_eq]
  exact units_nearest_of_significand hn

/-- The rounded quotient of two short integers, in units. -/
theorem round_of_short {a b : Nat} (ha : 0 < a) (ha' : a < 2 ^ 26) (hb : 0 < b) (hb' : b < 2 ^ 26) :
    double.round (a * double.one * double.one) (b * double.one) =
        double.nearest (a * double.one * double.one) (b * double.one) ∧
      double.nearest (a * double.one * double.one) (b * double.one) < double.infinity ∧
      2 ^ double.fraction * (b * double.one) ≤ a * double.one * double.one := by
  have hone := double.one_pos
  have hlow : 2 ^ double.fraction * b ≤ a * double.one := by
    calc 2 ^ double.fraction * b
        ≤ 2 ^ double.fraction * 2 ^ 26 := Nat.mul_le_mul_left _ hb'.le
      _ ≤ double.one := by
          rw [one_eq, ← pow_add]
          exact Nat.pow_le_pow_right (by decide) (by decide)
      _ ≤ a * double.one := Nat.le_mul_of_pos_left _ ha
  have hhigh : 2 * (a * double.one) < double.units double.infinity * b := by
    calc 2 * (a * double.one)
        < 2 * (2 ^ 26 * double.one) := by
          exact Nat.mul_lt_mul_of_pos_left (Nat.mul_lt_mul_of_pos_right ha' hone) (by decide)
      _ = 2 ^ (1 + (26 + double.unitExponent)) := by rw [one_eq, pow_add, pow_add, pow_one]
      _ ≤ double.units double.infinity := by
          rw [units_infinity (by decide), ← pow_add]
          exact Nat.pow_le_pow_right (by decide) (by decide)
      _ ≤ double.units double.infinity * b := Nat.le_mul_of_pos_right _ hb
  have hlow' : 2 ^ double.fraction * (b * double.one) ≤ a * double.one * double.one := by
    rw [← mul_assoc]
    exact Nat.mul_le_mul_right _ hlow
  have hhigh' :
      2 * (a * double.one * double.one) < double.units double.infinity * (b * double.one) := by
    rw [← mul_assoc, ← mul_assoc (double.units _)]
    exact Nat.mul_lt_mul_of_pos_right hhigh hone
  obtain ⟨hround, hlt⟩ := round_of_moderate (Nat.mul_pos hb hone) hlow' hhigh'
  exact ⟨hround, hlt, hlow'⟩

/-- An error in units, as one of the values. -/
theorem error_of_units {u a b one : ℚ} (hone : 0 < one)
    (hlow : 2 ^ 53 * (a * one * one) ≤ 2 ^ 53 * (u * (b * one)) + a * one * one)
    (hhigh : 2 ^ 53 * (u * (b * one)) ≤ 2 ^ 53 * (a * one * one) + a * one * one) :
    |u / one * b - a| * 2 ^ 53 ≤ a := by
  obtain ⟨t, rfl⟩ : ∃ t, u = t * one := ⟨u / one, (div_mul_cancel₀ u hone.ne').symm⟩
  have hsq : 0 < one * one := mul_pos hone hone
  have hlow' : 2 ^ 53 * a ≤ 2 ^ 53 * (t * b) + a := by
    refine le_of_mul_le_mul_right ?_ hsq
    linarith
  have hhigh' : 2 ^ 53 * (t * b) ≤ 2 ^ 53 * a + a := by
    refine le_of_mul_le_mul_right ?_ hsq
    linarith
  rw [mul_div_cancel_right₀ t hone.ne', ← abs_of_pos (show (0 : ℚ) < 2 ^ 53 by positivity), ← abs_mul,
    abs_le]
  constructor <;> linarith

/-- **The float of a short fraction is off by at most one part in 2^53.** -/
theorem ratioToFloat_error {num den : Int64} (h : (rational num den).IsReduced)
    (hshort : (rational num den).IsShort) :
    ∃ r : ℚ, double.exactValue? (ratioToFloat num den) = some (.rat r) ∧
      |r * den.toInt - num.toInt| * 2 ^ 53 ≤ |(num.toInt : ℚ)| := by
  obtain ⟨hn, hd⟩ := hshort
  have hden : 0 < den.toInt := by
    have := h.1
    omega
  have hnum := h.num_ne_zero
  obtain ⟨hround, hlt, hmoderate⟩ := round_of_short (a := num.toInt.natAbs) (b := den.toInt.natAbs)
    (by omega) hn (by omega) (by omega)
  obtain ⟨hlow, hhigh⟩ := nearest_error_relative
    (Nat.mul_pos (show 0 < den.toInt.natAbs by omega) double.one_pos) hmoderate
  rw [ratioToFloat_eq hnum hden, floatUnits_of_lt (by omega), floatUnits_of_lt (by omega), hround]
  generalize double.nearest _ _ = m at hlt hlow hhigh ⊢
  have hsign := hlt.trans double.infinity_lt_signBit
  have hone : (0 : ℚ) < double.one := by exact_mod_cast double.one_pos
  have herror : |(double.units m : ℚ) / double.one * den.toInt.natAbs - num.toInt.natAbs| * 2 ^ 53 ≤
      num.toInt.natAbs :=
    error_of_units hone (by exact_mod_cast hlow) (by exact_mod_cast hhigh)
  refine ⟨_, exactValue?_of_finite ?_, ?_⟩
  · rw [isFinite_iff, magnitude_withSign hsign]
    exact hlt
  · rw [denoted_eq (by decide), value_withSign hsign]
    have hd' : (den.toInt.natAbs : ℚ) = den.toInt := by
      rw [Nat.cast_natAbs, abs_of_pos hden]
    rw [hd', Nat.cast_natAbs, Int.cast_abs] at herror
    rcases lt_or_gt_of_ne hnum with hneg | hpos
    · have hneg' : (num.toInt : ℚ) < 0 := by exact_mod_cast hneg
      rw [abs_of_neg hneg'] at herror ⊢
      have hturn : ((-(double.units m : ℤ) : ℤ) : ℚ) / double.one * den.toInt - num.toInt =
          -((double.units m : ℚ) / double.one * den.toInt - -num.toInt) := by
        push_cast
        ring
      rw [if_pos (decide_eq_true hneg), hturn, abs_neg]
      exact herror
    · have hpos' : (0 : ℚ) < num.toInt := by exact_mod_cast hpos
      rw [abs_of_pos hpos'] at herror ⊢
      rw [if_neg (by simpa using hpos.le), Int.cast_natCast]
      exact herror

/-! ## Chains -/

/-- Less or equal. -/
def AtMost (x y : Number) : Prop := x.compare? y = some .lt ∨ x.compare? y = some .eq

/-- The order goes on from `x` and `y` to `y` and `z`, and stays strict where it was. -/
def Chains (x y z : Number) : Prop :=
  x.AtMost y → y.AtMost z →
    x.AtMost z ∧ (x.compare? z = some .eq → x.compare? y = some .eq ∧ y.compare? z = some .eq)

/-- A number that is no NaN, in lowest terms if it is a fraction. -/
def IsProper (x : Number) : Prop := x.IsReduced ∧ x.isNaN = false

/-- Two numbers have the order of the floats of the fractions among them. -/
def KeepsOrder (x y : Number) : Prop := x.compare? y = Option.map₂ compare x.near? y.near?

section Chains

variable {x y z a b f : Number}

/-- Chains, by the values that decide the three comparisons. -/
theorem chains_iff {u v v' w p q : Extended} (hxy : x.compare? y = some (compare u v))
    (hyz : y.compare? z = some (compare v' w)) (hxz : x.compare? z = some (compare p q)) :
    Chains x y z ↔ (u ≤ v → v' ≤ w → p ≤ q ∧ (p = q → u = v ∧ v' = w)) := by
  unfold Chains AtMost
  rw [hxy, hyz, hxz]
  simp only [Option.some.injEq, compare_lt_iff_lt, compare_eq_iff_eq, ← le_iff_lt_or_eq]

/-- Numbers that have the order of three values chain. -/
theorem chains_of_values {u v w : Extended} (hxy : x.compare? y = some (compare u v))
    (hyz : y.compare? z = some (compare v w)) (hxz : x.compare? z = some (compare u w)) :
    Chains x y z := by
  rw [chains_iff hxy hyz hxz]
  intro huv hvw
  refine ⟨huv.trans hvw, ?_⟩
  rintro rfl
  have heq := le_antisymm huv hvw
  exact ⟨heq, heq.symm⟩

theorem IsProper.exists_exactValue (hx : x.IsProper) : ∃ v, x.exactValue? = some v := by
  refine Option.ne_none_iff_exists'.mp fun hnone => ?_
  rw [exactValue?_eq_none_iff, hx.2] at hnone
  exact Bool.false_ne_true hnone

theorem near?_of_not_rational (hx : x.isRational = false) : x.near? = x.exactValue? := by
  cases x with
  | rational _ _ => cases hx
  | _ => rfl

theorem IsProper.exists_near (hx : x.IsProper) : ∃ v, x.near? = some v := by
  cases hr : x.isRational with
  | false =>
    rw [near?_of_not_rational hr]
    exact hx.exists_exactValue
  | true =>
    cases x with
    | rational num den =>
      refine ⟨double.exactValue (ratioToFloat num den), ?_⟩
      rw [near?, Binary.Format.exactValue?, (ratioToFloat_isNumber hx.1).1]
      rfl
    | _ => cases hr

/-- Numbers of which every two keep their order chain. -/
theorem chains_of_keepsOrder (hx : x.IsProper) (hy : y.IsProper) (hz : z.IsProper)
    (hxy : KeepsOrder x y) (hyz : KeepsOrder y z) (hxz : KeepsOrder x z) : Chains x y z := by
  obtain ⟨u, hu⟩ := hx.exists_near
  obtain ⟨v, hv⟩ := hy.exists_near
  obtain ⟨w, hw⟩ := hz.exists_near
  unfold KeepsOrder at hxy hyz hxz
  rw [hu, hv] at hxy
  rw [hv, hw] at hyz
  rw [hu, hw] at hxz
  exact chains_of_values hxy hyz hxz

theorem compare?_of_not_float (hx : x.IsReduced) (hy : y.IsReduced) (hfx : x.isFloat = false)
    (hfy : y.isFloat = false) : x.compare? y = Option.map₂ compare x.exactValue? y.exactValue? :=
  compare?_of_not_mixes hx hy (by simp [mixes, hfx, hfy])

/-- Numbers that are no floats chain. -/
theorem chains_of_not_float (hx : x.IsProper) (hy : y.IsProper) (hz : z.IsProper)
    (hfx : x.isFloat = false) (hfy : y.isFloat = false) (hfz : z.isFloat = false) : Chains x y z := by
  obtain ⟨u, hu⟩ := hx.exists_exactValue
  obtain ⟨v, hv⟩ := hy.exists_exactValue
  obtain ⟨w, hw⟩ := hz.exists_exactValue
  have hxy := compare?_of_not_float hx.1 hy.1 hfx hfy
  have hyz := compare?_of_not_float hy.1 hz.1 hfy hfz
  have hxz := compare?_of_not_float hx.1 hz.1 hfx hfz
  rw [hu, hv] at hxy
  rw [hv, hw] at hyz
  rw [hu, hw] at hxz
  exact chains_of_values hxy hyz hxz

theorem map_swap_map₂_compare (u v : Option Extended) :
    (Option.map₂ compare u v).map Ordering.swap = Option.map₂ compare v u := by
  cases u with
  | none => cases v <;> rfl
  | some u =>
    cases v with
    | none => rfl
    | some v => exact congrArg some (swap_compare u v)

theorem compare?_swap (hx : x.IsReduced) (hy : y.IsReduced) :
    (x.compare? y).map Ordering.swap = y.compare? x := by
  rw [compare?_eq_against hx hy, compare?_eq_against hy hx, map_swap_map₂_compare]

theorem KeepsOrder.symm (hx : x.IsReduced) (hy : y.IsReduced) (h : KeepsOrder x y) :
    KeepsOrder y x := by
  unfold KeepsOrder at h ⊢
  rw [← compare?_swap hx hy, h, map_swap_map₂_compare]

theorem isReduced_of_isFloat (hx : x.isFloat = true) : x.IsReduced := by
  cases x with
  | rational _ _ => cases hx
  | _ => trivial

theorem near?_of_isFloat (hx : x.isFloat = true) : x.near? = x.exactValue? := by
  refine near?_of_not_rational ?_
  cases x with
  | float32 _ | float64 _ => rfl
  | _ => cases hx

/-- A number keeps its order with every float. -/
theorem keepsOrder_float (hx : x.IsReduced) (hf : f.isFloat = true) : KeepsOrder x f := by
  unfold KeepsOrder
  rw [compare?_eq_against hx (isReduced_of_isFloat hf), against, against, hf, near?_of_isFloat hf,
    ite_self, if_pos rfl]

theorem keepsOrder_of_isFloat (hx : x.IsReduced) (hy : y.IsReduced)
    (hf : x.isFloat = true ∨ y.isFloat = true) : KeepsOrder x y := by
  rcases hf with hf | hf
  · exact (keepsOrder_float hy hf).symm hy hx
  · exact keepsOrder_float hx hf

theorem keepsOrder_self (hx : x.IsProper) : KeepsOrder x x := by
  obtain ⟨u, hu⟩ := hx.exists_near
  obtain ⟨v, hv⟩ := hx.exists_exactValue
  unfold KeepsOrder
  rw [compare?_eq_against hx.1 hx.1, against, hu, hv]
  split
  · rfl
  · exact congrArg some ((compare_eq_iff_eq.mpr rfl).trans (compare_eq_iff_eq.mpr rfl).symm)

/-- Two numbers that chain with the float of the second keep their order. -/
theorem keepsOrder_of_chains (ha : a.IsProper) (hb : b.IsProper) (hfa : a.isFloat = false)
    (hfb : b.isFloat = false) (hf : f.isFloat = true) (hnear : f.exactValue? = b.near?)
    (hab : Chains a f b) (hba : Chains b f a) : KeepsOrder a b := by
  obtain ⟨u, hu⟩ := ha.exists_near
  obtain ⟨v, hv⟩ := hb.exists_near
  obtain ⟨p, hp⟩ := ha.exists_exactValue
  obtain ⟨q, hq⟩ := hb.exists_exactValue
  have hfv : f.near? = some v := by rw [near?_of_isFloat hf, hnear, hv]
  have hcab := compare?_of_not_float ha.1 hb.1 hfa hfb
  have hcba := compare?_of_not_float hb.1 ha.1 hfb hfa
  have hcaf : KeepsOrder a f := keepsOrder_float ha.1 hf
  have hcbf : KeepsOrder b f := keepsOrder_float hb.1 hf
  have hcfa : KeepsOrder f a := hcaf.symm ha.1 (isReduced_of_isFloat hf)
  have hcfb : KeepsOrder f b := hcbf.symm hb.1 (isReduced_of_isFloat hf)
  unfold KeepsOrder at hcaf hcbf hcfa hcfb ⊢
  rw [hu, hfv] at hcaf
  rw [hfv, hu] at hcfa
  rw [hv, hfv] at hcbf
  rw [hfv, hv] at hcfb
  rw [hp, hq] at hcab
  rw [hq, hp] at hcba
  rw [chains_iff hcaf hcfb hcab] at hab
  rw [chains_iff hcbf hcfa hcba] at hba
  rw [hcab, hu, hv]
  -- at the float of the second number the order of the floats decides, and it stays strict
  refine congrArg some (compare_congr ⟨fun hpq => ?_, fun huv => (hab huv le_rfl).1⟩
    ⟨fun hqp => ?_, fun hvu => (hba le_rfl hvu).1⟩)
  · by_contra hnot
    have hvu := (hba le_rfl (le_of_not_ge hnot))
    exact hnot (hvu.2 (le_antisymm hvu.1 hpq)).2.ge
  · by_contra hnot
    have huv := (hab (le_of_not_ge hnot) le_rfl)
    exact hnot (huv.2 (le_antisymm huv.1 hqp)).1.ge

/-- The float of a fraction, as a number. -/
theorem exists_float (hx : x.IsReduced) (hr : x.isRational = true) :
    ∃ f : Number, f.IsProper ∧ f.isFloat = true ∧ f.exactValue? = x.near? := by
  cases x with
  | rational num den =>
    obtain ⟨hnan, hlt⟩ := ratioToFloat_isNumber hx
    refine ⟨float64 (.ofNat (ratioToFloat num den)), ⟨trivial, ?_⟩, rfl, ?_⟩
    · rw [isNaN, UInt64.toNat_ofNat_of_lt' hlt]
      exact hnan
    · rw [exactValue?, UInt64.toNat_ofNat_of_lt' hlt]
      rfl
  | _ => cases hr

/-- **Two numbers keep their order exactly if they chain with every float.** -/
theorem keepsOrder_iff (ha : a.IsProper) (hb : b.IsProper) :
    KeepsOrder a b ↔ ∀ f : Number, f.IsProper → f.isFloat = true →
      ∀ x ∈ [a, b, f], ∀ y ∈ [a, b, f], ∀ z ∈ [a, b, f], Chains x y z := by
  constructor
  · intro hab f hf hfloat x hx y hy z hz
    have hproper : ∀ x ∈ [a, b, f], x.IsProper := by
      simp [ha, hb, hf]
    have hkeeps : ∀ x ∈ [a, b, f], ∀ y ∈ [a, b, f], KeepsOrder x y := by
      have hba := hab.symm ha.1 hb.1
      have haf := keepsOrder_float ha.1 hfloat
      have hbf := keepsOrder_float hb.1 hfloat
      simp [hab, hba, haf, hbf, haf.symm ha.1 hf.1, hbf.symm hb.1 hf.1, keepsOrder_self ha,
        keepsOrder_self hb, keepsOrder_self hf]
    exact chains_of_keepsOrder (hproper x hx) (hproper y hy) (hproper z hz) (hkeeps x hx y hy)
      (hkeeps y hy z hz) (hkeeps x hx z hz)
  · intro hchains
    by_cases hfloat : a.isFloat = true ∨ b.isFloat = true
    · exact keepsOrder_of_isFloat ha.1 hb.1 hfloat
    · obtain ⟨hfa, hfb⟩ : a.isFloat = false ∧ b.isFloat = false := by simpa using hfloat
      cases hrb : b.isRational with
      | true =>
        obtain ⟨f, hf, hff, hnear⟩ := exists_float hb.1 hrb
        have hchain := hchains f hf hff
        exact keepsOrder_of_chains ha hb hfa hfb hff hnear
          (hchain a (by simp) f (by simp) b (by simp)) (hchain b (by simp) f (by simp) a (by simp))
      | false =>
        cases hra : a.isRational with
        | true =>
          obtain ⟨f, hf, hff, hnear⟩ := exists_float ha.1 hra
          have hchain := hchains f hf hff
          have hba := keepsOrder_of_chains hb ha hfb hfa hff hnear
            (hchain b (by simp) f (by simp) a (by simp)) (hchain a (by simp) f (by simp) b (by simp))
          exact hba.symm hb.1 ha.1
        | false =>
          unfold KeepsOrder
          rw [compare?_of_not_float ha.1 hb.1 hfa hfb, near?_of_not_rational hra,
            near?_of_not_rational hrb]

/-! ### Short numbers -/

/-- Different fractions with small denominators are so far apart that what is near to them has their
order. -/
theorem lt_of_near {a b c d : ℤ} {r s : ℚ} (hb : 0 < b) (hb' : b < 2 ^ 26) (hd : 0 < d)
    (hd' : d < 2 ^ 26) (hr : |r * b - a| * 2 ^ 27 < 1) (hs : |s * d - c| * 2 ^ 27 < 1)
    (hlt : a * d < c * b) : r < s := by
  have hbq : (0 : ℚ) < b := by exact_mod_cast hb
  have hdq : (0 : ℚ) < d := by exact_mod_cast hd
  have hbq' : (b : ℚ) ≤ 2 ^ 26 := by exact_mod_cast hb'.le
  have hdq' : (d : ℚ) ≤ 2 ^ 26 := by exact_mod_cast hd'.le
  -- the products are whole numbers, one apart at least
  have hgap : (a * d + 1 : ℚ) ≤ c * b := by exact_mod_cast hlt
  have hrd : (r * b - a) * d * 2 < 1 := by
    calc (r * b - a) * d * 2 ≤ |r * b - a| * d * 2 := by
          gcongr
          exact le_abs_self _
      _ ≤ |r * b - a| * 2 ^ 26 * 2 := by gcongr
      _ = |r * b - a| * 2 ^ 27 := by ring
      _ < 1 := hr
  have hsb : -(s * d - c) * b * 2 < 1 := by
    calc -(s * d - c) * b * 2 ≤ |s * d - c| * b * 2 := by
          gcongr
          exact neg_le_abs _
      _ ≤ |s * d - c| * 2 ^ 26 * 2 := by gcongr
      _ = |s * d - c| * 2 ^ 27 := by ring
      _ < 1 := hs
  refine lt_of_mul_lt_mul_right ?_ (mul_pos hbq hdq).le
  linarith

/-- A short number is a fraction with a small denominator, and its float is near. -/
theorem IsShort.exists_near (hx : x.IsReduced) (hs : x.IsShort) (hf : x.isFloat = false) :
    ∃ (a b : ℤ) (r : ℚ), x.exactValue? = some (.rat (a / b)) ∧ x.near? = some (.rat r) ∧
      0 < b ∧ b < 2 ^ 26 ∧ |r * b - a| * 2 ^ 27 < 1 := by
  cases hq : x.quantity with
  | integer n =>
    refine ⟨n.toInt, 1, n.toInt, ?_, near?_of_integer hq, by decide, by decide, by simp⟩
    rw [exactValue?_of_integer hq, Int.cast_one, div_one]
  | float bits =>
    rw [isFloat_of_float hq] at hf
    cases hf
  | ratio num den =>
    cases x with
    | rational a b =>
      cases hq
      obtain ⟨r, hnear, herror⟩ := ratioToFloat_error hx hs
      obtain ⟨hden, -⟩ := hx
      obtain ⟨hnum, hden'⟩ := hs
      refine ⟨num.toInt, den.toInt, r, rfl, hnear, by omega, hden', ?_⟩
      have hbound : |(num.toInt : ℚ)| < 2 ^ 26 := by
        rw [← Int.cast_abs, ← Nat.cast_natAbs]
        exact_mod_cast hnum
      linarith
    | _ => cases hq

/-- Numbers that are no floats and have one exact value have one float. -/
theorem near?_eq_of_exactValue?_eq (hx : x.IsReduced) (hy : y.IsReduced) (hfx : x.isFloat = false)
    (hfy : y.isFloat = false) {v : Extended} (hvx : x.exactValue? = some v)
    (hvy : y.exactValue? = some v) : x.near? = y.near? := by
  have hmix : x.mixes y = false := by simp [mixes, hfx, hfy]
  have hkey := key_eq_of_same ((same_iff_exactValue? hx hy hmix).mpr ⟨v, hvx, hvy⟩)
  cases hqx : x.quantity with
  | integer n =>
    rw [key_of_integer hqx] at hkey
    cases hqy : y.quantity with
    | integer m =>
      rw [key_of_integer hqy] at hkey
      cases hkey
      rw [near?_of_integer hqx, near?_of_integer hqy]
    | float b => simp [isFloat_of_float hqy] at hfy
    | ratio c d => simp [key_of_ratio hqy] at hkey
  | float a => simp [isFloat_of_float hqx] at hfx
  | ratio a b =>
    rw [key_of_ratio hqx] at hkey
    cases hqy : y.quantity with
    | integer m => simp [key_of_integer hqy] at hkey
    | float b => simp [isFloat_of_float hqy] at hfy
    | ratio c d =>
      rw [key_of_ratio hqy] at hkey
      cases hkey
      rw [near?_of_ratio hqx, near?_of_ratio hqy]

/-- **Short numbers keep their order.** -/
theorem keepsOrder_of_short (hx : x.IsReduced) (hy : y.IsReduced) (hsx : x.IsShort)
    (hsy : y.IsShort) : KeepsOrder x y := by
  by_cases hfloat : x.isFloat = true ∨ y.isFloat = true
  · exact keepsOrder_of_isFloat hx hy hfloat
  · obtain ⟨hfx, hfy⟩ : x.isFloat = false ∧ y.isFloat = false := by simpa using hfloat
    obtain ⟨a, b, r, hp, hu, hb, hb', hr⟩ := hsx.exists_near hx hfx
    obtain ⟨c, d, s, hq, hv, hd, hd', hs⟩ := hsy.exists_near hy hfy
    have hcompare : x.compare? y = some (compare (a * d) (c * b)) := by
      rw [compare?_of_not_float hx hy hfx hfy, hp, hq, Option.map₂_some_some, Extended.compare_rat,
        compare_fractions a c hb hd]
    unfold KeepsOrder
    rw [hcompare, hu, hv, Option.map₂_some_some, Extended.compare_rat]
    rcases lt_trichotomy (a * d) (c * b) with hlt | heq | hgt
    · rw [compare_lt_iff_lt.mpr hlt, compare_lt_iff_lt.mpr (lt_of_near hb hb' hd hd' hr hs hlt)]
    · have hvalue : (a / b : ℚ) = c / d := by
        rw [← compare_eq_iff_eq, ← compare_fractions a c hb hd, compare_eq_iff_eq]
        exact heq
      rw [← hvalue] at hq
      have hnear := near?_eq_of_exactValue?_eq hx hy hfx hfy hp hq
      rw [hu, hv, Option.some.injEq, Extended.rat_inj] at hnear
      rw [compare_eq_iff_eq.mpr heq, compare_eq_iff_eq.mpr hnear]
    · rw [compare_gt_iff_gt.mpr hgt, compare_gt_iff_gt.mpr (lt_of_near hd hd' hb hb' hs hr hgt)]

theorem floats_of_countP (h : [x, y, z].countP isFloat ≠ 1) :
    (x.isFloat = false ∧ y.isFloat = false ∧ z.isFloat = false) ∨
      ((x.isFloat = true ∨ y.isFloat = true) ∧ (y.isFloat = true ∨ z.isFloat = true) ∧
        (x.isFloat = true ∨ z.isFloat = true)) := by
  cases hx : x.isFloat <;> cases hy : y.isFloat <;> cases hz : z.isFloat <;>
    simp [hx, hy, hz] at h ⊢

end Chains

/-- **Where the order of numbers is transitive.** Three numbers chain if there is not just one float
among them, and if their fractions are short. Two numbers chain with every float exactly if they keep
their order when their fractions are rounded. -/
theorem compare?_transitive (x y z : Number) (hx : x.IsProper) (hy : y.IsProper) (hz : z.IsProper) :
    ([x, y, z].countP isFloat ≠ 1 → Chains x y z) ∧
      (x.IsShort → y.IsShort → z.IsShort → Chains x y z) ∧
      (KeepsOrder x y ↔ ∀ f : Number, f.IsProper → f.isFloat = true →
        ∀ u ∈ [x, y, f], ∀ v ∈ [x, y, f], ∀ w ∈ [x, y, f], Chains u v w) := by
  refine ⟨fun hcount => ?_, fun hsx hsy hsz => ?_, keepsOrder_iff hx hy⟩
  · rcases floats_of_countP hcount with ⟨hfx, hfy, hfz⟩ | ⟨hxy, hyz, hxz⟩
    · exact chains_of_not_float hx hy hz hfx hfy hfz
    · exact chains_of_keepsOrder hx hy hz (keepsOrder_of_isFloat hx.1 hy.1 hxy)
        (keepsOrder_of_isFloat hy.1 hz.1 hyz) (keepsOrder_of_isFloat hx.1 hz.1 hxz)
  · exact chains_of_keepsOrder hx hy hz (keepsOrder_of_short hx.1 hy.1 hsx hsy)
      (keepsOrder_of_short hy.1 hz.1 hsy hsz) (keepsOrder_of_short hx.1 hz.1 hsx hsz)

/-- Two short fractions next to each other, and the float of the first. -/
theorem compare?_transitive_neighbours :
    let x := rational 67108861 67108862
    let y := float64 0x3feffffff7fffffc
    let z := rational 67108862 67108863
    x.IsProper ∧ y.IsProper ∧ z.IsProper ∧ x.IsShort ∧ y.IsShort ∧ z.IsShort ∧
      x.compare? y = some .eq ∧ y.compare? z = some .lt ∧ Chains x y z := by
  have hx : (rational 67108861 67108862).IsProper := ⟨by constructor <;> decide +kernel, rfl⟩
  have hy : (float64 0x3feffffff7fffffc).IsProper := ⟨trivial, by decide +kernel⟩
  have hz : (rational 67108862 67108863).IsProper := ⟨by constructor <;> decide +kernel, rfl⟩
  have hsx : (rational 67108861 67108862).IsShort := by constructor <;> decide +kernel
  have hsz : (rational 67108862 67108863).IsShort := by constructor <;> decide +kernel
  exact ⟨hx, hy, hz, hsx, trivial, hsz, by decide +kernel, by decide +kernel,
    (compare?_transitive _ _ _ hx hy hz).2.1 hsx trivial hsz⟩

/-- The fraction is one half above the integer, and its float is the integer. -/
theorem half_above_not_chains :
    let x := rational 18014398509481985 2
    let y := float64 0x4340000000000000
    let z := small 9007199254740992
    x.IsProper ∧ y.IsProper ∧ z.IsProper ∧ x.compare? y = some .eq ∧ y.compare? z = some .eq ∧
      x.compare? z = some .gt ∧ ¬Chains x y z := by
  have hx : (rational 18014398509481985 2).IsProper := ⟨by constructor <;> decide +kernel, rfl⟩
  have hy : (float64 0x4340000000000000).IsProper := ⟨trivial, by decide +kernel⟩
  have hxy : (rational 18014398509481985 2).compare? (float64 0x4340000000000000) = some .eq := by
    decide +kernel
  have hyz : (float64 0x4340000000000000).compare? (small 9007199254740992) = some .eq := by
    decide +kernel
  have hxz : (rational 18014398509481985 2).compare? (small 9007199254740992) = some .gt := by
    decide +kernel
  refine ⟨hx, hy, ⟨trivial, rfl⟩, hxy, hyz, hxz, ?_⟩
  intro hchains
  have hle := (hchains (Or.inr hxy) (Or.inr hyz)).1
  unfold AtMost at hle
  rw [hxz] at hle
  simp at hle

end Number

end ValueHeap
