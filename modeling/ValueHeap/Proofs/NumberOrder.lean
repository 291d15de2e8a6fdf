import ValueHeap.Proofs.ExactValue

/-!
# The order of numbers

Numbers have the order of the values that they stand for. An integer has more digits than a float, so
the two are not compared as floats: a float past the integers is settled by its side, any other is cut
to an integer, and what was cut off counts only if the integers are the same. Fractions are compared by
their cross products, for which 128 bits are enough. Only a fraction that meets a float is rounded first;
`against` is the value at which one number meets another.

Results:
* `Binary.Format.value_whole`, `Binary.Format.compare?_zero_sub`: cutting a float to its whole part is
  exact, and a difference of floats has the sign of the difference of their values.
* `Number.compareIntFloat_eq`: an integer and a float have the order of their exact values.
* `Number.compare?_eq_against`: any two numbers have the order of the values at which they meet.
* `Number.same_iff_exactValue?`: numbers are the same exactly if they have one exact value.
* `Number.compare?_exact`: with these, the order is exact on all pairs but a fraction and a float.
-/

namespace ValueHeap

namespace Binary.Format

variable {f : Format} {p q : Nat}

/-! ## Whole parts and differences -/

theorem natAbs_truncate (f : Format) (p : Nat) :
    (f.truncate p).natAbs = f.units (f.magnitude p) / f.one := by
  unfold truncate value
  rw [Int.natAbs_tdiv]
  split
  · rw [Int.natAbs_neg]
    rfl
  · rfl

/-- The whole part of a magnitude is a magnitude. -/
theorem units_round_whole {m : Nat} (hm : m < f.infinity) :
    f.round (f.units m / f.one * f.one) 1 < f.infinity ∧
      f.units (f.round (f.units m / f.one * f.one) 1) = f.units m / f.one * f.one := by
  obtain ⟨k, s, hs, hunits⟩ := f.exists_significand m
  have hexact : f.units (f.nearest (f.units m / f.one * f.one) 1) = f.units m / f.one * f.one := by
    rw [one_eq, hunits]
    by_cases hk : f.unitExponent ≤ k
    · -- a magnitude at that step is whole
      rw [Nat.div_mul_cancel (Nat.dvd_mul_left_of_dvd (Nat.pow_dvd_pow 2 hk) s)]
      exact units_nearest_of_significand hs
    · have hle : s * 2 ^ k / 2 ^ f.unitExponent ≤ s := by
        refine Nat.div_le_of_le_mul ?_
        rw [Nat.mul_comm]
        exact Nat.mul_le_mul_right s (Nat.pow_le_pow_right (by decide) (by omega))
      exact units_nearest_of_significand (lt_of_le_of_lt hle hs)
  have hlt : f.units (f.nearest (f.units m / f.one * f.one) 1) < f.units f.infinity := by
    rw [hexact]
    exact lt_of_le_of_lt (Nat.div_mul_le_self _ _) (f.units_strictMono hm)
  rw [round_eq_nearest hlt]
  exact ⟨f.units_strictMono.lt_iff_lt.mp hlt, hexact⟩

/-- The whole part of a finite pattern is finite and has the value of the integer. -/
theorem value_whole (hp : f.isFinite p = true) :
    f.isFinite (f.whole p) = true ∧ f.value (f.whole p) = f.truncate p * f.one := by
  have hwhole : f.whole p = f.withSign (f.isNegative p)
      (f.round (f.units (f.magnitude p) / f.one * f.one) 1) := by
    unfold whole
    rw [if_pos hp, natAbs_truncate]
  obtain ⟨hlt, hunits⟩ := units_round_whole (isFinite_iff.mp hp)
  have hsign := hlt.trans f.infinity_lt_signBit
  constructor
  · rw [isFinite_iff, hwhole, magnitude_withSign hsign]
    exact hlt
  · rw [hwhole, value_withSign hsign, hunits, truncate, value]
    split
    · rw [Int.neg_tdiv, neg_mul, Int.natCast_mul, Int.ofNat_tdiv]
    · rw [Int.natCast_mul, Int.ofNat_tdiv]

theorem value_neg (p : Nat) : f.value (f.neg p) = -f.value p := by
  have hm : f.magnitude p < f.signBit := Nat.mod_lt _ (two_pow_pos _)
  unfold neg
  rw [value_withSign hm, value]
  cases f.isNegative p <;> simp

theorem magnitude_neg (p : Nat) : f.magnitude (f.neg p) = f.magnitude p :=
  magnitude_withSign (Nat.mod_lt _ (two_pow_pos _)) _

theorem round_pos (hf : 1 < f.exponent) {n : Nat} (hn : 0 < n) : 0 < f.round n 1 := by
  have hunits : 0 < f.units (f.nearest n 1) := by
    have hge := le_divNearest n (1 * 2 ^ f.roundStep n 1)
    have hquot : 0 < n / (1 * 2 ^ f.roundStep n 1) := by
      rcases (f.quotient_bounds n 1).2 with hzero | hfull
      · rw [hzero]
        simpa using hn
      · exact lt_of_lt_of_le (Nat.two_pow_pos _) hfull
    rw [units_nearest]
    exact Nat.mul_pos (by omega) (Nat.two_pow_pos _)
  have hnearest : 0 < f.nearest n 1 := by
    rw [← f.units_zero] at hunits
    exact f.units_strictMono.lt_iff_lt.mp hunits
  exact Nat.lt_min.mpr ⟨hnearest, infinity_pos hf⟩

/-- The sum of two finite patterns has the sign of the sum of their values. -/
theorem place_addNumbers (hf : 1 < f.exponent) (hp : f.isInfinite p = false)
    (hq : f.isInfinite q = false) :
    f.isNaN (f.addNumbers p q) = false ∧
      compare 0 (f.place (f.addNumbers p q)) = compare 0 (f.value p + f.value q) := by
  have hinf := f.infinity_lt_signBit
  have hle (n : Nat) : f.round n 1 ≤ f.infinity := Nat.min_le_right _ _
  unfold addNumbers
  simp only [hp, hq, Bool.false_eq_true, if_false]
  generalize f.value p + f.value q = s
  split
  · next hs =>
    have hzero : 0 < f.signBit := two_pow_pos _
    rw [isNaN, magnitude_withSign hzero, place_withSign hzero, hs]
    exact ⟨by simp, by simp⟩
  · next hs =>
    have hround := round_pos hf (show 0 < s.natAbs by omega)
    have hsign := lt_of_le_of_lt (hle s.natAbs) hinf
    rw [isNaN, magnitude_withSign hsign, place_withSign hsign]
    refine ⟨by simpa using hle _, ?_⟩
    by_cases hneg : s < 0
    · rw [if_pos (decide_eq_true hneg), compare_gt_iff_gt.mpr hneg, compare_gt_iff_gt.mpr (by omega)]
    · rw [if_neg (by simpa using hneg), compare_lt_iff_lt.mpr (show 0 < s by omega),
        compare_lt_iff_lt.mpr (by omega)]

/-- **A difference has the sign of the difference of the values.** -/
theorem compare?_zero_sub (hf : 1 < f.exponent) (hp : f.isFinite p = true)
    (hq : f.isFinite q = true) :
    f.compare? 0 (f.sub p q) = some (compare 0 (f.value p - f.value q)) := by
  have hnp := isNaN_eq_false_of_isFinite hp
  have hnq := isNaN_eq_false_of_isFinite hq
  have hip := isInfinite_eq_false_of_isFinite hp
  have hiq : f.isInfinite (f.neg q) = false := by
    rw [isInfinite, magnitude_neg]
    exact isInfinite_eq_false_of_isFinite hq
  have hzero : f.isNaN 0 = false ∧ f.place 0 = 0 := by
    simp [isNaN, place, magnitude]
  obtain ⟨hnan, hplace⟩ := place_addNumbers hf hip hiq
  unfold sub propagating compare?
  simp only [hnp, hnq, Bool.false_eq_true, if_false]
  rw [hnan, hzero.1, hzero.2, hplace, value_neg]
  rfl

end Binary.Format

/-! ## An integer and a float -/

/-- An integer and a quotient that is cut towards zero: what is cut off counts only if the integers
are the same. -/
theorem compare_then_rest (n v : ℤ) {u : ℤ} (hu : 0 < u) :
    (compare n (v.tdiv u)).then (compare 0 (v - v.tdiv u * u)) = compare (n * u) v := by
  have hrest : v - v.tdiv u * u = v.tmod u := by
    rw [Int.tdiv_mul_self, sub_sub_cancel]
  have hlow := Int.lt_tmod_of_pos v hu
  have hhigh := Int.tmod_lt_of_pos v hu
  rcases lt_trichotomy n (v.tdiv u) with hlt | heq | hgt
  · have hmul : n * u ≤ (v.tdiv u - 1) * u := mul_le_mul_of_nonneg_right (by omega) hu.le
    have hv : n * u < v := by linarith
    rw [compare_lt_iff_lt.mpr hlt, compare_lt_iff_lt.mpr hv]
    rfl
  · rw [compare_eq_iff_eq.mpr heq, heq, Ordering.eq_then]
    refine compare_congr ?_ ?_
    · constructor <;> intro <;> linarith
    · constructor <;> intro <;> linarith
  · have hmul : (v.tdiv u + 1) * u ≤ n * u := mul_le_mul_of_nonneg_right (by omega) hu.le
    have hv : v < n * u := by linarith
    rw [compare_gt_iff_gt.mpr hgt, compare_gt_iff_gt.mpr hv]
    rfl

namespace Number

open Binary (single double)
open Binary.Format

theorem compare_int_denoted (n : ℤ) (p : Nat) :
    compare (n : ℚ) (double.denoted p) = compare (n * double.one) (double.value p) := by
  have hone : (0 : ℚ) < double.one := by exact_mod_cast double.one_pos
  rw [denoted_eq (by decide)]
  refine compare_congr ?_ ?_
  · rw [le_div_iff₀ hone]
    exact_mod_cast Iff.rfl
  · rw [div_le_iff₀ hone]
    exact_mod_cast Iff.rfl

theorem value_pastInt64 : double.value pastInt64 = 2 ^ 63 * double.one := by
  have hunits : double.units (1085 * 2 ^ double.fraction + 2 ^ double.fraction) =
      2 ^ double.fraction * 2 ^ 1085 :=
    units_of_significand (by decide) (Or.inr le_rfl)
  have hpow : 2 ^ double.fraction * 2 ^ 1085 = 2 ^ 63 * double.one := by
    rw [one_eq, ← pow_add, ← pow_add]
    congr 1
  have hvalue : double.value pastInt64 = double.units pastInt64 := rfl
  have hpast : pastInt64 = 1085 * 2 ^ double.fraction + 2 ^ double.fraction := rfl
  rw [hvalue, hpast, hunits, hpow]
  push_cast
  rfl

theorem denoted_pastInt64 : double.denoted pastInt64 = 2 ^ 63 := by
  have hone : (double.one : ℚ) ≠ 0 := by exact_mod_cast double.one_pos.ne'
  rw [denoted_eq (by decide), value_pastInt64, div_eq_iff hone]
  push_cast
  rfl

theorem exactValue_pastInt64 : double.exactValue pastInt64 = .rat (2 ^ 63) := by
  rw [exactValue_of_finite (by decide), denoted_pastInt64]

theorem exactValue_neg_pastInt64 : double.exactValue (double.neg pastInt64) = .rat (-2 ^ 63) := by
  rw [exactValue_of_finite (by decide), denoted_eq (by decide), value_neg, Int.cast_neg, neg_div,
    ← denoted_eq (by decide), denoted_pastInt64]

/-- The bounds of the 64-bit integers, on the number line. -/
theorem toInt_bounds (n : Int64) : (-2 ^ 63 : ℚ) ≤ n.toInt ∧ (n.toInt : ℚ) < 2 ^ 63 := by
  have hlow := n.le_toInt
  have hhigh := n.toInt_lt
  constructor
  · exact_mod_cast hlow
  · exact_mod_cast hhigh

/-- A float with a whole part among the 64-bit integers becomes that integer. -/
theorem toInt64_whole {p : Nat} (hp : double.isFinite p = true)
    (hlow : -2 ^ 63 * (double.one : ℤ) ≤ double.value p)
    (hhigh : double.value p < 2 ^ 63 * double.one) :
    (toInt64 (double.whole p)).toInt = double.truncate p := by
  obtain ⟨hfinite, hvalue⟩ := value_whole hp
  have hone : (0 : ℤ) < double.one := by exact_mod_cast double.one_pos
  have hsame : double.truncate (double.whole p) = double.truncate p := by
    rw [truncate, hvalue, Int.mul_tdiv_cancel _ hone.ne']
  have hlow' : -2 ^ 63 ≤ double.truncate p := by
    have := Int.tdiv_le_tdiv hone hlow
    rwa [Int.mul_tdiv_cancel _ hone.ne'] at this
  have hhigh' : double.truncate p < 2 ^ 63 := by
    refine lt_of_mul_lt_mul_right (b := double.truncate p) ?_ hone.le
    have hsplit := Int.mul_tdiv_add_tmod (double.value p) double.one
    have hrest := Int.lt_tmod_of_pos (double.value p) hone
    rw [truncate, mul_comm]
    rcases le_or_gt 0 (double.value p) with hpos | hneg
    · linarith [Int.tmod_nonneg (double.one : ℤ) hpos]
    · linarith
  unfold toInt64
  rw [isNaN_eq_false_of_isFinite hfinite, hsame, if_neg Bool.false_ne_true]
  rw [Int64.toInt_ofInt_of_le] <;> omega

/-- A float among the 64-bit integers, cut and then compared. -/
theorem compare_whole (n : ℤ) {p : Nat} (hp : double.isFinite p = true) :
    (compare n (double.truncate p)).then
        (compare 0 (double.value p - double.value (double.whole p))) =
      compare (Extended.rat n) (double.exactValue p) := by
  have hone : (0 : ℤ) < double.one := by exact_mod_cast double.one_pos
  rw [(value_whole hp).2, truncate, compare_then_rest n _ hone,
    exactValue_of_finite (isInfinite_eq_false_of_isFinite hp), Extended.compare_rat,
    compare_int_denoted]

/-- A float between the ends of the 64-bit integers is finite, and its value is between theirs. -/
theorem value_of_between {p : Nat} (hnan : double.isNaN p = false)
    (hlow : Extended.rat (-2 ^ 63) ≤ double.exactValue p)
    (hhigh : double.exactValue p < Extended.rat (2 ^ 63)) :
    double.isFinite p = true ∧ -2 ^ 63 * (double.one : ℤ) ≤ double.value p ∧
      double.value p < 2 ^ 63 * double.one := by
  have hone : (0 : ℚ) < double.one := by exact_mod_cast double.one_pos
  cases hinf : double.isInfinite p with
  | true =>
    rw [exactValue_of_infinite hinf] at hlow hhigh
    cases hneg : double.isNegative p with
    | true =>
      rw [hneg] at hlow
      exact absurd hlow (not_le_of_gt (Extended.bot_lt_rat _))
    | false =>
      rw [hneg] at hhigh
      exact absurd hhigh not_top_lt
  | false =>
    rw [exactValue_of_finite hinf] at hlow hhigh
    rw [Extended.rat_le_rat, denoted_eq (by decide), le_div_iff₀ hone] at hlow
    rw [Extended.rat_lt_rat, denoted_eq (by decide), div_lt_iff₀ hone] at hhigh
    exact ⟨isFinite_of_not hnan hinf, by exact_mod_cast hlow, by exact_mod_cast hhigh⟩

/-- **An integer and a float compare by their exact values.** -/
theorem compareIntFloat_eq (n : Int64) (bits : UInt64) :
    compareIntFloat n bits =
      (double.exactValue? bits.toNat).map (compare (Extended.rat n.toInt)) := by
  unfold compareIntFloat
  simp only
  generalize bits.toNat = p
  cases hnan : double.isNaN p with
  | true => simp [exactValue?, hnan]
  | false =>
    obtain ⟨hnlow, hnhigh⟩ := toInt_bounds n
    have hexact : double.exactValue? p = some (double.exactValue p) := by
      rw [exactValue?, hnan]
      rfl
    rw [compare?_of_numbers (by decide) hnan (by decide),
      compare?_of_numbers (by decide) hnan (by decide), exactValue_pastInt64,
      exactValue_neg_pastInt64, hexact, Option.map_some, if_neg Bool.false_ne_true]
    split
    · next hside =>
      have hge : Extended.rat (2 ^ 63) ≤ double.exactValue p := by
        rw [bne_iff_ne, ne_eq, Option.some.injEq, compare_lt_iff_lt, not_lt] at hside
        exact hside
      rw [compare_lt_iff_lt.mpr (lt_of_lt_of_le (Extended.rat_lt_rat.mpr hnhigh) hge)]
    · next hnotpast =>
      have hlt : double.exactValue p < Extended.rat (2 ^ 63) := by
        rw [bne_iff_ne, ne_eq, not_not, Option.some.injEq, compare_lt_iff_lt] at hnotpast
        exact hnotpast
      split
      · next hside =>
        rw [beq_iff_eq, Option.some.injEq, compare_lt_iff_lt] at hside
        rw [compare_gt_iff_gt.mpr (lt_of_lt_of_le hside (Extended.rat_le_rat.mpr hnlow))]
      · next hnotbelow =>
        have hge : Extended.rat (-2 ^ 63) ≤ double.exactValue p := by
          rw [beq_iff_eq, Option.some.injEq, compare_lt_iff_lt, not_lt] at hnotbelow
          exact hnotbelow
        obtain ⟨hfinite, hlow, hhigh⟩ := value_of_between hnan hge hlt
        rw [toInt64_whole hfinite hlow hhigh,
          compare?_zero_sub (by decide) hfinite (value_whole hfinite).1,
          ← compare_whole n.toInt hfinite]
        cases compare n.toInt (double.truncate p) <;> rfl

/-! ## Fractions -/

theorem toInt_wide (n : Int64) : (wide n).toInt = n.toInt :=
  BitVec.toInt_signExtend_of_le (by decide)

/-- **The product of two 64-bit integers fits in 128 bits.** -/
theorem wide_no_overflow (a b : Int64) : (wide a).smulOverflow (wide b) = false := by
  have hbound (n : Int64) : n.toInt.natAbs ≤ 2 ^ 63 := by
    have hlow := n.le_toInt
    have hhigh := n.toInt_lt
    omega
  have hmul : (a.toInt * b.toInt).natAbs ≤ 2 ^ 63 * 2 ^ 63 := by
    rw [Int.natAbs_mul]
    exact Nat.mul_le_mul (hbound a) (hbound b)
  rw [BitVec.smulOverflow, toInt_wide, toInt_wide]
  generalize a.toInt * b.toInt = n at hmul
  rw [Bool.or_eq_false_iff, decide_eq_false_iff_not, decide_eq_false_iff_not]
  omega

theorem toInt_wide_mul (a b : Int64) : (wide a * wide b).toInt = a.toInt * b.toInt := by
  rw [BitVec.toInt_mul_of_not_smulOverflow (by simp [wide_no_overflow]), toInt_wide, toInt_wide]

/-- Fractions with positive denominators compare by their cross products. -/
theorem compare_fractions (a c : ℤ) {b d : ℤ} (hb : 0 < b) (hd : 0 < d) :
    compare (a * d) (c * b) = compare (a / b : ℚ) (c / d : ℚ) := by
  have hb' : (0 : ℚ) < b := by exact_mod_cast hb
  have hd' : (0 : ℚ) < d := by exact_mod_cast hd
  refine compare_congr ?_ ?_
  · rw [div_le_div_iff₀ hb' hd']
    exact_mod_cast Iff.rfl
  · rw [div_le_div_iff₀ hd' hb']
    exact_mod_cast Iff.rfl

/-! ## Exact values of numbers -/

/-- The exact value of a number. A NaN has none. -/
def exactValue? : Number → Option Extended
  | small n => some (.rat n.toInt)
  | int32 n => some (.rat n.toInt)
  | int64 n => some (.rat n.toInt)
  | float32 bits => single.exactValue? bits.toNat
  | float64 bits => double.exactValue? bits.toNat
  | rational num den => some (.rat (num.toInt / den.toInt))

/-- Fractions are in lowest terms, with a denominator above one. -/
def IsReduced : Number → Prop
  | rational num den => 1 < den.toInt ∧ num.toInt.natAbs.Coprime den.toInt.natAbs
  | _ => True

def isRational : Number → Bool
  | rational .. => true
  | _ => false

/-- Is one of the numbers a fraction and the other a float? -/
def mixes (x y : Number) : Bool := x.isRational && y.isFloat || x.isFloat && y.isRational

/-- The value at which a number meets a float: a fraction is rounded first. -/
def near? : Number → Option Extended
  | rational num den => double.exactValue? (ratioToFloat num den)
  | x => x.exactValue?

/-- The value at which `x` meets `y`. -/
def against (x y : Number) : Option Extended := if y.isFloat then x.near? else x.exactValue?

section Quantities

variable {x y : Number} {n num den : Int64} {bits : UInt64}

theorem exactValue?_of_integer (hx : x.quantity = .integer n) :
    x.exactValue? = some (.rat n.toInt) := by
  cases x with
  | float32 _ | float64 _ | rational _ _ => cases hx
  | int32 m =>
    cases hx
    rw [Int32.toInt_toInt64]
    rfl
  | _ =>
    cases hx
    rfl

/-- A float of either width has the exact value of its 64-bit pattern. -/
theorem exactValue?_of_float (hx : x.quantity = .float bits) :
    x.exactValue? = double.exactValue? bits.toNat := by
  cases x with
  | float32 narrow =>
    cases hx
    rw [UInt64.toNat_ofNat_of_lt' (Binary.widen_lt _)]
    show single.exactValue? narrow.toNat = _
    unfold Binary.Format.exactValue?
    rw [Binary.isNaN_widen]
    cases hnan : single.isNaN narrow.toNat with
    | true => rfl
    | false => rw [Binary.exactValue_widen hnan]
  | float64 wide =>
    cases hx
    rfl
  | _ => cases hx

theorem exactValue?_of_ratio (hx : x.quantity = .ratio num den) :
    x.exactValue? = some (.rat (num.toInt / den.toInt)) := by
  cases x with
  | rational a b =>
    cases hx
    rfl
  | _ => cases hx

theorem IsReduced.of_ratio (hr : x.IsReduced) (hx : x.quantity = .ratio num den) :
    1 < den.toInt ∧ num.toInt.natAbs.Coprime den.toInt.natAbs := by
  cases x with
  | rational a b =>
    cases hx
    exact hr
  | _ => cases hx

theorem isFloat_of_float (hx : x.quantity = .float bits) : x.isFloat = true := by
  cases x with
  | float32 _ | float64 _ => rfl
  | _ => cases hx

theorem isRational_of_ratio (hx : x.quantity = .ratio num den) : x.isRational = true := by
  cases x with
  | rational _ _ => rfl
  | _ => cases hx

theorem isFloat_of_integer (hx : x.quantity = .integer n) : x.isFloat = false := by
  cases x with
  | float32 _ | float64 _ => cases hx
  | _ => rfl

theorem isFloat_of_ratio (hx : x.quantity = .ratio num den) : x.isFloat = false := by
  cases x with
  | float32 _ | float64 _ => cases hx
  | _ => rfl

theorem near?_of_integer (hx : x.quantity = .integer n) : x.near? = some (.rat n.toInt) := by
  rw [← exactValue?_of_integer hx]
  cases x with
  | rational _ _ => cases hx
  | _ => rfl

theorem near?_of_float (hx : x.quantity = .float bits) : x.near? = double.exactValue? bits.toNat := by
  rw [← exactValue?_of_float hx]
  cases x with
  | rational _ _ => cases hx
  | _ => rfl

theorem near?_of_ratio (hx : x.quantity = .ratio num den) :
    x.near? = double.exactValue? (ratioToFloat num den) := by
  cases x with
  | rational _ _ =>
    cases hx
    rfl
  | _ => cases hx

theorem exactValue?_eq_none_iff (x : Number) : x.exactValue? = none ↔ x.isNaN = true := by
  cases x with
  | float32 bits => simp [exactValue?, Binary.Format.exactValue?, isNaN]
  | float64 bits => simp [exactValue?, Binary.Format.exactValue?, isNaN]
  | _ => simp [exactValue?, isNaN]

end Quantities

/-! ## The order of two numbers -/

theorem swap_compare {α : Type*} [LinearOrder α] (a b : α) : (compare a b).swap = compare b a := by
  rw [← cmp_eq_compare, cmp_swap, cmp_eq_compare]

section Order

variable {x y : Number}

/-- **Numbers have the order of the values at which they meet.** -/
theorem compare?_eq_against (hx : x.IsReduced) (hy : y.IsReduced) :
    x.compare? y = Option.map₂ compare (x.against y) (y.against x) := by
  unfold compare? against
  cases hqx : x.quantity with
  | integer n =>
    rw [isFloat_of_integer hqx, near?_of_integer hqx, exactValue?_of_integer hqx, ite_self]
    cases hqy : y.quantity with
    | integer m =>
      rw [exactValue?_of_integer hqy]
      exact congrArg some (compare_congr (by rw [Extended.rat_le_rat, Int.cast_le])
        (by rw [Extended.rat_le_rat, Int.cast_le]))
    | float b =>
      rw [exactValue?_of_float hqy]
      exact compareIntFloat_eq n b
    | ratio c d =>
      obtain ⟨hd, -⟩ := hy.of_ratio hqy
      have hprod := compare_fractions n.toInt c.toInt Int.one_pos (show 0 < d.toInt by omega)
      rw [Int.cast_one, div_one, mul_one] at hprod
      rw [exactValue?_of_ratio hqy]
      simp only [toInt_wide_mul, toInt_wide, hprod]
      exact congrArg some (Extended.compare_rat _ _).symm
  | float a =>
    rw [isFloat_of_float hqx, near?_of_float hqx, exactValue?_of_float hqx, ite_self]
    cases hqy : y.quantity with
    | integer n =>
      rw [near?_of_integer hqy]
      simp only [compareIntFloat_eq, Option.map_map]
      cases double.exactValue? a.toNat with
      | none => rfl
      | some v => exact congrArg some (swap_compare _ _)
    | float b =>
      rw [near?_of_float hqy]
      exact Binary.Format.compare?_eq_exactValue (by decide) _ _
    | ratio c d =>
      rw [near?_of_ratio hqy]
      exact Binary.Format.compare?_eq_exactValue (by decide) _ _
  | ratio a b =>
    obtain ⟨hb, -⟩ := hx.of_ratio hqx
    rw [isFloat_of_ratio hqx, near?_of_ratio hqx, exactValue?_of_ratio hqx]
    cases hqy : y.quantity with
    | integer n =>
      have hprod := compare_fractions a.toInt n.toInt (show 0 < b.toInt by omega) Int.one_pos
      rw [Int.cast_one, div_one, mul_one] at hprod
      rw [isFloat_of_integer hqy, exactValue?_of_integer hqy]
      simp only [toInt_wide_mul, toInt_wide, hprod]
      exact congrArg some (Extended.compare_rat _ _).symm
    | float b =>
      rw [isFloat_of_float hqy, exactValue?_of_float hqy]
      exact Binary.Format.compare?_eq_exactValue (by decide) _ _
    | ratio c d =>
      obtain ⟨hd, -⟩ := hy.of_ratio hqy
      rw [isFloat_of_ratio hqy, exactValue?_of_ratio hqy]
      simp only [toInt_wide_mul,
        compare_fractions a.toInt c.toInt (show 0 < b.toInt by omega) (show 0 < d.toInt by omega)]
      exact congrArg some (Extended.compare_rat _ _).symm

/-- Values that are both there and are the same. -/
theorem map₂_compare_eq_iff {a b : Option Extended} :
    Option.map₂ compare a b = some .eq ↔ ∃ v, a = some v ∧ b = some v := by
  rw [Option.map₂_eq_some_iff]
  constructor
  · rintro ⟨v, w, rfl, rfl, hvw⟩
    rw [compare_eq_iff_eq] at hvw
    exact ⟨v, rfl, by rw [hvw]⟩
  · rintro ⟨v, rfl, rfl⟩
    exact ⟨v, v, rfl, rfl, compare_eq_iff_eq.mpr rfl⟩

theorem wholeFloat?_eq_toInt? {bits : UInt64} {n : Int64} :
    wholeFloat? bits = some n ↔ double.toInt? bits.toNat = some n.toInt := by
  have hlow := n.le_toInt
  have hhigh := n.toInt_lt
  unfold wholeFloat?
  cases double.toInt? bits.toNat with
  | none => simp
  | some m =>
    have hfits : fitsInt64 m = true ↔ -2 ^ 63 ≤ m ∧ m < 2 ^ 63 := by
      rw [fitsInt64, Bool.and_eq_true, decide_eq_true_eq, decide_eq_true_eq]
      rfl
    simp only [Option.some.injEq]
    by_cases hm : fitsInt64 m = true
    · obtain ⟨hml, hmh⟩ := hfits.mp hm
      rw [if_pos hm, Option.some.injEq, ← Int64.toInt_inj, Int64.toInt_ofInt_of_le hml hmh]
    · rw [if_neg hm]
      refine iff_of_false (by simp) ?_
      rintro rfl
      exact hm (hfits.mpr ⟨hlow, hhigh⟩)

/-- A float stands for a 64-bit integer exactly when that is its exact value. -/
theorem wholeFloat?_eq_some_iff {bits : UInt64} {n : Int64} :
    wholeFloat? bits = some n ↔ double.exactValue? bits.toNat = some (.rat n.toInt) := by
  rw [wholeFloat?_eq_toInt?, toInt?_eq_some_iff, exactValue?_eq_int_iff (by decide)]

/-- A fraction in lowest terms is no integer. -/
theorem ratio_ne_integer {a b : ℤ} (hb : 1 < b) (hcop : a.natAbs.Coprime b.natAbs) (n : ℤ) :
    (a / b : ℚ) ≠ n := by
  intro heq
  have hone : (a / b : ℚ) = n / (1 : ℤ) := by rw [heq, Int.cast_one, div_one]
  have := (Rat.div_int_inj (by omega) Int.one_pos hcop (Nat.coprime_one_right _) hone).2
  omega

theorem same_iff_of_swapped
    (h : y.same x = true ↔ ∃ v, y.exactValue? = some v ∧ x.exactValue? = some v) :
    x.same y = true ↔ ∃ v, x.exactValue? = some v ∧ y.exactValue? = some v := by
  rw [same_comm, h]
  exact exists_congr fun v => and_comm

theorem same_integer_iff {n : Int64} (hqx : x.quantity = .integer n) (hy : y.IsReduced) :
    x.same y = true ↔ ∃ v, x.exactValue? = some v ∧ y.exactValue? = some v := by
  rw [exactValue?_of_integer hqx]
  simp only [Option.some.injEq, exists_eq_left']
  unfold same
  rw [hqx]
  cases hqy : y.quantity with
  | integer m =>
    rw [exactValue?_of_integer hqy, Option.some.injEq, Extended.rat_inj, Int.cast_inj,
      Int64.toInt_inj]
    exact beq_iff_eq.trans eq_comm
  | float b =>
    rw [exactValue?_of_float hqy, ← wholeFloat?_eq_some_iff]
    exact beq_iff_eq
  | ratio c d =>
    obtain ⟨hd, hcop⟩ := hy.of_ratio hqy
    rw [exactValue?_of_ratio hqy, Option.some.injEq, Extended.rat_inj]
    exact iff_of_false Bool.false_ne_true (ratio_ne_integer hd hcop _)

/-- **Numbers that are the same have one exact value**, unless they are a fraction and a float. -/
theorem same_iff_exactValue? (hx : x.IsReduced) (hy : y.IsReduced) (hmix : x.mixes y = false) :
    x.same y = true ↔ ∃ v, x.exactValue? = some v ∧ y.exactValue? = some v := by
  cases hqx : x.quantity with
  | integer n => exact same_integer_iff hqx hy
  | float a =>
    cases hqy : y.quantity with
    | integer n => exact same_iff_of_swapped (same_integer_iff hqy hx)
    | float b =>
      unfold same
      rw [hqx, hqy, exactValue?_of_float hqx, exactValue?_of_float hqy, ← map₂_compare_eq_iff,
        ← Binary.Format.compare?_eq_exactValue (by decide)]
      exact beq_iff_eq
    | ratio c d => simp [mixes, isFloat_of_float hqx, isRational_of_ratio hqy] at hmix
  | ratio a b =>
    cases hqy : y.quantity with
    | integer n => exact same_iff_of_swapped (same_integer_iff hqy hx)
    | float b => simp [mixes, isFloat_of_float hqy, isRational_of_ratio hqx] at hmix
    | ratio c d =>
      obtain ⟨hb, hcop⟩ := hx.of_ratio hqx
      obtain ⟨hd, hcop'⟩ := hy.of_ratio hqy
      have hinj : (c.toInt / d.toInt : ℚ) = a.toInt / b.toInt ↔ a = c ∧ b = d := by
        constructor
        · intro heq
          have hparts := Rat.div_int_inj (by omega) (by omega) hcop hcop' heq.symm
          exact ⟨Int64.toInt_inj.mp hparts.1, Int64.toInt_inj.mp hparts.2⟩
        · rintro ⟨rfl, rfl⟩
          rfl
      rw [exactValue?_of_ratio hqx, exactValue?_of_ratio hqy]
      simp only [Option.some.injEq, exists_eq_left']
      rw [Extended.rat_inj, hinj]
      simp [same, hqx, hqy]

theorem against_of_not_mixes (hmix : x.mixes y = false) : x.against y = x.exactValue? := by
  unfold against
  cases x with
  | rational a b =>
    cases y with
    | float32 _ | float64 _ => cases hmix
    | _ => rfl
  | _ => exact ite_self _

theorem mixes_comm (x y : Number) : x.mixes y = y.mixes x := by
  unfold mixes
  cases x.isRational <;> cases y.isRational <;> cases x.isFloat <;> cases y.isFloat <;> rfl

theorem compare?_of_not_mixes (hx : x.IsReduced) (hy : y.IsReduced) (hmix : x.mixes y = false) :
    x.compare? y = Option.map₂ compare x.exactValue? y.exactValue? := by
  have hmix' : y.mixes x = false := by
    rw [mixes_comm]
    exact hmix
  rw [compare?_eq_against hx hy, against_of_not_mixes hmix, against_of_not_mixes hmix']

end Order

/-- **The order of numbers is exact**, apart from a fraction and a float: two numbers have no order
exactly when one is a NaN, and otherwise the order of their exact values. No product on the way is too
large for its 128 bits, and the numbers without a difference are those that are the same. -/
theorem compare?_exact (x y : Number) (hx : x.IsReduced) (hy : y.IsReduced)
    (hmix : x.mixes y = false) :
    (x.compare? y = none ↔ x.isNaN = true ∨ y.isNaN = true) ∧
      x.compare? y = Option.map₂ compare x.exactValue? y.exactValue? ∧
      (∀ a b : Int64, (wide a).smulOverflow (wide b) = false) ∧
      (x.compare? y = some .eq ↔ x.same y = true) := by
  have hexact := compare?_of_not_mixes hx hy hmix
  refine ⟨?_, hexact, wide_no_overflow, ?_⟩
  · rw [hexact, Option.map₂_eq_none_iff, exactValue?_eq_none_iff, exactValue?_eq_none_iff]
  · rw [hexact, map₂_compare_eq_iff, same_iff_exactValue? hx hy hmix]

/-- Two fractions from the end of the integers, of which the floats are the same. -/
theorem compare?_exact_neighbours :
    let x := rational 9223372036854775807 9223372036854775806
    let y := rational 9223372036854775806 9223372036854775805
    x.IsReduced ∧ y.IsReduced ∧ x.mixes y = false ∧ x.compare? y = some .lt ∧
      x.compare? y = Option.map₂ compare x.exactValue? y.exactValue? := by
  have hx : (rational 9223372036854775807 9223372036854775806).IsReduced := by
    constructor <;> decide +kernel
  have hy : (rational 9223372036854775806 9223372036854775805).IsReduced := by
    constructor <;> decide +kernel
  exact ⟨hx, hy, rfl, by decide +kernel, (compare?_exact _ _ hx hy rfl).2.1⟩

end Number

end ValueHeap
