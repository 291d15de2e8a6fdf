import Mathlib.Data.List.TakeWhile
import ValueHeap.Decimal.Reader
import ValueHeap.Proofs.ExactValue

/-!
# Decimals that are read exactly

A plain decimal number is digits with perhaps a point among them (`PlainDecimal`). It is read as its digits and a
power of ten, and from there it is rounded to a float; where the number is one that the format has, there is
nothing to round.

Results:
* `Format.round_units`: what a magnitude stands for is rounded to that magnitude.
* `Decimal.toBinary_of_units`: so is a decimal that is equal to it.
* `PlainDecimal.read?_chars`: what the text of a plain decimal is read as.
* `PlainDecimal.toBinary_decimal`: the magnitude that it is rounded to, if the format has the number.
-/

namespace ValueHeap

/-! ## Rounding what needs none -/

namespace Binary.Format

variable {f : Format} {m den : Nat}

/-- A common factor does not matter to the nearest whole number. -/
theorem divNearest_mul_mul (hden : 0 < den) (a b : Nat) :
    divNearest (a * den) (den * b) = divNearest a b := by
  have hquotient : den * a / (den * b) = a / b := Nat.mul_div_mul_left a b hden
  have hrest : den * a % (den * b) = den * (a % b) := Nat.mul_mod_mul_left den a b
  have htwice : 2 * (den * (a % b)) = den * (2 * (a % b)) := Nat.mul_left_comm 2 den _
  have hhalf : (den * (2 * (a % b)) == den * b) = (2 * (a % b) == b) := by
    rw [Bool.eq_iff_iff, beq_iff_eq, beq_iff_eq, Nat.mul_right_inj hden.ne']
  unfold divNearest
  simp only [Nat.mul_comm a den, hquotient, hrest, htwice, hhalf, Nat.mul_lt_mul_left hden]

theorem nearest_mul (hden : 0 < den) (a : Nat) : f.nearest (a * den) den = f.nearest a 1 := by
  have hstep : f.roundStep (a * den) den = f.roundStep a 1 := by
    rw [roundStep, roundStep, Nat.mul_div_cancel a hden, Nat.div_one]
  rw [nearest, nearest, hstep, divNearest_mul_mul hden, Nat.one_mul]

/-- **What a magnitude stands for is rounded to that magnitude.** -/
theorem round_units (hden : 0 < den) (hm : m < f.infinity) : f.round (f.units m * den) den = m := by
  obtain ⟨k, s, hs, hunits⟩ := f.exists_significand m
  have hnearest : f.units (f.nearest (f.units m * den) den) = f.units m := by
    rw [nearest_mul hden, hunits]
    exact units_nearest_of_significand hs
  have hlt : f.units (f.nearest (f.units m * den) den) < f.units f.infinity := by
    rw [hnearest]
    exact f.units_strictMono hm
  rw [round_eq_nearest hlt]
  exact f.units_strictMono.injective hnearest

/-- The number is the exact value of a pattern of the format. -/
def Has (f : Format) (r : ℚ) : Prop := ∃ p < 2 * f.signBit, f.exactValue? p = some (.rat r)

/-- The magnitude of a number that the format has and that is not negative. -/
theorem Has.exists_units (hf : 1 < f.exponent) {r : ℚ} (hhas : f.Has r) (hr : 0 ≤ r) :
    ∃ m < f.infinity, (f.units m : ℚ) = r * f.one := by
  obtain ⟨p, -, hp⟩ := hhas
  have hfinite := isFinite_of_exactValue? hp
  have hone : (0 : ℚ) < f.one := by exact_mod_cast f.one_pos
  have hvalue : (f.value p : ℚ) = r * f.one := by
    rw [exactValue?_of_finite hfinite, Option.some.injEq, Extended.rat_inj, denoted_eq hf] at hp
    rw [← hp, div_mul_cancel₀ _ hone.ne']
  refine ⟨f.magnitude p, isFinite_iff.mp hfinite, ?_⟩
  unfold value at hvalue
  split at hvalue
  · -- a negative zero
    have hzero : r * f.one = 0 := by
      refine le_antisymm ?_ (mul_nonneg hr hone.le)
      rw [← hvalue]
      push_cast
      exact neg_nonpos.mpr (Nat.cast_nonneg _)
    rw [hzero] at hvalue ⊢
    push_cast at hvalue
    exact neg_eq_zero.mp hvalue
  · exact_mod_cast hvalue

end Binary.Format

namespace Decimal

open Binary (Format)

variable {f : Format} {m : Nat} {d : Decimal}

theorem lt_pow_digitCount (n : Nat) : n < 10 ^ digitCount n :=
  (Nat.length_toDigits_le_iff (by decide) Nat.length_toDigits_pos).mp le_rfl

theorem digitCount_le {n k : Nat} (hk : 0 < k) (hn : n < 10 ^ k) : digitCount n ≤ k :=
  (Nat.length_toDigits_le_iff (by decide) hk).mpr hn

/-- A decimal that is at least one unit does not begin below the units. -/
theorem leading_ge (hexact : d.digits * 10 ^ d.exponent.toNat * f.one = f.units m * 10 ^ (-d.exponent).toNat)
    (hm : f.units m ≠ 0) : -(f.unitExponent + 1 : Int) ≤ d.leading := by
  by_contra hbelow
  unfold leading at hbelow
  have hexponent : d.exponent.toNat = 0 := by omega
  have hroom : digitCount d.digits + f.unitExponent ≤ (-d.exponent).toNat := by omega
  have hlt : d.digits * 10 ^ d.exponent.toNat * f.one < 10 ^ (-d.exponent).toNat :=
    calc d.digits * 10 ^ d.exponent.toNat * f.one
        = d.digits * 2 ^ f.unitExponent := by rw [hexponent, Nat.pow_zero, Nat.mul_one, f.one_eq]
      _ < 10 ^ digitCount d.digits * 2 ^ f.unitExponent :=
          Nat.mul_lt_mul_of_pos_right (lt_pow_digitCount _) (Nat.two_pow_pos _)
      _ ≤ 10 ^ digitCount d.digits * 10 ^ f.unitExponent :=
          Nat.mul_le_mul_left _ (Nat.pow_le_pow_left (by decide) _)
      _ = 10 ^ (digitCount d.digits + f.unitExponent) := (Nat.pow_add _ _ _).symm
      _ ≤ 10 ^ (-d.exponent).toNat := Nat.pow_le_pow_right (by decide) hroom
  rw [hexact] at hlt
  exact absurd (Nat.le_mul_of_pos_left _ (Nat.pos_of_ne_zero hm)) (Nat.not_le.mpr hlt)

/-- **A decimal that is equal to a finite magnitude is read as it.** -/
theorem toBinary_of_units (hm : m < f.infinity)
    (hexact : d.digits * 10 ^ d.exponent.toNat * f.one = f.units m * 10 ^ (-d.exponent).toNat)
    (hleading : d.leading ≤ f.unitExponent) : d.toBinary f = m := by
  unfold toBinary
  by_cases hzero : d.digits = 0
  · have hunits : f.units m = f.units 0 := by
      rw [hzero, Nat.zero_mul, Nat.zero_mul] at hexact
      rw [f.units_zero]
      exact (Nat.mul_eq_zero.mp hexact.symm).resolve_right (Nat.pow_pos (by decide)).ne'
    rw [if_pos hzero]
    exact (f.units_strictMono.injective hunits).symm
  · have hunits : f.units m ≠ 0 := by
      intro hunits
      rw [hunits, Nat.zero_mul] at hexact
      simp [hzero, f.one_eq] at hexact
    have hge := leading_ge hexact hunits
    rw [if_neg hzero, if_neg (Int.not_lt.mpr hleading), if_neg (Int.not_lt.mpr hge)]
    show f.round (d.digits * 10 ^ d.exponent.toNat * f.one) (10 ^ (-d.exponent).toNat) = m
    rw [hexact]
    exact Format.round_units (Nat.pow_pos (by decide)) hm

end Decimal

/-! ## Plain decimals -/

/-- The text of a plain decimal number: digits, and perhaps a point with digits after it. A digit stands on
one side of the point at least. -/
structure PlainDecimal where
  whole : List Char
  /-- What comes after the point, if there is one. -/
  places : Option (List Char)
  isDigit : ∀ c ∈ whole ++ places.getD [], c.isDigit = true
  ne_nil : whole ++ places.getD [] ≠ []

namespace PlainDecimal

variable (t : PlainDecimal)

/-- The digits after the point. -/
def fraction : List Char := t.places.getD []

def chars : List Char := t.whole ++ t.places.elim [] ('.' :: ·)

/-- The number that the text stands for. -/
def value : ℚ :=
  Nat.ofDigitChars 10 t.whole 0 + Nat.ofDigitChars 10 t.fraction 0 / 10 ^ t.fraction.length

/-- The number by its digits and a power of ten. -/
def decimal : Decimal := ⟨Literal.digitsToNat (t.whole ++ t.fraction), -(t.fraction.length : Int)⟩

theorem isDigit_of_mem_whole {c : Char} (hc : c ∈ t.whole) : c.isDigit = true :=
  t.isDigit c (List.mem_append_left _ hc)

theorem isDigit_of_mem_fraction {c : Char} (hc : c ∈ t.fraction) : c.isDigit = true :=
  t.isDigit c (List.mem_append_right _ hc)

/-- The characters are digits and points. -/
theorem mem_chars {c : Char} (hc : c ∈ t.chars) : c.isDigit = true ∨ c = '.' := by
  unfold chars at hc
  rcases List.mem_append.mp hc with hwhole | hplaces
  · exact Or.inl (t.isDigit_of_mem_whole hwhole)
  · cases hpoint : t.places with
    | none => simp [hpoint] at hplaces
    | some ds =>
      rw [hpoint, Option.elim_some, List.mem_cons] at hplaces
      refine hplaces.symm.imp_left fun hmem => t.isDigit_of_mem_fraction ?_
      rwa [fraction, hpoint]

theorem chars_ne_nil : t.chars ≠ [] := by
  intro hnil
  obtain ⟨hwhole, hplaces⟩ := List.append_eq_nil_iff.mp hnil
  cases hpoint : t.places with
  | none => exact t.ne_nil (by simp [hwhole, hpoint])
  | some ds => simp [hpoint] at hplaces

/-- A point comes shortly before the digits among all characters. -/
theorem toNat_bounds {c : Char} (hc : c ∈ t.chars) : 46 ≤ c.toNat ∧ c.toNat ≤ 57 := by
  rcases t.mem_chars hc with hdigit | rfl
  · obtain ⟨hlow, hhigh⟩ := Char.isDigit_iff_toNat.mp hdigit
    exact ⟨le_trans (by decide) hlow, hhigh⟩
  · decide

theorem toLower_of_mem_chars {c : Char} (hc : c ∈ t.chars) : c.toLower = c := by
  have hhigh : c.val.toNat ≤ 57 := (t.toNat_bounds hc).2
  have hcase : ¬ (c.val ≥ 'A'.val ∧ c.val ≤ 'Z'.val) := by
    rintro ⟨hupper, -⟩
    have hnat : 65 ≤ c.val.toNat := UInt32.le_iff_toNat_le.mp hupper
    omega
  exact dif_neg hcase

/-- A plain decimal is no word, since every word has the letter n. -/
theorem word_ne (word : String) (hword : 'n' ∈ word.toList) :
    String.ofList (t.chars.map Char.toLower) ≠ word := by
  rintro rfl
  rw [String.toList_ofList, List.mem_map] at hword
  obtain ⟨c, hc, hlower⟩ := hword
  rw [t.toLower_of_mem_chars hc] at hlower
  subst hlower
  exact absurd (t.toNat_bounds hc).2 (by decide)

theorem splitSign_chars : Literal.splitSign t.chars = (false, t.chars) := by
  unfold Literal.splitSign
  split
  · next cs hchars =>
    exact absurd (t.toNat_bounds (hchars ▸ List.mem_cons_self)).1 (by decide)
  · next cs hchars =>
    exact absurd (t.toNat_bounds (hchars ▸ List.mem_cons_self)).1 (by decide)
  · rfl

theorem splitPoint_chars : Literal.splitPoint t.chars = (t.whole, t.fraction, []) := by
  have hwhole : ∀ c ∈ t.whole, c.isDigit = true := fun c => t.isDigit_of_mem_whole
  have hfraction : ∀ c ∈ t.fraction, c.isDigit = true := fun c => t.isDigit_of_mem_fraction
  unfold fraction at hfraction
  unfold Literal.splitPoint chars fraction
  rw [List.takeWhile_append_of_pos hwhole, List.dropWhile_append_of_pos hwhole]
  cases hpoint : t.places with
  | none => simp
  | some ds =>
    rw [hpoint, Option.getD_some] at hfraction
    have htake : ds.takeWhile Char.isDigit = ds := List.takeWhile_eq_self_iff.mpr hfraction
    have hdrop : ds.dropWhile Char.isDigit = [] := List.dropWhile_eq_nil_iff.mpr hfraction
    have hstop : Char.isDigit '.' = false := by decide
    simp [hstop, htake, hdrop]

/-- **What the text of a plain decimal is read as.** -/
theorem read?_chars : Literal.read? t.chars = some (.finite false t.decimal) := by
  have hdecimal : Literal.decimal? t.chars = some t.decimal := by
    have hdigits : ¬ (t.whole = [] ∧ t.fraction = []) := by
      rw [← List.append_eq_nil_iff]
      exact t.ne_nil
    rw [Literal.decimal?, splitPoint_chars]
    simp [hdigits, Literal.exponent?, decimal]
  unfold Literal.read?
  rw [splitSign_chars]
  simp [t.word_ne "nan" (by decide), t.word_ne "inf" (by decide), t.word_ne "infinity" (by decide),
    hdecimal]

/-- The digits without the point, over a power of ten. -/
theorem value_eq : t.value = Literal.digitsToNat (t.whole ++ t.fraction) / 10 ^ t.fraction.length := by
  have hdigits : Literal.digitsToNat (t.whole ++ t.fraction) =
      10 ^ t.fraction.length * Nat.ofDigitChars 10 t.whole 0 + Nat.ofDigitChars 10 t.fraction 0 := by
    show Nat.ofDigitChars 10 (t.whole ++ t.fraction) 0 = _
    rw [Nat.ofDigitChars_append, Nat.ofDigitChars_eq_ofDigitChars_zero]
  have hpow : (10 : ℚ) ^ t.fraction.length ≠ 0 := by positivity
  rw [value, hdigits]
  push_cast
  field_simp

theorem value_nonneg : 0 ≤ t.value := by
  rw [value_eq]
  exact div_nonneg (Nat.cast_nonneg _) (by positivity)

/-- **A number that the format has is read as it.** -/
theorem toBinary_decimal {f : Binary.Format} {m : Nat} (hm : m < f.infinity)
    (hunits : (f.units m : ℚ) = t.value * f.one) (hsize : t.value < 10 ^ (f.unitExponent + 1)) :
    t.decimal.toBinary f = m := by
  have hpow : (0 : ℚ) < 10 ^ t.fraction.length := by positivity
  have hexact : t.decimal.digits * f.one = f.units m * 10 ^ t.fraction.length := by
    rw [value_eq, div_mul_eq_mul_div, eq_div_iff hpow.ne'] at hunits
    exact_mod_cast hunits.symm
  have hdigits : t.decimal.digits < 10 ^ (f.unitExponent + 1 + t.fraction.length) := by
    rw [value_eq, div_lt_iff₀ hpow, ← pow_add] at hsize
    exact_mod_cast hsize
  have hcount := Decimal.digitCount_le (by omega) hdigits
  have hexponent : t.decimal.exponent = -(t.fraction.length : Int) := rfl
  refine Decimal.toBinary_of_units hm ?_ ?_
  · have hnone : t.decimal.exponent.toNat = 0 := by omega
    have hplaces : (-t.decimal.exponent).toNat = t.fraction.length := by omega
    rw [hnone, hplaces, Nat.pow_zero, Nat.mul_one, hexact]
  · unfold Decimal.leading
    omega

end PlainDecimal

end ValueHeap
