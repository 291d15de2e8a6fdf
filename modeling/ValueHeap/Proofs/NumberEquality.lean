import Mathlib.Data.Nat.Basic
import Mathlib.Order.Monotone.Basic
import ValueHeap.Hash.Walk
import ValueHeap.Proofs.NumberKeys

/-!
# Numeric equality is equality of keys

Two numbers of whatever representations are the same exactly when neither is a NaN and both have one
key. `NumberKeys` has one half; the other is that nothing is lost on the way to a key: the finite
patterns of a format stand for different values, the two zeros apart, so a whole value comes from one
place on the number line only.

Results:
* `Binary.Format.units_strictMono`, `Binary.Format.value_le_value_iff`: units and values have the order of
  the patterns.
* `Binary.isNaN_widen`: widening makes and loses no NaN.
* `Number.same_iff_key_eq`: the equivalence, over all pairs of representations.
* `Number.same_by_keys`: with it, numeric equality is an equivalence relation on the numbers that are no
  NaN, and numbers that are the same contribute the same to every hash.
-/

namespace ValueHeap

namespace Binary.Format

variable {f : Format} {p q : Nat}

/-! ## Units and values -/

theorem two_pow_pos (n : Nat) : 0 < Nat.pow 2 n := Nat.pow_pos (by decide)

/-- The next magnitude stands for more units. -/
theorem units_lt_units_succ (f : Format) (m : Nat) : f.units m < f.units (m + 1) := by
  unfold units
  have hpos : 0 < Nat.pow 2 f.fraction := two_pow_pos _
  generalize Nat.pow 2 f.fraction = F at hpos ⊢
  have hlt := Nat.mod_lt m hpos
  have hsplit : m + 1 = F * (m / F) + (m % F + 1) := by
    rw [← Nat.add_assoc, Nat.div_add_mod]
  by_cases hr : m % F + 1 < F
  · -- the exponent field stays
    have hdiv : (m + 1) / F = m / F := by
      rw [hsplit, Nat.mul_add_div hpos, Nat.div_eq_of_lt hr, Nat.add_zero]
    have hmod : (m + 1) % F = m % F + 1 := by
      rw [hsplit, Nat.mul_add_mod, Nat.mod_eq_of_lt hr]
    simp only [hdiv, hmod]
    split
    · exact Nat.lt_succ_self _
    · exact Nat.mul_lt_mul_of_pos_right (by omega) (two_pow_pos _)
  · -- the fraction field carries into the exponent field
    have hfull : m % F + 1 = F := by omega
    have hdiv : (m + 1) / F = m / F + 1 := by
      rw [hsplit, hfull, Nat.mul_add_div hpos, Nat.div_self hpos]
    have hmod : (m + 1) % F = 0 := by
      rw [hsplit, hfull, Nat.mul_add_mod, Nat.mod_self]
    simp only [hdiv, hmod, Nat.add_zero, Nat.add_sub_cancel, Nat.succ_ne_zero, if_false]
    cases he : m / F with
    | zero =>
      have hone : Nat.pow 2 0 = 1 := rfl
      rw [if_pos rfl, hone]
      omega
    | succ e =>
      have hdouble : F * Nat.pow 2 (e + 1) = (F + F) * Nat.pow 2 e := by
        show F * (Nat.pow 2 e * 2) = _
        rw [← Nat.mul_assoc, ← Nat.two_mul, Nat.mul_comm _ 2, Nat.mul_assoc]
      rw [if_neg (Nat.succ_ne_zero e), Nat.add_sub_cancel, hdouble]
      exact Nat.mul_lt_mul_of_pos_right (by omega) (two_pow_pos _)

/-- **Units have the order of the magnitudes.** -/
theorem units_strictMono (f : Format) : StrictMono f.units :=
  strictMono_nat_of_lt_succ f.units_lt_units_succ

theorem units_zero (f : Format) : f.units 0 = 0 := by simp [units]

/-- Values have the order of the places. -/
theorem value_le_value_iff : f.value p ≤ f.value q ↔ f.place p ≤ f.place q := by
  have hle (m n : Nat) : f.units m ≤ f.units n ↔ m ≤ n := f.units_strictMono.le_iff_le
  have hzero (m : Nat) : f.units m = 0 ↔ m = 0 := by
    constructor
    · intro hm
      exact f.units_strictMono.injective (hm.trans f.units_zero.symm)
    · rintro rfl
      exact f.units_zero
  have hpq := hle (f.magnitude p) (f.magnitude q)
  have hqp := hle (f.magnitude q) (f.magnitude p)
  have hp := hzero (f.magnitude p)
  have hq := hzero (f.magnitude q)
  unfold value place
  cases f.isNegative p <;> cases f.isNegative q <;>
    simp only [if_true, if_false, Bool.false_eq_true] <;> omega

theorem place_eq_of_value_eq (hpq : f.value p = f.value q) : f.place p = f.place q :=
  le_antisymm (value_le_value_iff.mp (le_of_eq hpq)) (value_le_value_iff.mp (le_of_eq hpq.symm))

/-- A pattern that stands for an integer is finite and has that value. -/
theorem toInt?_eq_some {n : Int} (hp : f.toInt? p = some n) :
    f.isFinite p = true ∧ f.value p = n * f.one := by
  unfold toInt? at hp
  split at hp
  · next hwhole =>
    rw [Bool.and_eq_true, beq_iff_eq] at hwhole
    cases hp
    exact ⟨hwhole.1, (Int.ediv_mul_cancel (Int.dvd_of_emod_eq_zero hwhole.2)).symm⟩
  · cases hp

theorem isNaN_eq_false_of_isFinite (hp : f.isFinite p = true) : f.isNaN p = false := by
  unfold isFinite at hp
  unfold isNaN
  rw [decide_eq_true_eq] at hp
  rw [decide_eq_false_iff_not]
  omega

/-- Patterns that are no NaN and have one place compare as equal. -/
theorem compare?_eq_of_place_eq (hp : f.isNaN p = false) (hq : f.isNaN q = false)
    (hplace : f.place p = f.place q) : f.compare? p q = some .eq := by
  unfold compare?
  rw [hp, hq, hplace]
  simp

theorem isNaN_of_compare? (hpq : f.compare? p q = some .eq) : f.isNaN p = false ∧ f.isNaN q = false := by
  unfold compare? at hpq
  split at hpq
  · cases hpq
  · next hnan => simpa using hnan

theorem magnitude_withSign {m : Nat} (hm : m < f.signBit) (negative : Bool) :
    f.magnitude (f.withSign negative m) = m := by
  unfold magnitude withSign
  cases negative
  · simpa using Nat.mod_eq_of_lt hm
  · simpa using Nat.mod_eq_of_lt hm

theorem withSign_lt {m : Nat} (hm : m < f.signBit) (negative : Bool) :
    f.withSign negative m < 2 * f.signBit := by
  unfold withSign
  split <;> omega

theorem infinity_lt_signBit (f : Format) : f.infinity < f.signBit := by
  have hpow : f.signBit = Nat.pow 2 f.exponent * Nat.pow 2 f.fraction := by
    show 2 ^ (f.fraction + f.exponent) = 2 ^ f.exponent * 2 ^ f.fraction
    rw [Nat.add_comm, Nat.pow_add]
  have hexp := two_pow_pos f.exponent
  rw [hpow]
  exact Nat.mul_lt_mul_of_pos_right (by omega) (two_pow_pos _)

end Binary.Format

namespace Binary

/-! ## Widening -/

/-- A widened pattern keeps its sign, and its magnitude is past infinity for a NaN only. -/
theorem widen_eq_withSign (p : Nat) : ∃ m, widen single double p =
      double.withSign (single.isNegative p) m ∧
    m < double.signBit ∧ (double.infinity < m ↔ single.isNaN p = true) := by
  unfold widen
  refine ⟨_, rfl, ?_⟩
  have hinf := double.infinity_lt_signBit
  split
  · next hnan =>
    have hm : single.magnitude p < single.signBit := Nat.mod_lt _ (Format.two_pow_pos _)
    -- the payload stays below the exponent field, also with the quiet bit
    have hpayload : (single.magnitude p - single.infinity) * 2 ^ 29 < 2 ^ 52 := by
      have hsign : single.signBit = 2 ^ 31 := rfl
      have hbound : single.infinity = 255 * 2 ^ 23 := rfl
      omega
    have hlt : (single.magnitude p - single.infinity) * 2 ^ 29 ||| 2 ^ 51 < 2 ^ 52 :=
      Nat.or_lt_two_pow hpayload (by decide)
    have hge : 2 ^ 51 ≤ (single.magnitude p - single.infinity) * 2 ^ 29 ||| 2 ^ 51 := Nat.right_le_or
    have hpast : double.infinity + 2 ^ 52 = double.signBit := rfl
    refine ⟨?_, fun _ => hnan, fun _ => ?_⟩
    · calc _ < double.infinity + 2 ^ 52 := Nat.add_lt_add_left hlt _
        _ = double.signBit := hpast
    · exact Nat.lt_add_of_pos_right (Nat.lt_of_lt_of_le (by decide) hge)
  · next hnan =>
    have hno (m : Nat) (hm : m ≤ double.infinity) :
        m < double.signBit ∧ (double.infinity < m ↔ single.isNaN p = true) :=
      ⟨Nat.lt_of_le_of_lt hm hinf, fun hlt => absurd hlt (Nat.not_lt.mpr hm), fun h => absurd h hnan⟩
    split
    · exact hno _ (Nat.le_refl _)
    · exact hno _ (Nat.min_le_right _ _)

/-- **Widening makes and loses no NaN.** -/
theorem isNaN_widen (p : Nat) : double.isNaN (widen single double p) = single.isNaN p := by
  obtain ⟨m, heq, hlt, hnan⟩ := widen_eq_withSign p
  rw [heq, Bool.eq_iff_iff, ← hnan, Format.isNaN, Format.magnitude_withSign hlt, decide_eq_true_eq]

theorem widen_lt (p : Nat) : widen single double p < UInt64.size := by
  obtain ⟨m, heq, hlt, -⟩ := widen_eq_withSign p
  rw [heq]
  exact Format.withSign_lt hlt _

end Binary

namespace Number

open Binary (single double)

/-! ## Same numbers, same keys -/

/-- Is the number a float that is not a number? -/
def isNaN : Number → Bool
  | float32 bits => single.isNaN bits.toNat
  | float64 bits => double.isNaN bits.toNat
  | _ => false

theorem isNaN_of_float {x : Number} {bits : UInt64} (hx : x.quantity = .float bits) :
    x.isNaN = double.isNaN bits.toNat := by
  cases x with
  | float32 narrow =>
    cases hx
    rw [UInt64.toNat_ofNat_of_lt' (Binary.widen_lt _), Binary.isNaN_widen]
    rfl
  | float64 wide =>
    cases hx
    rfl
  | _ => cases hx

theorem isNaN_of_integer {x : Number} {n : Int64} (hx : x.quantity = .integer n) :
    x.isNaN = false := by
  cases x with
  | float32 _ | float64 _ => cases hx
  | _ => rfl

theorem isNaN_of_ratio {x : Number} {num den : Int64} (hx : x.quantity = .ratio num den) :
    x.isNaN = false := by
  cases x with
  | float32 _ | float64 _ => cases hx
  | _ => rfl

/-- A float that stands for a 64-bit integer is no NaN, and has the value of that integer. -/
theorem wholeFloat?_eq_some {bits : UInt64} {n : Int64} (hn : wholeFloat? bits = some n) :
    double.isNaN bits.toNat = false ∧ double.value bits.toNat = n.toInt * double.one := by
  unfold wholeFloat? at hn
  split at hn
  · next m hm =>
    obtain ⟨hfinite, hvalue⟩ := Binary.Format.toInt?_eq_some hm
    split at hn
    · next hfits =>
      cases hn
      refine ⟨Binary.Format.isNaN_eq_false_of_isFinite hfinite, ?_⟩
      have hback : (Int64.ofInt m).toInt = m := by
        unfold fitsInt64 at hfits
        rw [Bool.and_eq_true, decide_eq_true_eq, decide_eq_true_eq] at hfits
        exact Int64.toInt_ofInt_of_le hfits.1 hfits.2
      rw [hvalue, hback]
    · cases hn
  · cases hn

/-- Floats that stand for one integer compare as equal. -/
theorem compare?_of_wholeFloat? {a b : UInt64} {n : Int64} (ha : wholeFloat? a = some n)
    (hb : wholeFloat? b = some n) : double.compare? a.toNat b.toNat = some .eq := by
  obtain ⟨hna, hva⟩ := wholeFloat?_eq_some ha
  obtain ⟨hnb, hvb⟩ := wholeFloat?_eq_some hb
  exact Binary.Format.compare?_eq_of_place_eq hna hnb
    (Binary.Format.place_eq_of_value_eq (hva.trans hvb.symm))

section Keys

variable {x y : Number} {a b : UInt64} {n m num den : Int64}

theorem key_of_integer (hx : x.quantity = .integer n) : x.key = .integer n := by
  unfold key
  rw [hx]

theorem key_of_ratio (hx : x.quantity = .ratio num den) : x.key = .rational num den := by
  unfold key
  rw [hx]

/-- The key of a float is an integer where the float stands for one, and its pattern elsewhere. -/
theorem key_of_float (hx : x.quantity = .float a) :
    (∃ n, wholeFloat? a = some n ∧ x.key = .integer n) ∨
      wholeFloat? a = none ∧ x.key = .float a := by
  unfold key
  rw [hx]
  cases hwhole : wholeFloat? a with
  | some n => exact Or.inl ⟨n, rfl, by simp only [hwhole]⟩
  | none => exact Or.inr ⟨rfl, by simp only [hwhole]⟩

theorem key_eq_integer_iff (hx : x.quantity = .float a) :
    x.key = .integer n ↔ wholeFloat? a = some n := by
  rcases key_of_float hx with ⟨m, hm, hkey⟩ | ⟨hnone, hkey⟩
  · rw [hkey, hm, NumberKey.integer.injEq, Option.some.injEq]
  · rw [hkey, hnone]
    constructor
    · intro h
      cases h
    · intro h
      cases h

theorem key_ne_rational (hx : x.quantity = .float a) : x.key ≠ .rational num den := by
  rcases key_of_float hx with ⟨m, -, hkey⟩ | ⟨-, hkey⟩
  · rw [hkey]
    exact NumberKey.noConfusion
  · rw [hkey]
    exact NumberKey.noConfusion

theorem same_integer_float_iff (hx : x.quantity = .integer n) (hy : y.quantity = .float b) :
    x.same y = true ↔ x.isNaN = false ∧ y.isNaN = false ∧ x.key = y.key := by
  have hsame : x.same y = true ↔ wholeFloat? b = some n := by
    unfold same
    rw [hx, hy]
    exact beq_iff_eq
  rw [hsame, isNaN_of_integer hx, isNaN_of_float hy, key_of_integer hx, eq_comm (b := y.key),
    key_eq_integer_iff hy]
  exact ⟨fun hn => ⟨rfl, (wholeFloat?_eq_some hn).1, hn⟩, fun h => h.2.2⟩

/-- Two floats with one key stand for one integer, or are the same pattern. -/
theorem same_floats_iff (hx : x.quantity = .float a) (hy : y.quantity = .float b) :
    x.same y = true ↔ x.isNaN = false ∧ y.isNaN = false ∧ x.key = y.key := by
  have hsame : x.same y = true ↔ double.compare? a.toNat b.toNat = some .eq := by
    unfold same
    rw [hx, hy]
    exact beq_iff_eq
  rw [isNaN_of_float hx, isNaN_of_float hy]
  constructor
  · intro h
    have hnan := Binary.Format.isNaN_of_compare? (hsame.mp h)
    exact ⟨hnan.1, hnan.2, key_eq_of_same h⟩
  · rintro ⟨hna, hnb, hkey⟩
    rw [hsame]
    rcases key_of_float hx with ⟨n, hn, hkx⟩ | ⟨-, hkx⟩
    · rw [hkx, eq_comm, key_eq_integer_iff hy] at hkey
      exact compare?_of_wholeFloat? hn hkey
    · rcases key_of_float hy with ⟨m, -, hky⟩ | ⟨-, hky⟩
      · rw [hkx, hky] at hkey
        cases hkey
      · rw [hkx, hky] at hkey
        cases hkey
        exact Binary.Format.compare?_eq_of_place_eq hna hna rfl

theorem same_comm_iff_key (h : y.same x = true ↔ y.isNaN = false ∧ x.isNaN = false ∧ y.key = x.key) :
    x.same y = true ↔ x.isNaN = false ∧ y.isNaN = false ∧ x.key = y.key := by
  rw [same_comm, h, eq_comm (a := y.key)]
  exact and_left_comm

/-- **Numeric equality is equality of keys**, apart from NaN, which is equal to nothing. -/
theorem same_iff_key_eq (x y : Number) :
    x.same y = true ↔ x.isNaN = false ∧ y.isNaN = false ∧ x.key = y.key := by
  cases hx : x.quantity with
  | integer a =>
    cases hy : y.quantity with
    | integer b =>
      rw [isNaN_of_integer hx, isNaN_of_integer hy, key_of_integer hx, key_of_integer hy]
      simp [same, hx, hy]
    | float b => exact same_integer_float_iff hx hy
    | ratio c d =>
      rw [key_of_integer hx, key_of_ratio hy]
      simp [same, hx, hy]
  | float a =>
    cases hy : y.quantity with
    | integer b => exact same_comm_iff_key (same_integer_float_iff hy hx)
    | float b => exact same_floats_iff hx hy
    | ratio c d =>
      rw [key_of_ratio hy]
      simp [same, hx, hy, key_ne_rational hx]
  | ratio a b =>
    cases hy : y.quantity with
    | integer c =>
      rw [key_of_ratio hx, key_of_integer hy]
      simp [same, hx, hy]
    | float c =>
      rw [key_of_ratio hx]
      simp [same, hx, hy, (key_ne_rational hy).symm]
    | ratio c d =>
      rw [isNaN_of_ratio hx, isNaN_of_ratio hy, key_of_ratio hx, key_of_ratio hy]
      simp [same, hx, hy]

end Keys

/-- Numeric equality is an equivalence relation on the numbers that are no NaN. -/
theorem equivalence_same :
    Equivalence fun x y : { x : Number // x.isNaN = false } => x.1.same y.1 = true where
  refl x := (same_iff_key_eq _ _).mpr ⟨x.2, x.2, rfl⟩
  symm := by
    intro x y hxy
    rw [same_comm]
    exact hxy
  trans := by
    intro x y z hxy hyz
    have hkey : x.1.key = z.1.key := (key_eq_of_same hxy).trans (key_eq_of_same hyz)
    exact (same_iff_key_eq _ _).mpr ⟨x.2, z.2, hkey⟩

end Number

/-- A number writes its key into a hash, in whatever state the hash is. -/
theorem Heap.hashWord_of_number {h : Heap} {w : Word} {x : Number} (hw : h.number? w = some x)
    (seed : UInt32) (levels : Nat) (s : Hasher) (memo : Memo) :
    h.hashWord seed (levels + 1) w (s, memo) = (s.writeKey x.key, memo) := by
  unfold Heap.hashWord
  simp only [hw]

/-- **Numeric equality across the representations.** Two numbers are the same exactly when neither is a
NaN and their keys are equal. So it is an equivalence relation on the numbers that are no NaN, and
values that are the same number, on one heap or on two, contribute the same to a hash at every point
of it. -/
theorem Number.same_by_keys :
    (∀ x y : Number, x.same y = true ↔ x.isNaN = false ∧ y.isNaN = false ∧ x.key = y.key) ∧
      (Equivalence fun x y : { x : Number // x.isNaN = false } => x.1.same y.1 = true) ∧
      ∀ (h k : Heap) (v w : Word) (x y : Number), h.number? v = some x → k.number? w = some y →
        x.same y = true → ∀ (seed : UInt32) (levels : Nat) (s : Hasher × Memo),
          h.hashWord seed levels v s = k.hashWord seed levels w s := by
  refine ⟨same_iff_key_eq, equivalence_same, ?_⟩
  intro h k v w x y hv hw hxy seed levels s
  obtain ⟨s, memo⟩ := s
  cases levels with
  | zero => rfl
  | succ levels =>
    rw [Heap.hashWord_of_number hv, Heap.hashWord_of_number hw, key_eq_of_same hxy]

end ValueHeap
