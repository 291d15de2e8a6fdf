import Mathlib.Algebra.Order.Group.Unbundled.Int
import ValueHeap.Proofs.Boxing

/-!
# The laws of division

Boxed integers divide with a fixed number of bits. The laws are about the integers that the bits stand for,
signed or unsigned, and hold for every width.

* `Fixed.rem_of_ne_zero`, `Fixed.modulo_of_ne_zero`: the signed remainder is the truncated one, and its
  correction by the divisor is the floored one.
* `bySigns`: the floored remainder worked out from the magnitudes.
* `DivisionLaws`: when the operations fail, and what their results are to each other.

Results:
* `Action.intBinary_division`: the operations on values obey the laws, for both representations.
-/

namespace ValueHeap

/-! ## Truncated and floored remainders -/

/-- The remainder with the sign of the divisor, worked out from the magnitudes when the signs differ. -/
def bySigns (x y : ℤ) : ℤ :=
  if x.sign ≠ y.sign then
    let m := |x|.tmod |y|
    if m = 0 then 0 else if y.sign < 0 then -(|y| - m) else |y| - m
  else x.tmod y

theorem tmod_neg_iff {x y : ℤ} (hne : x.tmod y ≠ 0) : x.tmod y < 0 ↔ x < 0 := by
  have hsign := Int.sign_tmod x y
  rw [if_neg fun hdvd => hne (Int.tmod_eq_zero_of_dvd hdvd)] at hsign
  rw [← Int.sign_eq_neg_one_iff_neg, hsign, Int.sign_eq_neg_one_iff_neg]

/-- The floored remainder is the truncated one, moved by the divisor when their signs differ. -/
theorem fmod_eq_corrected (x y : ℤ) :
    x.fmod y = if x.tmod y ≠ 0 ∧ decide (x.tmod y < 0) ≠ decide (y < 0) then x.tmod y + y
      else x.tmod y := by
  rw [Int.fmod_eq_tmod]
  by_cases hzero : x.tmod y = 0
  · simp [hzero, Int.dvd_of_tmod_eq_zero hzero]
  · have hdvd : ¬y ∣ x := fun hdvd => hzero (Int.tmod_eq_zero_of_dvd hdvd)
    rw [if_neg hdvd]
    -- A truncated remainder that is not zero has the sign of the dividend.
    simp only [ne_eq, hzero, not_false_eq_true, true_and, tmod_neg_iff hzero, decide_eq_decide]
    split_ifs <;> omega

theorem abs_tmod_abs (x y : ℤ) : |x|.tmod |y| = |x.tmod y| := by
  rw [Int.abs_eq_natAbs, Int.abs_eq_natAbs, Int.abs_eq_natAbs, ← Int.ofNat_tmod, Int.natAbs_tmod]

theorem bySigns_eq_fmod (x : ℤ) {y : ℤ} (hy : y ≠ 0) : bySigns x y = x.fmod y := by
  rw [fmod_eq_corrected, bySigns, abs_tmod_abs]
  by_cases hzero : x.tmod y = 0
  · simp [hzero]
  · have hneg := tmod_neg_iff hzero
    have hx : x ≠ 0 := by
      rintro rfl
      exact hzero (Int.zero_tmod y)
    -- Neither operand is zero, so the signs differ exactly when the truncated remainder is moved.
    rcases lt_or_gt_of_ne hx with hx | hx <;> rcases lt_or_gt_of_ne hy with hy | hy
    · have ht := hneg.mpr hx
      simp [Int.sign_eq_neg_one_of_neg, hx, hy, ht]
    · have ht := hneg.mpr hx
      simp [Int.sign_eq_neg_one_of_neg hx, Int.sign_eq_one_of_pos hy, abs_of_neg ht, abs_of_pos hy, hzero,
        ht, not_lt_of_gt hy, add_comm]
    · have ht : ¬x.tmod y < 0 := fun ht => absurd (hneg.mp ht) (not_lt_of_gt hx)
      simp [Int.sign_eq_one_of_pos hx, Int.sign_eq_neg_one_of_neg hy, abs_of_nonneg (not_lt.mp ht),
        abs_of_neg hy, hzero, ht, hy]
    · have ht : ¬x.tmod y < 0 := fun ht => absurd (hneg.mp ht) (not_lt_of_gt hx)
      simp [Int.sign_eq_one_of_pos, hx, hy, ht, not_lt_of_gt]

/-- The floored remainder has the sign of the divisor and is smaller. -/
theorem fmod_mul_sign_mem (x : ℤ) {y : ℤ} (hy : y ≠ 0) :
    0 ≤ x.fmod y * y.sign ∧ x.fmod y * y.sign < |y| := by
  rcases lt_or_gt_of_ne hy with hneg | hpos
  · have hflip : x.fmod y = -(-x).fmod (-y) := by rw [Int.neg_fmod_neg, neg_neg]
    have hlow := Int.fmod_nonneg_of_pos (-x) (neg_pos.mpr hneg)
    have hhigh := Int.fmod_lt_of_pos (-x) (neg_pos.mpr hneg)
    rw [Int.sign_eq_neg_one_of_neg hneg, abs_of_neg hneg, hflip, Int.neg_mul_neg, mul_one]
    exact ⟨hlow, hhigh⟩
  · rw [Int.sign_eq_one_of_pos hpos, abs_of_pos hpos, mul_one]
    exact ⟨Int.fmod_nonneg_of_pos x hpos, Int.fmod_lt_of_pos x hpos⟩

/-! ## Division with a fixed number of bits -/

namespace Fixed

variable {w : Nat} {x y : BitVec w}

theorem toInt_ne_zero (hy : y ≠ 0) : y.toInt ≠ 0 := fun hzero =>
  hy (BitVec.toInt_inj.mp (hzero.trans BitVec.toInt_zero.symm))

theorem toInt_minus_one (hw : 0 < w) : (-1 : BitVec w).toInt = -1 := by
  show (-1#w).toInt = -1
  rw [BitVec.neg_one_eq_allOnes, BitVec.toInt_allOnes, if_pos hw]

/-- The signed remainder is the truncated one. -/
theorem rem_of_ne_zero (x : BitVec w) (hy : y ≠ 0) :
    ∃ r, rem x y = .ok r ∧ r.toInt = x.toInt.tmod y.toInt := by
  unfold rem
  rw [if_neg hy]
  split
  · next hminus =>
    have hw : 0 < w := Nat.pos_of_ne_zero fun hw => by
      subst hw
      exact hy (Subsingleton.elim _ _)
    refine ⟨0, rfl, ?_⟩
    rw [hminus, toInt_minus_one hw, Int.tmod_neg, Int.tmod_one]
    exact BitVec.toInt_zero
  · exact ⟨_, rfl, BitVec.toInt_srem _ _⟩

/-- Numbers with different signs can be added. -/
theorem saddOverflow_of_msb_ne (hmsb : x.msb ≠ y.msb) : x.saddOverflow y = false := by
  rw [BitVec.saddOverflow_eq, beq_eq_false_iff_ne.mpr hmsb, Bool.false_and]

/-- The corrected remainder is the floored one. -/
theorem modulo_of_ne_zero (x : BitVec w) (hy : y ≠ 0) :
    ∃ m, modulo x y = .ok m ∧ m.toInt = x.toInt.fmod y.toInt := by
  obtain ⟨r, hr, hrem⟩ := rem_of_ne_zero x hy
  have hzero : r ≠ 0 ↔ x.toInt.tmod y.toInt ≠ 0 := by
    rw [← hrem]
    exact ⟨toInt_ne_zero, fun hne hz => hne (hz ▸ BitVec.toInt_zero)⟩
  have hmoves : r ≠ 0 ∧ r.msb ≠ y.msb ↔ x.toInt.tmod y.toInt ≠ 0 ∧
      decide (x.toInt.tmod y.toInt < 0) ≠ decide (y.toInt < 0) := by
    rw [hzero, BitVec.msb_eq_toInt, BitVec.msb_eq_toInt, hrem]
  have hmodulo : modulo x y = .ok (if r ≠ 0 ∧ r.msb ≠ y.msb then r + y else r) := by
    unfold modulo
    rw [hr, apply_ite Except.ok]
    rfl
  refine ⟨_, hmodulo, ?_⟩
  rw [fmod_eq_corrected]
  by_cases hmove : r ≠ 0 ∧ r.msb ≠ y.msb
  · have hover : ¬r.saddOverflow y = true := by
      rw [saddOverflow_of_msb_ne hmove.2]
      exact Bool.false_ne_true
    rw [if_pos hmove, if_pos (hmoves.mp hmove), BitVec.toInt_add_of_not_saddOverflow hover, hrem]
  · rw [if_neg hmove, if_neg (mt hmoves.mpr hmove), hrem]

/-- The laws of division on the operands `x` and `y`, where `run` answers for each operation. -/
structure DivisionLaws (x y : BitVec w) (run : IntBinary → Except Error (BitVec w)) : Prop where
  div_fails : ∀ e, run .div = .error e ↔
    e = .divideByZero ∧ y = 0 ∨ e = .quotientOverflow ∧ x = BitVec.intMin w ∧ y = -1
  rem_fails : ∀ e, run .rem = .error e ↔ e = .moduloByZero ∧ y = 0
  modulo_fails : ∀ e, run .modulo = .error e ↔ e = .moduloByZero ∧ y = 0
  /-- The remainder is smaller than the divisor and has the sign of the dividend. -/
  rem_truncated : ∀ r, run .rem = .ok r →
    r.toInt = x.toInt.tmod y.toInt ∧ |r.toInt| < |y.toInt| ∧
      (r.toInt = 0 ∨ r.toInt.sign = x.toInt.sign)
  /-- Where the remainder is moved by the divisor, the sum fits. -/
  modulo_fits : ∀ r, run .rem = .ok r → r ≠ 0 → r.msb ≠ y.msb → r.saddOverflow y = false
  /-- The floored remainder is congruent to the dividend, and has the sign of the divisor. -/
  modulo_floored : ∀ m, run .modulo = .ok m →
    y.toInt ∣ x.toInt - m.toInt ∧ 0 ≤ m.toInt * y.toInt.sign ∧ m.toInt * y.toInt.sign < |y.toInt|
  modulo_bySigns : ∀ m, run .modulo = .ok m → m.toInt = bySigns x.toInt y.toInt
  /-- Quotient and remainder make up the dividend. -/
  div_rem : ∀ q, run .div = .ok q →
    ∃ r, run .rem = .ok r ∧ x.toInt = q.toInt * y.toInt + r.toInt
  divU_fails : ∀ e, run .divU = .error e ↔ e = .divideByZero ∧ y = 0
  remU_fails : ∀ e, run .remU = .error e ↔ e = .moduloByZero ∧ y = 0
  divU_remU : ∀ q, run .divU = .ok q →
    ∃ r, run .remU = .ok r ∧ x.toNat = q.toNat * y.toNat + r.toNat ∧ r.toNat < y.toNat

section Guards

variable {α : Type} {a : Except Error α} {c : Prop} {e₀ : Error} {P : α → Prop}

/-- An operation that fails in one way under `c` and otherwise gives a result with `P`. -/
def Guarded (a : Except Error α) (c : Prop) (e₀ : Error) (P : α → Prop) : Prop :=
  (c → a = .error e₀) ∧ (¬c → ∃ r, a = .ok r ∧ P r)

theorem Guarded.error_iff (ha : Guarded a c e₀ P) (e : Error) : a = .error e ↔ e = e₀ ∧ c := by
  by_cases hc : c
  · rw [ha.1 hc, Except.error.injEq]
    exact ⟨fun he => ⟨he.symm, hc⟩, fun he => he.1.symm⟩
  · obtain ⟨r, hr, -⟩ := ha.2 hc
    rw [hr]
    exact iff_of_false nofun fun he => hc he.2

theorem Guarded.of_ok (ha : Guarded a c e₀ P) {r : α} (hr : a = .ok r) : ¬c ∧ P r := by
  have hc : ¬c := fun hc => nomatch hr.symm.trans (ha.1 hc)
  obtain ⟨s, hs, hP⟩ := ha.2 hc
  cases hs.symm.trans hr
  exact ⟨hc, hP⟩

end Guards

theorem guarded_rem (x y : BitVec w) :
    Guarded (rem x y) (y = 0) .moduloByZero fun r => r.toInt = x.toInt.tmod y.toInt :=
  ⟨fun hy => if_pos hy, rem_of_ne_zero x⟩

theorem guarded_modulo (x y : BitVec w) :
    Guarded (modulo x y) (y = 0) .moduloByZero fun m => m.toInt = x.toInt.fmod y.toInt := by
  refine ⟨fun hy => ?_, modulo_of_ne_zero x⟩
  unfold modulo
  rw [(guarded_rem x y).1 hy]
  rfl

theorem guarded_divU (x y : BitVec w) :
    Guarded (divU x y) (y = 0) .divideByZero fun q => q.toNat = x.toNat / y.toNat :=
  ⟨fun hy => if_pos hy, fun hy => ⟨_, if_neg hy, BitVec.toNat_udiv⟩⟩

theorem guarded_remU (x y : BitVec w) :
    Guarded (remU x y) (y = 0) .moduloByZero fun r => r.toNat = x.toNat % y.toNat :=
  ⟨fun hy => if_pos hy, fun hy => ⟨_, if_neg hy, BitVec.toNat_umod⟩⟩

/-- Past the check for zero, the signed quotient is guarded by the one case where it does not fit. -/
theorem guarded_div (x : BitVec w) (hy : y ≠ 0) :
    Guarded (div x y) (x = BitVec.intMin w ∧ y = -1) .quotientOverflow fun q =>
      q.toInt = x.toInt.tdiv y.toInt := by
  unfold div
  rw [if_neg hy]
  refine ⟨fun hover => if_pos hover, fun hover => ⟨_, if_neg hover, ?_⟩⟩
  exact BitVec.toInt_sdiv_of_ne_or_ne _ _ (not_and_or.mp hover)

theorem div_eq_error_iff (hw : 0 < w) (x y : BitVec w) (e : Error) : div x y = .error e ↔
    e = .divideByZero ∧ y = 0 ∨ e = .quotientOverflow ∧ x = BitVec.intMin w ∧ y = -1 := by
  by_cases hy : y = 0
  · have hminus : y ≠ -1 := by
      intro hminus
      have hneg := toInt_minus_one hw
      rw [← hminus, hy] at hneg
      simp at hneg
    rw [div, if_pos hy, Except.error.injEq]
    constructor
    · exact fun he => Or.inl ⟨he.symm, hy⟩
    · rintro (⟨he, -⟩ | ⟨-, -, hover⟩)
      · exact he.symm
      · exact absurd hover hminus
  · rw [(guarded_div x hy).error_iff]
    exact ⟨Or.inr, fun h => h.resolve_left fun hzero => hy hzero.2⟩

/-- **The operations obey the laws of division**, for every width. -/
theorem divisionLaws (hw : 0 < w) (x y : BitVec w) : DivisionLaws x y (IntBinary.apply x y) where
  div_fails := div_eq_error_iff hw x y
  rem_fails := (guarded_rem x y).error_iff
  modulo_fails := (guarded_modulo x y).error_iff
  rem_truncated r hr := by
    obtain ⟨hy, hrem⟩ := (guarded_rem x y).of_ok hr
    refine ⟨hrem, ?_, ?_⟩
    · rw [hrem, Int.abs_eq_natAbs, Int.abs_eq_natAbs, Int.natAbs_tmod, Int.ofNat_lt]
      exact Nat.mod_lt _ (Int.natAbs_pos.mpr (toInt_ne_zero hy))
    · rw [← Int.sign_eq_zero_iff_zero, hrem, Int.sign_tmod]
      split
      · exact Or.inl rfl
      · exact Or.inr rfl
  modulo_fits r _ _ hmsb := saddOverflow_of_msb_ne hmsb
  modulo_floored m hm := by
    obtain ⟨hy, hmod⟩ := (guarded_modulo x y).of_ok hm
    rw [hmod]
    exact ⟨Int.dvd_self_sub_fmod, fmod_mul_sign_mem _ (toInt_ne_zero hy)⟩
  modulo_bySigns m hm := by
    obtain ⟨hy, hmod⟩ := (guarded_modulo x y).of_ok hm
    rw [hmod, bySigns_eq_fmod _ (toInt_ne_zero hy)]
  div_rem q hq := by
    have hy : y ≠ 0 := by
      intro hy
      have hzero : div x y = .error .divideByZero := if_pos hy
      cases hzero.symm.trans hq
    obtain ⟨-, hdiv⟩ := (guarded_div x hy).of_ok hq
    obtain ⟨r, hr, hrem⟩ := (guarded_rem x y).2 hy
    exact ⟨r, hr, by rw [hdiv, hrem, Int.tdiv_mul_add_tmod]⟩
  divU_fails := (guarded_divU x y).error_iff
  remU_fails := (guarded_remU x y).error_iff
  divU_remU q hq := by
    obtain ⟨hy, hdiv⟩ := (guarded_divU x y).of_ok hq
    obtain ⟨r, hr, hrem⟩ := (guarded_remU x y).2 hy
    have hpos : 0 < y.toNat := Nat.pos_of_ne_zero fun hz => hy (BitVec.toNat_inj.mp hz)
    refine ⟨r, hr, ?_, ?_⟩
    · rw [hdiv, hrem, Nat.div_add_mod']
    · rw [hrem]
      exact Nat.mod_lt _ hpos

end Fixed

/-! ## Division of values -/

namespace IntType

theorem expect_of_number? (t : IntType) {h : Heap} {w : Word} {a : BitVec t.bits}
    (hw : h.number? w = some (t.number a)) : t.expect w h = .ok a := by
  cases t with
  | int32 =>
    show (h.expectInt32 w).map Int32.toBitVec = _
    rw [Heap.expectInt32, hw]
    rfl
  | int64 =>
    show (h.expectInt64 w).map Int64.toBitVec = _
    rw [Heap.expectInt64, hw]
    rfl

theorem number_ne_small (t : IntType) (a : BitVec t.bits) (n : Int64) : t.number a ≠ .small n := by
  cases t <;> nofun

theorem bits_pos (t : IntType) : 0 < t.bits := by
  cases t <;> decide

end IntType

namespace Action

variable {t : IntType} {h : Heap} {x y : Word} {a b : BitVec t.bits}

/-- What an operation on boxed integers answers, read back in the representation of the operands. -/
def answer (t : IntType) (op : IntBinary) (x y : Word) (h : Heap) : Except Error (BitVec t.bits) :=
  match intBinary t op x y h with
  | (.ok w, k) => t.expect w k
  | (.error e, _) => .error e

theorem answer_eq_apply (hx : h.number? x = some (t.number a)) (hy : h.number? y = some (t.number b))
    (op : IntBinary) : answer t op x y h = op.apply a b := by
  unfold answer intBinary
  rw [read_bind_of_ok (t.expect_of_number? hx), read_bind_of_ok (t.expect_of_number? hy)]
  cases hc : op.apply a b with
  | error e => rw [result_bind_of_error rfl]
  | ok c =>
    obtain ⟨w, k, hnew, hread, -⟩ := exists_newBoxed (t.number c) (t.number_ne_small c) h
    rw [result_bind_of_ok rfl, hnew]
    exact t.expect_of_number? hread

/-- **Boxed integers of either representation obey the laws of division.** -/
theorem intBinary_division (t : IntType) (a b : BitVec t.bits) (x y : Word) (h : Heap)
    (hx : h.number? x = some (t.number a)) (hy : h.number? y = some (t.number b)) :
    Fixed.DivisionLaws a b fun op => answer t op x y h := by
  have hanswer : (fun op => answer t op x y h) = IntBinary.apply a b :=
    funext (answer_eq_apply hx hy)
  rw [hanswer]
  exact Fixed.divisionLaws t.bits_pos a b

/-- A heap with the least integer, minus one and the greatest integer, all boxed. -/
def extremes : Heap :=
  [.minValue, -1, .maxValue].foldl (fun h n => (h.allocate (Number.int64 n).box).2) .vacant

/-- The least integer by minus one overflows. By the greatest it leaves minus one, which becomes the largest
floored remainder there is. -/
theorem intBinary_division_extremes :
    answer .int64 .div (.reference 0) (.reference 1) extremes = .error .quotientOverflow ∧
    ∃ r m, answer .int64 .rem (.reference 0) (.reference 2) extremes = .ok r ∧
      answer .int64 .modulo (.reference 0) (.reference 2) extremes = .ok m ∧
      r.toInt = -1 ∧ m.toInt = 2 ^ 63 - 2 := by
  have hover := intBinary_division .int64 (.intMin 64) (-1) (.reference 0) (.reference 1) extremes rfl rfl
  have hlaws :=
    intBinary_division .int64 (.intMin 64) (.intMax 64) (.reference 0) (.reference 2) extremes rfl rfl
  have hne : BitVec.intMax 64 ≠ 0#64 := by decide
  refine ⟨(hover.div_fails _).mpr (Or.inr ⟨rfl, rfl, rfl⟩), ?_⟩
  cases hr : answer .int64 .rem (.reference 0) (.reference 2) extremes with
  | error e => exact absurd ((hlaws.rem_fails e).mp hr).2 hne
  | ok r =>
    cases hm : answer .int64 .modulo (.reference 0) (.reference 2) extremes with
    | error e => exact absurd ((hlaws.modulo_fails e).mp hm).2 hne
    | ok m =>
      refine ⟨r, m, rfl, rfl, ?_, ?_⟩
      · rw [(hlaws.rem_truncated r hr).1]
        decide +kernel
      · rw [hlaws.modulo_bySigns m hm]
        decide +kernel

end Action

end ValueHeap
