import ValueHeap.Proofs.Boxing
import ValueHeap.Proofs.NumberOrder

/-!
# Fractions in lowest terms

A quotient of two integers is the rational number `Fraction.quotient`, and its numerator and denominator
are the fraction in lowest terms with a positive denominator. `Fraction.reduce` gets there by Euclid's rule
on the magnitudes, a division and a change of signs with 128 bits.

* `turn` is one round of Euclid's rule. Two rounds halve the second number (`turn_turn_lt`), so the loop
  takes at most two rounds per bit (`exists_endsAfter`).
* `Exact`: every number on the way is the one it stands for, and no operation overflows.
* `toInt_orient_cancel`: what is worked out are the numerator and the denominator of the quotient.

Results:
* `Action.newRational_canonical`: the quotient of two integers fails or is made in one form only, so two
  quotients are the same number exactly when their cross products are equal.
-/

namespace ValueHeap

namespace Fraction

/-! ## Euclid's rule -/

theorem toNat_magnitude (n : Int64) : (magnitude n).toNat = n.toInt.natAbs := by
  show n.toBitVec.abs.toNat = n.toBitVec.toInt.natAbs
  rw [BitVec.toNat_abs, BitVec.toInt_eq_msb_cond]
  have hlt := n.toBitVec.isLt
  split <;> omega

theorem toNat_euclid (a b : UInt64) : (euclid a b).toNat = a.toNat.gcd b.toNat := by
  fun_induction euclid a b with
  | case1 a => exact (Nat.gcd_zero_right _).symm
  | case2 a b hb ih =>
    rw [ih, UInt64.toNat_mod, Nat.gcd_comm b.toNat, ← Nat.gcd_rec, Nat.gcd_comm]

/-- One round of Euclid's rule. -/
def turn (s : UInt64 × UInt64) : UInt64 × UInt64 := (s.2, s.1 % s.2)

/-- Two rounds more than halve the second number. -/
theorem turn_turn_lt {s : UInt64 × UInt64} (hs : s.2 ≠ 0) (hnext : (turn s).2 ≠ 0) :
    2 * (turn (turn s)).2.toNat < s.2.toNat := by
  show 2 * (s.2 % (s.1 % s.2)).toNat < s.2.toNat
  have hpos : 0 < s.2.toNat := Nat.pos_of_ne_zero fun hz => hs (UInt64.toNat_inj.mp hz)
  have hpos' : 0 < (s.1 % s.2).toNat :=
    Nat.pos_of_ne_zero fun hz => hnext (UInt64.toNat_inj.mp hz)
  rw [UInt64.toNat_mod] at hpos' ⊢
  rw [UInt64.toNat_mod]
  have hlt : s.1.toNat % s.2.toNat < s.2.toNat := Nat.mod_lt _ hpos
  generalize s.1.toNat % s.2.toNat = r at hpos' hlt
  have hrest : s.2.toNat % r < r := Nat.mod_lt _ hpos'
  have hdiv : s.2.toNat % r + r * (s.2.toNat / r) = s.2.toNat := Nat.mod_add_div _ _
  have hone : r * 1 ≤ r * (s.2.toNat / r) :=
    Nat.mul_le_mul_left _ (Nat.div_pos (Nat.le_of_lt hlt) hpos')
  omega

/-- The loop of Euclid's rule ends after `n` rounds, and not before. -/
def EndsAfter (n : Nat) (s : UInt64 × UInt64) : Prop :=
  turn^[n] s = (euclid s.1 s.2, 0) ∧ ∀ m < n, (turn^[m] s).2 ≠ 0

theorem EndsAfter.zero {s : UInt64 × UInt64} (hs : s.2 = 0) : EndsAfter 0 s := by
  refine ⟨?_, nofun⟩
  rw [euclid, if_pos hs, ← hs]
  rfl

theorem EndsAfter.succ {n : Nat} {s : UInt64 × UInt64} (hs : s.2 ≠ 0) (hn : EndsAfter n (turn s)) :
    EndsAfter (n + 1) s := by
  constructor
  · rw [Function.iterate_succ_apply, hn.1, euclid.eq_def s.1 s.2, if_neg hs]
    rfl
  · intro m hm
    cases m with
    | zero => exact hs
    | succ m => exact hn.2 m (Nat.lt_of_succ_lt_succ hm)

/-- **The loop ends** within two rounds for each bit of the second number. -/
theorem exists_endsAfter (k : Nat) (s : UInt64 × UInt64) (hk : s.2.toNat < 2 ^ k) :
    ∃ n ≤ 2 * k, EndsAfter n s := by
  induction k generalizing s with
  | zero =>
    exact ⟨0, Nat.le_refl _, .zero (UInt64.toNat_inj.mp (Nat.lt_one_iff.mp hk))⟩
  | succ k ih =>
    by_cases hs : s.2 = 0
    · exact ⟨0, Nat.zero_le _, .zero hs⟩
    by_cases hnext : (turn s).2 = 0
    · exact ⟨1, by omega, .succ hs (.zero hnext)⟩
    have hhalf := turn_turn_lt hs hnext
    obtain ⟨n, hn, hends⟩ := ih (turn (turn s)) (by omega)
    exact ⟨n + 2, by omega, .succ hs (.succ hnext hends)⟩

/-! ## Arithmetic with 128 bits -/

/-- The rational number that two integers make. -/
def quotient (num den : Int64) : ℚ := num.toInt / den.toInt

/-- Both terms of the quotient, in lowest terms, are 64-bit integers. -/
def Fits (num den : Int64) : Prop :=
  ∃ p q : Int64, p.toInt = (quotient num den).num ∧ q.toInt = (quotient num den).den

section Reduction

variable {num den : Int64}

theorem toNat_divisor_eq_euclid (num den : Int64) :
    (divisor num den).toNat = (euclid (magnitude num) (magnitude den)).toNat :=
  BitVec.toNat_setWidth_of_le (show 64 ≤ 128 by decide)

theorem toNat_divisor (num den : Int64) :
    (divisor num den).toNat = num.toInt.gcd den.toInt := by
  rw [toNat_divisor_eq_euclid, toNat_euclid, toNat_magnitude, toNat_magnitude]
  rfl

theorem toInt_divisor (num den : Int64) :
    (divisor num den).toInt = num.toInt.gcd den.toInt := by
  have hlt : (divisor num den).toNat < 2 ^ 64 := by
    rw [toNat_divisor_eq_euclid]
    exact UInt64.toNat_lt _
  rw [BitVec.toInt_eq_toNat_of_lt (by omega), toNat_divisor]

theorem divisor_ne_zero (hden : den ≠ 0) : divisor num den ≠ 0#128 := by
  intro hzero
  have hgcd : num.toInt.gcd den.toInt = 0 := by
    rw [← toNat_divisor, hzero]
    rfl
  exact hden (Int64.toInt_inj.mp (Int.gcd_eq_zero_iff.mp hgcd).2)

theorem divisor_ne_neg_one (num den : Int64) : divisor num den ≠ -1#128 := by
  intro hneg
  have htoInt := toInt_divisor num den
  rw [hneg] at htoInt
  have hminus : (-1#128 : BitVec 128).toInt = -1 := by decide
  omega

/-- The division by the common divisor is exact. -/
theorem toInt_sdiv_divisor {n : Int64} (hdvd : (num.toInt.gcd den.toInt : ℤ) ∣ n.toInt) :
    ((Number.wide n).sdiv (divisor num den)).toInt = n.toInt / num.toInt.gcd den.toInt := by
  rw [BitVec.toInt_sdiv_of_ne_or_ne _ _ (Or.inr (divisor_ne_neg_one num den)), Number.toInt_wide,
    toInt_divisor, Int.tdiv_eq_ediv_of_dvd hdvd]

theorem toInt_cancel_fst (num den : Int64) :
    (cancel num den).1.toInt = num.toInt / num.toInt.gcd den.toInt :=
  toInt_sdiv_divisor (Int.gcd_dvd_left _ _)

theorem toInt_cancel_snd (num den : Int64) :
    (cancel num den).2.toInt = den.toInt / num.toInt.gcd den.toInt :=
  toInt_sdiv_divisor (Int.gcd_dvd_right _ _)

/-- A part of a 64-bit integer can be negated with 128 bits. -/
theorem negOverflow_of_ediv {x : BitVec 128} {n : Int64} {d : ℤ} (hx : x.toInt = n.toInt / d) :
    x.negOverflow = false := by
  have hpart := Int.natAbs_ediv_le_natAbs n.toInt d
  have hlow := n.le_toInt
  have hhigh := n.toInt_lt
  rw [BitVec.negOverflow, hx, beq_eq_false_iff_ne]
  generalize n.toInt / d = part at hpart
  omega

/-- Every number on the way to the reduced fraction is the one it stands for: the divisor is the greatest
common one and is not zero, and neither the divisions nor the negations overflow. -/
structure Exact (num den : Int64) : Prop where
  divisor_eq : (divisor num den).toInt = num.toInt.gcd den.toInt
  divisor_ne_zero : divisor num den ≠ 0#128
  num_quotient : (Number.wide num).sdivOverflow (divisor num den) = false
  den_quotient : (Number.wide den).sdivOverflow (divisor num den) = false
  num_negative : (cancel num den).1.negOverflow = false
  den_negative : (cancel num den).2.negOverflow = false

theorem exact_of_ne_zero (num : Int64) (hden : den ≠ 0) : Exact num den := by
  have hquotient (x : BitVec 128) : x.sdivOverflow (divisor num den) = false := by
    rw [BitVec.sdivOverflow_eq, ← BitVec.neg_one_eq_allOnes, decide_eq_false (divisor_ne_neg_one _ _),
      Bool.and_false]
  exact {
    divisor_eq := toInt_divisor num den
    divisor_ne_zero := Fraction.divisor_ne_zero hden
    num_quotient := hquotient _
    den_quotient := hquotient _
    num_negative := negOverflow_of_ediv (toInt_cancel_fst num den)
    den_negative := negOverflow_of_ediv (toInt_cancel_snd num den) }

/-- Coprime numbers with the sign in the numerator are the numerator and the denominator. -/
theorem toInt_orient {f : BitVec 128 × BitVec 128} (hnum : f.1.negOverflow = false)
    (hden : f.2.negOverflow = false) (hzero : f.2.toInt ≠ 0)
    (hcop : f.1.toInt.natAbs.Coprime f.2.toInt.natAbs) :
    (orient f).1.toInt = (f.1.toInt / f.2.toInt : ℚ).num ∧
      (orient f).2.toInt = (f.1.toInt / f.2.toInt : ℚ).den := by
  unfold orient
  split
  · next hneg =>
    have hlt : f.2.toInt < 0 := of_decide_eq_true hneg
    have hfst : (-f.1).toInt = -f.1.toInt := BitVec.toInt_neg_of_not_negOverflow (by simp [hnum])
    have hsnd : (-f.2).toInt = -f.2.toInt := BitVec.toInt_neg_of_not_negOverflow (by simp [hden])
    have hsame : (f.1.toInt / f.2.toInt : ℚ) = (-f.1.toInt : ℤ) / (-f.2.toInt : ℤ) := by
      rw [Int.cast_neg, Int.cast_neg, neg_div_neg_eq]
    have hcop' : (-f.1.toInt).natAbs.Coprime (-f.2.toInt).natAbs := by
      rw [Int.natAbs_neg, Int.natAbs_neg]
      exact hcop
    rw [hfst, hsnd, hsame, Rat.num_div_eq_of_coprime (by omega) hcop',
      Rat.den_div_eq_of_coprime (by omega) hcop']
    exact ⟨rfl, rfl⟩
  · next hpos =>
    have hlt : 0 < f.2.toInt := by
      have : ¬f.2.toInt < 0 := fun hlt => hpos (decide_eq_true hlt)
      omega
    exact ⟨(Rat.num_div_eq_of_coprime hlt hcop).symm, (Rat.den_div_eq_of_coprime hlt hcop).symm⟩

/-- **The fraction that is worked out is the quotient in lowest terms.** -/
theorem toInt_orient_cancel (num : Int64) (hden : den ≠ 0) :
    (orient (cancel num den)).1.toInt = (quotient num den).num ∧
      (orient (cancel num den)).2.toInt = (quotient num den).den := by
  have hD : den.toInt ≠ 0 := fun hz => hden (Int64.toInt_inj.mp hz)
  have hpos : 0 < num.toInt.gcd den.toInt := Int.gcd_pos_of_ne_zero_right _ hD
  have hg : (num.toInt.gcd den.toInt : ℤ) ≠ 0 := by omega
  have hexact := exact_of_ne_zero num hden
  have hvalue : ((cancel num den).1.toInt / (cancel num den).2.toInt : ℚ) = quotient num den := by
    have hg' : ((num.toInt.gcd den.toInt : ℤ) : ℚ) ≠ 0 := Int.cast_ne_zero.mpr hg
    rw [toInt_cancel_fst, toInt_cancel_snd, Int.cast_div (Int.gcd_dvd_left _ _) hg',
      Int.cast_div (Int.gcd_dvd_right _ _) hg', div_div_div_cancel_right₀ hg']
    rfl
  rw [← hvalue]
  apply toInt_orient hexact.num_negative hexact.den_negative
  · rw [toInt_cancel_snd]
    exact fun hz => hD (Int.eq_zero_of_ediv_eq_zero (Int.gcd_dvd_right _ _) hz)
  · rw [toInt_cancel_fst, toInt_cancel_snd]
    exact Int.gcd_ediv_gcd_ediv_gcd hpos

/-! ## The final form -/

theorem fitsInt64_iff (n : ℤ) : Number.fitsInt64 n = true ↔ ∃ m : Int64, m.toInt = n := by
  rw [Number.fitsInt64, Bool.and_eq_true, decide_eq_true_eq, decide_eq_true_eq]
  constructor
  · rintro ⟨hlow, hhigh⟩
    exact ⟨.ofInt n, Int64.toInt_ofInt_of_le hlow hhigh⟩
  · rintro ⟨m, rfl⟩
    exact ⟨m.le_toInt, m.toInt_lt⟩

/-- A quotient whose terms fit is reduced to them. -/
theorem reduce_of_fits (hden : den ≠ 0) {p q : Int64} (hp : p.toInt = (quotient num den).num)
    (hq : q.toInt = (quotient num den).den) :
    reduce num den = .ok (if q = 1 then .whole p else .proper p q) := by
  obtain ⟨hn, hd⟩ := toInt_orient_cancel num hden
  have hone : q.toInt = 1 ↔ q = 1 := ⟨fun h => Int64.toInt_inj.mp h, fun h => h ▸ rfl⟩
  unfold reduce
  rw [if_neg hden, hn, hd, ← hp, ← hq]
  simp only [(fitsInt64_iff _).mpr ⟨_, rfl⟩, Int64.ofInt_toInt, hone]
  exact (apply_ite Except.ok _ _ _).symm

/-- A quotient with a term that does not fit overflows. -/
theorem reduce_of_not_fits (hden : den ≠ 0) (hfits : ¬Fits num den) :
    ∃ e, reduce num den = .error e ∧ e.category = .overflow := by
  obtain ⟨hn, hd⟩ := toInt_orient_cancel num hden
  unfold reduce
  rw [if_neg hden, hn, hd]
  by_cases hp : Number.fitsInt64 (quotient num den).num = true
  · have hq : ¬Number.fitsInt64 (quotient num den).den = true := by
      intro hq
      obtain ⟨p, hp⟩ := (fitsInt64_iff _).mp hp
      obtain ⟨q, hq⟩ := (fitsInt64_iff _).mp hq
      exact hfits ⟨p, q, hp, hq⟩
    simp only [hp, hq]
    exact ⟨_, rfl, rfl⟩
  · simp only [hp]
    exact ⟨_, rfl, rfl⟩

end Reduction

end Fraction

namespace Action

open Fraction

variable {num den : Int64} {h : Heap}

theorem newRational_of_error {e : Error} (he : reduce num den = .error e) :
    newRational num den h = (.error e, h) := by
  unfold newRational result
  rw [he]
  rfl

theorem newRational_of_fits (hden : den ≠ 0) {p q : Int64} (hp : p.toInt = (quotient num den).num)
    (hq : q.toInt = (quotient num den).den) :
    newRational num den h = if q = 1 then newInteger p h else newBoxed (.rational p q) h := by
  unfold newRational result
  rw [reduce_of_fits hden hp hq]
  split <;> rfl

theorem exists_newRational_of_fits (hden : den ≠ 0) (hfits : Fits num den) :
    ∃ w k, newRational num den h = (.ok w, k) := by
  obtain ⟨p, q, hp, hq⟩ := hfits
  rw [newRational_of_fits hden hp hq]
  split
  · obtain ⟨w, k, -, hnew, -⟩ := exists_newInteger p h
    exact ⟨w, k, hnew⟩
  · exact ⟨_, _, rfl⟩

theorem newRational_zero (num : Int64) (h : Heap) :
    newRational num 0 h = (.error .divideByZero, h) :=
  newRational_of_error (by rw [reduce, if_pos rfl])

/-- **A quotient reads back** as a number in lowest terms that is exactly the quotient. -/
theorem number?_newRational {w : Word} {k : Heap} (hnew : newRational num den h = (.ok w, k)) :
    den ≠ 0 ∧ h.KeepsNumbers k ∧ ∃ x, k.number? w = some x ∧ x.IsReduced ∧ x.isFloat = false ∧
      x.exactValue? = some (.rat (quotient num den)) := by
  have hden : den ≠ 0 := by
    rintro rfl
    rw [newRational_zero] at hnew
    cases hnew
  have hfits : Fits num den := by
    by_contra hfits
    obtain ⟨e, he, -⟩ := reduce_of_not_fits hden hfits
    rw [newRational_of_error he] at hnew
    cases hnew
  obtain ⟨p, q, hp, hq⟩ := hfits
  have hvalue : quotient num den = p.toInt / q.toInt := by
    rw [hp, hq, Int.cast_natCast, Rat.num_div_den]
  refine ⟨hden, ?_⟩
  rw [newRational_of_fits hden hp hq] at hnew
  by_cases hone : q = 1
  · rw [if_pos hone] at hnew
    obtain ⟨w', k', x, hinteger, hread, hx, hkeeps⟩ := exists_newInteger p h
    cases hinteger.symm.trans hnew
    refine ⟨hkeeps, x, hread, ?_, Number.isFloat_of_integer hx, ?_⟩
    · cases x with
      | rational _ _ => cases hx
      | _ => trivial
    · rw [Number.exactValue?_of_integer hx, hvalue, hone]
      simp
  · rw [if_neg hone] at hnew
    obtain ⟨w', k', hboxed, hread, hkeeps⟩ := exists_newBoxed (.rational p q) nofun h
    cases hboxed.symm.trans hnew
    refine ⟨hkeeps, _, hread, ⟨?_, ?_⟩, rfl, ?_⟩
    · have hpos := (quotient num den).den_pos
      have hne : q.toInt ≠ 1 := fun h => hone (Int64.toInt_inj.mp h)
      omega
    · rw [hp, hq, Int.natAbs_natCast]
      exact (quotient num den).reduced
    · rw [hvalue]
      rfl

theorem quotient_eq_quotient_iff {num' den' : Int64} (hden : den ≠ 0) (hden' : den' ≠ 0) :
    quotient num den = quotient num' den' ↔
      num.toInt * den'.toInt = num'.toInt * den.toInt := by
  have hcast {d : Int64} (hd : d ≠ 0) : (d.toInt : ℚ) ≠ 0 :=
    Int.cast_ne_zero.mpr fun hz => hd (Int64.toInt_inj.mp hz)
  rw [quotient, quotient, div_eq_div_iff (hcast hden) (hcast hden')]
  exact_mod_cast Iff.rfl

/-- Two quotients on a heap are the same number exactly when their cross products are equal. Other things
may have happened to the heap in between, as long as the first quotient is still there. -/
theorem numbersSame_newRational {num' den' : Int64} {k h' k' : Heap} {x y : Word}
    (hx : newRational num den h = (.ok x, k)) (hkept : h'.number? x = k.number? x)
    (hy : newRational num' den' h' = (.ok y, k')) :
    k'.numbersSame x y = true ↔ num.toInt * den'.toInt = num'.toInt * den.toInt := by
  obtain ⟨hden, -, a, ha, hareduced, hafloat, havalue⟩ := number?_newRational hx
  obtain ⟨hden', hkeeps, b, hb, hbreduced, hbfloat, hbvalue⟩ := number?_newRational hy
  have hmix : a.mixes b = false := by simp [Number.mixes, hafloat, hbfloat]
  rw [Heap.numbersSame, hkeeps x a (hkept.trans ha), hb]
  show a.same b = true ↔ _
  rw [Number.same_iff_exactValue? hareduced hbreduced hmix, havalue, hbvalue,
    ← quotient_eq_quotient_iff hden hden']
  simp only [Option.some.injEq, exists_eq_left', Extended.rat_inj]
  exact eq_comm

theorem newRational_divideByZero_iff :
    (newRational num den h).1 = .error .divideByZero ↔ den = 0 := by
  constructor
  · intro herror
    by_contra hden
    by_cases hfits : Fits num den
    · obtain ⟨w, k, hok⟩ := exists_newRational_of_fits hden hfits
      rw [hok] at herror
      cases herror
    · obtain ⟨e, he, hcategory⟩ := reduce_of_not_fits hden hfits
      rw [newRational_of_error he] at herror
      cases herror
      cases hcategory
  · rintro rfl
    rw [newRational_zero]

theorem newRational_overflow_iff (hden : den ≠ 0) :
    (∃ e, (newRational num den h).1 = .error e ∧ e.category = .overflow) ↔ ¬Fits num den := by
  constructor
  · rintro ⟨e, he, -⟩ hfits
    obtain ⟨w, k, hok⟩ := exists_newRational_of_fits hden hfits
    rw [hok] at he
    cases he
  · intro hfits
    obtain ⟨e, he, hcategory⟩ := reduce_of_not_fits hden hfits
    exact ⟨e, by rw [newRational_of_error he], hcategory⟩

/-- **The quotient of two integers is made in one form only.** It fails by a division by zero exactly when
the denominator is zero, and by an overflow exactly when a term of the quotient in lowest terms does not
fit; otherwise it is an integer or a block with the two terms. Two quotients on a heap are the same number
exactly when their cross products are equal. On the way Euclid's loop ends within 128 rounds, and nothing
overflows. -/
theorem newRational_canonical (num den : Int64) (h : Heap) :
    ((newRational num den h).1 = .error .divideByZero ↔ den = 0) ∧
    (den ≠ 0 →
      ((∃ e, (newRational num den h).1 = .error e ∧ e.category = .overflow) ↔ ¬Fits num den) ∧
      (∀ p q : Int64, p.toInt = (quotient num den).num → q.toInt = (quotient num den).den →
        newRational num den h = (if q = 1 then newInteger p h else newBoxed (.rational p q) h) ∧
        (q ≠ 1 → ∃ w k, newRational num den h = (.ok w, k) ∧ k.number? w = some (.rational p q))) ∧
      Exact num den) ∧
    (∀ (num' den' : Int64) (k h' k' : Heap) (x y : Word),
      newRational num den h = (.ok x, k) → h'.number? x = k.number? x →
      newRational num' den' h' = (.ok y, k') →
      (k'.numbersSame x y = true ↔ num.toInt * den'.toInt = num'.toInt * den.toInt)) ∧
    ∃ rounds ≤ 128, EndsAfter rounds (magnitude num, magnitude den) := by
  refine ⟨newRational_divideByZero_iff, fun hden => ⟨newRational_overflow_iff hden, ?_,
    exact_of_ne_zero num hden⟩, fun _ _ _ _ _ _ _ => numbersSame_newRational,
    exists_endsAfter 64 _ (UInt64.toNat_lt _)⟩
  intro p q hp hq
  refine ⟨newRational_of_fits hden hp hq, fun hone => ?_⟩
  obtain ⟨w, k, hboxed, hread, -⟩ := exists_newBoxed (.rational p q) nofun h
  rw [newRational_of_fits hden hp hq, if_neg hone]
  exact ⟨w, k, hboxed, hread⟩

/-- The least integer over six is reduced, over minus one it overflows, and it is the same number as a
fraction with the other sign in its denominator. -/
theorem newRational_canonical_least :
    (newRational .minValue 6 .vacant = newBoxed (.rational (-4611686018427387904) 3) .vacant) ∧
    (∃ e, (newRational .minValue (-1) .vacant).1 = .error e ∧ e.category = .overflow) ∧
    ∃ x k y k', newRational .minValue 6 .vacant = (.ok x, k) ∧
      newRational 4611686018427387904 (-3) k = (.ok y, k') ∧ k'.numbersSame x y = true := by
  obtain ⟨-, hfirst, hsame, -⟩ := newRational_canonical .minValue 6 .vacant
  obtain ⟨-, hover, -⟩ := newRational_canonical .minValue (-1) .vacant
  obtain ⟨hreduced, hread⟩ :=
    (hfirst (by decide)).2.1 (-4611686018427387904) 3 (by decide +kernel) (by decide +kernel)
  obtain ⟨x, k, hx, -⟩ := hread (by decide)
  obtain ⟨-, hsecond, -⟩ := newRational_canonical 4611686018427387904 (-3) k
  obtain ⟨y, k', hy, -⟩ :=
    ((hsecond (by decide)).2.1 (-4611686018427387904) 3 (by decide +kernel) (by decide +kernel)).2
      (by decide)
  refine ⟨hreduced, (hover (by decide)).1.mpr ?_, x, k, y, k', hx, hy, ?_⟩
  · rintro ⟨p, q, hp, -⟩
    have hnum : (quotient .minValue (-1)).num = 2 ^ 63 := by decide +kernel
    have hlt := p.toInt_lt
    omega
  · exact (hsame _ _ k k k' x y hx rfl hy).mpr (by decide)

end Action

end ValueHeap
