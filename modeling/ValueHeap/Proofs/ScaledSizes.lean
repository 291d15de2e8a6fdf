import Mathlib.Algebra.Order.Floor.Semifield
import Mathlib.Data.Rat.Floor
import ValueHeap.Options
import ValueHeap.Proofs.DecimalReading

/-!
# Sizes with a suffix

A size is a plain decimal with white space around it, and a letter after it stands for a power of two. The
fraction of the decimal is cut off before the suffix scales the rest. So a decimal with a fraction loses
what the suffix makes of it: three halves of a binary thousand are read as one. The size is right iff the
fraction comes to less than one after scaling, as it does where there is none.

Results:
* `strip_append`: the white space around a text is taken off.
* `splitSuffix_append`: the suffix is told by the last character.
* `readSize?_of_writes`: the size that is read.
* `readSize?_scaled`: and when it is the right one.
-/

namespace ValueHeap

/-! ## White space -/

namespace Text

theorem dropWhile_isBlank_append {cs : List Char} (hcs : ∀ c ∈ cs, isBlank c = false) (hne : cs ≠ [])
    (rest : List Char) : (cs ++ rest).dropWhile isBlank = cs ++ rest := by
  obtain ⟨c, cs, rfl⟩ := List.exists_cons_of_ne_nil hne
  have hhead : ¬ isBlank c = true := by
    rw [hcs c List.mem_cons_self]
    exact Bool.false_ne_true
  exact List.dropWhile_cons_of_neg hhead

/-- The white space around a text is taken off. -/
theorem strip_append {before cs after : List Char} (hbefore : ∀ c ∈ before, isBlank c = true)
    (hcs : ∀ c ∈ cs, isBlank c = false) (hne : cs ≠ []) (hafter : ∀ c ∈ after, isBlank c = true) :
    strip (before ++ cs ++ after) = cs := by
  have hreverse : ∀ c ∈ cs.reverse, isBlank c = false := fun c hc => hcs c (List.mem_reverse.mp hc)
  have hback : ∀ c ∈ after.reverse, isBlank c = true := fun c hc => hafter c (List.mem_reverse.mp hc)
  have hend : cs.reverse.dropWhile isBlank = cs.reverse := by
    have := dropWhile_isBlank_append hreverse (mt List.reverse_eq_nil_iff.mp hne) []
    rwa [List.append_nil] at this
  unfold strip
  rw [List.append_assoc, List.dropWhile_append_of_pos hbefore, dropWhile_isBlank_append hcs hne,
    List.reverse_append, List.dropWhile_append_of_pos hback, hend, List.reverse_reverse]

end Text

namespace Options

open Binary (double)

/-! ## Texts of sizes -/

/-- The suffixes, each with the power of two that it stands for. -/
def suffixes : List (List Char × Nat) :=
  [([], 0), (['k'], 10), (['K'], 10), (['m'], 20), (['M'], 20), (['g'], 30), (['G'], 30)]

/-- The text is the decimal with a suffix for the power of two, and with white space around it. -/
def Writes (text : String) (t : PlainDecimal) (power : Nat) : Prop :=
  ∃ before suffix after : List Char, text.toList = before ++ (t.chars ++ suffix) ++ after ∧
    (∀ c ∈ before, Text.isBlank c = true) ∧ (∀ c ∈ after, Text.isBlank c = true) ∧
    (suffix, power) ∈ suffixes

variable {text : String} {t : PlainDecimal} {suffix : List Char} {power : Nat}

theorem Writes.power_le (hwrites : Writes text t power) : power ≤ 30 := by
  obtain ⟨-, suffix, -, -, -, -, hsuffix⟩ := hwrites
  have hall : ∀ s ∈ suffixes, s.2 ≤ 30 := by decide
  exact hall _ hsuffix

/-! ## Taking a text apart -/

/-- Neither a digit nor a point is white space. -/
theorem isBlank_of_mem_chars {c : Char} (hc : c ∈ t.chars) : Text.isBlank c = false := by
  have hbounds := t.toNat_bounds hc
  simp only [Text.isBlank, Bool.or_eq_false_iff, Bool.and_eq_false_iff, decide_eq_false_iff_not,
    beq_eq_false_iff_ne]
  omega

/-- Neither a digit nor a point is a suffix. -/
theorem suffixFactor?_of_mem_chars {c : Char} (hc : c ∈ t.chars) : suffixFactor? c = none := by
  have hletter (d : Char) (hd : 57 < d.toNat) : c ≠ d := by
    rintro rfl
    exact absurd (t.toNat_bounds hc).2 (Nat.not_le.mpr hd)
  unfold suffixFactor?
  rw [if_neg (not_or.mpr ⟨hletter 'k' (by decide), hletter 'K' (by decide)⟩),
    if_neg (not_or.mpr ⟨hletter 'm' (by decide), hletter 'M' (by decide)⟩),
    if_neg (not_or.mpr ⟨hletter 'g' (by decide), hletter 'G' (by decide)⟩)]

/-- A suffix is empty or one letter, whose factor is its power of two. -/
theorem suffix_cases (hsuffix : (suffix, power) ∈ suffixes) : suffix = [] ∧ power = 0 ∨
    ∃ c, suffix = [c] ∧ suffixFactor? c = some (2 ^ power) ∧ Text.isBlank c = false ∧ c ≠ 'x' ∧ c ≠ 'X' := by
  simp only [suffixes, List.mem_cons, Prod.mk.injEq, List.not_mem_nil, or_false] at hsuffix
  rcases hsuffix with hnone | hletter
  · exact Or.inl hnone
  · right
    rcases hletter with ⟨rfl, rfl⟩ | ⟨rfl, rfl⟩ | ⟨rfl, rfl⟩ | ⟨rfl, rfl⟩ | ⟨rfl, rfl⟩ | ⟨rfl, rfl⟩ <;>
      exact ⟨_, rfl, by decide, by decide, by decide, by decide⟩

/-- **The suffix is told by the last character.** -/
theorem splitSuffix_append (t : PlainDecimal) (hsuffix : (suffix, power) ∈ suffixes) :
    splitSuffix (t.chars ++ suffix) = (t.chars, 2 ^ power) := by
  unfold splitSuffix
  rcases suffix_cases hsuffix with ⟨rfl, rfl⟩ | ⟨c, rfl, hfactor, -⟩
  · have hlast := suffixFactor?_of_mem_chars (List.getLast_mem t.chars_ne_nil)
    rw [List.append_nil, List.getLast?_eq_some_getLast t.chars_ne_nil, Option.bind_some, hlast, Nat.pow_zero]
  · rw [List.getLast?_concat, Option.bind_some, hfactor, List.dropLast_concat]

/-- No letter of such a text is taken for the mark of a radix. -/
theorem radixMark_notMem (hsuffix : (suffix, power) ∈ suffixes) {x : Char} (hx : x = 'x' ∨ x = 'X') :
    x ∉ t.chars ++ suffix := by
  intro hmem
  rcases List.mem_append.mp hmem with hchars | hletter
  · have hhigh := (t.toNat_bounds hchars).2
    rcases hx with rfl | rfl <;> revert hhigh <;> decide
  · rcases suffix_cases hsuffix with ⟨rfl, -⟩ | ⟨c, rfl, -, -, hx', hX'⟩
    · simp at hletter
    · obtain rfl := List.mem_singleton.mp hletter
      rcases hx with rfl | rfl <;> contradiction

/-- The text without the white space around it. -/
theorem strip_of_writes (hwrites : Writes text t power) :
    ∃ suffix, (suffix, power) ∈ suffixes ∧ Text.strip text.toList = t.chars ++ suffix := by
  obtain ⟨before, suffix, after, htext, hbefore, hafter, hsuffix⟩ := hwrites
  have hsolid : ∀ c ∈ t.chars ++ suffix, Text.isBlank c = false := by
    intro c hc
    rcases List.mem_append.mp hc with hchars | hletter
    · exact isBlank_of_mem_chars hchars
    · rcases suffix_cases hsuffix with ⟨rfl, -⟩ | ⟨d, rfl, -, hblank, -⟩
      · simp at hletter
      · rwa [List.mem_singleton.mp hletter]
  have hne : t.chars ++ suffix ≠ [] := List.append_ne_nil_of_left_ne_nil t.chars_ne_nil _
  exact ⟨suffix, hsuffix, by rw [htext, Text.strip_append hbefore hsolid hne hafter]⟩

/-! ## The size that is read -/

theorem wholePart?_of_lt {m : Nat} (hm : m < double.infinity) :
    wholePart? m = some (min (double.units m / double.one) (UInt64.size - 1)) := by
  have hsign : m < double.signBit := hm.trans double.infinity_lt_signBit
  have hmagnitude : double.magnitude m = m := double.magnitude_withSign hsign false
  have hnegative : double.isNegative m = false := double.isNegative_withSign hsign false
  have hfinite : double.isFinite m = true := by
    rw [Binary.Format.isFinite_iff, hmagnitude]
    exact hm
  have hvalue : double.value m = double.units m := double.value_withSign hsign false
  have htruncate : double.truncate m = (double.units m / double.one : Nat) := by
    rw [Binary.Format.truncate, hvalue, Int.ofNat_tdiv]
  unfold wholePart?
  rw [hfinite, hnegative, htruncate]
  rfl

theorem floor_value_lt (hsmall : t.value < 2 ^ 32) : ⌊t.value⌋₊ < 2 ^ 32 :=
  (Nat.floor_lt t.value_nonneg).mpr (by exact_mod_cast hsmall)

/-- A plain decimal is read to its whole part, before any suffix counts. -/
theorem wholePart?_decimal (hhas : double.Has t.value) (hsmall : t.value < 2 ^ 32) :
    wholePart? ((Literal.finite false t.decimal).toBinary double) = some ⌊t.value⌋₊ := by
  obtain ⟨m, hm, hunits⟩ := hhas.exists_units (by decide) t.value_nonneg
  have hone : (0 : ℚ) < double.one := by exact_mod_cast double.one_pos
  have hsize : t.value < 10 ^ (double.unitExponent + 1) :=
    calc t.value < 2 ^ 32 := hsmall
      _ ≤ 10 ^ 10 := by norm_num
      _ ≤ 10 ^ (double.unitExponent + 1) := pow_le_pow_right₀ (by norm_num) (by decide)
  have hbinary : (Literal.finite false t.decimal).toBinary double = m := by
    rw [Literal.toBinary, t.toBinary_decimal hm hunits hsize]
    rfl
  have hfloor : double.units m / double.one = ⌊t.value⌋₊ := by
    rw [← Nat.floor_div_eq_div (K := ℚ), hunits, mul_div_cancel_right₀ _ hone.ne']
  have hmin : min ⌊t.value⌋₊ (UInt64.size - 1) = ⌊t.value⌋₊ :=
    Nat.min_eq_left ((floor_value_lt hsmall).le.trans (by decide))
  rw [hbinary, wholePart?_of_lt hm, hfloor, hmin]

/-- The scaled whole part fits into 64 bits. -/
theorem scaled_lt (hwrites : Writes text t power) (hsmall : t.value < 2 ^ 32) :
    ⌊t.value⌋₊ * 2 ^ power < UInt64.size := by
  calc ⌊t.value⌋₊ * 2 ^ power
      < 2 ^ 32 * 2 ^ power := Nat.mul_lt_mul_of_pos_right (floor_value_lt hsmall) (Nat.two_pow_pos power)
    _ ≤ 2 ^ 32 * 2 ^ 30 := Nat.mul_le_mul_left _ (Nat.pow_le_pow_right (by decide) hwrites.power_le)
    _ < UInt64.size := by decide

/-- **The whole part is read and then scaled.** -/
theorem readSize?_of_writes (hwrites : Writes text t power) (hhas : double.Has t.value)
    (hsmall : t.value < 2 ^ 32) : readSize? text = some (⌊t.value⌋₊ * 2 ^ power) := by
  have hfits := Nat.mod_eq_of_lt (scaled_lt hwrites hsmall)
  obtain ⟨suffix, hsuffix, hstrip⟩ := strip_of_writes hwrites
  have hscaled : readScaled? (t.chars ++ suffix) = some (⌊t.value⌋₊ * 2 ^ power) := by
    unfold readScaled?
    rw [splitSuffix_append t hsuffix]
    simp only [t.read?_chars, wholePart?_decimal hhas hsmall, bind, pure, Option.bind_some, hfits]
  unfold readSize?
  rw [hstrip]
  split
  · next ds hmark =>
    have hmem : 'x' ∈ t.chars ++ suffix := by simp [hmark]
    exact absurd hmem (radixMark_notMem hsuffix (Or.inl rfl))
  · next ds hmark =>
    have hmem : 'X' ∈ t.chars ++ suffix := by simp [hmark]
    exact absurd hmem (radixMark_notMem hsuffix (Or.inr rfl))
  · exact hscaled

/-- Scaling a whole part gives the whole part of the scaled number iff what is cut off comes to less than
one. -/
theorem floor_mul_eq_iff {r : ℚ} (hr : 0 ≤ r) (power : Nat) :
    ⌊r⌋₊ * 2 ^ power = ⌊r * 2 ^ power⌋₊ ↔ (r - ⌊r⌋₊) * 2 ^ power < 1 := by
  have hpow : (0 : ℚ) < 2 ^ power := by positivity
  have hle : (⌊r⌋₊ : ℚ) * 2 ^ power ≤ r * 2 ^ power := mul_le_mul_of_nonneg_right (Nat.floor_le hr) hpow.le
  rw [eq_comm, Nat.floor_eq_iff (mul_nonneg hr hpow.le), sub_mul, sub_lt_iff_lt_add']
  push_cast
  exact and_iff_right hle

/-- **Sizes with a suffix.** The text of a decimal that is a 64-bit float below 2^32 is read as its whole
part times the power of two of the suffix, which fits into 64 bits. That is the whole part of the product
iff the fraction of the decimal comes to less than one when it is scaled. -/
theorem readSize?_scaled (text : String) (t : PlainDecimal) (power : Nat)
    (hwrites : Writes text t power) (hhas : double.Has t.value) (hsmall : t.value < 2 ^ 32) :
    readSize? text = some (⌊t.value⌋₊ * 2 ^ power) ∧ ⌊t.value⌋₊ * 2 ^ power < UInt64.size ∧
      (readSize? text = some ⌊t.value * 2 ^ power⌋₊ ↔ (t.value - ⌊t.value⌋₊) * 2 ^ power < 1) := by
  have hread := readSize?_of_writes hwrites hhas hsmall
  refine ⟨hread, scaled_lt hwrites hsmall, ?_⟩
  rw [hread, Option.some.injEq, floor_mul_eq_iff t.value_nonneg]

/-- One and a half. -/
def threeHalves : PlainDecimal := ⟨['1'], some ['5'], List.all_eq_true.mp (by decide), by decide⟩

theorem value_threeHalves : threeHalves.value = 3 / 2 := by
  have hwhole : Nat.ofDigitChars 10 threeHalves.whole 0 = 1 := rfl
  have hfraction : Nat.ofDigitChars 10 threeHalves.fraction 0 = 5 := rfl
  have hlength : threeHalves.fraction.length = 1 := rfl
  rw [PlainDecimal.value, hwhole, hfraction, hlength]
  norm_num

theorem has_threeHalves : double.Has threeHalves.value := by
  have hvalue : double.denoted 0x3ff8000000000000 = 3 / 2 := by
    have hmagnitude : double.magnitude 0x3ff8000000000000 = 0x3ff8000000000000 := by decide
    have hsign : double.isNegative 0x3ff8000000000000 = false := by decide
    have hbias : double.bias = 1023 := by decide
    have hwidth : double.fraction = 52 := rfl
    simp only [Binary.Format.denoted, hmagnitude, hsign, hbias, hwidth]
    norm_num
  refine ⟨0x3ff8000000000000, by decide, ?_⟩
  rw [Binary.Format.exactValue?_of_finite (by decide), hvalue, value_threeHalves]

theorem readSize?_scaled_threeHalves : Writes "\t1.5M " threeHalves 20 ∧ double.Has threeHalves.value ∧
    threeHalves.value < 2 ^ 32 ∧ readSize? "\t1.5M " = some (⌊threeHalves.value⌋₊ * 2 ^ 20) := by
  have hwrites : Writes "\t1.5M " threeHalves 20 :=
    ⟨['\t'], ['M'], [' '], by decide, List.all_eq_true.mp (by decide), List.all_eq_true.mp (by decide),
      by decide⟩
  have hsmall : threeHalves.value < 2 ^ 32 := by
    rw [value_threeHalves]
    norm_num
  exact ⟨hwrites, has_threeHalves, hsmall, (readSize?_scaled _ _ _ hwrites has_threeHalves hsmall).1⟩

/-- Three halves of a binary thousand are 1536, and are read as 1024. -/
theorem threeHalves_cut_short : Writes "1.5k" threeHalves 10 ∧ double.Has threeHalves.value ∧
    threeHalves.value < 2 ^ 32 ∧ ⌊threeHalves.value * 2 ^ 10⌋₊ = 1536 ∧ readSize? "1.5k" = some 1024 := by
  have hblank : ∀ c ∈ ([] : List Char), Text.isBlank c = true := List.forall_mem_nil _
  refine ⟨⟨[], ['k'], [], by decide, hblank, hblank, by decide⟩, has_threeHalves, ?_, ?_, ?_⟩
  · rw [value_threeHalves]
    norm_num
  · rw [value_threeHalves]
    norm_num
  · decide +kernel

end Options

end ValueHeap
