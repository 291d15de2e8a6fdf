import Mathlib.Algebra.Order.Ring.Int
import ValueHeap.Bits.Field

/-!
# What a bit field holds

The bits of a field are a word of their own, as wide as the field (`contents`). Writing a field stores the
low bits of a value there, and reading it extends them to 64 bits again, with zeros or with the sign
(`extend`). So the values that a field can hold are those that survive being cut to its width.

Results:
* `decode_eq_extend`, `contents_encode`: reading and writing through the contents.
* `isValid_iff_of_signed`: a signed field holds exactly the range of two's complement.
* `isValid_decode`, `encode_decode`: what is read fits, and writes the bits that were there.
* `toNat_decode`: an unsigned field read as a number.
-/

namespace ValueHeap.BitField

variable {f : BitField}

/-- The field has a bit, is not the whole word, and ends within it. -/
structure InWord (f : BitField) : Prop where
  size_pos : 0 < f.size
  size_le : f.size ≤ 63
  nextBit_le : f.nextBit ≤ 64

theorem InWord.size_le_word (hf : f.InWord) : f.size ≤ 64 := Nat.le_succ_of_le hf.size_le

/-- The bits of the field, as a word of their own. -/
def contents (f : BitField) (w : BitVec 64) : BitVec f.size := w.extractLsb' f.position f.size

/-- A word of the field's width, with 64 bits. -/
def extend (f : BitField) (x : BitVec f.size) : BitVec 64 :=
  if f.signed then x.signExtend 64 else x.setWidth 64

/-! ## Bits -/

theorem getLsbD_mask (f : BitField) {i : Nat} (hi : i < 64) :
    f.mask.getLsbD i = decide (i < f.size) := by
  unfold mask
  by_cases hsize : f.size < 64
  · have hpow : 2 ^ f.size < 2 ^ 64 := Nat.pow_lt_pow_right (by decide) hsize
    have hpos := Nat.two_pow_pos f.size
    have hnat : (1#64 <<< f.size - 1#64).toNat = 2 ^ f.size - 1 := by
      rw [BitVec.toNat_sub, BitVec.toNat_shiftLeft, BitVec.toNat_ofNat, Nat.shiftLeft_eq]
      omega
    rw [← BitVec.testBit_toNat, hnat, Nat.testBit_two_pow_sub_one]
  · have hones : 1#64 <<< f.size - 1#64 = BitVec.allOnes 64 := by
      rw [BitVec.shiftLeft_eq_zero (Nat.not_lt.mp hsize)]
      rfl
    have hlt : i < f.size := by omega
    rw [hones, BitVec.getLsbD_allOnes, decide_eq_true hi, decide_eq_true hlt]

theorem getLsbD_contents (f : BitField) (w : BitVec 64) (i : Nat) :
    (f.contents w).getLsbD i = (decide (i < f.size) && w.getLsbD (f.position + i)) := by
  simp [contents]

/-- Of a written word, the bits of the field are those of the value, and the others are zero. -/
theorem getLsbD_encode (f : BitField) (v : BitVec 64) {i : Nat} (hi : i < 64) :
    (f.encode v).getLsbD i =
      (decide (f.position ≤ i ∧ i < f.nextBit) && v.getLsbD (i - f.position)) := by
  have hmask := f.getLsbD_mask (i := i - f.position) (by omega)
  rw [encode, BitVec.getLsbD_shiftLeft, BitVec.getLsbD_and, hmask, nextBit]
  by_cases hlow : i < f.position
  · simp [hlow, Nat.not_le.mpr hlow]
  · have hiff : i - f.position < f.size ↔ i < f.position + f.size := by omega
    simp [hi, hlow, Nat.not_lt.mp hlow, hiff, Bool.and_comm]

theorem getLsbD_maskInPlace (f : BitField) {i : Nat} (hi : i < 64) :
    f.maskInPlace.getLsbD i = decide (f.position ≤ i ∧ i < f.nextBit) := by
  have hwritten : f.maskInPlace = f.encode (BitVec.allOnes 64) := by
    rw [maskInPlace, encode, BitVec.allOnes_and]
  have hones : (BitVec.allOnes 64).getLsbD (i - f.position) = true := by
    rw [BitVec.getLsbD_allOnes, decide_eq_true (by omega)]
  rw [hwritten, getLsbD_encode f _ hi, hones, Bool.and_true]

/-- The sign of a field is its highest bit. -/
theorem msb_contents (hpos : 0 < f.size) (w : BitVec 64) :
    (f.contents w).msb = w.getLsbD (f.nextBit - 1) := by
  have hlast : f.position + (f.size - 1) = f.nextBit - 1 := by
    unfold nextBit
    omega
  have hlt : f.size - 1 < f.size := Nat.sub_lt hpos Nat.one_pos
  rw [BitVec.msb_eq_getLsbD_last, getLsbD_contents, hlast, decide_eq_true hlt, Bool.true_and]

/-! ## Reading and writing -/

/-- Reading an unsigned field fills its contents up with zeros. -/
theorem decode_of_unsigned (hsign : f.signed = false) (w : BitVec 64) :
    f.decode w = (f.contents w).setWidth 64 := by
  refine BitVec.eq_of_getLsbD_eq fun i hi => ?_
  simp only [decode, hsign, Bool.false_eq_true, if_false, BitVec.getLsbD_and,
    BitVec.getLsbD_ushiftRight, f.getLsbD_mask hi, BitVec.getLsbD_setWidth, hi, decide_true,
    Bool.true_and, getLsbD_contents, Bool.and_comm]

/-- Reading a signed field fills its contents up with copies of the sign. -/
theorem decode_of_signed (hf : f.InWord) (hsign : f.signed = true) (w : BitVec 64) :
    f.decode w = (f.contents w).signExtend 64 := by
  have hfit := hf.nextBit_le
  have hnext : f.position + f.size = f.nextBit := rfl
  refine BitVec.eq_of_getLsbD_eq fun i hi => ?_
  rw [BitVec.getLsbD_signExtend, msb_contents hf.size_pos, getLsbD_contents, decode, if_pos hsign,
    BitVec.getLsbD_sshiftRight, BitVec.msb_eq_getLsbD_last, BitVec.getLsbD_shiftLeft,
    BitVec.getLsbD_shiftLeft]
  -- The field was moved to the top of the word, so its places are counted from there.
  by_cases hlt : i < f.size
  · have hplace : 64 - f.size + i - (64 - f.nextBit) = f.position + i := by omega
    have hinside : 64 - f.size + i < 64 := by omega
    have hmoved : ¬ 64 - f.size + i < 64 - f.nextBit := by omega
    simp [hi, hlt, hinside, hmoved, hplace]
  · have hplace : 64 - 1 - (64 - f.nextBit) = f.nextBit - 1 := by omega
    have hpast : ¬ 64 - f.size + i < 64 := by omega
    have hmoved : ¬ 64 - 1 < 64 - f.nextBit := by
      have := hf.size_pos
      omega
    simp [hi, hlt, hpast, hmoved, hplace]

/-- **Reading a field extends its contents.** -/
theorem decode_eq_extend (hf : f.InWord) (w : BitVec 64) : f.decode w = f.extend (f.contents w) := by
  unfold extend
  cases hsign : f.signed with
  | true => rw [decode_of_signed hf hsign, if_pos rfl]
  | false => rw [decode_of_unsigned hsign, if_neg Bool.false_ne_true]

/-- **Writing a field sets its contents** to the low bits of the value. -/
theorem contents_encode (hf : f.InWord) (v : BitVec 64) :
    f.contents (f.encode v) = v.setWidth f.size := by
  have hfit : f.position + f.size ≤ 64 := hf.nextBit_le
  refine BitVec.eq_of_getLsbD_eq fun i hi => ?_
  rw [getLsbD_contents, getLsbD_encode _ _ (by omega)]
  simp [hi, nextBit]

theorem setWidth_extend (hf : f.InWord) (x : BitVec f.size) : (f.extend x).setWidth f.size = x := by
  have hsize := hf.size_le_word
  unfold extend
  split
  · refine BitVec.eq_of_getLsbD_eq fun i hi => ?_
    have hlt : i < 64 := by omega
    rw [BitVec.getLsbD_setWidth, BitVec.getLsbD_signExtend]
    simp [hi, hlt]
  · rw [BitVec.setWidth_setWidth_of_le _ hsize, BitVec.setWidth_eq]

/-! ## The values that fit -/

theorem isValid_iff (hf : f.InWord) (v : BitVec 64) :
    f.isValid v = true ↔ f.extend (v.setWidth f.size) = v := by
  rw [isValid, beq_iff_eq, decode_eq_extend hf, contents_encode hf]

/-- **What is read from a field fits into it.** -/
theorem isValid_decode (hf : f.InWord) (w : BitVec 64) : f.isValid (f.decode w) = true := by
  rw [isValid_iff hf, decode_eq_extend hf, setWidth_extend hf]

/-- **A signed field holds exactly the range of two's complement.** -/
theorem isValid_iff_of_signed (hf : f.InWord) (hsign : f.signed = true) (v : BitVec 64) :
    f.isValid v = true ↔ -2 ^ (f.size - 1) ≤ v.toInt ∧ v.toInt < 2 ^ (f.size - 1) := by
  have hsize := hf.size_le_word
  have hcut : (f.extend (v.setWidth f.size)).toInt = v.toInt.bmod (2 ^ f.size) := by
    rw [extend, if_pos hsign, BitVec.toInt_signExtend_of_le hsize,
      ← BitVec.signExtend_eq_setWidth_of_le _ hsize, BitVec.toInt_signExtend_eq_toInt_bmod_of_le _ hsize]
  have hhalf : 2 ^ f.size = 2 * 2 ^ (f.size - 1) := by
    rw [← Nat.pow_succ', Nat.succ_eq_add_one, Nat.sub_add_cancel hf.size_pos]
  have hcast : (2 : Int) ^ (f.size - 1) = (2 ^ (f.size - 1) : Nat) := by push_cast; rfl
  rw [isValid_iff hf, ← BitVec.toInt_inj, hcut, Int.bmod_eq_iff (Nat.two_pow_pos _), hhalf, hcast]
  generalize 2 ^ (f.size - 1) = m
  have hdvd : ((2 * m : Nat) : Int) ∣ v.toInt - v.toInt := by simp
  simp only [hdvd, and_true]
  omega

/-- **Writing what was read keeps the bits of the field.** -/
theorem encode_decode (hf : f.InWord) (w : BitVec 64) : f.encode (f.decode w) = w &&& f.maskInPlace := by
  have hread : (f.decode w).setWidth f.size = f.contents w := by
    rw [decode_eq_extend hf, setWidth_extend hf]
  refine BitVec.eq_of_getLsbD_eq fun i hi => ?_
  rw [getLsbD_encode f _ hi, BitVec.getLsbD_and, f.getLsbD_maskInPlace hi]
  by_cases hin : f.position ≤ i ∧ i < f.nextBit
  · have hlt : i - f.position < f.size := by
      unfold nextBit at hin
      omega
    have hback : f.position + (i - f.position) = i := by omega
    have hbit := congrArg (·.getLsbD (i - f.position)) hread
    simp only [BitVec.getLsbD_setWidth, getLsbD_contents, hlt, decide_true, Bool.true_and, hback] at hbit
    rw [hbit, Bool.and_comm]
  · simp [hin]

/-- An unsigned field read as a number. -/
theorem toNat_decode (hf : f.InWord) (hsign : f.signed = false) (w : BitVec 64) :
    (f.decode w).toNat = w.toNat / 2 ^ f.position % 2 ^ f.size := by
  have hpow : 2 ^ f.size ≤ 2 ^ 64 := Nat.pow_le_pow_right (by decide) hf.size_le_word
  have hlt : w.toNat / 2 ^ f.position % 2 ^ f.size < 2 ^ f.size := Nat.mod_lt _ (Nat.two_pow_pos _)
  rw [decode_of_unsigned hsign, BitVec.toNat_setWidth, contents, BitVec.extractLsb'_toNat,
    Nat.shiftRight_eq_div_pow, Nat.mod_eq_of_lt (lt_of_lt_of_le hlt hpow)]

end ValueHeap.BitField
