import ValueHeap.Proofs.BitFields
import ValueHeap.Word

/-!
# Fields of one word

An update replaces the bits of its field and keeps the others (`getLsbD_update`). Every law of updates is
that one fact, read at the bits of a field: the field that was written holds the new value, a field apart
from it holds what it held, and the order of two updates apart does not matter.

Results:
* `isValid_iff_holds`: the values that fit are a range of numbers, with or without a sign.
* `decode_update`, `update_decode`: an update is read back, and one with what is there changes nothing.
* `contents_update_of_apart`, `update_comm`: fields apart do not see each other.
* `fieldLaws` puts them together.
-/

namespace ValueHeap.BitField

variable {f g : BitField}

/-- The bit is one of the field's. -/
def Covers (f : BitField) (i : Nat) : Prop := f.position ≤ i ∧ i < f.nextBit

instance (f : BitField) (i : Nat) : Decidable (f.Covers i) := inferInstanceAs (Decidable (_ ∧ _))

/-- The fields have no bit in common, one of them being below the other. -/
def Apart (f g : BitField) : Prop := f.nextBit ≤ g.position ∨ g.nextBit ≤ f.position

instance (f g : BitField) : Decidable (f.Apart g) := inferInstanceAs (Decidable (_ ∨ _))

theorem Apart.symm (hapart : f.Apart g) : g.Apart f := Or.symm hapart

theorem Apart.not_covers (hapart : f.Apart g) {i : Nat} (hi : g.Covers i) : ¬ f.Covers i := by
  rintro ⟨hlow, hhigh⟩
  obtain ⟨hlow', hhigh'⟩ := hi
  rcases hapart with hbelow | habove <;> omega

/-- The word, as a number with or without a sign, is among those of as many bits as the field has. -/
def Holds (f : BitField) (v : BitVec 64) : Prop :=
  if f.signed then -2 ^ (f.size - 1) ≤ v.toInt ∧ v.toInt < 2 ^ (f.size - 1) else v.toNat < 2 ^ f.size

/-! ## The values that fit -/

/-- An unsigned field holds the numbers of its width. -/
theorem isValid_iff_of_unsigned (hf : f.InWord) (hsign : f.signed = false) (v : BitVec 64) :
    f.isValid v = true ↔ v.toNat < 2 ^ f.size := by
  have hcut : (f.extend (v.setWidth f.size)).toNat = v.toNat % 2 ^ f.size := by
    rw [extend, hsign, if_neg Bool.false_ne_true, BitVec.toNat_setWidth, BitVec.toNat_setWidth]
    exact Nat.mod_eq_of_lt ((Nat.mod_le _ _).trans_lt v.isLt)
  rw [isValid_iff hf, ← BitVec.toNat_inj, hcut, Nat.mod_eq_iff_lt (Nat.two_pow_pos _).ne']

/-- **A field holds the numbers of its width.** -/
theorem isValid_iff_holds (hf : f.InWord) (v : BitVec 64) : f.isValid v = true ↔ f.Holds v := by
  unfold Holds
  cases hsign : f.signed with
  | true => rw [isValid_iff_of_signed hf hsign, if_pos rfl]
  | false => rw [isValid_iff_of_unsigned hf hsign, if_neg Bool.false_ne_true]

/-! ## Updates -/

/-- **An update replaces the bits of the field** by the low bits of the value and keeps the others. -/
theorem getLsbD_update (f : BitField) (v w : BitVec 64) {i : Nat} (hi : i < 64) :
    (f.update v w).getLsbD i = if f.Covers i then v.getLsbD (i - f.position) else w.getLsbD i := by
  rw [update, BitVec.getLsbD_or, BitVec.getLsbD_and, BitVec.getLsbD_not, f.getLsbD_encode v hi,
    f.getLsbD_maskInPlace hi]
  by_cases hin : f.Covers i
  · have hbits : f.position ≤ i ∧ i < f.nextBit := hin
    simp [hbits, hin]
  · have hbits : ¬ (f.position ≤ i ∧ i < f.nextBit) := hin
    simp [hbits, hin, hi]

theorem getLsbD_update_of_not_covers (v w : BitVec 64) {i : Nat} (hi : ¬ f.Covers i) :
    (f.update v w).getLsbD i = w.getLsbD i := by
  by_cases hlt : i < 64
  · rw [getLsbD_update f v w hlt, if_neg hi]
  · rw [BitVec.getLsbD_of_ge _ _ (Nat.not_lt.mp hlt), BitVec.getLsbD_of_ge _ _ (Nat.not_lt.mp hlt)]

theorem contents_update (hf : f.InWord) (v w : BitVec 64) :
    f.contents (f.update v w) = v.setWidth f.size := by
  have hfit : f.position + f.size ≤ 64 := hf.nextBit_le
  refine BitVec.eq_of_getLsbD_eq fun i hi => ?_
  have hcovers : f.Covers (f.position + i) := ⟨Nat.le_add_right _ _, Nat.add_lt_add_left hi _⟩
  rw [getLsbD_contents, getLsbD_update f v w (by omega), if_pos hcovers, BitVec.getLsbD_setWidth,
    Nat.add_sub_cancel_left]

/-- **A field apart holds what it held.** -/
theorem contents_update_of_apart (hapart : f.Apart g) (v w : BitVec 64) :
    g.contents (f.update v w) = g.contents w := by
  refine BitVec.eq_of_getLsbD_eq fun i hi => ?_
  have hcovers : g.Covers (g.position + i) := ⟨Nat.le_add_right _ _, Nat.add_lt_add_left hi _⟩
  rw [getLsbD_contents, getLsbD_contents, getLsbD_update_of_not_covers v w (hapart.not_covers hcovers)]

/-- **A value that fits is read back from the updated word.** -/
theorem decode_update (hf : f.InWord) {v : BitVec 64} (hv : f.isValid v = true) (w : BitVec 64) :
    f.decode (f.update v w) = v := by
  rw [decode_eq_extend hf, contents_update hf, (isValid_iff hf v).mp hv]

/-- **An update with what is there changes nothing.** -/
theorem update_decode (hf : f.InWord) (w : BitVec 64) : f.update (f.decode w) w = w := by
  rw [update, encode_decode hf, BitVec.and_comm w, ← BitVec.and_or_distrib_right, BitVec.or_not_self,
    BitVec.allOnes_and]

/-- **Updates of fields apart can change places.** -/
theorem update_comm (hapart : f.Apart g) (u v w : BitVec 64) :
    f.update u (g.update v w) = g.update v (f.update u w) := by
  refine BitVec.eq_of_getLsbD_eq fun i hi => ?_
  rw [getLsbD_update f u _ hi, getLsbD_update g v w hi, getLsbD_update g v _ hi, getLsbD_update f u w hi]
  by_cases hin : g.Covers i
  · rw [if_neg (hapart.not_covers hin), if_pos hin, if_pos hin]
  · rw [if_neg hin, if_neg hin]

/-! ## The laws -/

/-- The laws of a field and the other fields of its word. -/
structure FieldLaws (f : BitField) : Prop where
  /-- What survives being written and read is a range of numbers. -/
  isValid_iff : ∀ v, f.isValid v = true ↔ f.Holds v
  decode_encode : ∀ v, f.Holds v → f.decode (f.encode v) = v
  decode_update : ∀ v w, f.Holds v → f.decode (f.update v w) = v
  /-- The bits outside are kept. -/
  update_outside : ∀ v w i, ¬ f.Covers i → (f.update v w).getLsbD i = w.getLsbD i
  isValid_decode : ∀ w, f.isValid (f.decode w) = true
  update_decode : ∀ w, f.update (f.decode w) w = w
  /-- A field apart can be written before or after, -/
  update_comm : ∀ g : BitField, f.Apart g → ∀ u v w,
    f.update u (g.update v w) = g.update v (f.update u w)
  /-- and neither write is seen in the other field. -/
  decode_apart : ∀ g : BitField, g.InWord → f.Apart g → ∀ v w,
    g.decode (f.update v w) = g.decode w ∧ f.decode (g.update v w) = f.decode w

/-- **Fields keep their values and leave each other alone**, whatever their size, place and sign. -/
theorem fieldLaws (f : BitField) (hf : f.InWord) : f.FieldLaws where
  isValid_iff := isValid_iff_holds hf
  decode_encode v hv := beq_iff_eq.mp ((isValid_iff_holds hf v).mpr hv)
  decode_update v w hv := decode_update hf ((isValid_iff_holds hf v).mpr hv) w
  update_outside v w i := getLsbD_update_of_not_covers v w
  isValid_decode := isValid_decode hf
  update_decode := update_decode hf
  update_comm g := update_comm
  decode_apart g hg hapart v w := by
    rw [decode_eq_extend hg, decode_eq_extend hg, decode_eq_extend hf, decode_eq_extend hf,
      contents_update_of_apart hapart, contents_update_of_apart hapart.symm]
    exact ⟨rfl, rfl⟩

/-- The tag and the payload of a small number share a word: marking the word as a number keeps the least
payload there is. -/
theorem fieldLaws_small :
    Pattern.smallField.InWord ∧ Pattern.numberTagField.InWord ∧
      Pattern.smallField.Apart Pattern.numberTagField ∧
      Pattern.smallField.Holds 0xc000000000000000#64 ∧
      Pattern.smallField.decode
        (Pattern.numberTagField.update 1#64 (Pattern.smallField.update 0xc000000000000000#64 0#64)) =
          0xc000000000000000#64 := by
  have hsmall : Pattern.smallField.InWord := ⟨by decide, by decide, by decide⟩
  have htag : Pattern.numberTagField.InWord := ⟨by decide, by decide, by decide⟩
  have hapart : Pattern.smallField.Apart Pattern.numberTagField := by decide
  have hholds : Pattern.smallField.Holds 0xc000000000000000#64 := ⟨by decide, by decide⟩
  have hlaws := fieldLaws Pattern.smallField hsmall
  refine ⟨hsmall, htag, hapart, hholds, ?_⟩
  rw [(hlaws.decode_apart _ htag hapart _ _).2, hlaws.decode_update _ _ hholds]

end ValueHeap.BitField
