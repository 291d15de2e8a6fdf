import ValueHeap.Proofs.Encoding
import ValueHeap.Proofs.Marking
import ValueHeap.Proofs.NewBlocks

/-!
# Characters are exactly the scalar values

A character block can hold any 32 bits. Those that read as a character are the ones that start with the
encoding of a scalar value; bytes past it do not count, neither for the code, nor for the text, nor for
equality.

* `newCharOfCode_of_toNat`, `newCharOfCode_of_not_scalar`: a character is made of exactly the scalar values.
* `unpackChar_eq_ok_iff`: the blocks that read as a character.
* `same_of_chars`: two character blocks are equal iff their masked words are.

`characterLaws` puts them together.
-/

namespace ValueHeap

namespace Utf8

theorem char?_eq_some_iff {code : Nat} {c : Char} : char? code = some c ↔ c.toNat = code := by
  unfold char?
  constructor
  · intro hc
    split at hc
    · next hvalid =>
      cases hc
      rw [Char.ofNat, dif_pos hvalid]
      rfl
    · cases hc
  · rintro rfl
    have hvalid : c.toNat.isValidChar := c.valid
    rw [if_pos hvalid, Char.ofNat_toNat]

/-- The scalar values are the code points of characters. -/
theorem isScalar_iff {code : Int} : isScalar code = true ↔ ∃ c : Char, (c.toNat : Int) = code := by
  unfold isScalar
  simp only [Bool.or_eq_true, Bool.and_eq_true, decide_eq_true_iff]
  constructor
  · intro hcode
    have hvalid : code.toNat.isValidChar := by
      unfold Nat.isValidChar
      omega
    obtain ⟨c, hc⟩ := exists_char hvalid
    exact ⟨c, by omega⟩
  · rintro ⟨c, rfl⟩
    have hvalid : c.toNat.isValidChar := c.valid
    unfold Nat.isValidChar at hvalid
    omega

theorem toNat_lt (c : Char) : c.toNat < 0x110000 := by
  have hvalid : c.toNat.isValidChar := c.valid
  unfold Nat.isValidChar at hvalid
  omega

theorem mask_pack (c : Char) : mask (pack c) = pack c :=
  mask_eq_pack_iff.mpr ⟨_, Octets.ofWord_toWord (length_utf8EncodeChar_le c)⟩

theorem unpack_pack (c : Char) : unpack (pack c) = .ok c.toNat :=
  unpack_eq_ok_iff.mpr ⟨c, rfl, mask_pack c⟩

/-- Different characters are packed differently. -/
theorem pack_inj {c d : Char} (hpack : pack c = pack d) : c.toNat = d.toNat := by
  have hcode := unpack_pack c
  rw [hpack, unpack_pack d] at hcode
  exact (Except.ok.inj hcode).symm

theorem encode_toString (c : Char) : encode c.toString = String.utf8EncodeChar c := by
  simp [encode, Char.toString]

end Utf8

theorem unpackChar_eq_ok_iff {packed : UInt32} {code : Nat} : unpackChar packed = .ok code ↔
    ∃ c : Char, c.toNat = code ∧ Utf8.mask packed = Utf8.pack c := by
  rw [← Utf8.unpack_eq_ok_iff, unpackChar]
  cases Utf8.unpack packed with
  | error fault => exact iff_of_false nofun nofun
  | ok n => simp [Except.mapError]

theorem category_of_unpackChar {packed : UInt32} {e : Error} (he : unpackChar packed = .error e) :
    e.category = .malformedUtf8 := by
  unfold unpackChar at he
  cases hunpack : Utf8.unpack packed with
  | error fault =>
    rw [hunpack] at he
    cases he
    rfl
  | ok n =>
    rw [hunpack] at he
    cases he

namespace Heap

variable {h : Heap} {w u v : Word} {packed p q : UInt32}

theorem charCode_of_block? (hw : h.block? w = some (.char packed)) : h.charCode w = unpackChar packed := by
  unfold charCode packedChar
  rw [hw]
  rfl

/-- Only a character has a code. -/
theorem exists_packed {code : Nat} (hw : h.charCode w = .ok code) :
    ∃ packed, h.block? w = some (.char packed) ∧ unpackChar packed = .ok code := by
  unfold charCode packedChar at hw
  split at hw
  · next packed hblock => exact ⟨packed, hblock, hw⟩
  · cases hw

theorem charValue_of_toNat {c : Char} (hw : h.charCode w = .ok c.toNat) : h.charValue w = .ok c := by
  simp only [charValue, hw, bind, Except.bind, Utf8.char?_eq_some_iff.mpr rfl]

/-- Characters are compared by their bytes up to the announced width. -/
theorem same_of_chars (hu : h.block? u = some (.char p)) (hv : h.block? v = some (.char q)) :
    h.same u v = true ↔ Utf8.mask p = Utf8.mask q := by
  rw [same_eq_sameUnder, sameUnder_eq_true_iff]
  constructor
  · rintro (hagrees | ⟨-, -, -, -, hpairs, -⟩)
    · cases hagrees with
      | identical heq =>
        cases show u = v from heq
        cases hu.symm.trans hv
        rfl
      | number ha hb heq =>
        obtain ⟨a, c, rfl, -, -⟩ := exists_reference hu
        simp [surface, Surface.number?, hu, Word.small?] at ha
      | text hs ht => cases hu.symm.trans hs
      | bytes hs ht => cases hu.symm.trans hs
      | char hs ht heq =>
        cases hu.symm.trans hs
        cases hv.symm.trans ht
        exact heq
    · obtain ⟨shape, us, vs, hs, -⟩ := hpairs.exists_fields
      cases hu.symm.trans hs
  · exact fun heq => Or.inl (.char hu hv heq)

end Heap

namespace Action

theorem newCharOfCode_of_toNat {code : Int64} {c : Char} (hc : (c.toNat : Int) = code.toInt) :
    newCharOfCode code = newChar c := by
  have hlt : c.toNat < 0x110000 := Utf8.toNat_lt c
  have hnarrow : unsigned32? code = some (.ofNat c.toNat) := by
    rw [unsigned32?, if_pos (by omega), ← hc, Int.toNat_natCast]
  have hback : (UInt32.ofNat c.toNat).toNat = c.toNat := by
    rw [UInt32.toNat_ofNat']
    omega
  have hchar : Utf8.char? (UInt32.ofNat c.toNat).toNat = some c := Utf8.char?_eq_some_iff.mpr hback.symm
  unfold newCharOfCode
  rw [hnarrow, Option.bind_some, hchar]

theorem newCharOfCode_of_not_scalar {code : Int64} (hcode : ¬ Utf8.isScalar code.toInt = true) (h : Heap) :
    newCharOfCode code h = (.error (.notScalar code), h) := by
  have hnone : (unsigned32? code).bind (Utf8.char? ·.toNat) = none := by
    cases hchar : (unsigned32? code).bind (Utf8.char? ·.toNat) with
    | none => rfl
    | some c =>
      refine absurd (Utf8.isScalar_iff.mpr ⟨c, ?_⟩) hcode
      obtain ⟨n, hn, hc⟩ := Option.bind_eq_some_iff.mp hchar
      unfold unsigned32? at hn
      split at hn
      · cases hn
        rw [Utf8.char?_eq_some_iff.mp hc, UInt32.toNat_ofNat']
        omega
      · cases hn
  unfold newCharOfCode
  rw [hnone]
  rfl

theorem makes_newCharOfCode {code : Int64} {c : Char} (hc : (c.toNat : Int) = code.toInt) (h : Heap) :
    Makes (newCharOfCode code) h (.char (Utf8.pack c)) := by
  rw [newCharOfCode_of_toNat hc]
  exact makes_allocate h _

theorem toInt_ofNat_toNat (c : Char) : (Int64.ofNat c.toNat).toInt = c.toNat :=
  Int64.toInt_ofNat_of_lt ((Utf8.toNat_lt c).trans (by decide))

/-- The text of a character holds its bytes up to the announced width. -/
theorem makes_charText {h : Heap} {w : Word} {packed : UInt32} {code : Nat}
    (hw : h.block? w = some (.char packed)) (hcode : unpackChar packed = .ok code) :
    Makes (charText w) h (.text ((Octets.ofWord packed).take (Utf8.width packed.toUInt8))) := by
  obtain ⟨c, rfl, hmask⟩ := unpackChar_eq_ok_iff.mp hcode
  obtain ⟨rest, hrest⟩ := Utf8.mask_eq_pack_iff.mp hmask
  rw [Utf8.take_width hrest, ← Utf8.encode_toString]
  exact makes_read_bind (h.charValue_of_toNat ((h.charCode_of_block? hw).trans hcode))
    (makes_allocate h _)

/-- The laws of characters on a heap. -/
structure CharacterLaws (h : Heap) : Prop where
  /-- A scalar value makes a character, which has it as its code. -/
  makes_of_scalar : ∀ code : Int64, Utf8.isScalar code.toInt = true → ∃ w h' n,
    newCharOfCode code h = (.ok w, h') ∧ h'.charCode w = .ok n ∧ (n : Int) = code.toInt
  /-- No other number does. -/
  fails_of_not_scalar : ∀ code : Int64, Utf8.isScalar code.toInt = false →
    newCharOfCode code h = (.error (.notScalar code), h)
  /-- A word reads as the scalar value that is stored as the word without the bytes past the announced
  width. -/
  unpackChar_iff : ∀ packed code, unpackChar packed = .ok code ↔
    Utf8.isScalar code = true ∧ Makes (newCharOfCode (.ofNat code)) h (.char (Utf8.mask packed))
  malformed : ∀ packed e, unpackChar packed = .error e → e.category = .malformedUtf8
  charCode_eq : ∀ w packed, h.block? w = some (.char packed) → h.charCode w = unpackChar packed
  /-- The text of a character that can be read is the bytes of the announced width. -/
  charText : ∀ w packed code, h.block? w = some (.char packed) → unpackChar packed = .ok code →
    Makes (charText w) h (.text ((Octets.ofWord packed).take (Utf8.width packed.toUInt8)))
  same_iff : ∀ u v m n, h.charCode u = .ok m → h.charCode v = .ok n → (h.same u v = true ↔ m = n)

/-- **Characters are an exact codec of the scalar values**, on all 32-bit words. -/
theorem characterLaws (h : Heap) : CharacterLaws h := by
  constructor
  case makes_of_scalar =>
    intro code hscalar
    obtain ⟨c, hc⟩ := Utf8.isScalar_iff.mp hscalar
    obtain ⟨w, h', hrun, -, hblock, -⟩ := makes_newCharOfCode hc h
    refine ⟨w, h', c.toNat, hrun, ?_, hc⟩
    rw [h'.charCode_of_block? hblock]
    exact unpackChar_eq_ok_iff.mpr ⟨c, rfl, Utf8.mask_pack c⟩
  case fails_of_not_scalar =>
    exact fun code hcode => newCharOfCode_of_not_scalar (Bool.not_eq_true _ ▸ hcode) h
  case unpackChar_iff =>
    intro packed code
    rw [unpackChar_eq_ok_iff, Utf8.isScalar_iff]
    constructor
    · rintro ⟨c, rfl, hmask⟩
      rw [hmask]
      exact ⟨⟨c, rfl⟩, makes_newCharOfCode (toInt_ofNat_toNat c).symm h⟩
    · rintro ⟨⟨c, hc⟩, hmakes⟩
      cases Int.ofNat_inj.mp hc
      have hblock := hmakes.block_eq (makes_newCharOfCode (toInt_ofNat_toNat c).symm h)
      exact ⟨c, rfl, Block.char.inj hblock⟩
  case malformed => exact fun packed e => category_of_unpackChar
  case charCode_eq => exact fun w packed => h.charCode_of_block?
  case charText => exact fun w packed code => makes_charText
  case same_iff =>
    intro u v m n hu hv
    obtain ⟨p, hblocku, hp⟩ := h.exists_packed hu
    obtain ⟨q, hblockv, hq⟩ := h.exists_packed hv
    obtain ⟨c, rfl, hc⟩ := unpackChar_eq_ok_iff.mp hp
    obtain ⟨d, rfl, hd⟩ := unpackChar_eq_ok_iff.mp hq
    rw [h.same_of_chars hblocku hblockv, hc, hd]
    exact ⟨Utf8.pack_inj, fun heq => congrArg Utf8.pack (Char.toNat_inj.mp heq)⟩

/-- A heap with one character twice, the second time with stray bytes after its encoding. -/
def stray : Heap := (((Heap.vacant.allocate (.char 0xa9c3)).2).allocate (.char 0xffffa9c3)).2

/-- Stray bytes reach neither the text nor the comparison. -/
theorem characterLaws_stray :
    stray.same (.reference 0) (.reference 1) = true ∧
      Makes (charText (.reference 1)) stray (.text [0xc3, 0xa9]) := by
  have hlaws := characterLaws stray
  have hcode : unpackChar 0xffffa9c3 = .ok 0xe9 := by decide
  refine ⟨(hlaws.same_iff _ _ 0xe9 0xe9 (by decide) (by decide)).mpr rfl, ?_⟩
  exact hlaws.charText _ 0xffffa9c3 0xe9 rfl hcode

end Action

end ValueHeap
