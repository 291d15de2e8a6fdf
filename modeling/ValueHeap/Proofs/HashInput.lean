import ValueHeap.Proofs.Murmur3
import ValueHeap.Proofs.NumberEquality
import ValueHeap.Proofs.Unrolling
import ValueHeap.Proofs.WordEncoding

/-!
# What a hash is fed

A hash sees the bytes that a value writes, and nothing else. A leaf begins with a word that says what it
is, but numbers have a numbering of their own for that word and blocks have another, and the constants
have none. So bytes alone do not always tell the leaves apart: an integer begins like a text, and goes on
like one of four bytes if its low half is 4 (`Mistakes`). No other two kinds can be taken for each other.

* `Outline.data`: the bytes of what an outline writes.
* `Heap.IsLeaf`: numbers other than NaN, texts, buffers, characters and constants.

Results:
* `Outline.IsLeaf.eq_or_mistakes`: leaves with the same bytes have the same outline, the one mistake apart.
* `Heap.Leaf.same_iff`: leaves are found equal iff they have the same outline.
* `Heap.fed_eq_iff`: when two leaves feed a hash the same bytes.
-/

namespace ValueHeap

/-! ## Words as bytes -/

namespace Hasher

theorem length_littleEndian (count n : Nat) : (littleEndian count n).length = count := by
  simp [littleEndian]

theorem word32_data_inj {j k : UInt32} (hdata : (Write.word32 j).data = (Write.word32 k).data) : j = k := by
  simp only [Write.data, littleEndian_four] at hdata
  rw [← toWord_ofWord j, hdata, toWord_ofWord]

/-- A word is as long as any other, so what follows it is known too. -/
theorem word32_append_inj {j k : UInt32} {xs ys : List UInt8}
    (hdata : (Write.word32 j).data ++ xs = (Write.word32 k).data ++ ys) : j = k ∧ xs = ys := by
  obtain ⟨hword, hrest⟩ := List.append_inj hdata (by simp [Write.data, length_littleEndian])
  exact ⟨word32_data_inj hword, hrest⟩

theorem word64_data (k : UInt64) : (Write.word64 k).data =
    (Write.word32 k.toUInt32).data ++ (Write.word32 (k >>> 32).toUInt32).data := by
  simp only [Write.data, littleEndian_four, littleEndian_eight]

theorem word64_data_inj {j k : UInt64} (hdata : (Write.word64 j).data = (Write.word64 k).data) : j = k := by
  rw [word64_data, word64_data] at hdata
  obtain ⟨hlow, hrest⟩ := word32_append_inj hdata
  have hlow := congrArg UInt32.toNat hlow
  have hhigh := congrArg UInt32.toNat (word32_data_inj hrest)
  have hj := j.toNat_lt
  have hk := k.toNat_lt
  simp only [UInt64.toNat_toUInt32, UInt64.toNat_shiftRight, Nat.shiftRight_eq_div_pow,
    UInt64.reduceToNat, Nat.reduceMod, Nat.reducePow] at hlow hhigh
  rw [← UInt64.toNat_inj]
  omega

theorem int64_data_inj {m n : Int64}
    (hdata : (Write.word64 m.toUInt64).data = (Write.word64 n.toUInt64).data) : m = n :=
  congrArg UInt64.toInt64 (word64_data_inj hdata)

end Hasher

open Hasher (Write)

/-! ## Outlines -/

namespace Outline

/-- The bytes that an outline writes. -/
def data (seed : UInt32) (o : Outline) : List UInt8 := (o.writes seed).flatMap Write.data

/-- The outlines of leaves. -/
inductive IsLeaf : Outline → Prop
  | number (key : NumberKey) : IsLeaf (.number key)
  | text (data : List UInt8) : IsLeaf (.bytes .text data)
  | bytes (data : List UInt8) : IsLeaf (.bytes .bytes data)
  | char (masked : UInt32) : IsLeaf (.char masked)
  | constant {p : Pattern} (hp : p ∈ Pattern.constants) : IsLeaf (.immediate p)

/-- An integer whose low half counts four bytes and whose high half is the bytes of the text. -/
def Mistakes (o o' : Outline) : Prop :=
  ∃ n : Int64, o = .number (.integer n) ∧ n.toUInt64.toUInt32 = 4 ∧
    o' = .bytes .text (Write.word32 (n.toUInt64 >>> 32).toUInt32).data

/-- The first word that a leaf writes. -/
def lead : Outline → UInt32
  | number (.integer _) => 1
  | number (.float _) => 2
  | number (.rational ..) => 3
  | bytes kind _ => kind.tag
  | char _ => Kind.char.tag
  | immediate bits => (UInt64.ofBitVec bits).toUInt32
  | _ => 0

/-- The bytes after the first word. -/
def rest : Outline → List UInt8
  | number (.integer n) => (Write.word64 n.toUInt64).data
  | number (.float bits) => (Write.word64 bits).data
  | number (.rational num den) => (Write.word64 num.toUInt64).data ++ (Write.word64 den.toUInt64).data
  | bytes _ data => (Write.word32 (.ofNat data.length)).data ++ data
  | char masked => (Write.word32 masked).data
  | immediate bits => (Write.word32 (UInt64.ofBitVec bits >>> 32).toUInt32).data
  | _ => []

namespace IsLeaf

variable {seed : UInt32} {o o' : Outline}

theorem data_eq (ho : o.IsLeaf) : o.data seed = (Write.word32 o.lead).data ++ o.rest := by
  cases ho with
  | number key => cases key <;> simp [data, writes, NumberKey.writes, lead, rest]
  | text data => simp [Outline.data, writes, lead, rest, Write.data]
  | bytes data => simp [Outline.data, writes, lead, rest, Write.data]
  | char masked => simp [data, writes, lead, rest]
  | constant hp => simp [data, writes, lead, rest, Hasher.word64_data]

/-- Leaves with the same bytes begin with the same word and go on alike. -/
theorem lead_rest_eq (ho : o.IsLeaf) (ho' : o'.IsLeaf) (hdata : o.data seed = o'.data seed) :
    o.lead = o'.lead ∧ o.rest = o'.rest := by
  rw [ho.data_eq, ho'.data_eq] at hdata
  exact Hasher.word32_append_inj hdata

/-- The constants begin with their own bits. -/
theorem lead_constant {p : Pattern} (hp : p ∈ Pattern.constants) :
    (Outline.immediate p).lead ∉ [1, 2, 3, 9] := by
  simp only [Pattern.constants, List.mem_cons, List.not_mem_nil, or_false] at hp
  rcases hp with rfl | rfl | rfl | rfl <;> decide

/-- Everything else begins with one of the tags. -/
theorem lead_of_ne_constant (ho : o.IsLeaf) (hne : ∀ p, o ≠ .immediate p) : o.lead ∈ [1, 2, 3, 9] := by
  cases ho with
  | number key => cases key <;> simp [lead]
  | text data => simp [lead, Kind.tag]
  | bytes data => simp [lead, Kind.tag]
  | char masked => simp [lead, Kind.tag]
  | constant hp => exact absurd rfl (hne _)

/-- A constant has the bytes of no other leaf. -/
theorem eq_of_constant {p : Pattern} (hp : p ∈ Pattern.constants) (ho : o.IsLeaf)
    (hdata : o.data seed = (Outline.immediate p).data seed) : o = .immediate p := by
  obtain ⟨hlead, -⟩ := lead_rest_eq ho (.constant hp) hdata
  by_cases hne : ∀ q, o ≠ .immediate q
  · exact absurd (hlead ▸ lead_of_ne_constant ho hne) (lead_constant hp)
  · obtain ⟨q, rfl⟩ := not_forall_not.mp hne
    have hbits : (Write.word64 (.ofBitVec q)).data = (Write.word64 (.ofBitVec p)).data := by
      simpa [data, writes] using hdata
    exact congrArg (fun k => Outline.immediate (UInt64.toBitVec k)) (Hasher.word64_data_inj hbits)

/-- Numbers with the same bytes have the same key. -/
theorem eq_of_number {key key' : NumberKey}
    (hlead : (Outline.number key).lead = (Outline.number key').lead)
    (hrest : (Outline.number key).rest = (Outline.number key').rest) : key = key' := by
  cases key with
  | integer n =>
    cases key' with
    | integer n' => rw [Hasher.int64_data_inj hrest]
    | _ => simp [lead] at hlead
  | float bits =>
    cases key' with
    | float bits' => rw [Hasher.word64_data_inj hrest]
    | _ => simp [lead] at hlead
  | rational num den =>
    cases key' with
    | rational num' den' =>
      obtain ⟨hnum, hden⟩ := List.append_inj hrest (by simp [Write.data, Hasher.length_littleEndian])
      rw [Hasher.int64_data_inj hnum, Hasher.int64_data_inj hden]
    | _ => simp [lead] at hlead

/-- Texts, or buffers, with the same bytes after the tag hold the same bytes. -/
theorem eq_of_bytes {kind : Kind} {bs bs' : List UInt8}
    (hrest : (Outline.bytes kind bs).rest = (Outline.bytes kind bs').rest) : bs = bs' :=
  (Hasher.word32_append_inj hrest).2

/-- A number has the first word of a text only if it is an integer, and then the low half is the length of
the text and the high half its bytes. -/
theorem mistakes_of_text {key : NumberKey} {bs : List UInt8}
    (hlead : (Outline.number key).lead = (Outline.bytes .text bs).lead)
    (hrest : (Outline.number key).rest = (Outline.bytes .text bs).rest) :
    (Outline.number key).Mistakes (.bytes .text bs) := by
  cases key with
  | integer n =>
    have hhalves : (Write.word32 n.toUInt64.toUInt32).data ++
        (Write.word32 (n.toUInt64 >>> 32).toUInt32).data =
          (Write.word32 (.ofNat bs.length)).data ++ bs :=
      (Hasher.word64_data _).symm.trans hrest
    obtain ⟨hlow, hhigh⟩ := Hasher.word32_append_inj hhalves
    have hlength : bs.length = 4 := by
      rw [← hhigh]
      exact Hasher.length_littleEndian 4 _
    refine ⟨n, rfl, ?_, by rw [hhigh]⟩
    rw [hlow, hlength]
    rfl
  | float bits => exact absurd hlead (by simp [lead, Kind.tag])
  | rational num den => exact absurd hlead (by simp [lead, Kind.tag])

/-- A character is too short for a float, though it begins like one. -/
theorem number_ne_char {key : NumberKey} {masked : UInt32}
    (hlead : (Outline.number key).lead = (Outline.char masked).lead)
    (hrest : (Outline.number key).rest = (Outline.char masked).rest) : False := by
  have hlength := congrArg List.length hrest
  cases key with
  | integer n => simp [lead, Kind.tag] at hlead
  | float bits => simp [rest, Write.data, Hasher.length_littleEndian] at hlength
  | rational num den => simp [lead, Kind.tag] at hlead

theorem number_lead_ne_bytes (key : NumberKey) (bs : List UInt8) :
    (Outline.number key).lead ≠ (Outline.bytes .bytes bs).lead := by
  cases key <;> simp [lead, Kind.tag]

/-- **Leaves with the same bytes have the same outline**, unless one is an integer that is taken for the
other, a text. -/
theorem eq_or_mistakes (ho : o.IsLeaf) (ho' : o'.IsLeaf) (hdata : o.data seed = o'.data seed) :
    o = o' ∨ o.Mistakes o' ∨ o'.Mistakes o := by
  obtain ⟨hlead, hrest⟩ := lead_rest_eq ho ho' hdata
  cases ho' with
  | constant hp => exact Or.inl (eq_of_constant hp ho hdata)
  | number key' =>
    cases ho with
    | number key => exact Or.inl (congrArg Outline.number (eq_of_number hlead hrest))
    | text bs => exact Or.inr (Or.inr (mistakes_of_text hlead.symm hrest.symm))
    | bytes bs => exact absurd hlead.symm (number_lead_ne_bytes key' bs)
    | char masked => exact (number_ne_char hlead.symm hrest.symm).elim
    | constant hp => exact Or.inl (eq_of_constant hp (.number key') hdata.symm).symm
  | text bs' =>
    cases ho with
    | number key => exact Or.inr (Or.inl (mistakes_of_text hlead hrest))
    | text bs => exact Or.inl (congrArg (Outline.bytes .text) (eq_of_bytes hrest))
    | bytes bs => cases hlead
    | char masked => cases hlead
    | constant hp => exact Or.inl (eq_of_constant hp (.text bs') hdata.symm).symm
  | bytes bs' =>
    cases ho with
    | number key => exact absurd hlead (number_lead_ne_bytes key bs')
    | text bs => cases hlead
    | bytes bs => exact Or.inl (congrArg (Outline.bytes .bytes) (eq_of_bytes hrest))
    | char masked => cases hlead
    | constant hp => exact Or.inl (eq_of_constant hp (.bytes bs') hdata.symm).symm
  | char masked' =>
    cases ho with
    | number key => exact (number_ne_char hlead hrest).elim
    | text bs => cases hlead
    | bytes bs => cases hlead
    | char masked => exact Or.inl (congrArg Outline.char (Hasher.word32_data_inj hrest))
    | constant hp => exact Or.inl (eq_of_constant hp (.char masked') hdata.symm).symm

end IsLeaf

/-- No leaf leaves bytes past a whole block before its last write. -/
theorem IsLeaf.whole {o : Outline} (ho : o.IsLeaf) (seed : UInt32) :
    ∀ w ∈ (o.writes seed).dropLast, 4 ∣ w.data.length := by
  cases ho with
  | number key => cases key <;> simp [writes, NumberKey.writes, Write.data, Hasher.length_littleEndian]
  | _ => simp [writes, Write.data, Hasher.length_littleEndian]

theorem Mistakes.ne {o o' : Outline} (hmistakes : o.Mistakes o') : o ≠ o' := by
  obtain ⟨n, rfl, -, rfl⟩ := hmistakes
  nofun

/-- A mistaken integer has the bytes of the text. -/
theorem Mistakes.data_eq {o o' : Outline} (hmistakes : o.Mistakes o') (seed : UInt32) :
    o.data seed = o'.data seed := by
  obtain ⟨n, rfl, hlow, rfl⟩ := hmistakes
  have hlength : UInt32.ofNat (Write.word32 (n.toUInt64 >>> 32).toUInt32).data.length = 4 := by
    rw [Write.data, Hasher.length_littleEndian]
    rfl
  rw [IsLeaf.data_eq (.number _), IsLeaf.data_eq (.text _)]
  simp only [lead, rest, Hasher.word64_data, hlow, hlength, Kind.tag]

end Outline

/-! ## Leaves -/

namespace Heap

/-- The value is a leaf, with this outline. -/
inductive Leaf (h : Heap) : Word → Outline → Prop
  | number {w : Word} {a : Number} {key : NumberKey} (hw : h.number? w = some a) (hnan : a.isNaN = false)
      (hkey : a.key = key) : Leaf h w (.number key)
  | text {w : Word} {data : List UInt8} (hw : h.block? w = some (.text data)) :
      Leaf h w (.bytes .text data)
  | bytes {w : Word} {data : List UInt8} (hw : h.block? w = some (.bytes data)) :
      Leaf h w (.bytes .bytes data)
  | char {w : Word} {packed masked : UInt32} (hw : h.block? w = some (.char packed))
      (hmask : Utf8.mask packed = masked) : Leaf h w (.char masked)
  | constant {p : Pattern} (hp : p ∈ Pattern.constants) : Leaf h (.immediate p) (.immediate p)

/-- The value is a number other than NaN, a text, a buffer, a character or a constant. -/
def IsLeaf (h : Heap) (w : Word) : Prop := ∃ o, h.Leaf w o

/-- The bytes that a value feeds to a hash, down to the given number of levels. -/
def fed (h : Heap) (seed : UInt32) (levels : Nat) (w : Word) : List UInt8 :=
  (h.outline levels w).data seed

/-- The number `x` is an integer, and its halves are 4 and the bytes of the text `y`. -/
def Mistakes (h : Heap) (x y : Word) : Prop :=
  ∃ a n, h.number? x = some a ∧ a.key = .integer n ∧ n.toUInt64.toUInt32 = 4 ∧
    h.block? y = some (.text (Write.word32 (n.toUInt64 >>> 32).toUInt32).data)

variable {h : Heap} {x y : Word} {o o' : Outline}

namespace Leaf

theorem isLeaf (hx : h.Leaf x o) : o.IsLeaf := by
  cases hx with
  | number hw hnan hkey => exact .number _
  | text hw => exact .text _
  | bytes hw => exact .bytes _
  | char hw hmask => exact .char _
  | constant hp => exact .constant hp

theorem outline_eq (hx : h.Leaf x o) (levels : Nat) : h.outline (levels + 1) x = o := by
  cases hx with
  | number hw hnan hkey => rw [outline_of_number hw, hkey]
  | text hw | bytes hw =>
    obtain ⟨b, -, rfl, -, -⟩ := exists_reference hw
    rw [outline_of_block hw (by simp [Block.kind])]
    rfl
  | char hw hmask =>
    obtain ⟨b, -, rfl, -, -⟩ := exists_reference hw
    rw [outline_of_block hw (by simp [Block.kind]), ← hmask]
    rfl
  | @constant p hp =>
    have hnone : h.number? (.immediate p) = none := by
      simp only [Pattern.constants, List.mem_cons, List.not_mem_nil, or_false] at hp
      rcases hp with rfl | rfl | rfl | rfl <;> rfl
    unfold outline
    rw [hnone]

/-- A leaf has no fields to compare or to digest. -/
theorem not_composite (hx : h.Leaf x o) (shape : Shape) (fields : List Word) :
    h.block? x ≠ some (.composite shape fields) := by
  intro hblock
  cases hx with
  | number hw hnan hkey =>
    rw [number?_of_block? hblock (Block.kind_composite_ne shape fields)] at hw
    cases hw
  | text hw | bytes hw => cases hw.symm.trans hblock
  | char hw hmask => cases hw.symm.trans hblock
  | constant hp => cases hblock

/-- Leaves of one outline agree. -/
theorem agrees (hx : h.Leaf x o) (hy : h.Leaf y o) : (h.surface x).Agrees (h.surface y) := by
  cases hx with
  | number hw hnan hkey =>
    cases hy with
    | number hv hnan' hkey' =>
      exact .number hw hv ((Number.same_iff_key_eq _ _).mpr ⟨hnan, hnan', hkey.trans hkey'.symm⟩)
  | text hw =>
    cases hy with
    | text hv => exact .text hw hv
  | bytes hw =>
    cases hy with
    | bytes hv => exact .bytes hw hv
  | char hw hmask =>
    cases hy with
    | char hv hmask' => exact .char hw hv (hmask.trans hmask'.symm)
  | constant hp =>
    cases hy with
    | constant hp' => exact .identical rfl

/-- **Leaves are found equal iff they have the same outline.** -/
theorem same_iff (hx : h.Leaf x o) (hy : h.Leaf y o') : h.same x y = true ↔ o = o' := by
  rw [same_eq_sameUnder, sameUnder_eq_true_iff]
  constructor
  · rintro (hagrees | ⟨-, -, -, -, hpairs, -⟩)
    · rw [← hx.outline_eq 0, ← hy.outline_eq 0, outline_of_agrees hagrees]
    · obtain ⟨shape, us, -, hblock, -⟩ := hpairs.exists_fields
      exact absurd hblock (hx.not_composite shape us)
  · rintro rfl
    exact Or.inl (hx.agrees hy)

/-- The mistake is one of outlines. -/
theorem mistakes_iff (hx : h.Leaf x o) (hy : h.Leaf y o') : o.Mistakes o' ↔ h.Mistakes x y := by
  constructor
  · rintro ⟨n, rfl, hlow, rfl⟩
    cases hx with
    | number hw hnan hkey =>
      cases hy with
      | text hv => exact ⟨_, n, hw, hkey, hlow, hv⟩
  · rintro ⟨a, n, hw, hkey, hlow, hv⟩
    have ho : o = .number (.integer n) := by rw [← hx.outline_eq 0, outline_of_number hw, hkey]
    have ho' : o' = .bytes .text (Write.word32 (n.toUInt64 >>> 32).toUInt32).data := by
      obtain ⟨b, -, rfl, -, -⟩ := exists_reference hv
      rw [← hy.outline_eq 0, outline_of_block hv (by simp [Block.kind])]
      rfl
    exact ⟨n, ho, hlow, ho'⟩

/-- A leaf is written without a look at the memo, by its writes. -/
theorem hashWord_eq (hx : h.Leaf x o) (seed : UInt32) (levels : Nat) (s : Hasher) (memo : Memo) :
    h.hashWord seed (levels + 1) x (s, memo) = ((o.writes seed).foldl Hasher.write s, memo) := by
  rw [hashWord_of_flat fun shape fields hblock => absurd hblock (hx.not_composite shape fields),
    unrolled_eq_writes, hx.outline_eq]

/-- Leaves with the same bytes hash alike. -/
theorem hash_eq_of_data_eq (hx : h.Leaf x o) (hy : h.Leaf y o') {seed : UInt32}
    (hdata : o.data seed = o'.data seed) (levels : Nat) : h.hash seed levels x = h.hash seed levels y := by
  cases levels with
  | zero => rfl
  | succ levels =>
    rw [hash, hash, hx.hashWord_eq, hy.hashWord_eq, Hasher.foldl_write _ _ (hx.isLeaf.whole seed),
      Hasher.foldl_write _ _ (hy.isLeaf.whole seed)]
    exact congrArg (fun data => ((Hasher.start seed).writeBytes data).finish) hdata

end Leaf

/-- **What two leaves feed to a hash.** A leaf makes the writes of its outline. The bytes of two leaves are
the same iff they are found equal or one is an integer that is taken for the other, a text of four bytes.
These are never equal, and yet hash alike with every seed. -/
theorem fed_eq_iff (h : Heap) (x y : Word) (hx : h.IsLeaf x) (hy : h.IsLeaf y) (seed : UInt32)
    (m n : Nat) :
    (∀ s memo, h.hashWord seed (m + 1) x (s, memo) =
      (((h.outline (m + 1) x).writes seed).foldl Hasher.write s, memo)) ∧
    (h.fed seed (m + 1) x = h.fed seed (n + 1) y ↔
      h.same x y = true ∨ h.Mistakes x y ∨ h.Mistakes y x) ∧
    (h.Mistakes x y ∨ h.Mistakes y x →
      h.same x y = false ∧ ∀ seed levels, h.hash seed levels x = h.hash seed levels y) := by
  obtain ⟨o, hx⟩ := hx
  obtain ⟨o', hy⟩ := hy
  rw [fed, fed, hx.outline_eq, hy.outline_eq, ← Bool.not_eq_true, hx.same_iff hy, ← hx.mistakes_iff hy,
    ← hy.mistakes_iff hx]
  refine ⟨hx.hashWord_eq seed m, ⟨hx.isLeaf.eq_or_mistakes hy.isLeaf, ?_⟩, ?_⟩
  · rintro (rfl | hmistakes | hmistakes)
    · rfl
    · exact hmistakes.data_eq seed
    · exact (hmistakes.data_eq seed).symm
  · rintro (hmistakes | hmistakes)
    · exact ⟨hmistakes.ne, fun seed => hx.hash_eq_of_data_eq hy (hmistakes.data_eq seed)⟩
    · exact ⟨hmistakes.ne.symm, fun seed => hx.hash_eq_of_data_eq hy (hmistakes.data_eq seed).symm⟩

/-- A heap with the text "1234". -/
def digits : Heap := (Heap.vacant.allocate (.text [0x31, 0x32, 0x33, 0x34])).2

/-- The small integer with the halves 4 and "1234". -/
def homonym : Word := .immediate 0x6866646200000009#64

theorem leaf_homonym : digits.Leaf homonym (.number (.integer 0x3433323100000004)) :=
  .number (show digits.number? homonym = some (.small 0x3433323100000004) from rfl) rfl rfl

theorem leaf_digits : digits.Leaf (.reference 0) (.bytes .text [0x31, 0x32, 0x33, 0x34]) := .text rfl

theorem fed_eq_iff_digits : digits.IsLeaf homonym ∧ digits.IsLeaf (.reference 0) ∧
    digits.Mistakes homonym (.reference 0) ∧
    digits.fed 0x9747b28c 31 homonym = digits.fed 0x9747b28c 1 (.reference 0) := by
  have hmistakes : digits.Mistakes homonym (.reference 0) :=
    ⟨.small 0x3433323100000004, 0x3433323100000004, rfl, rfl, rfl, rfl⟩
  have hfed := fed_eq_iff digits homonym (.reference 0) ⟨_, leaf_homonym⟩ ⟨_, leaf_digits⟩ 0x9747b28c 30 0
  exact ⟨⟨_, leaf_homonym⟩, ⟨_, leaf_digits⟩, hmistakes, hfed.2.1.mpr (Or.inr (Or.inl hmistakes))⟩

/-- An integer and a text are not equal and hash alike, whatever the seed, because they feed the same bytes
to the hash. -/
theorem digits_hash_alike : digits.IsLeaf homonym ∧ digits.IsLeaf (.reference 0) ∧
    digits.same homonym (.reference 0) = false ∧
    (∀ seed levels, digits.fed seed levels homonym = digits.fed seed levels (.reference 0)) ∧
    ∀ seed levels, digits.hash seed levels homonym = digits.hash seed levels (.reference 0) := by
  have hmistakes : (Outline.number (.integer 0x3433323100000004)).Mistakes
      (.bytes .text [0x31, 0x32, 0x33, 0x34]) := ⟨_, rfl, rfl, rfl⟩
  refine ⟨⟨_, leaf_homonym⟩, ⟨_, leaf_digits⟩, ?_, fun seed levels => ?_, fun seed =>
    leaf_homonym.hash_eq_of_data_eq leaf_digits (hmistakes.data_eq seed)⟩
  · rw [← Bool.not_eq_true, leaf_homonym.same_iff leaf_digits]
    exact hmistakes.ne
  · cases levels with
    | zero => rfl
    | succ levels =>
      rw [fed, fed, leaf_homonym.outline_eq, leaf_digits.outline_eq]
      exact hmistakes.data_eq seed

end Heap

end ValueHeap
