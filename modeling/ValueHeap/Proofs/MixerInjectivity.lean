import ValueHeap.Options
import ValueHeap.Proofs.HashInput

/-!
# The mixer loses nothing within a word

Every step of the mixer can be undone: a product with an odd constant by its inverse, a rotation by turning
back, a word xored with itself shifted down from its highest bit on. So two states that differ stay
different whatever is written next, and two words that differ lead to different states. Sequences of words
that differ in one place are then told apart by every seed, and so are integers that differ in one of their
halves, provided that the hash looks at them at all: with no levels nothing is written.

Results:
* `scramble_injective`, `mix_injective_state`, `mix_injective_word`, `finish_injective`: the steps.
* `foldl_write32_injective`: what a run of writes keeps.
* `foldl_write32_ne`: one word in a run makes a difference to the end.
* `mixerLaws` puts them together and adds the hashes of integers.
-/

namespace ValueHeap

namespace Hasher

open Function (Injective)

/-! ## Steps that can be undone -/

/-- A product is undone by one with the inverse of the constant. -/
theorem mul_injective (c inverse : UInt32) (hunit : c * inverse = 1) :
    Injective fun x : UInt32 => x * c := by
  intro x y (hxy : x * c = y * c)
  have hback := congrArg (· * inverse) hxy
  simpa only [UInt32.mul_assoc, hunit, UInt32.mul_one] using hback

theorem xor_injective (c : UInt32) : Injective fun x : UInt32 => x ^^^ c :=
  fun _ _ hxy => (UInt32.xor_left_inj c).mp hxy

/-- A bit of a word is found further up in the rotated word, or around the end. -/
theorem getLsbD_rotateLeft_add {r i : Nat} (hr : r < 32) (hi : i < 32) (x : BitVec 32) :
    (x.rotateLeft r).getLsbD ((i + r) % 32) = x.getLsbD i := by
  rw [BitVec.getLsbD_rotateLeft, Nat.mod_eq_of_lt hr]
  by_cases hwrap : i + r < 32
  · have hplace : (i + r) % 32 = i + r := Nat.mod_eq_of_lt hwrap
    have habove : ¬ i + r < r := by omega
    simp [hplace, habove, hwrap]
  · have hplace : (i + r) % 32 = i + r - 32 := by omega
    have hbelow : i + r - 32 < r := by omega
    have hback : 32 - r + (i + r - 32) = i := by omega
    simp [hplace, hbelow, hback]

theorem rotateLeft_injective {r : Nat} (hr : r < 32) : Injective fun x : BitVec 32 => x.rotateLeft r := by
  intro x y (hxy : x.rotateLeft r = y.rotateLeft r)
  refine BitVec.eq_of_getLsbD_eq fun i hi => ?_
  rw [← getLsbD_rotateLeft_add hr hi x, hxy, getLsbD_rotateLeft_add hr hi y]

theorem rotate_injective {n : UInt32} (hpos : 0 < n.toNat) (hlt : n.toNat < 32) :
    Injective fun x => rotate x n := by
  intro x y (hxy : rotate x n = rotate y n)
  rw [← UInt32.toBitVec_inj, toBitVec_rotate hpos hlt, toBitVec_rotate hpos hlt] at hxy
  exact UInt32.toBitVec_inj.mp (rotateLeft_injective hlt hxy)

/-- A word is known from its xor with itself shifted down: the highest bits are there as they are, and each
bit below is found from one further up. -/
theorem xor_ushiftRight_injective {n : Nat} (hn : 0 < n) : Injective fun x : BitVec 32 => x ^^^ x >>> n := by
  intro x y (hxy : x ^^^ x >>> n = y ^^^ y >>> n)
  have hbits (below : Nat) : ∀ i, 32 ≤ i + below → x.getLsbD i = y.getLsbD i := by
    induction below with
    | zero =>
      intro i hi
      rw [BitVec.getLsbD_of_ge x i hi, BitVec.getLsbD_of_ge y i hi]
    | succ below ih =>
      intro i hi
      have hbit := congrArg (·.getLsbD i) hxy
      simp only [BitVec.getLsbD_xor, BitVec.getLsbD_ushiftRight] at hbit
      rw [ih (n + i) (by omega)] at hbit
      exact Bool.xor_left_inj.mp hbit
  exact BitVec.eq_of_getLsbD_eq fun i _ => hbits 32 i (Nat.le_add_left _ _)

theorem xor_shiftRight_injective {n : UInt32} (hn : 0 < n.toNat) (hlt : n.toNat < 32) :
    Injective fun x : UInt32 => x ^^^ x >>> n := by
  have hshift (x : UInt32) : (x ^^^ x >>> n).toBitVec = x.toBitVec ^^^ x.toBitVec >>> n.toNat := by
    simp [Nat.mod_eq_of_lt hlt]
  intro x y (hxy : x ^^^ x >>> n = y ^^^ y >>> n)
  rw [← UInt32.toBitVec_inj, hshift, hshift] at hxy
  exact UInt32.toBitVec_inj.mp (xor_ushiftRight_injective hn hxy)

/-! ## The steps of the mixer -/

theorem scramble_injective : Injective scramble :=
  (mul_injective 0x1b873593 0x56ed309b (by decide)).comp
    ((rotate_injective (n := 15) (by decide) (by decide)).comp
      (mul_injective 0xcc9e2d51 0xdee13bb1 (by decide)))

/-- What comes after the word is xored into the state. -/
theorem rotate_mul_add_injective : Injective fun x => rotate x 13 * 5 + 0xe6546b64 := by
  intro x y (hxy : rotate x 13 * 5 + 0xe6546b64 = rotate y 13 * 5 + 0xe6546b64)
  have hmul := (UInt32.add_left_inj 0xe6546b64).mp hxy
  have hrotate := mul_injective 5 0xcccccccd (by decide) hmul
  exact rotate_injective (by decide) (by decide) hrotate

/-- **A block keeps states apart** that differ before it. -/
theorem mix_injective_state (k : UInt32) : Injective fun state => mix state k :=
  rotate_mul_add_injective.comp (xor_injective (scramble k))

/-- **Blocks that differ lead to different states.** -/
theorem mix_injective_word (state : UInt32) : Injective (mix state) := by
  intro j k hjk
  have hxor : state ^^^ scramble j = state ^^^ scramble k := rotate_mul_add_injective hjk
  exact scramble_injective ((UInt32.xor_right_inj state).mp hxor)

theorem avalanche_injective : Injective avalanche :=
  have hsixteen := xor_shiftRight_injective (n := 16) (by decide) (by decide)
  have hthirteen := xor_shiftRight_injective (n := 13) (by decide) (by decide)
  hsixteen.comp <| (mul_injective 0xc2b2ae35 0x7ed1b41d (by decide)).comp <|
    hthirteen.comp <| (mul_injective 0x85ebca6b 0xa5cb9243 (by decide)).comp hsixteen

/-- **The last step keeps the state**, given how much was written. -/
theorem finish_injective (length : UInt32) : Injective fun state => finish ⟨state, length⟩ :=
  avalanche_injective.comp (xor_injective length)

/-! ## Runs of words -/

theorem write32_injective (k : UInt32) : Injective fun s : Hasher => s.write32 k := by
  intro s t hst
  obtain ⟨hstate, hlength⟩ := Hasher.mk.inj hst
  exact congrArg₂ Hasher.mk (mix_injective_state k hstate) ((UInt32.add_left_inj 4).mp hlength)

/-- States that differ stay different, whatever is written next. -/
theorem foldl_write32_injective (ks : List UInt32) : Injective fun s : Hasher => ks.foldl write32 s := by
  induction ks with
  | nil => exact Function.injective_id
  | cons k ks ih => exact ih.comp (write32_injective k)

theorem length_foldl_write32 (s : Hasher) (ks : List UInt32) :
    (ks.foldl write32 s).length = s.length + UInt32.ofNat (4 * ks.length) := by
  induction ks generalizing s with
  | nil => exact (UInt32.add_zero s.length).symm
  | cons k ks ih =>
    have hfour : UInt32.ofNat (4 * (k :: ks).length) = 4 + UInt32.ofNat (4 * ks.length) := by
      rw [List.length_cons, Nat.mul_succ, Nat.add_comm, UInt32.ofNat_add]
      rfl
    rw [List.foldl_cons, ih, hfour, ← UInt32.add_assoc]
    rfl

/-- The sequences have the same length and differ in exactly one place. -/
def DifferOnce (us vs : List UInt32) : Prop := us.length = vs.length ∧ ∃! i : Nat, us[i]? ≠ vs[i]?

theorem DifferOnce.head {j k : UInt32} (hjk : j ≠ k) (us : List UInt32) : DifferOnce (j :: us) (k :: us) := by
  refine ⟨rfl, 0, by simpa using hjk, fun i hi => ?_⟩
  cases i with
  | zero => rfl
  | succ i => exact absurd rfl hi

theorem DifferOnce.cons (k : UInt32) {us vs : List UInt32} (hdiffer : DifferOnce us vs) :
    DifferOnce (k :: us) (k :: vs) := by
  obtain ⟨hlength, i, hi, hunique⟩ := hdiffer
  refine ⟨congrArg (· + 1) hlength, i + 1, hi, fun j hj => ?_⟩
  cases j with
  | zero => exact absurd rfl hj
  | succ j => exact congrArg (· + 1) (hunique j hj)

theorem DifferOnce.tail {k : UInt32} {us vs : List UInt32} (hdiffer : DifferOnce (k :: us) (k :: vs)) :
    DifferOnce us vs := by
  obtain ⟨hlength, i, hi, hunique⟩ := hdiffer
  cases i with
  | zero => exact absurd rfl hi
  | succ i =>
    refine ⟨Nat.succ.inj hlength, i, hi, fun j hj => ?_⟩
    exact Nat.succ.inj (hunique (j + 1) hj)

/-- After the place where they differ the sequences are the same. -/
theorem DifferOnce.tail_eq {j k : UInt32} {us vs : List UInt32} (hdiffer : DifferOnce (j :: us) (k :: vs))
    (hjk : j ≠ k) : us = vs := by
  obtain ⟨-, i, -, hunique⟩ := hdiffer
  have hzero : 0 = i := hunique 0 (by simpa using hjk)
  refine List.ext_getElem? fun l => ?_
  by_contra hl
  have hsucc : l + 1 = i := hunique (l + 1) hl
  omega

/-- **One word makes a difference to the end of a run.** -/
theorem foldl_write32_ne {us vs : List UInt32} (hdiffer : DifferOnce us vs) (s : Hasher) :
    us.foldl write32 s ≠ vs.foldl write32 s := by
  induction us generalizing vs s with
  | nil =>
    obtain ⟨hlength, i, hi, -⟩ := hdiffer
    rw [List.length_eq_zero_iff.mp hlength.symm] at hi
    exact absurd rfl hi
  | cons j us ih =>
    obtain ⟨k, vs, rfl⟩ : ∃ k vs', vs = k :: vs' :=
      List.exists_cons_of_length_pos (hdiffer.1 ▸ Nat.succ_pos us.length)
    rw [List.foldl_cons, List.foldl_cons]
    by_cases hjk : j = k
    · subst hjk
      exact ih hdiffer.tail (s.write32 j)
    · -- from here on both runs write the same words, from states that differ
      obtain rfl := hdiffer.tail_eq hjk
      intro hend
      have hstep : s.write32 j = s.write32 k := foldl_write32_injective us hend
      obtain ⟨hstate, -⟩ := Hasher.mk.inj hstep
      exact hjk (mix_injective_word s.state hstate)

/-- **One word makes a difference to the hash.** -/
theorem finish_foldl_write32_ne {us vs : List UInt32} (hdiffer : DifferOnce us vs) (s : Hasher) :
    (us.foldl write32 s).finish ≠ (vs.foldl write32 s).finish := by
  have hlength : (us.foldl write32 s).length = (vs.foldl write32 s).length := by
    rw [length_foldl_write32, length_foldl_write32, hdiffer.1]
  intro hfinish
  have hstate : (us.foldl write32 s).state = (vs.foldl write32 s).state := by
    refine finish_injective (us.foldl write32 s).length ?_
    show (us.foldl write32 s).finish = finish ⟨(vs.foldl write32 s).state, (us.foldl write32 s).length⟩
    rw [hfinish, hlength]
  exact foldl_write32_ne hdiffer s (congrArg₂ Hasher.mk hstate hlength)

end Hasher

/-! ## Integers -/

/-- The low 32 bits of an integer. -/
def lowHalf (n : Int64) : UInt32 := n.toUInt64.toUInt32

/-- The high 32 bits of an integer. -/
def highHalf (n : Int64) : UInt32 := (n.toUInt64 >>> 32).toUInt32

/-- The integers differ, but only in one of their halves. -/
def DifferInHalf (m n : Int64) : Prop := m ≠ n ∧ (lowHalf m = lowHalf n ∨ highHalf m = highHalf n)

instance (m n : Int64) : Decidable (DifferInHalf m n) := inferInstanceAs (Decidable (_ ∧ _))

theorem eq_of_halves_eq {m n : Int64} (hlow : lowHalf m = lowHalf n) (hhigh : highHalf m = highHalf n) :
    m = n := by
  unfold lowHalf at hlow
  unfold highHalf at hhigh
  refine Hasher.int64_data_inj ?_
  rw [Hasher.word64_data, Hasher.word64_data, hlow, hhigh]

open Hasher (DifferOnce)

/-- The words that an integer writes. -/
def integerWords (n : Int64) : List UInt32 := [1, lowHalf n, highHalf n]

/-- Integers that differ in a half write words that differ once. -/
theorem DifferInHalf.differOnce {m n : Int64} (hdiffer : DifferInHalf m n) :
    DifferOnce (integerWords m) (integerWords n) := by
  obtain ⟨hne, hlow | hhigh⟩ := hdiffer
  · have hhigh : highHalf m ≠ highHalf n := fun hhigh => hne (eq_of_halves_eq hlow hhigh)
    rw [integerWords, integerWords, hlow]
    exact .cons 1 (.cons _ (.head hhigh []))
  · have hlow : lowHalf m ≠ lowHalf n := fun hlow => hne (eq_of_halves_eq hlow hhigh)
    rw [integerWords, integerWords, hhigh]
    exact .cons 1 (.head hlow _)

namespace Heap

/-- The value is the integer, in one of its representations. -/
def IsInteger (h : Heap) (w : Word) (n : Int64) : Prop := ∃ x, h.number? w = some x ∧ x.key = .integer n

variable {h k : Heap} {v w : Word} {m n : Int64}

theorem hash_of_integer (hw : h.IsInteger w n) (seed : UInt32) (levels : Nat) :
    h.hash seed (levels + 1) w = ((integerWords n).foldl Hasher.write32 (.start seed)).finish := by
  obtain ⟨x, hx, hkey⟩ := hw
  rw [hash, hashWord_of_number hx, hkey]
  rfl

/-- **Integers that differ in one half hash apart**, unless the hash has no levels to look at. -/
theorem hash_eq_iff_of_differInHalf (hv : h.IsInteger v m) (hw : k.IsInteger w n)
    (hdiffer : DifferInHalf m n) (seed : UInt32) (levels : Nat) :
    h.hash seed levels v = k.hash seed levels w ↔ levels = 0 := by
  cases levels with
  | zero => exact iff_of_true rfl rfl
  | succ levels =>
    rw [hash_of_integer hv, hash_of_integer hw]
    exact iff_of_false (Hasher.finish_foldl_write32_ne hdiffer.differOnce _) (Nat.succ_ne_zero levels)

end Heap

/-! ## The laws -/

/-- What the mixer keeps apart. -/
structure MixerLaws : Prop where
  scramble_injective : Function.Injective Hasher.scramble
  mix_injective_state : ∀ k, Function.Injective fun state => Hasher.mix state k
  mix_injective_word : ∀ state, Function.Injective fun k => Hasher.mix state k
  finish_injective : ∀ length, Function.Injective fun state => Hasher.finish ⟨state, length⟩
  /-- Sequences of words that differ in one place hash apart, with every seed. -/
  finish_ne : ∀ (seed : UInt32) (us vs : List UInt32), DifferOnce us vs →
    (us.foldl Hasher.write32 (.start seed)).finish ≠ (vs.foldl Hasher.write32 (.start seed)).finish
  /-- Integers that differ in one half hash alike only where nothing is hashed. -/
  hash_eq_iff : ∀ (h k : Heap) (v w : Word) (m n : Int64), h.IsInteger v m → k.IsInteger w n →
    DifferInHalf m n → ∀ (seed : UInt32) (levels : Nat),
      h.hash seed levels v = k.hash seed levels w ↔ levels = 0

/-- **The mixer loses nothing within one word.** -/
theorem mixerLaws : MixerLaws where
  scramble_injective := Hasher.scramble_injective
  mix_injective_state := Hasher.mix_injective_state
  mix_injective_word := Hasher.mix_injective_word
  finish_injective := Hasher.finish_injective
  finish_ne seed _ _ hdiffer := Hasher.finish_foldl_write32_ne hdiffer (.start seed)
  hash_eq_iff _ _ _ _ _ _ hv hw := Heap.hash_eq_iff_of_differInHalf hv hw

/-- Zero as a small number. -/
def zeroWord : Word := .immediate 1#64

/-- One as a small number. -/
def oneWord : Word := .immediate 3#64

theorem isInteger_zeroWord : Heap.vacant.IsInteger zeroWord 0 := ⟨.small 0, rfl, rfl⟩

theorem isInteger_oneWord : Heap.vacant.IsInteger oneWord 1 := ⟨.small 1, rfl, rfl⟩

/-- Three words of which the last differs, and two integers that differ in the lowest bit. -/
theorem mixerLaws_lowest_bit : DifferOnce [7, 7, 0] [7, 7, 0x80000000] ∧ DifferInHalf 0 1 ∧
    ([7, 7, 0].foldl Hasher.write32 (.start 0)).finish ≠
      ([7, 7, 0x80000000].foldl Hasher.write32 (.start 0)).finish ∧
    Heap.vacant.hash 0x9747b28c 31 zeroWord ≠ Heap.vacant.hash 0x9747b28c 31 oneWord := by
  have hwords : DifferOnce [7, 7, 0] [7, 7, 0x80000000] := .cons 7 (.cons 7 (.head (by decide) []))
  have hintegers : DifferInHalf 0 1 := by decide
  have hhash := mixerLaws.hash_eq_iff _ _ _ _ _ _ isInteger_zeroWord isInteger_oneWord hintegers 0x9747b28c 31
  exact ⟨hwords, hintegers, mixerLaws.finish_ne 0 _ _ hwords, mt hhash.mp (by decide)⟩

/-- With a depth of zero, which the environment can ask for, all integers hash alike. -/
theorem no_levels_hash_alike : DifferInHalf 0 1 ∧ Heap.vacant.IsInteger zeroWord 0 ∧
    Heap.vacant.IsInteger oneWord 1 ∧ (Options.ofVariables none (some "0") none).hashDepth = 0 ∧
    Heap.vacant.hash 0x9747b28c 0 zeroWord = Heap.vacant.hash 0x9747b28c 0 oneWord :=
  ⟨by decide, isInteger_zeroWord, isInteger_oneWord, by decide +kernel, rfl⟩

end ValueHeap
