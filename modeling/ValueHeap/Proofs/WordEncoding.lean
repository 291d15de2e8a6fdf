import ValueHeap.Proofs.BitFields
import ValueHeap.Proofs.Boxing

/-!
# Words tell what they are

What a 64-bit pattern is can be read off its three low bits, but for zero, which has the bits of a
reference (`classOf`). The tests of the library ask for one class at a time, through fields of the word;
together they leave no pattern out and claim none twice.

The payload of a small number is a signed field of 63 bits. An integer is small iff it survives being
written there, which is no comparison, but comes to one.

A reference has the bits of its block's address. Where blocks lie is up to whoever gives out the memory;
`Heap.Placed` is all that is asked of it.

Results:
* `isOf_iff`: the tests agree with the bits.
* `isSome_ofInt?_iff`: the small integers are those of 63 bits.
* `ofInt?_toInt`: with `ofInt?_eq_some`, words and small integers are the same in both directions.
* `Placed.bits_inj`: words that differ have different bits.
* `wordLaws` puts them together.
-/

namespace ValueHeap

namespace Pattern

/-- What a pattern can be. -/
inductive Class where
  | small | constant | reference | empty
  /-- An immediate without a meaning. -/
  | unused
  deriving Repr, DecidableEq

/-- Is the pattern of the class, by the tests for it? -/
def isOf (p : Pattern) : Class → Bool
  | .small => p.isSmall
  | .constant => p.isConstant
  | .reference => p.isReference
  | .empty => p.isEmpty
  | .unused => p.isImmediate && !(p.isSmall || p.isConstant || p.isEmpty)

/-- The class of a pattern, by its low bits. -/
def classOf (p : Pattern) : Class :=
  if p.toNat % 2 = 1 then .small
  else if p.toNat % 8 = 6 then .constant
  else if p.toNat % 8 ≠ 0 then .unused
  else if p = 0#64 then .empty
  else .reference

/-! ## Classes -/

theorem isSmall_iff (p : Pattern) : p.isSmall = true ↔ p.toNat % 2 = 1 := by
  have hdecode := BitField.toNat_decode (f := numberTagField) ⟨by decide, by decide, by decide⟩ rfl p
  rw [isSmall, beq_iff_eq, ← BitVec.toNat_inj, hdecode]
  simp [numberTagField]

/-- The tag of a pattern is its remainder by eight. -/
theorem decode_tagField (p : Pattern) {t : Nat} (ht : t < 8) :
    (tagField.decode p == BitVec.ofNat 64 t) = true ↔ p.toNat % 8 = t := by
  have hdecode := BitField.toNat_decode (f := tagField) ⟨by decide, by decide, by decide⟩ rfl p
  have htag : (BitVec.ofNat 64 t).toNat = t := by
    rw [BitVec.toNat_ofNat]
    omega
  rw [beq_iff_eq, ← BitVec.toNat_inj, hdecode, htag]
  simp [tagField]

theorem isConstant_iff (p : Pattern) : p.isConstant = true ↔ p.toNat % 8 = 6 :=
  decode_tagField p (by decide)

theorem isReference_iff (p : Pattern) : p.isReference = true ↔ p.toNat % 8 = 0 ∧ p ≠ 0#64 := by
  rw [isReference, Bool.and_eq_true, decode_tagField p (by decide), bne_iff_ne]

theorem isEmpty_iff (p : Pattern) : p.isEmpty = true ↔ p = 0#64 := beq_iff_eq

/-- What no other test asks for are the immediates with the tags 010 and 100. -/
theorem isOf_unused_iff (p : Pattern) :
    p.isOf .unused = true ↔ p.toNat % 8 = 2 ∨ p.toNat % 8 = 4 := by
  have hnone : p.isOf .unused = true ↔ ¬ p.isReference = true ∧ ¬ p.isSmall = true ∧
      ¬ p.isConstant = true ∧ ¬ p.isEmpty = true := by
    simp [isOf, isImmediate, and_assoc]
  rw [hnone, isReference_iff, isSmall_iff, isConstant_iff, isEmpty_iff]
  by_cases hp : p = 0#64
  · simp [hp]
  · simp only [hp, ne_eq, not_false_eq_true, and_true]
    omega

/-- **The tests agree with the bits.** -/
theorem isOf_iff (p : Pattern) (c : Class) : p.isOf c = true ↔ p.classOf = c := by
  have hzero : p = 0#64 → p.toNat % 8 = 0 := by
    rintro rfl
    rfl
  unfold classOf
  cases c with
  | small =>
    rw [isOf, isSmall_iff]
    grind
  | constant =>
    rw [isOf, isConstant_iff]
    grind
  | reference =>
    rw [isOf, isReference_iff]
    grind
  | empty =>
    rw [isOf, isEmpty_iff]
    grind
  | unused =>
    rw [isOf_unused_iff]
    grind

/-! ## Small numbers -/

theorem inWord_smallField : smallField.InWord := ⟨by decide, by decide, by decide⟩

/-- **The small integers are those of 63 bits.** -/
theorem isSome_ofInt?_iff (n : Int64) :
    (ofInt? n).isSome = true ↔ -2 ^ 62 ≤ n.toInt ∧ n.toInt ≤ 2 ^ 62 - 1 := by
  have hvalid : smallField.isValid n.toBitVec = true ↔ -2 ^ 62 ≤ n.toInt ∧ n.toInt < 2 ^ 62 :=
    BitField.isValid_iff_of_signed inWord_smallField rfl n.toBitVec
  rw [Int.le_sub_one_iff, ← hvalid, ofInt?]
  split <;> simp_all

/-- **A small-number word is the one that its integer is put into.** -/
theorem ofInt?_toInt {p : Pattern} (hp : p.isSmall = true) : ofInt? p.toInt = some p := by
  have hpayload : (p.toInt).toBitVec = smallField.decode p := rfl
  have hmask : smallField.maskInPlace ||| 1#64 = BitVec.allOnes 64 := by decide
  have htag : p &&& 1#64 = 1#64 := beq_iff_eq.mp hp
  have hback : smallField.encode (smallField.decode p) ||| 1#64 = p := by
    rw [BitField.encode_decode inWord_smallField]
    calc p &&& smallField.maskInPlace ||| 1#64
        = p &&& smallField.maskInPlace ||| p &&& 1#64 := by rw [htag]
      _ = p &&& (smallField.maskInPlace ||| 1#64) := BitVec.and_or_distrib_left.symm
      _ = p := by rw [hmask, BitVec.and_allOnes]
  rw [ofInt?, hpayload, if_pos (BitField.isValid_decode inWord_smallField p), hback]

/-- The constants in use, and the empty word. -/
def constants : List Pattern := [truth, falsehood, void, empty]

/-- No constant is a small number or a reference. -/
theorem notMem_constants {p : Pattern} (hp : p.isSmall = true ∨ p.isReference = true) :
    p ∉ constants := by
  intro hmem
  simp only [constants, List.mem_cons, List.not_mem_nil, or_false] at hmem
  rcases hmem with rfl | rfl | rfl | rfl <;> revert hp <;> decide

end Pattern

/-! ## Places -/

namespace Heap

/-- The live blocks lie at multiples of eight other than zero, and no two of them in one place. -/
structure Placed (h : Heap) : Prop where
  aligned : ∀ b, (h.cell? b).isSome → 8 ∣ (h.address b).toNat
  ne_zero : ∀ b, (h.cell? b).isSome → h.address b ≠ 0#64
  distinct : ∀ a b, (h.cell? a).isSome → (h.cell? b).isSome → h.address a = h.address b → a = b

/-- The word is one that a value can be: a reference to a live block, or the pattern of an immediate. -/
def Admits (h : Heap) : Word → Prop
  | .immediate p => p.isImmediate = true
  | .reference b => (h.cell? b).isSome

variable {h : Heap}

theorem Placed.isReference_address (hp : h.Placed) {b : BlockId} (hb : (h.cell? b).isSome) :
    (h.address b).isReference = true :=
  (Pattern.isReference_iff _).mpr ⟨Nat.mod_eq_zero_of_dvd (hp.aligned b hb), hp.ne_zero b hb⟩

/-- **Words that differ have different bits.** -/
theorem Placed.bits_inj (hp : h.Placed) {x y : Word} (hx : h.Admits x) (hy : h.Admits y)
    (hbits : h.bits x = h.bits y) : x = y := by
  have apart {p : Pattern} {b : BlockId} (himmediate : p.isImmediate = true) (hb : (h.cell? b).isSome) :
      p ≠ h.address b := by
    rintro rfl
    rw [Pattern.isImmediate, hp.isReference_address hb] at himmediate
    cases himmediate
  cases x with
  | immediate p =>
    cases y with
    | immediate q => exact congrArg Word.immediate hbits
    | reference b => exact absurd hbits (apart hx hy)
  | reference a =>
    cases y with
    | immediate q => exact absurd hbits.symm (apart hy hx)
    | reference b => exact congrArg Word.reference (hp.distinct a b hx hy hbits)

/-- Places one after the other do for as many blocks as there are multiples of eight. -/
theorem placed_sequential (hseq : h.address = sequential) (hsize : h.cells.size < 2 ^ 61) : h.Placed := by
  have toNat_address {b : Nat} (hb : (h.cell? b).isSome) : (h.address b).toNat = 8 * (b + 1) := by
    have hlt : b < h.cells.size := lt_size_of_isSome hb
    rw [hseq, sequential, BitVec.toNat_ofNat, Nat.mod_eq_of_lt (by omega : b < 0x1fffffffffffffff)]
    omega
  constructor
  case aligned =>
    intro b hb
    rw [toNat_address hb]
    exact Nat.dvd_mul_right 8 _
  case ne_zero =>
    intro b hb hzero
    have hnat := toNat_address hb
    rw [hzero] at hnat
    simp at hnat
  case distinct =>
    intro a b ha hb heq
    have hnat := toNat_address ha
    rw [heq, toNat_address hb] at hnat
    exact Nat.succ.inj (Nat.eq_of_mul_eq_mul_left (by decide) hnat.symm)

end Heap

/-- A new integer is small iff it has at most 63 bits, and boxed else. -/
theorem Action.exists_newInteger_number (n : Int64) (h : Heap) :
    ∃ w h', newInteger n h = (.ok w, h') ∧ h'.number? w = some
      (if -2 ^ 62 ≤ n.toInt ∧ n.toInt ≤ 2 ^ 62 - 1 then .small n else .int64 n) := by
  have hrange := Pattern.isSome_ofInt?_iff n
  unfold newInteger
  cases hp : Pattern.ofInt? n with
  | some p =>
    obtain ⟨hsmall, hback⟩ := Pattern.ofInt?_eq_some hp
    have hread : (Word.immediate p).small? = some n := by
      rw [Word.small?, if_pos hsmall, hback]
    rw [if_pos (hrange.mp (by rw [hp]; rfl))]
    refine ⟨.immediate p, h, rfl, ?_⟩
    unfold Heap.number?
    rw [hread]
  | none =>
    have hboxed : ∀ m, Number.int64 n ≠ .small m := by
      intro m hsmall
      cases hsmall
    obtain ⟨w, h', hnew, hback, -⟩ := exists_newBoxed (.int64 n) hboxed h
    have hlarge : ¬ (-2 ^ 62 ≤ n.toInt ∧ n.toInt ≤ 2 ^ 62 - 1) := by
      rw [← hrange, hp]
      exact Bool.false_ne_true
    rw [if_neg hlarge]
    exact ⟨w, h', hnew, hback⟩

/-! ## The laws -/

/-- The laws of words. -/
structure WordLaws : Prop where
  /-- An integer is put into a word iff it has at most 63 bits. -/
  isSome_ofInt? : ∀ n : Int64,
    (Pattern.ofInt? n).isSome = true ↔ -2 ^ 62 ≤ n.toInt ∧ n.toInt ≤ 2 ^ 62 - 1
  toInt_of_ofInt? : ∀ (n : Int64) (p : Pattern), Pattern.ofInt? n = some p →
    p.isSmall = true ∧ p.toInt = n
  ofInt?_toInt : ∀ p : Pattern, p.isSmall = true → Pattern.ofInt? p.toInt = some p
  /-- Every pattern is of one class, by the tests, -/
  existsUnique_class : ∀ p : Pattern, ∃! c, p.isOf c = true
  /-- and it is the one that the low bits tell. -/
  isOf_iff : ∀ (p : Pattern) (c : Pattern.Class), p.isOf c = true ↔ p.classOf = c
  /-- The bits of a reference are those of one, wherever the blocks lie, -/
  isReference_bits : ∀ h : Heap, h.Placed → ∀ b, (h.cell? b).isSome →
    (h.bits (.reference b)).isReference = true
  /-- and no other word has the same bits. -/
  bits_inj : ∀ h : Heap, h.Placed → ∀ x y, h.Admits x → h.Admits y → h.bits x = h.bits y → x = y
  placed_sequential : ∀ h : Heap, h.address = Heap.sequential → h.cells.size < 2 ^ 61 → h.Placed
  nodup_constants : Pattern.constants.Nodup
  /-- No constant is a small number or a reference. -/
  ne_constant : ∀ p : Pattern, p.isSmall = true ∨ p.isReference = true → p ∉ Pattern.constants
  /-- A new integer reads as a small number iff it has at most 63 bits, and else as a boxed one. -/
  number?_newInteger : ∀ (n : Int64) (h : Heap), ∃ w h', Action.newInteger n h = (.ok w, h') ∧
    h'.number? w = some
      (if -2 ^ 62 ≤ n.toInt ∧ n.toInt ≤ 2 ^ 62 - 1 then .small n else .int64 n)

/-- **Words encode small integers exactly and tell what they are by their bits.** -/
theorem wordLaws : WordLaws where
  isSome_ofInt? := Pattern.isSome_ofInt?_iff
  toInt_of_ofInt? n p := Pattern.ofInt?_eq_some
  ofInt?_toInt p := Pattern.ofInt?_toInt
  existsUnique_class p :=
    ⟨p.classOf, (p.isOf_iff _).mpr rfl, fun c hc => ((p.isOf_iff c).mp hc).symm⟩
  isOf_iff := Pattern.isOf_iff
  isReference_bits h hp b := hp.isReference_address
  bits_inj h hp x y := hp.bits_inj
  placed_sequential h := Heap.placed_sequential
  nodup_constants := by decide
  ne_constant p := Pattern.notMem_constants
  number?_newInteger := Action.exists_newInteger_number

/-- The greatest small integer has all bits but the highest set, and the next integer is no longer
small. -/
theorem wordLaws_edge :
    Pattern.ofInt? 0x3fffffffffffffff = some 0x7fffffffffffffff#64 ∧
      (Pattern.ofInt? 0x4000000000000000).isSome = false := by
  have hedge : Pattern.isSmall 0x7fffffffffffffff#64 = true := by decide
  refine ⟨wordLaws.ofInt?_toInt 0x7fffffffffffffff#64 hedge, ?_⟩
  rw [← Bool.not_eq_true, wordLaws.isSome_ofInt?]
  decide

end ValueHeap
