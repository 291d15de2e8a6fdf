import Mathlib.Order.Lattice
import ValueHeap.Proofs.Boxing
import ValueHeap.Proofs.ExactValue

/-!
# Minimum and maximum of floats

The comparison of floats does not tell the two zeros apart, so the order in which a minimum is least is a
finer one: that of the exact values, with the negative zero below the positive one. It is a linear order on
the patterns that are no NaN (`Ordered`), and there the two operations are the meet and the join, bit for
bit. A NaN on either side gives the one NaN that stands for all of them.

* `rank`: the number of a pattern in that order, from the sign and the magnitude.
* `Lifts`: an operation on patterns that is one on ordered patterns, with a NaN for every NaN. What such an
  operation inherits is said once, for both.

Results:
* `Ordered.lt_iff`: the order by ranks is the one by exact values and signs of zero.
* `Ordered.minimum_eq_min`, `Ordered.maximum_eq_max`: the operations are those of the order.
* `extremaLaws`: so they obey the laws of a lattice, with NaN as far as it can.
* `Action.floatBinary_extrema`: the operations on values do so, for both representations.
-/

namespace ValueHeap

namespace Binary.Format

/-- A pattern of the format that is no NaN. -/
structure Ordered (f : Format) where
  bits : Nat
  lt : bits < 2 * f.signBit
  isNaN_eq : f.isNaN bits = false

variable {f : Format} {p q : Nat}

/-- The number of a pattern when they are counted from the positive zero up and from the negative zero
down. -/
def rank (f : Format) (p : Nat) : Int :=
  if f.isNegative p then -(f.magnitude p : Int) - 1 else f.magnitude p

theorem eq_of_rank_eq (hp : p < 2 * f.signBit) (hq : q < 2 * f.signBit) (hrank : f.rank p = f.rank q) :
    p = q := by
  unfold rank at hrank
  have hsign : f.isNegative p = f.isNegative q := by
    cases hsp : f.isNegative p <;> cases hsq : f.isNegative q <;>
      simp only [hsp, hsq, if_true, if_false, Bool.false_eq_true] at hrank ⊢ <;> omega
  refine eq_of_sign_of_magnitude hp hq hsign ?_
  rw [hsign] at hrank
  split at hrank <;> omega

/-- The rank has the order of the places, and the negative zero before the positive one. -/
theorem rank_lt_rank_iff : f.rank p < f.rank q ↔ f.place p < f.place q ∨
    (f.isZero p = true ∧ f.isNegative p = true) ∧ f.isZero q = true ∧ f.isNegative q = false := by
  unfold rank place isZero
  cases f.isNegative p <;> cases f.isNegative q <;> simp <;> omega

namespace Ordered

theorem bits_injective : Function.Injective (fun x : f.Ordered => x.bits) := by
  rintro ⟨p, hp, hnan⟩ ⟨q, hq, hnan'⟩ (rfl : p = q)
  rfl

theorem rank_injective : Function.Injective (fun x : f.Ordered => f.rank x.bits) :=
  fun x y hrank => bits_injective (eq_of_rank_eq x.lt y.lt hrank)

/-- The order by ranks. -/
instance : LinearOrder f.Ordered := LinearOrder.lift' (fun x => f.rank x.bits) rank_injective

variable (x y : f.Ordered)

theorem le_iff_rank_le : x ≤ y ↔ f.rank x.bits ≤ f.rank y.bits := Iff.rfl

theorem lt_iff_rank_lt : x < y ↔ f.rank x.bits < f.rank y.bits := Iff.rfl

/-- **The order of the patterns**: by exact value, and the negative zero below the positive one. -/
theorem lt_iff (hf : 1 < f.exponent) : x < y ↔ f.exactValue x.bits < f.exactValue y.bits ∨
    (f.isZero x.bits = true ∧ f.isNegative x.bits = true) ∧
      f.isZero y.bits = true ∧ f.isNegative y.bits = false := by
  rw [lt_iff_rank_lt, rank_lt_rank_iff, ← not_le (a := f.exactValue y.bits),
    exactValue_le_iff hf y.isNaN_eq x.isNaN_eq, not_le]

theorem compare?_eq : f.compare? x.bits y.bits = some (compare (f.place x.bits) (f.place y.bits)) := by
  rw [compare?, x.isNaN_eq, y.isNaN_eq]
  rfl

/-- Patterns at one place differ in the sign of a zero only, which decides their order. -/
theorem le_of_place_eq (hplace : f.place x.bits = f.place y.bits) :
    if f.isNegative x.bits then x ≤ y else y ≤ x := by
  simp only [le_iff_rank_le]
  unfold place at hplace
  unfold rank
  cases hx : f.isNegative x.bits <;> cases hy : f.isNegative y.bits <;> simp_all

theorem le_of_place_lt (hplace : f.place x.bits < f.place y.bits) : x ≤ y :=
  le_of_lt (rank_lt_rank_iff.mpr (Or.inl hplace))

/-- **The minimum is the lesser of two patterns.** -/
theorem minimum_eq_min : f.minimum x.bits y.bits = (min x y).bits := by
  rw [minimum, compare?_eq]
  rcases lt_trichotomy (f.place x.bits) (f.place y.bits) with hlt | heq | hgt
  · rw [compare_lt_iff_lt.mpr hlt, min_eq_left (le_of_place_lt x y hlt)]
  · have hle := le_of_place_eq x y heq
    rw [compare_eq_iff_eq.mpr heq]
    split at hle
    · next hneg => simp only [hneg, if_true, min_eq_left hle]
    · next hneg => simp only [hneg, if_false, min_eq_right hle, Bool.false_eq_true]
  · rw [compare_gt_iff_gt.mpr hgt, min_eq_right (le_of_place_lt y x hgt)]

/-- **The maximum is the greater of two patterns.** -/
theorem maximum_eq_max : f.maximum x.bits y.bits = (max x y).bits := by
  rw [maximum, compare?_eq]
  rcases lt_trichotomy (f.place x.bits) (f.place y.bits) with hlt | heq | hgt
  · rw [compare_lt_iff_lt.mpr hlt, max_eq_right (le_of_place_lt x y hlt)]
  · have hle := le_of_place_eq x y heq
    rw [compare_eq_iff_eq.mpr heq]
    split at hle
    · next hneg => simp only [hneg, if_true, max_eq_right hle]
    · next hneg => simp only [hneg, if_false, max_eq_left hle, Bool.false_eq_true]
  · rw [compare_gt_iff_gt.mpr hgt, max_eq_left (le_of_place_lt y x hgt)]

end Ordered

/-! ## NaN -/

/-- The operation on patterns is `join` where both are ordered, and a NaN on either side spoils it. -/
structure Lifts (f : Format) (op : Nat → Nat → Nat) (join : f.Ordered → f.Ordered → f.Ordered) : Prop where
  of_isNaN : ∀ p q, f.isNaN p = true ∨ f.isNaN q = true → op p q = f.quietNaN
  of_ordered : ∀ x y : f.Ordered, op x.bits y.bits = (join x y).bits

theorem compare?_of_isNaN (hnan : f.isNaN p = true ∨ f.isNaN q = true) : f.compare? p q = none := by
  rw [compare?, if_pos (Bool.or_eq_true_iff.mpr hnan)]

theorem lifts_minimum (f : Format) : f.Lifts f.minimum min where
  of_isNaN p q hnan := by rw [minimum, compare?_of_isNaN hnan]
  of_ordered := Ordered.minimum_eq_min

theorem lifts_maximum (f : Format) : f.Lifts f.maximum max where
  of_isNaN p q hnan := by rw [maximum, compare?_of_isNaN hnan]
  of_ordered := Ordered.maximum_eq_max

/-- Every pattern is a NaN or ordered. -/
theorem isNaN_or_ordered (p : Fin (2 * f.signBit)) :
    f.isNaN p = true ∨ ∃ x : f.Ordered, x.bits = p := by
  cases hnan : f.isNaN p with
  | true => exact Or.inl rfl
  | false => exact Or.inr ⟨⟨p, p.isLt, hnan⟩, rfl⟩

/-- The same pattern, or two NaNs. -/
def Alike (f : Format) (p q : Nat) : Prop := p = q ∨ f.isNaN p = true ∧ f.isNaN q = true

namespace Lifts

variable {op : Nat → Nat → Nat} {join : f.Ordered → f.Ordered → f.Ordered}

theorem comm (hop : f.Lifts op join) (hjoin : ∀ x y, join x y = join y x) (p q : Fin (2 * f.signBit)) :
    op p q = op q p := by
  rcases isNaN_or_ordered p with hp | ⟨x, hx⟩
  · rw [hop.of_isNaN p q (Or.inl hp), hop.of_isNaN q p (Or.inr hp)]
  rcases isNaN_or_ordered q with hq | ⟨y, hy⟩
  · rw [hop.of_isNaN p q (Or.inr hq), hop.of_isNaN q p (Or.inl hq)]
  rw [← hx, ← hy, hop.of_ordered, hop.of_ordered, hjoin]

theorem lt (hop : f.Lifts op join) (hlt : f.quietNaN < 2 * f.signBit) (p q : Fin (2 * f.signBit)) :
    op p q < 2 * f.signBit := by
  rcases isNaN_or_ordered p with hp | ⟨x, hx⟩
  · rwa [hop.of_isNaN p q (Or.inl hp)]
  rcases isNaN_or_ordered q with hq | ⟨y, hy⟩
  · rwa [hop.of_isNaN p q (Or.inr hq)]
  rw [← hx, ← hy, hop.of_ordered]
  exact (join x y).lt

variable (hquiet : f.isNaN f.quietNaN = true)
include hquiet

theorem isNaN_iff (hop : f.Lifts op join) (p q : Fin (2 * f.signBit)) :
    f.isNaN (op p q) = true ↔ f.isNaN p = true ∨ f.isNaN q = true := by
  refine ⟨fun hnan => ?_, fun hnan => by rw [hop.of_isNaN p q hnan, hquiet]⟩
  rcases isNaN_or_ordered p with hp | ⟨x, hx⟩
  · exact Or.inl hp
  rcases isNaN_or_ordered q with hq | ⟨y, hy⟩
  · exact Or.inr hq
  rw [← hx, ← hy, hop.of_ordered, (join x y).isNaN_eq] at hnan
  exact absurd hnan Bool.false_ne_true

theorem assoc (hop : f.Lifts op join) (hjoin : ∀ x y z, join (join x y) z = join x (join y z))
    (p q r : Fin (2 * f.signBit)) : op (op p q) r = op p (op q r) := by
  -- One NaN spoils both sides, whichever operand it is.
  rcases isNaN_or_ordered p with hp | ⟨x, hx⟩
  · rw [hop.of_isNaN p q (Or.inl hp), hop.of_isNaN _ r (Or.inl hquiet), hop.of_isNaN p _ (Or.inl hp)]
  rcases isNaN_or_ordered q with hq | ⟨y, hy⟩
  · rw [hop.of_isNaN p q (Or.inr hq), hop.of_isNaN _ r (Or.inl hquiet), hop.of_isNaN q r (Or.inl hq),
      hop.of_isNaN p _ (Or.inr hquiet)]
  rcases isNaN_or_ordered r with hr | ⟨z, hz⟩
  · rw [hop.of_isNaN _ r (Or.inr hr), hop.of_isNaN q r (Or.inr hr), hop.of_isNaN p _ (Or.inr hquiet)]
  simp only [← hx, ← hy, ← hz, hop.of_ordered, hjoin]

theorem self (hop : f.Lifts op join) (hjoin : ∀ x, join x x = x) (p : Fin (2 * f.signBit)) :
    f.Alike (op p p) p := by
  rcases isNaN_or_ordered p with hp | ⟨x, hx⟩
  · rw [hop.of_isNaN p p (Or.inl hp)]
    exact Or.inr ⟨hquiet, hp⟩
  · rw [← hx, hop.of_ordered, hjoin]
    exact Or.inl rfl

end Lifts

/-! ## The laws -/

/-- The laws of the minimum and the maximum on the patterns of a format. -/
structure ExtremaLaws (f : Format) : Prop where
  isNaN_minimum : ∀ p q : Fin (2 * f.signBit),
    f.isNaN (f.minimum p q) = true ↔ f.isNaN p = true ∨ f.isNaN q = true
  isNaN_maximum : ∀ p q : Fin (2 * f.signBit),
    f.isNaN (f.maximum p q) = true ↔ f.isNaN p = true ∨ f.isNaN q = true
  /-- The order is that of the exact values, with the negative zero below the positive one. -/
  lt_iff : ∀ x y : f.Ordered, x < y ↔ f.exactValue x.bits < f.exactValue y.bits ∨
    (f.isZero x.bits = true ∧ f.isNegative x.bits = true) ∧
      f.isZero y.bits = true ∧ f.isNegative y.bits = false
  minimum_eq_min : ∀ x y : f.Ordered, f.minimum x.bits y.bits = (min x y).bits
  maximum_eq_max : ∀ x y : f.Ordered, f.maximum x.bits y.bits = (max x y).bits
  minimum_comm : ∀ p q : Fin (2 * f.signBit), f.minimum p q = f.minimum q p
  maximum_comm : ∀ p q : Fin (2 * f.signBit), f.maximum p q = f.maximum q p
  minimum_assoc : ∀ p q r : Fin (2 * f.signBit),
    f.minimum (f.minimum p q) r = f.minimum p (f.minimum q r)
  maximum_assoc : ∀ p q r : Fin (2 * f.signBit),
    f.maximum (f.maximum p q) r = f.maximum p (f.maximum q r)
  minimum_self : ∀ p : Fin (2 * f.signBit), f.Alike (f.minimum p p) p
  maximum_self : ∀ p : Fin (2 * f.signBit), f.Alike (f.maximum p p) p
  /-- Without a NaN each absorbs the other. -/
  minimum_maximum : ∀ x y : f.Ordered, f.minimum x.bits (f.maximum x.bits y.bits) = x.bits
  maximum_minimum : ∀ x y : f.Ordered, f.maximum x.bits (f.minimum x.bits y.bits) = x.bits

theorem extremaLaws (hf : 1 < f.exponent) (hquiet : f.isNaN f.quietNaN = true) : f.ExtremaLaws where
  isNaN_minimum := f.lifts_minimum.isNaN_iff hquiet
  isNaN_maximum := f.lifts_maximum.isNaN_iff hquiet
  lt_iff x y := x.lt_iff y hf
  minimum_eq_min := Ordered.minimum_eq_min
  maximum_eq_max := Ordered.maximum_eq_max
  minimum_comm := f.lifts_minimum.comm min_comm
  maximum_comm := f.lifts_maximum.comm max_comm
  minimum_assoc := f.lifts_minimum.assoc hquiet min_assoc
  maximum_assoc := f.lifts_maximum.assoc hquiet max_assoc
  minimum_self := f.lifts_minimum.self hquiet min_self
  maximum_self := f.lifts_maximum.self hquiet max_self
  minimum_maximum x y := by
    rw [Ordered.maximum_eq_max, Ordered.minimum_eq_min, min_eq_left (le_max_left x y)]
  maximum_minimum x y := by
    rw [Ordered.minimum_eq_min, Ordered.maximum_eq_max, max_eq_left (min_le_left x y)]

end Binary.Format

/-! ## Values -/

namespace FloatType

theorem expect_of_number? (t : FloatType) {h : Heap} {w : Word} (p : Fin (2 * t.format.signBit))
    (hw : h.number? w = some (t.number p)) : t.expect w h = .ok p := by
  have hlt := p.isLt
  cases t with
  | float32 =>
    have hback : (UInt32.ofNat p).toNat = p := UInt32.toNat_ofNat_of_lt' hlt
    show (h.expectFloat32 w).map UInt32.toNat = _
    rw [Heap.expectFloat32, hw]
    exact congrArg Except.ok hback
  | float64 =>
    have hback : (UInt64.ofNat p).toNat = p := UInt64.toNat_ofNat_of_lt' hlt
    show (h.expectFloat64 w).map UInt64.toNat = _
    rw [Heap.expectFloat64, hw]
    exact congrArg Except.ok hback

theorem number_ne_small (t : FloatType) (p : Nat) (n : Int64) : t.number p ≠ .small n := by
  cases t <;> nofun

theorem one_lt_exponent (t : FloatType) : 1 < t.format.exponent := by
  cases t <;> decide

theorem isNaN_quietNaN (t : FloatType) : t.format.isNaN t.format.quietNaN = true := by
  cases t <;> decide

theorem quietNaN_lt (t : FloatType) : t.format.quietNaN < 2 * t.format.signBit := by
  cases t <;> decide

end FloatType

namespace Action

variable {t : FloatType} {p q : Fin (2 * t.format.signBit)} {x y : Word} {h : Heap}

/-- What an operation on boxed floats answers, read back in the representation of the operands. -/
def floatAnswer (t : FloatType) (op : FloatBinary) (x y : Word) (h : Heap) : Except Error Nat :=
  match floatBinary t op x y h with
  | (.ok w, k) => t.expect w k
  | (.error e, _) => .error e

theorem floatAnswer_eq_apply (hx : h.number? x = some (t.number p)) (hy : h.number? y = some (t.number q))
    {op : FloatBinary} (hlt : op.apply t.format p q < 2 * t.format.signBit) :
    floatAnswer t op x y h = .ok (op.apply t.format p q) := by
  unfold floatAnswer floatBinary
  rw [read_bind_of_ok (t.expect_of_number? p hx), read_bind_of_ok (t.expect_of_number? q hy)]
  obtain ⟨w, k, hnew, hread, -⟩ :=
    exists_newBoxed (t.number (op.apply t.format p q)) (t.number_ne_small _) h
  rw [hnew]
  exact t.expect_of_number? ⟨_, hlt⟩ hread

/-- **The minimum and the maximum of boxed floats are those of a linear order**, which tells the two zeros
apart, and a NaN where an operand is one. -/
theorem floatBinary_extrema (t : FloatType) :
    (∀ (p q : Fin (2 * t.format.signBit)) (h : Heap) (x y : Word), h.number? x = some (t.number p) →
      h.number? y = some (t.number q) →
      floatAnswer t .minimum x y h = .ok (t.format.minimum p q) ∧
        floatAnswer t .maximum x y h = .ok (t.format.maximum p q)) ∧
    t.format.ExtremaLaws := by
  refine ⟨fun p q h x y hx hy => ⟨?_, ?_⟩, Binary.Format.extremaLaws t.one_lt_exponent t.isNaN_quietNaN⟩
  · exact floatAnswer_eq_apply hx hy (t.format.lifts_minimum.lt t.quietNaN_lt p q)
  · exact floatAnswer_eq_apply hx hy (t.format.lifts_maximum.lt t.quietNaN_lt p q)

/-- A heap with the positive zero, the negative zero and a NaN with a payload, all boxed floats of 32
bits. -/
def zeros : Heap :=
  [0x00000000, 0x80000000, 0x7f800001].foldl (fun h p => (h.allocate (Number.float32 p).box).2) .vacant

/-- The zeros compare as equal, but the minimum is the negative one, in either order of the operands. The
minimum with a NaN is a NaN. -/
theorem floatBinary_extrema_zeros :
    floatAnswer .float32 .minimum (.reference 0) (.reference 1) zeros = .ok 0x80000000 ∧
      floatAnswer .float32 .minimum (.reference 1) (.reference 0) zeros = .ok 0x80000000 ∧
      ∃ r, floatAnswer .float32 .minimum (.reference 1) (.reference 2) zeros = .ok r ∧
        Binary.single.isNaN r = true := by
  obtain ⟨hvalues, hlaws⟩ := floatBinary_extrema .float32
  let up : Fin (2 * Binary.single.signBit) := ⟨0x00000000, by decide⟩
  let down : Fin (2 * Binary.single.signBit) := ⟨0x80000000, by decide⟩
  let nan : Fin (2 * Binary.single.signBit) := ⟨0x7f800001, by decide⟩
  have hmin : Binary.single.minimum up down = 0x80000000 := by decide +kernel
  refine ⟨?_, ?_, _, (hvalues down nan zeros _ _ rfl rfl).1, ?_⟩
  · rw [(hvalues up down zeros _ _ rfl rfl).1]
    exact congrArg Except.ok hmin
  · rw [(hvalues down up zeros _ _ rfl rfl).1]
    exact congrArg Except.ok ((hlaws.minimum_comm down up).trans hmin)
  · exact (hlaws.isNaN_minimum down nan).mpr (Or.inr (by decide))

end Action

end ValueHeap
