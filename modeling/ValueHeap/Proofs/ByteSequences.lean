import Mathlib.Algebra.Order.Ring.Int
import Mathlib.Data.List.Basic
import ValueHeap.Buffer.Basic

/-!
# Byte sequences, byte by byte

What the operations on byte sequences do, said by where each byte of the result comes from.

* `byteAt bs i`: the byte at any integer position, which is zero in front of the first byte and behind the
  last one.
* `window bs start len`: the bytes from `start` on, wherever that is. A slice is the window at its place
  (`slice_eq_window`). A resized sequence is the window that starts as far in front as bytes were added
  there (`resize_eq_window`): all combinations of growing and shrinking the two ends obey this one law.
* `getElem?_overwrite`: a write changes its range and nothing else.

`Kept.Inside` says that the copy which makes a resized sequence stays inside both sequences.
-/

namespace ValueHeap.Bytes

/-! ## Lengths and ranges -/

theorem length_slice {bs : List UInt8} {start len : Nat} (h : start + len ≤ bs.length) :
    (slice bs start len).length = len := by
  unfold slice
  rw [List.length_take, List.length_drop]
  omega

theorem length_overwrite {bs part : List UInt8} {start : Nat} (h : start + part.length ≤ bs.length) :
    (overwrite bs start part).length = bs.length := by
  unfold overwrite
  simp only [List.length_append, List.length_take, List.length_drop]
  omega

theorem length_ofNat (width n : Nat) : (ofNat width n).length = width := by
  induction width generalizing n with
  | zero => rfl
  | succ width ih => exact congrArg Nat.succ (ih _)

theorem checkIndex_eq_ok {index : Int} {width size i : Nat}
    (hi : checkIndex index width size = .ok i) : index = i ∧ i + width ≤ size := by
  unfold checkIndex at hi
  split at hi
  · cases hi
  · cases hi
    omega

/-- The range of `len` bytes from `start` on is one of a sequence of `size` bytes. -/
def Inside (start len : Int) (size : Nat) : Prop := 0 ≤ start ∧ 0 ≤ len ∧ start + len ≤ size

instance (start len : Int) (size : Nat) : Decidable (Inside start len size) :=
  inferInstanceAs (Decidable (_ ∧ _))

variable {use : RangeUse} {start len : Int} {size : Nat}

theorem checkRange_eq_ok {s l : Nat}
    (hr : checkRange use start len size = .ok (s, l)) : start = s ∧ len = l ∧ s + l ≤ size := by
  unfold checkRange at hr
  split at hr
  · cases hr
  · cases hr
    omega

theorem checkRange_of_inside (hinside : Inside start len size) :
    checkRange use start len size = .ok (start.toNat, len.toNat) := by
  obtain ⟨hstart, hlen, hend⟩ := hinside
  exact if_neg (by omega)

theorem checkRange_of_not_inside (hinside : ¬ Inside start len size) :
    checkRange use start len size = .error (.rangeOutOfBounds use start len size) := by
  unfold Inside at hinside
  exact if_pos (by omega)

/-! ## Single bytes -/

/-- The byte at a position, zero where the sequence has none. -/
def byteAt (bs : List UInt8) (i : Int) : UInt8 := if 0 ≤ i then bs.getD i.toNat 0 else 0

variable {bs part : List UInt8}

theorem byteAt_of_lt {i : Nat} (hi : i < bs.length) : some (byteAt bs i) = bs[i]? := by
  rw [byteAt, if_pos (Int.natCast_nonneg i), Int.toNat_natCast, List.getD_eq_getElem?_getD,
    List.getElem?_eq_getElem hi, Option.getD_some]

theorem byteAt_of_neg {i : Int} (hi : i < 0) : byteAt bs i = 0 := if_neg (not_le.mpr hi)

theorem byteAt_of_le {i : Int} (hi : bs.length ≤ i) : byteAt bs i = 0 := by
  rw [byteAt, if_pos (by omega), List.getD_eq_getElem?_getD, List.getElem?_eq_none (by omega),
    Option.getD_none]

theorem getElem?_slice {s l i : Nat} (hi : i < l) : (slice bs s l)[i]? = bs[s + i]? := by
  rw [slice, List.getElem?_take_of_lt hi, List.getElem?_drop]

/-- A write changes its range and nothing else. -/
theorem getElem?_overwrite {s : Nat} (hfits : s + part.length ≤ bs.length) (i : Nat) :
    (overwrite bs s part)[i]? = if s ≤ i ∧ i < s + part.length then part[i - s]? else bs[i]? := by
  have hfront : (bs.take s).length = s := by
    rw [List.length_take]
    omega
  unfold overwrite
  rw [List.append_assoc]
  by_cases hbefore : i < s
  · rw [if_neg (by omega), List.getElem?_append_left (by omega), List.getElem?_take_of_lt hbefore]
  rw [List.getElem?_append_right (by omega), hfront]
  by_cases hinside : i < s + part.length
  · rw [if_pos (by omega), List.getElem?_append_left (by omega)]
  · rw [if_neg (by omega), List.getElem?_append_right (by omega), List.getElem?_drop]
    congr 1
    omega

/-! ## Windows -/

/-- The `len` bytes from position `start` on. -/
def window (bs : List UInt8) (start : Int) (len : Nat) : List UInt8 :=
  (List.range len).map fun i : Nat => byteAt bs (start + i)

theorem length_window (bs : List UInt8) (start : Int) (len : Nat) : (window bs start len).length = len := by
  rw [window, List.length_map, List.length_range]

theorem getElem?_window {n i : Nat} (hi : i < n) :
    (window bs start n)[i]? = some (byteAt bs (start + i)) := by
  rw [window, List.getElem?_map, List.getElem?_range hi, Option.map_some]

/-- A sequence is a window if its bytes are. -/
theorem eq_window {out : List UInt8} {n : Nat} (hlen : out.length = n)
    (hbytes : ∀ i, i < n → out[i]? = some (byteAt bs (start + i))) : out = window bs start n := by
  refine List.ext_getElem? fun i => ?_
  by_cases hi : i < n
  · rw [hbytes i hi, getElem?_window hi]
  · rw [List.getElem?_eq_none (by omega), List.getElem?_eq_none (by rw [length_window]; omega)]

theorem slice_eq_window {s l : Nat} (hfits : s + l ≤ bs.length) : slice bs s l = window bs s l := by
  refine eq_window (length_slice hfits) fun i hi => ?_
  rw [getElem?_slice hi, ← byteAt_of_lt (by omega)]
  rfl

/-- The whole sequence and zeros behind it. -/
theorem append_zeros_eq_window (bs : List UInt8) (n : Nat) :
    bs ++ zeros n = window bs 0 (bs.length + n) := by
  refine eq_window (by rw [zeros, List.length_append, List.length_replicate]) fun i hi => ?_
  rw [Int.zero_add]
  by_cases hlt : i < bs.length
  · rw [byteAt_of_lt hlt, List.getElem?_append_left hlt]
  · rw [byteAt_of_le (by omega), List.getElem?_append_right (by omega), zeros,
      List.getElem?_replicate_of_lt (by omega)]

theorem window_self (bs : List UInt8) : window bs 0 bs.length = bs :=
  (append_zeros_eq_window bs 0).symm.trans (List.append_nil bs)

/-- Windows side by side are one window. -/
theorem window_append_window (bs : List UInt8) (start : Int) (m n : Nat) :
    window bs start m ++ window bs (start + m) n = window bs start (m + n) := by
  refine eq_window (by rw [List.length_append, length_window, length_window]) fun i hi => ?_
  by_cases hlt : i < m
  · rw [List.getElem?_append_left (by rw [length_window]; exact hlt), getElem?_window hlt]
  · rw [List.getElem?_append_right (by rw [length_window]; omega), length_window,
      getElem?_window (by omega)]
    congr 2
    omega

/-! ## Resizing -/

/-- The number is a signed integer of 64 bits. -/
def IsInt64 (n : Int) : Prop := -2 ^ 63 ≤ n ∧ n < 2 ^ 63

instance (n : Int) : Decidable (IsInt64 n) := inferInstanceAs (Decidable (_ ∧ _))

theorem inRange_iff (n : Int) : inRange n = true ↔ IsInt64 n := by
  rw [inRange, Bool.and_eq_true, decide_eq_true_iff, decide_eq_true_iff]
  rfl

variable {left right : Int}

/-- There is a new size: growing by `left` and then by `right` stays a 64-bit integer and does not fall below
zero. -/
structure Resizable (size : Nat) (left right : Int) : Prop where
  grown : IsInt64 (size + left)
  total : IsInt64 (size + left + right)
  nonneg : 0 ≤ size + left + right

instance (size : Nat) (left right : Int) : Decidable (Resizable size left right) :=
  decidable_of_iff (IsInt64 (size + left) ∧ IsInt64 (size + left + right) ∧ 0 ≤ size + left + right)
    ⟨fun ⟨hgrown, htotal, hnonneg⟩ => ⟨hgrown, htotal, hnonneg⟩,
      fun ⟨hgrown, htotal, hnonneg⟩ => ⟨hgrown, htotal, hnonneg⟩⟩

theorem newSize?_of_resizable (hsize : Resizable size left right) :
    newSize? size left right = some (size + left + right).toNat := by
  simp only [newSize?, (inRange_iff _).mpr hsize.grown, (inRange_iff _).mpr hsize.total, hsize.nonneg]
  rfl

theorem newSize?_of_not_resizable (hsize : ¬ Resizable size left right) :
    newSize? size left right = none := by
  refine if_neg fun hchecks => hsize ?_
  simp only [Bool.and_eq_true, decide_eq_true_iff] at hchecks
  exact ⟨(inRange_iff _).mp hchecks.1.1, (inRange_iff _).mp hchecks.1.2, hchecks.2⟩

/-- The bytes that stay are taken from inside a sequence of `size` bytes and put inside one of `total`
bytes. -/
structure Kept.Inside (k : Kept) (size total : Int) : Prop where
  source_nonneg : 0 ≤ k.source
  source_le : k.source + k.count ≤ size
  target_nonneg : 0 ≤ k.target
  target_le : k.target + k.count ≤ total

theorem kept_inside (size : Nat) (left right : Int) :
    (kept size left right).Inside size (size + left + right) := by
  unfold kept
  constructor <;> simp only <;> split_ifs <;> omega

/-- The numbers that a copy is described by are 64-bit integers, unless the first one is the negation of the
least integer. -/
theorem kept_isInt64 (hsize : Resizable size left right) (hcap : size < 2 ^ 63) (hleft : -2 ^ 63 < left)
    (hright : -2 ^ 63 ≤ right) :
    IsInt64 (kept size left right).source ∧ IsInt64 (size + min right 0) ∧
      IsInt64 (kept size left right).count := by
  obtain ⟨⟨-, hgrown⟩, -, hnonneg⟩ := hsize
  simp only [kept, IsInt64]
  split_ifs <;> omega

/-- A byte that stays is moved by `left`. -/
theorem kept_source (size : Nat) (left right : Int) :
    (kept size left right).source = (kept size left right).target - left := by
  simp only [kept]
  split_ifs <;> omega

/-- At the other places of the new sequence there was no byte. -/
theorem byteAt_of_not_kept {i : Int} (hnonneg : 0 ≤ i) (htotal : i < bs.length + left + right)
    (hkept : ¬ ((kept bs.length left right).target ≤ i ∧
      i < (kept bs.length left right).target + (kept bs.length left right).count)) :
    byteAt bs (i - left) = 0 := by
  have hout : i - left < 0 ∨ bs.length ≤ i - left := by
    simp only [kept] at hkept
    split_ifs at hkept <;> omega
  rcases hout with hneg | hle
  · exact byteAt_of_neg hneg
  · exact byteAt_of_le hle

/-- **A resized sequence is the window that starts `left` bytes in front.** -/
theorem resize_eq_window (hsize : Resizable bs.length left right) :
    resize bs left right = .ok (window bs (-left) (bs.length + left + right).toNat) := by
  have htotal : ((bs.length + left + right).toNat : Int) = bs.length + left + right :=
    Int.toNat_of_nonneg hsize.nonneg
  have hinside := kept_inside bs.length left right
  have hsource := kept_source bs.length left right
  have hrest := @byteAt_of_not_kept bs left right
  unfold resize
  simp only [newSize?_of_resizable hsize]
  generalize kept bs.length left right = k at hinside hsource hrest ⊢
  generalize (bs.length + left + right).toNat = total at htotal ⊢
  obtain ⟨hs, hse, ht, hte⟩ := hinside
  have hzeros : (zeros total).length = total := List.length_replicate
  by_cases hcount : 0 < k.count
  · have hpart : (slice bs k.source.toNat k.count.toNat).length = k.count.toNat :=
      length_slice (by omega)
    have hfits : k.target.toNat + (slice bs k.source.toNat k.count.toNat).length ≤ (zeros total).length := by
      omega
    rw [if_pos hcount]
    refine congrArg Except.ok (eq_window (by rw [length_overwrite hfits, hzeros]) fun i hi => ?_)
    rw [getElem?_overwrite hfits, hpart]
    by_cases hk : k.target.toNat ≤ i ∧ i < k.target.toNat + k.count.toNat
    · rw [if_pos hk, getElem?_slice (by omega), ← byteAt_of_lt (by omega)]
      congr 2
      omega
    · rw [if_neg hk, zeros, List.getElem?_replicate_of_lt hi, ← hrest (Int.natCast_nonneg i) (by omega) (by omega)]
      congr 2
      omega
  · rw [if_neg hcount]
    refine congrArg Except.ok (eq_window hzeros fun i hi => ?_)
    rw [zeros, List.getElem?_replicate_of_lt hi, ← hrest (Int.natCast_nonneg i) (by omega) (by omega)]
    congr 2
    omega

end ValueHeap.Bytes
