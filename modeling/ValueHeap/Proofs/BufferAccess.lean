import Mathlib.Algebra.BigOperators.Intervals
import Mathlib.Algebra.BigOperators.Ring.Finset
import ValueHeap.Proofs.Buffers

/-!
# Numbers in buffers

Integers and floats are read from a buffer, and written to it, at any index and in several widths. An access
is described by its `Span`: where it starts, and how many bytes it takes.

* `littleEndian bs span`: the number whose digits in base 256 are the bytes of the span, lowest first.
* `IntLayout.reduce`: the integer of a width and signedness that an integer is cut down to.
* `Query.span?`, `Change.span?`: the spans of the questions that read a number and of the changes that write
  one. Nothing but its span decides whether an access succeeds, and which others it can interfere with.

Results:
* `toNat_slice`, `toNat_ofNat`: what is read and what is written, as numbers.
* `littleEndian_written_self`, `littleEndian_written_of_apart`, `written_comm`: what a write does to a read of
  the same span, to a read of one that is apart from it, and to another write.
* `accessLaws`: these, for every access to a buffer on a heap.
-/

namespace ValueHeap

namespace Bytes

/-- A range of bytes that holds a number. -/
structure Span where
  start : Int
  width : Nat
  deriving DecidableEq

/-- The span lies inside a sequence of `size` bytes. -/
def Span.Within (span : Span) (size : Nat) : Prop := 0 ≤ span.start ∧ span.start + span.width ≤ size

instance (span : Span) (size : Nat) : Decidable (span.Within size) := inferInstanceAs (Decidable (_ ∧ _))

/-- The position is one of the span's. -/
def Span.Covers (span : Span) (k : Int) : Prop := span.start ≤ k ∧ k < span.start + span.width

instance (span : Span) (k : Int) : Decidable (span.Covers k) := inferInstanceAs (Decidable (_ ∧ _))

/-- The spans have no position in common, one of them being in front of the other. -/
def Span.Apart (s t : Span) : Prop := s.start + s.width ≤ t.start ∨ t.start + t.width ≤ s.start

instance (s t : Span) : Decidable (s.Apart t) := inferInstanceAs (Decidable (_ ∨ _))

/-- The number with the bytes of the span, the first of them lowest. -/
def littleEndian (bs : List UInt8) (span : Span) : Nat :=
  ∑ k ∈ Finset.range span.width, (byteAt bs (span.start + k)).toNat * 256 ^ k

/-- What is left of an integer in the layout: the remainder by the number of patterns, taken around zero if
the layout is signed. -/
def IntLayout.reduce (layout : IntLayout) (n : Int) : Int :=
  if layout.signed then n.bmod (2 ^ (8 * layout.width)) else n % (2 ^ (8 * layout.width) : Nat)

/-! ## Bytes and numbers -/

variable {bs : List UInt8}

theorem two_pow_eight_mul (width : Nat) : 2 ^ (8 * width) = 256 ^ width := Nat.pow_mul 2 8 width

theorem window_succ (bs : List UInt8) (start : Int) (n : Nat) :
    window bs start (n + 1) = byteAt bs start :: window bs (start + 1) n := by
  unfold window
  rw [List.range_succ_eq_map, List.map_cons, List.map_map]
  refine congrArg₂ List.cons (congrArg _ (Int.add_zero start)) (List.map_congr_left fun i _ => ?_)
  show byteAt bs (start + (i + 1 : Nat)) = byteAt bs (start + 1 + i)
  congr 1
  omega

theorem toNat_window (bs : List UInt8) (start : Int) (n : Nat) :
    toNat (window bs start n) = littleEndian bs ⟨start, n⟩ := by
  induction n generalizing start with
  | zero => rfl
  | succ n ih =>
    have hrest : ∑ k ∈ Finset.range n, (byteAt bs (start + (k + 1 : Nat))).toNat * 256 ^ (k + 1) =
        256 * ∑ k ∈ Finset.range n, (byteAt bs (start + 1 + k)).toNat * 256 ^ k := by
      rw [Finset.mul_sum]
      refine Finset.sum_congr rfl fun k _ => ?_
      rw [show start + (k + 1 : Nat) = start + 1 + k by omega, Nat.pow_succ']
      exact Nat.mul_left_comm _ _ _
    rw [window_succ, toNat, List.foldr_cons, ← toNat, ih, littleEndian, littleEndian,
      Finset.sum_range_succ', hrest, Nat.add_comm]
    simp

/-- **Reading.** The number that is read is the one with these bytes. -/
theorem toNat_slice {span : Span} (hwithin : span.Within bs.length) :
    toNat (slice bs span.start.toNat span.width) = littleEndian bs span := by
  obtain ⟨hstart, hend⟩ := hwithin
  rw [slice_eq_window (by omega), toNat_window, Int.toNat_of_nonneg hstart]

/-- **Writing.** The bytes that are written are those of the number, as far as they go. -/
theorem toNat_ofNat (width n : Nat) : toNat (ofNat width n) = n % 256 ^ width := by
  induction width generalizing n with
  | zero => exact (Nat.mod_one n).symm
  | succ width ih =>
    have hlow : (UInt8.ofNat n).toNat = n % 256 := UInt8.toNat_ofNat'
    rw [ofNat, toNat, List.foldr_cons, ← toNat, ih, hlow, Nat.pow_succ', Nat.mod_mul]

theorem toNat_lt (bs : List UInt8) : toNat bs < 256 ^ bs.length := by
  induction bs with
  | nil => exact Nat.one_pos
  | cons b bs ih =>
    have hb := b.toNat_lt
    rw [toNat, List.foldr_cons, ← toNat, List.length_cons, Nat.pow_succ']
    omega

theorem littleEndian_lt {span : Span} (hwithin : span.Within bs.length) :
    littleEndian bs span < 256 ^ span.width := by
  have hlen : (slice bs span.start.toNat span.width).length = span.width := by
    obtain ⟨hstart, hend⟩ := hwithin
    exact length_slice (by omega)
  have hlt := toNat_lt (slice bs span.start.toNat span.width)
  rwa [toNat_slice hwithin, hlen] at hlt

/-- The integer that a pattern stands for is what the layout makes of the number. -/
theorem IntLayout.toInt_of_lt (layout : IntLayout) {n : Nat} (hn : n < 256 ^ layout.width) :
    layout.toInt n = layout.reduce n := by
  obtain ⟨width, signed⟩ := layout
  rw [← two_pow_eight_mul] at hn
  have hself : (n : Int) % (2 ^ (8 * width) : Nat) = n := by
    rw [← Int.natCast_mod, Nat.mod_eq_of_lt hn]
  cases signed with
  | false => exact hself.symm
  | true =>
    have hhalf : (2 ^ (8 * width) + 1) / 2 = 2 ^ (8 * width - 1) := by
      cases width with
      | zero => rfl
      | succ width =>
        rw [show 8 * (width + 1) = 8 * width + 7 + 1 by omega, Nat.pow_succ, Nat.add_sub_cancel]
        omega
    show (if (true && decide (2 ^ (8 * width - 1) ≤ n)) = true then (n : Int) - (2 ^ (8 * width) : Nat) else n) =
      Int.bmod n (2 ^ (8 * width))
    rw [Int.bmod_def, hself]
    simp only [Bool.true_and, decide_eq_true_iff]
    split_ifs <;> omega

theorem natCast_lowBits (width : Nat) (n : Int) :
    ((lowBits width n : Nat) : Int) = n % (2 ^ (8 * width) : Nat) :=
  Int.toNat_of_nonneg (Int.emod_nonneg _ (Int.natCast_pos.mpr (Nat.two_pow_pos _)).ne')

theorem lowBits_lt (width : Nat) (n : Int) : lowBits width n < 256 ^ width := by
  rw [← two_pow_eight_mul, ← Int.ofNat_lt, natCast_lowBits]
  exact Int.emod_lt_of_pos _ (Int.natCast_pos.mpr (Nat.two_pow_pos _))

/-- What is written of an integer reads back as what the layout makes of it. -/
theorem IntLayout.toInt_lowBits (layout : IntLayout) (n : Int) :
    layout.toInt (lowBits layout.width n) = layout.reduce n := by
  rw [layout.toInt_of_lt (lowBits_lt _ _), IntLayout.reduce, IntLayout.reduce, natCast_lowBits, Int.emod_bmod,
    Int.emod_emod]

/-! ## Writes -/

variable {span other : Span}

/-- The bytes after a number was written to the span. -/
def written (bs : List UInt8) (span : Span) (n : Nat) : List UInt8 :=
  overwrite bs span.start.toNat (ofNat span.width n)

theorem fits_of_within (hwithin : span.Within bs.length) (n : Nat) :
    span.start.toNat + (ofNat span.width n).length ≤ bs.length := by
  obtain ⟨hstart, hend⟩ := hwithin
  rw [length_ofNat]
  omega

theorem length_written (hwithin : span.Within bs.length) (n : Nat) : (written bs span n).length = bs.length :=
  length_overwrite (fits_of_within hwithin n)

theorem within_written (hwithin : span.Within bs.length) (n : Nat) :
    other.Within (written bs span n).length ↔ other.Within bs.length := by
  rw [length_written hwithin]

/-- A write changes its span and nothing else. -/
theorem getElem?_written (hwithin : span.Within bs.length) (n k : Nat) :
    (written bs span n)[k]? =
      if span.Covers k then (ofNat span.width n)[k - span.start.toNat]? else bs[k]? := by
  rw [written, getElem?_overwrite (fits_of_within hwithin n), length_ofNat]
  obtain ⟨hstart, -⟩ := hwithin
  have hcovers : span.Covers k ↔ span.start.toNat ≤ k ∧ k < span.start.toNat + span.width := by
    unfold Span.Covers
    omega
  simp only [hcovers]

/-- A number reads back, cut down to its width. -/
theorem littleEndian_written_self (hwithin : span.Within bs.length) (n : Nat) :
    littleEndian (written bs span n) span = n % 256 ^ span.width := by
  have hback := (within_written hwithin n).mpr hwithin
  have hslice : slice (written bs span n) span.start.toNat span.width = ofNat span.width n := by
    refine List.ext_getElem? fun i => ?_
    obtain ⟨hstart, hend⟩ := hback
    by_cases hi : i < span.width
    · rw [getElem?_slice hi, getElem?_written hwithin, if_pos (by unfold Span.Covers; omega),
        Nat.add_sub_cancel_left]
    · rw [List.getElem?_eq_none (by rw [length_slice (by omega)]; omega),
        List.getElem?_eq_none (by rw [length_ofNat]; omega)]
  rw [← toNat_slice hback, hslice, toNat_ofNat]

/-- What is read elsewhere is not disturbed. -/
theorem littleEndian_written_of_apart (hwithin : span.Within bs.length) (hother : other.Within bs.length)
    (hapart : span.Apart other) (n : Nat) : littleEndian (written bs span n) other = littleEndian bs other := by
  refine Finset.sum_congr rfl fun i hi => ?_
  have hi' := Finset.mem_range.mp hi
  obtain ⟨k, hk⟩ := Int.eq_ofNat_of_zero_le (show 0 ≤ other.start + i by have := hother.1; omega)
  have hbyte : byteAt (written bs span n) k = byteAt bs k := by
    have hlt : k < bs.length := by
      have := hother.2
      omega
    refine Option.some.inj ?_
    rw [byteAt_of_lt (by rw [length_written hwithin]; exact hlt), byteAt_of_lt hlt,
      getElem?_written hwithin, if_neg]
    unfold Span.Apart at hapart
    unfold Span.Covers
    omega
  rw [hk, hbyte]

/-- Two writes that are apart can change places. -/
theorem written_comm (hwithin : span.Within bs.length) (hother : other.Within bs.length)
    (hapart : span.Apart other) (n m : Nat) :
    written (written bs span n) other m = written (written bs other m) span n := by
  refine List.ext_getElem? fun k => ?_
  rw [getElem?_written ((within_written hwithin n).mpr hother), getElem?_written hwithin,
    getElem?_written ((within_written hother m).mpr hwithin), getElem?_written hother]
  by_cases hk : span.Covers k
  · have hk' : ¬ other.Covers k := by
      unfold Span.Apart at hapart
      unfold Span.Covers at hk ⊢
      omega
    rw [if_neg hk', if_pos hk, if_pos hk]
  · rw [if_neg hk, if_neg hk]

/-! ## Accesses on a heap -/

theorem checkIndex_of_within {size : Nat} (hwithin : span.Within size) :
    checkIndex span.start span.width size = .ok span.start.toNat := by
  obtain ⟨hstart, hend⟩ := hwithin
  exact if_neg (by omega)

theorem checkIndex_of_not_within {size : Nat} (hwithin : ¬ span.Within size) :
    checkIndex span.start span.width size = .error (.indexOutOfBounds span.start span.width size) := by
  unfold Span.Within at hwithin
  exact if_pos (by omega)

end Bytes

open Bytes

namespace Heap

variable {h : Heap} {w : Word} {data : List UInt8} {span : Span}

theorem modifyCell_modifyCell (h : Heap) (b : BlockId) (f g : Cell → Cell) :
    (h.modifyCell b f).modifyCell b g = h.modifyCell b (g ∘ f) := by
  unfold modifyCell
  congr 1
  refine Array.ext_getElem? fun i => ?_
  simp only [Array.getElem?_modify]
  split_ifs
  · rw [Option.map_map, Option.map_comp_map]
  · rfl

/-- The last contents stay. -/
theorem setBuffer_setBuffer (h : Heap) (w : Word) (new new' : List UInt8) :
    (h.setBuffer w new).setBuffer w new' = h.setBuffer w new' := by
  cases w with
  | immediate p => rfl
  | reference b => exact h.modifyCell_modifyCell b _ _

theorem bufferGet_of_within (hw : h.block? w = some (.bytes data)) (hwithin : span.Within data.length) :
    h.bufferGet span.width w span.start = .ok (littleEndian data span) := by
  unfold bufferGet
  rw [bufferBytes_of_block? hw]
  show (checkIndex span.start span.width data.length).bind _ = _
  rw [checkIndex_of_within hwithin]
  exact congrArg Except.ok (toNat_slice hwithin)

theorem bufferGet_of_not_within (hw : h.block? w = some (.bytes data))
    (hwithin : ¬ span.Within data.length) :
    h.bufferGet span.width w span.start =
      .error (.indexOutOfBounds span.start span.width data.length) := by
  unfold bufferGet
  rw [bufferBytes_of_block? hw]
  show (checkIndex span.start span.width data.length).bind _ = _
  rw [checkIndex_of_not_within hwithin]
  rfl

end Heap

namespace Action

variable {h : Heap} {w : Word} {data : List UInt8} {span other : Span}

theorem bufferSet_of_within (hw : h.block? w = some (.bytes data)) (hwithin : span.Within data.length)
    (n : Nat) :
    bufferSet span.width w span.start n h = (.ok (), h.setBuffer w (written data span n)) := by
  unfold bufferSet
  rw [read_bind_of_ok (Heap.bufferBytes_of_block? hw)]
  exact result_bind_of_ok (checkIndex_of_within hwithin)

theorem bufferSet_of_not_within (hw : h.block? w = some (.bytes data)) (hwithin : ¬ span.Within data.length)
    (n : Nat) :
    bufferSet span.width w span.start n h =
      (.error (.indexOutOfBounds span.start span.width data.length), h) := by
  unfold bufferSet
  rw [read_bind_of_ok (Heap.bufferBytes_of_block? hw)]
  exact result_bind_of_error (checkIndex_of_not_within hwithin)

theorem bufferGet_bufferSet (hw : h.block? w = some (.bytes data)) (hwithin : span.Within data.length)
    (n : Nat) :
    (bufferSet span.width w span.start n h).2.bufferGet span.width w span.start =
      .ok (n % 256 ^ span.width) := by
  rw [bufferSet_of_within hw hwithin,
    Heap.bufferGet_of_within (Heap.block?_setBuffer hw) ((within_written hwithin n).mpr hwithin),
    littleEndian_written_self hwithin]

/-- Writing disturbs neither what is read elsewhere nor whether it can be read. -/
theorem bufferGet_bufferSet_of_apart (hw : h.block? w = some (.bytes data)) (hapart : span.Apart other)
    (n : Nat) :
    (bufferSet span.width w span.start n h).2.bufferGet other.width w other.start =
      h.bufferGet other.width w other.start := by
  by_cases hwithin : span.Within data.length
  · rw [bufferSet_of_within hw hwithin]
    by_cases hother : other.Within data.length
    · rw [Heap.bufferGet_of_within (Heap.block?_setBuffer hw) ((within_written hwithin n).mpr hother),
        Heap.bufferGet_of_within hw hother, littleEndian_written_of_apart hwithin hother hapart]
    · have hback := (not_congr (within_written hwithin n)).mpr hother
      rw [Heap.bufferGet_of_not_within (Heap.block?_setBuffer hw) hback,
        Heap.bufferGet_of_not_within hw hother, length_written hwithin]
  · rw [bufferSet_of_not_within hw hwithin]

/-- Two writes that are apart can change places: each answers as it does alone, and the heap is the same
in the end. -/
theorem bufferSet_comm (hw : h.block? w = some (.bytes data)) (hapart : span.Apart other) (n m : Nat) :
    bufferSet other.width w other.start m (bufferSet span.width w span.start n h).2 =
      ((bufferSet other.width w other.start m h).1,
        (bufferSet span.width w span.start n (bufferSet other.width w other.start m h).2).2) := by
  by_cases hwithin : span.Within data.length
  · have hnew : (h.setBuffer w (written data span n)).block? w = some (.bytes (written data span n)) :=
      Heap.block?_setBuffer hw
    rw [bufferSet_of_within hw hwithin]
    by_cases hother : other.Within data.length
    · have hback := (within_written hwithin n).mpr hother
      have hback' := (within_written hother m).mpr hwithin
      rw [bufferSet_of_within hw hother, bufferSet_of_within hnew hback,
        bufferSet_of_within (Heap.block?_setBuffer hw) hback', Heap.setBuffer_setBuffer,
        Heap.setBuffer_setBuffer, written_comm hwithin hother hapart]
    · have hback := (not_congr (within_written hwithin n)).mpr hother
      rw [bufferSet_of_not_within hw hother, bufferSet_of_not_within hnew hback,
        bufferSet_of_within hw hwithin, length_written hwithin]
  · rw [bufferSet_of_not_within hw hwithin]
    by_cases hother : other.Within data.length
    · have hback := (not_congr (within_written hother m)).mpr hwithin
      rw [bufferSet_of_within hw hother, bufferSet_of_not_within (Heap.block?_setBuffer hw) hback]
    · rw [bufferSet_of_not_within hw hother, bufferSet_of_not_within hw hwithin]

end Action

/-! ## The laws of access -/

/-- The bytes that a question reads a number from. -/
def Query.span? : Query → Option Span
  | .bufferInt layout index => some ⟨index, layout.width⟩
  | .bufferFloat t index => some ⟨index, t.width⟩
  | _ => none

/-- The bytes that a change writes a number to. -/
def Change.span? : Change → Option Span
  | .bufferInt width index _ => some ⟨index, width⟩
  | .bufferFloat t index _ => some ⟨index, t.width⟩
  | .bufferFill _ => none

/-- The number that a change writes, as far as it fits. -/
def Change.pattern : Change → Nat
  | .bufferInt width _ value => lowBits width value
  | .bufferFloat _ _ pattern => pattern
  | .bufferFill _ => 0

/-- Writing a number is one kind of change, whatever the form of the number. -/
theorem Change.run_eq_bufferSet {c : Change} {span : Span} (hc : c.span? = some span) (w : Word) :
    c.run w = Action.bufferSet span.width w span.start c.pattern := by
  cases c <;> cases hc <;> rfl

/-- Reading a number is one kind of question: the answer depends on the bytes of the span alone. -/
theorem Query.answer_congr {q : Query} {span : Span} (hq : q.span? = some span) (s : Settings)
    {h h' : Heap} {w : Word}
    (hget : h'.bufferGet span.width w span.start = h.bufferGet span.width w span.start) :
    q.answer s h' w = q.answer s h w := by
  cases q <;> cases hq
  · exact congrArg (fun r => (Except.map _ r).map Reply.integer) hget
  · exact congrArg (Except.map _) hget

/-- The laws of the accesses to a buffer `w` that holds `data`. -/
structure AccessLaws (s : Settings) (h : Heap) (w : Word) (data : List UInt8) : Prop where
  /-- An integer is read from its span if that is inside, and otherwise not at all. -/
  get_int : ∀ (layout : IntLayout) (index : Int64),
    Query.answer s h w (.bufferInt layout index.toInt) =
      if Span.Within ⟨index.toInt, layout.width⟩ data.length then
        .ok (.integer (layout.reduce (littleEndian data ⟨index.toInt, layout.width⟩)))
      else .error (.indexOutOfBounds index.toInt layout.width data.length)
  /-- A float is read as its bit pattern. -/
  get_float : ∀ (t : FloatType) (index : Int64),
    Query.answer s h w (.bufferFloat t index.toInt) =
      if Span.Within ⟨index.toInt, t.width⟩ data.length then
        .ok (.float t (littleEndian data ⟨index.toInt, t.width⟩))
      else .error (.indexOutOfBounds index.toInt t.width data.length)
  set_refuses : ∀ (c : Change) span, c.span? = some span → ¬ span.Within data.length →
    c.run w h = (.error (.indexOutOfBounds span.start span.width data.length), h)
  /-- A write changes bytes of its span only. -/
  set_writes : ∀ (c : Change) span, c.span? = some span → span.Within data.length → ∃ out,
    c.run w h = (.ok (), h.setBuffer w out) ∧ out.length = data.length ∧
      ∀ k : Nat, ¬ span.Covers k → out[k]? = data[k]?
  set_get_int : ∀ (layout : IntLayout) (index : Int64) (v : Int64),
    Span.Within ⟨index.toInt, layout.width⟩ data.length →
      Query.answer s ((Change.bufferInt layout.width index.toInt v.toInt).run w h).2 w
        (.bufferInt layout index.toInt) = .ok (.integer (layout.reduce v.toInt))
  set_get_float : ∀ (t : FloatType) (index : Int64) (pattern : Nat), pattern < 2 ^ (8 * t.width) →
    Span.Within ⟨index.toInt, t.width⟩ data.length →
      Query.answer s ((Change.bufferFloat t index.toInt pattern).run w h).2 w
        (.bufferFloat t index.toInt) = .ok (.float t pattern)
  get_of_apart : ∀ (c : Change) (q : Query) span other, c.span? = some span → q.span? = some other →
    span.Apart other → q.answer s (c.run w h).2 w = q.answer s h w
  /-- Two writes that are apart answer as they do alone, and end in the same heap in either order. -/
  set_comm : ∀ (c d : Change) span other, c.span? = some span → d.span? = some other →
    span.Apart other → d.run w (c.run w h).2 = ((d.run w h).1, (c.run w (d.run w h).2).2)

/-- **Numbers in a buffer are read and written at their span**, in all forms alike. -/
theorem accessLaws (s : Settings) (h : Heap) (w : Word) (data : List UInt8)
    (hw : h.block? w = some (.bytes data)) : AccessLaws s h w data := by
  constructor
  case get_int =>
    intro layout index
    by_cases hwithin : Span.Within ⟨index.toInt, layout.width⟩ data.length
    · rw [if_pos hwithin, ← layout.toInt_of_lt (littleEndian_lt hwithin)]
      exact congrArg (fun r => (r.map layout.toInt).map Reply.integer)
        (Heap.bufferGet_of_within hw hwithin)
    · rw [if_neg hwithin]
      exact congrArg (fun r => (r.map layout.toInt).map Reply.integer)
        (Heap.bufferGet_of_not_within hw hwithin)
  case get_float =>
    intro t index
    by_cases hwithin : Span.Within ⟨index.toInt, t.width⟩ data.length
    · rw [if_pos hwithin]
      exact congrArg (Except.map (Reply.float t)) (Heap.bufferGet_of_within hw hwithin)
    · rw [if_neg hwithin]
      exact congrArg (Except.map (Reply.float t)) (Heap.bufferGet_of_not_within hw hwithin)
  case set_refuses =>
    intro c span hc hwithin
    rw [c.run_eq_bufferSet hc, Action.bufferSet_of_not_within hw hwithin]
  case set_writes =>
    intro c span hc hwithin
    refine ⟨written data span c.pattern, ?_, length_written hwithin _, fun k hk => ?_⟩
    · rw [c.run_eq_bufferSet hc, Action.bufferSet_of_within hw hwithin]
    · rw [getElem?_written hwithin, if_neg hk]
  case set_get_int =>
    intro layout index v hwithin
    have hback := Action.bufferGet_bufferSet hw hwithin (lowBits layout.width v.toInt)
    rw [Nat.mod_eq_of_lt (lowBits_lt _ _)] at hback
    rw [← layout.toInt_lowBits]
    exact congrArg (fun r => (r.map layout.toInt).map Reply.integer) hback
  case set_get_float =>
    intro t index pattern hpattern hwithin
    have hback := Action.bufferGet_bufferSet hw hwithin pattern
    rw [← two_pow_eight_mul, Nat.mod_eq_of_lt hpattern] at hback
    exact congrArg (Except.map (Reply.float t)) hback
  case get_of_apart =>
    intro c q span other hc hq hapart
    rw [c.run_eq_bufferSet hc]
    exact q.answer_congr hq s (Action.bufferGet_bufferSet_of_apart hw hapart _)
  case set_comm =>
    intro c d span other hc hd hapart
    rw [c.run_eq_bufferSet hc, d.run_eq_bufferSet hd]
    exact Action.bufferSet_comm hw hapart _ _

/-- Two bytes that are written as -2 read back as that or as 65534, the bytes beside them are as they were,
and an index near the greatest integer is out of bounds. -/
theorem accessLaws_lone :
    let s : Settings := .usual 0 31
    let after := ((Change.bufferInt 2 1 (-2)).run (.reference 0) Action.lone).2
    Query.answer s after (.reference 0) (.bufferInt ⟨2, true⟩ 1) = .ok (.integer (-2)) ∧
      Query.answer s after (.reference 0) (.bufferInt ⟨2, false⟩ 1) = .ok (.integer 65534) ∧
      Query.answer s after (.reference 0) (.bufferInt ⟨2, false⟩ 3) =
        Query.answer s Action.lone (.reference 0) (.bufferInt ⟨2, false⟩ 3) ∧
      Query.answer s Action.lone (.reference 0) (.bufferFloat .float64 Int64.maxValue.toInt) =
        .error (.indexOutOfBounds Int64.maxValue.toInt 8 5) := by
  have laws := accessLaws (.usual 0 31) Action.lone (.reference 0) [1, 2, 3, 4, 5] rfl
  exact ⟨laws.set_get_int ⟨2, true⟩ 1 (-2) (by decide), laws.set_get_int ⟨2, false⟩ 1 (-2) (by decide),
    laws.get_of_apart (.bufferInt 2 1 (-2)) (.bufferInt ⟨2, false⟩ 3) ⟨1, 2⟩ ⟨3, 2⟩ rfl rfl (by decide),
    (laws.get_float .float64 .maxValue).trans (if_neg (by decide))⟩

end ValueHeap
