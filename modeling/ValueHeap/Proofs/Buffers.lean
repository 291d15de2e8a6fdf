import ValueHeap.Proofs.ByteSequences
import ValueHeap.Proofs.NewBlocks

/-!
# Buffers

The laws of slicing, resizing, joining and moving bytes, for values on a heap.

* `makes_bufferResize`, `makes_bufferSlice`: the new buffer is a window of the old one.
* `makes_bufferConcat`: a buffer that is resized and then written to holds the bytes of both parts.
* `bufferMove_of_inside`: a move within both buffers is one write, of bytes that were read before it.

An operation whose arguments do not fit changes nothing (`Refuses`).

Results:
* `bufferLaws`: slices and resized and joined buffers agree byte by byte.
* `bufferMove_copies`: a move copies the bytes that were there, also within one buffer.
-/

namespace ValueHeap

namespace Heap

variable {h h' : Heap} {w : Word} {data new : List UInt8}

theorem bufferBytes_of_block? (hw : h.block? w = some (.bytes data)) : h.bufferBytes w = .ok data := by
  unfold bufferBytes
  rw [hw]

theorem bufferLength_of_block? (hw : h.block? w = some (.bytes data)) :
    h.bufferLength w = .ok data.length := by
  rw [bufferLength, bufferBytes_of_block? hw]
  rfl

theorem block?_setBuffer (hw : h.block? w = some (.bytes data)) :
    (h.setBuffer w new).block? w = some (.bytes new) := by
  cases w with
  | immediate p => cases hw
  | reference b =>
    obtain ⟨c, hc, -⟩ := Option.map_eq_some_iff.mp hw
    rw [block?, setBuffer, modifyBlock, cell?_modifyCell, if_pos rfl, hc]
    rfl

theorem cell?_setBuffer_of_ne {b : BlockId} (hne : w ≠ .reference b) :
    (h.setBuffer w new).cell? b = h.cell? b := by
  cases w with
  | immediate p => rfl
  | reference a =>
    have hab : a ≠ b := fun heq => hne (congrArg Word.reference heq)
    rw [setBuffer, modifyBlock, cell?_modifyCell, if_neg hab]

/-- New contents of a buffer change neither its owners nor its size. -/
theorem map_cell?_setBuffer {α : Type} (f : Cell → α) (hf : ∀ c block, f { c with block } = f c)
    (b : BlockId) : ((h.setBuffer w new).cell? b).map f = (h.cell? b).map f := by
  cases w with
  | immediate p => rfl
  | reference a =>
    rw [setBuffer, modifyBlock, cell?_modifyCell]
    by_cases hab : a = b
    · rw [if_pos hab, Option.map_map]
      exact congrArg (fun g => (h.cell? b).map g) (funext fun c => hf c _)
    · rw [if_neg hab]

/-- A write to a new buffer reaches no old block. -/
theorem KeepsCells.setBuffer (hkeeps : h.KeepsCells h') (hw : h.block? w = none) :
    h.KeepsCells (h'.setBuffer w new) := by
  intro b c hc
  have hne : w ≠ .reference b := by
    rintro rfl
    rw [Heap.block?, hc] at hw
    cases hw
  rw [cell?_setBuffer_of_ne hne]
  exact hkeeps b c hc

end Heap

namespace Action

open Bytes

variable {h : Heap} {w x y src dst : Word} {a b : List UInt8} {left right start len i j : Int}

/-- The action fails with an error of the category and changes nothing. -/
def Refuses {α : Type} (action : Action α) (h : Heap) (category : Category) : Prop :=
  ∃ e, action h = (.error e, h) ∧ e.category = category

/-! ## Slices and resized buffers -/

theorem makes_bufferResize (hw : h.block? w = some (.bytes a)) (hsize : Resizable a.length left right) :
    Makes (bufferResize w left right) h
      (.bytes (window a (-left) (a.length + left + right).toNat)) :=
  makes_read_bind (Heap.bufferBytes_of_block? hw)
    (makes_result_bind (resize_eq_window hsize) (makes_allocate h _))

theorem refuses_bufferResize (hw : h.block? w = some (.bytes a))
    (hsize : ¬ Resizable a.length left right) :
    Refuses (bufferResize w left right) h .invalidArgument := by
  have hresize : resize a left right = .error (.badResize a.length left right) := by
    unfold resize
    rw [newSize?_of_not_resizable hsize]
  refine ⟨.badResize a.length left right, ?_, rfl⟩
  unfold bufferResize
  rw [read_bind_of_ok (Heap.bufferBytes_of_block? hw), result_bind_of_error hresize]

theorem makes_bufferSlice (hw : h.block? w = some (.bytes a)) (hinside : Inside start len a.length) :
    Makes (bufferSlice w start len) h (.bytes (window a start len.toNat)) := by
  obtain ⟨hstart, hlen, hend⟩ := hinside
  have hwindow : window a start len.toNat = slice a start.toNat len.toNat := by
    rw [slice_eq_window (by omega), Int.toNat_of_nonneg hstart]
  rw [hwindow]
  exact makes_read_bind (Heap.bufferBytes_of_block? hw)
    (makes_result_bind (checkRange_of_inside ⟨hstart, hlen, hend⟩) (makes_allocate h _))

theorem refuses_bufferSlice (hw : h.block? w = some (.bytes a)) (hinside : ¬ Inside start len a.length) :
    Refuses (bufferSlice w start len) h .invalidArgument := by
  refine ⟨.rangeOutOfBounds .slice start len a.length, ?_, rfl⟩
  unfold bufferSlice
  rw [read_bind_of_ok (Heap.bufferBytes_of_block? hw),
    result_bind_of_error (checkRange_of_not_inside hinside)]

/-! ## Moves -/

/-- What a move does, once both ranges are known to be inside. -/
theorem bufferMove_of_inside (hsrc : h.block? src = some (.bytes a)) (hdst : h.block? dst = some (.bytes b))
    (hi : Inside i len a.length) (hj : Inside j len b.length) :
    bufferMove i j len src dst h =
      (.ok (), h.setBuffer dst (overwrite b j.toNat (slice a i.toNat len.toNat))) := by
  unfold bufferMove
  rw [read_bind_of_ok (Heap.bufferBytes_of_block? hsrc), read_bind_of_ok (Heap.bufferBytes_of_block? hdst)]
  exact (result_bind_of_ok (checkRange_of_inside hi)).trans (result_bind_of_ok (checkRange_of_inside hj))

theorem refuses_bufferMove (hsrc : h.block? src = some (.bytes a)) (hdst : h.block? dst = some (.bytes b))
    (hinside : ¬ (Inside i len a.length ∧ Inside j len b.length)) :
    Refuses (bufferMove i j len src dst) h .invalidArgument := by
  unfold Refuses bufferMove
  rw [read_bind_of_ok (Heap.bufferBytes_of_block? hsrc), read_bind_of_ok (Heap.bufferBytes_of_block? hdst)]
  by_cases hi : Inside i len a.length
  · have hj : ¬ Inside j len b.length := fun hj => hinside ⟨hi, hj⟩
    refine ⟨.rangeOutOfBounds .move j len b.length, ?_, rfl⟩
    exact (result_bind_of_ok (checkRange_of_inside hi)).trans
      (result_bind_of_error (checkRange_of_not_inside hj))
  · refine ⟨.rangeOutOfBounds .move i len a.length, ?_, rfl⟩
    exact result_bind_of_error (checkRange_of_not_inside hi)

/-! ## Joined buffers -/

/-- The joined buffer is resized for both parts, and the second one is moved into the room behind the
first. -/
theorem makes_bufferConcat (hx : h.block? x = some (.bytes a)) (hy : h.block? y = some (.bytes b))
    (hcap : a.length + b.length < 2 ^ 63) : Makes (bufferConcat x y) h (.bytes (a ++ b)) := by
  have hsize : Resizable a.length 0 b.length :=
    ⟨⟨by omega, by omega⟩, ⟨by omega, by omega⟩, by omega⟩
  obtain ⟨joined, h', hresize, hnew, hblock, hkeeps⟩ := makes_bufferResize hx hsize
  have hroom : window a (-0) ((a.length : Int) + 0 + b.length).toNat = a ++ zeros b.length := by
    rw [append_zeros_eq_window, Int.neg_zero]
    congr 1
  rw [hroom] at hblock
  have hfill : overwrite (a ++ zeros b.length) a.length (slice b 0 b.length) = a ++ b := by
    simp [overwrite, slice, zeros]
  have hmove : bufferMove 0 a.length b.length y joined h' = (.ok (), h'.setBuffer joined (a ++ b)) := by
    rw [bufferMove_of_inside (hkeeps.block? hy) hblock ⟨le_rfl, by omega, by omega⟩
      ⟨by omega, by omega, by simp [zeros]⟩, ← hfill]
    rfl
  have hguarded : orRelease joined (read (·.bufferLength x) >>= fun front : Nat =>
      bufferMove 0 front b.length y joined) h' = (.ok (), h'.setBuffer joined (a ++ b)) := by
    unfold orRelease
    rw [read_bind_of_ok (Heap.bufferLength_of_block? (hkeeps.block? hx)), hmove]
  refine ⟨joined, h'.setBuffer joined (a ++ b), ?_, hnew, Heap.block?_setBuffer hblock,
    hkeeps.setBuffer hnew⟩
  unfold bufferConcat
  rw [read_bind_of_ok (Heap.bufferLength_of_block? hy), bind_of_ok hresize]
  exact bind_of_ok hguarded

/-- A buffer that is cut in two can be put together again. -/
theorem makes_bufferConcat_slices {k : Nat} (hx : h.block? x = some (.bytes a)) (hcap : a.length < 2 ^ 63)
    (hk : k ≤ a.length) :
    Makes (bufferSlice x 0 k >>= fun front => bufferSlice x k (a.length - k) >>= fun back =>
      bufferConcat front back) h (.bytes a) := by
  have hwhole : window a 0 k ++ window a k (a.length - k) = a := by
    have hjoin := window_append_window a 0 k (a.length - k)
    rwa [Int.zero_add, Nat.add_sub_cancel' hk, window_self] at hjoin
  have hfront : Makes (bufferSlice x 0 k) h (.bytes (window a 0 k)) :=
    makes_bufferSlice hx ⟨le_rfl, by omega, by omega⟩
  refine hfront.bind fun front h' hkeeps hblock => ?_
  have hback : Makes (bufferSlice x k (a.length - k)) h' (.bytes (window a k (a.length - k))) := by
    have hslice := makes_bufferSlice (hkeeps.block? hx)
      (show Inside k (a.length - k) a.length from ⟨by omega, by omega, by omega⟩)
    rwa [show ((a.length : Int) - k).toNat = a.length - k by omega] at hslice
  refine hback.bind fun back h'' hkeeps' hblock' => ?_
  rw [← hwhole]
  refine makes_bufferConcat (hkeeps'.block? hblock) hblock' ?_
  rwa [← List.length_append, hwhole]

/-! ## The laws of new buffers -/

/-- The laws of slices and of resized and joined buffers. Nothing is claimed of sizes that are no 64-bit
integers. -/
structure BufferLaws (h : Heap) : Prop where
  resize_refuses : ∀ w a (left right : Int64), h.block? w = some (.bytes a) →
    ¬ Resizable a.length left.toInt right.toInt →
      Refuses (bufferResize w left.toInt right.toInt) h .invalidArgument
  /-- The bytes are moved by `left`, and zeros come in at both ends. -/
  resize_makes : ∀ w a (left right : Int64), h.block? w = some (.bytes a) →
    Resizable a.length left.toInt right.toInt → ∃ out,
      Makes (bufferResize w left.toInt right.toInt) h (.bytes out) ∧
        (out.length : Int) = a.length + left.toInt + right.toInt ∧
        ∀ i : Nat, i < out.length → out[i]? = some (byteAt a (i - left.toInt))
  /-- What is copied lies inside both buffers, and is described by 64-bit integers. -/
  resize_copies : ∀ (size : Nat) (left right : Int64), Resizable size left.toInt right.toInt →
    (kept size left.toInt right.toInt).Inside size (size + left.toInt + right.toInt) ∧
      (size < 2 ^ 63 → left ≠ .minValue → IsInt64 (kept size left.toInt right.toInt).source ∧
        IsInt64 (size + min right.toInt 0) ∧ IsInt64 (kept size left.toInt right.toInt).count)
  slice_refuses : ∀ w a (start len : Int64), h.block? w = some (.bytes a) →
    ¬ Inside start.toInt len.toInt a.length →
      Refuses (bufferSlice w start.toInt len.toInt) h .invalidArgument
  /-- A slice is the buffer shrunk at both ends. -/
  slice_makes : ∀ w a (start len : Int64), h.block? w = some (.bytes a) → a.length < 2 ^ 63 →
    Inside start.toInt len.toInt a.length → ∃ out,
      Makes (bufferSlice w start.toInt len.toInt) h (.bytes out) ∧
        Makes (bufferResize w (-start.toInt) (start.toInt + len.toInt - a.length)) h (.bytes out)
  concat_makes : ∀ x y a b, h.block? x = some (.bytes a) → h.block? y = some (.bytes b) →
    a.length + b.length < 2 ^ 63 → Makes (bufferConcat x y) h (.bytes (a ++ b))
  concat_assoc : ∀ x y z a b c, h.block? x = some (.bytes a) → h.block? y = some (.bytes b) →
    h.block? z = some (.bytes c) → a.length + b.length + c.length < 2 ^ 63 → ∃ out,
      Makes (bufferConcat x y >>= fun xy => bufferConcat xy z) h (.bytes out) ∧
        Makes (bufferConcat y z >>= fun yz => bufferConcat x yz) h (.bytes out)
  concat_slices : ∀ x a (k : Nat), h.block? x = some (.bytes a) → a.length < 2 ^ 63 → k ≤ a.length →
    Makes (bufferSlice x 0 k >>= fun front => bufferSlice x k (a.length - k) >>= fun back =>
      bufferConcat front back) h (.bytes a)

/-- **Resizing, slicing and joining agree byte by byte**, whatever the signs of the two changes of size, and
leave their operands alone. -/
theorem bufferLaws (h : Heap) : BufferLaws h := by
  constructor
  case resize_refuses => exact fun w a left right => refuses_bufferResize
  case resize_makes =>
    intro w a left right hw hsize
    refine ⟨_, makes_bufferResize hw hsize, ?_, fun i hi => ?_⟩
    · rw [length_window, Int.toNat_of_nonneg hsize.nonneg]
    · rw [length_window] at hi
      rw [getElem?_window hi, Int.add_comm, Int.sub_eq_add_neg]
  case resize_copies =>
    intro size left right hsize
    refine ⟨kept_inside size _ _, fun hcap hleft => kept_isInt64 hsize hcap ?_ right.le_toInt⟩
    exact lt_of_le_of_ne left.le_toInt fun heq => hleft (Int64.toInt_inj.mp heq.symm)
  case slice_refuses => exact fun w a start len => refuses_bufferSlice
  case slice_makes =>
    intro w a start len hw hcap hinside
    refine ⟨_, makes_bufferSlice hw hinside, ?_⟩
    obtain ⟨hstart, hlen, hend⟩ := hinside
    have hsize : Resizable a.length (-start.toInt) (start.toInt + len.toInt - a.length) :=
      ⟨⟨by omega, by omega⟩, ⟨by omega, by omega⟩, by omega⟩
    have hresize := makes_bufferResize hw hsize
    have htotal : (a.length + -start.toInt + (start.toInt + len.toInt - a.length)).toNat =
        len.toInt.toNat := by omega
    rw [htotal, Int.neg_neg] at hresize
    exact hresize
  case concat_makes => exact fun x y a b => makes_bufferConcat
  case concat_assoc =>
    intro x y z a b c hx hy hz hcap
    refine ⟨a ++ b ++ c, ?_, ?_⟩
    · refine (makes_bufferConcat hx hy (by omega)).bind fun xy h' hkeeps hxy => ?_
      exact makes_bufferConcat hxy (hkeeps.block? hz) (by rw [List.length_append]; exact hcap)
    · rw [List.append_assoc]
      refine (makes_bufferConcat hy hz (by omega)).bind fun yz h' hkeeps hyz => ?_
      exact makes_bufferConcat (hkeeps.block? hx) hyz (by rw [List.length_append]; omega)
  case concat_slices => exact fun x a k => makes_bufferConcat_slices

/-- A heap with one buffer of five bytes. -/
def lone : Heap := (Heap.vacant.allocate (.bytes [1, 2, 3, 4, 5])).2

/-- A buffer that grows in front and shrinks at the back by more than it holds leaves zeros only. -/
theorem bufferLaws_lone : ∃ out, Makes (bufferResize (.reference 0) 8 (-7)) lone (.bytes out) ∧
    out.length = 6 ∧ out[5]? = some 0 := by
  obtain ⟨out, hmakes, hlen, hbytes⟩ := (bufferLaws lone).resize_makes (.reference 0) [1, 2, 3, 4, 5] 8
    (-7) rfl (by decide)
  have hsix : out.length = 6 := Int.ofNat_inj.mp hlen
  exact ⟨out, hmakes, hsix, hbytes 5 (by omega)⟩

/-! ## The law of moves -/

/-- What is left of a heap after bytes were moved within it: the range of `dst` from `j` on holds what `a`
held from `i` on, and nothing else is different. -/
structure Moved (dst : Word) (a b : List UInt8) (i j len : Int) (h h' : Heap) : Prop where
  contents : ∃ out, h'.block? dst = some (.bytes out) ∧ out.length = b.length ∧
    ∀ k : Nat, out[k]? = if j ≤ k ∧ k < j + len then a[(i + (k - j)).toNat]? else b[k]?
  others : ∀ c, dst ≠ .reference c → h'.cell? c = h.cell? c
  counts : ∀ c, (h'.cell? c).map Cell.count = (h.cell? c).map Cell.count
  sizes : ∀ c, (h'.cell? c).map Cell.size = (h.cell? c).map Cell.size
  totals : (h'.liveBlocks, h'.liveBytes, h'.allocations, h'.faults, h'.overdrafts) =
    (h.liveBlocks, h.liveBytes, h.allocations, h.faults, h.overdrafts)

theorem moved_setBuffer (hdst : h.block? dst = some (.bytes b)) (hi : Inside i len a.length)
    (hj : Inside j len b.length) :
    Moved dst a b i j len h (h.setBuffer dst (overwrite b j.toNat (slice a i.toNat len.toNat))) := by
  obtain ⟨hi0, hlen, hia⟩ := hi
  obtain ⟨hj0, -, hjb⟩ := hj
  have hpart : (slice a i.toNat len.toNat).length = len.toNat := length_slice (by omega)
  have hfits : j.toNat + (slice a i.toNat len.toNat).length ≤ b.length := by omega
  constructor
  case contents =>
    refine ⟨_, Heap.block?_setBuffer hdst, length_overwrite hfits, fun k => ?_⟩
    rw [getElem?_overwrite hfits, hpart]
    by_cases hk : j ≤ k ∧ k < j + len
    · rw [if_pos (by omega), if_pos hk, getElem?_slice (by omega)]
      congr 1
      omega
    · rw [if_neg (by omega), if_neg hk]
  case others => exact fun c hne => Heap.cell?_setBuffer_of_ne hne
  case counts => exact Heap.map_cell?_setBuffer Cell.count fun _ _ => rfl
  case sizes => exact Heap.map_cell?_setBuffer Cell.size fun _ _ => rfl
  case totals => cases dst <;> rfl

/-- **A move copies the bytes that were there**, between two buffers or within one, whose ranges may overlap.
It succeeds exactly when both ranges lie inside their buffers, and otherwise changes nothing. -/
theorem bufferMove_copies (h : Heap) (src dst : Word) (a b : List UInt8) (i j len : Int64)
    (hsrc : h.block? src = some (.bytes a)) (hdst : h.block? dst = some (.bytes b)) :
    let after := bufferMove i.toInt j.toInt len.toInt src dst h
    (after.1 = .ok () ↔ Inside i.toInt len.toInt a.length ∧ Inside j.toInt len.toInt b.length) ∧
      (after.1 = .ok () → Moved dst a b i.toInt j.toInt len.toInt h after.2) ∧
      (∀ e, after.1 = .error e → e.category = .invalidArgument ∧ after.2 = h) := by
  by_cases hinside : Inside i.toInt len.toInt a.length ∧ Inside j.toInt len.toInt b.length
  · rw [bufferMove_of_inside hsrc hdst hinside.1 hinside.2]
    exact ⟨iff_of_true rfl hinside, fun _ => moved_setBuffer hdst hinside.1 hinside.2, nofun⟩
  · obtain ⟨e, hrun, hcategory⟩ := refuses_bufferMove hsrc hdst hinside
    rw [hrun]
    refine ⟨iff_of_false nofun hinside, nofun, fun e' he => ?_⟩
    cases he
    exact ⟨hcategory, rfl⟩

/-- Three bytes are moved onto their own tail, each before it is lost. A range whose end is past the greatest
integer is no range. -/
theorem bufferMove_copies_lone :
    (∃ out, (bufferMove 0 2 3 (.reference 0) (.reference 0) lone).2.block? (.reference 0) =
        some (.bytes out) ∧ out[2]? = some 1 ∧ out[4]? = some 3) ∧
      (bufferMove 1 0 Int64.maxValue.toInt (.reference 0) (.reference 0) lone).1 ≠ .ok () := by
  obtain ⟨hok, hmoved, -⟩ := bufferMove_copies lone (.reference 0) (.reference 0) [1, 2, 3, 4, 5]
    [1, 2, 3, 4, 5] 0 2 3 rfl rfl
  obtain ⟨hok', -, -⟩ := bufferMove_copies lone (.reference 0) (.reference 0) [1, 2, 3, 4, 5]
    [1, 2, 3, 4, 5] 1 0 .maxValue rfl rfl
  obtain ⟨out, hblock, -, hbytes⟩ := (hmoved (hok.mpr (by decide))).contents
  exact ⟨⟨out, hblock, hbytes 2, hbytes 4⟩, fun hsucceeds => absurd (hok'.mp hsucceeds) (by decide)⟩

end Action

end ValueHeap
