import Mathlib.Algebra.Order.BigOperators.Group.Finset
import ValueHeap.Proofs.Sessions
import ValueHeap.Proofs.Updates

/-!
# The census of a heap

The totals that a heap keeps are sums over its live blocks, and on a heap without cycles the live blocks
are those that somebody can still reach.

* `total weight h` sums a weight over the live cells; `Counted` says that the heap's own totals are such
  sums and that nothing was ever overdrawn. Every step keeps it (`counted_step`), raw ones included.
* `Sized` says that the size of each cell is that of its contents. Every step but the raw ones keeps it.

Results:
* `Balanced.exists_owner`: a counted block on a heap without cycles is reached from an owner. Follow the
  blocks that hold it upwards: the way has no block twice, so it ends, and the count of the last one
  leaves nobody but an owner.
* `Session.census_exact`: after every list of requests the totals are exact.
-/

namespace ValueHeap

/-- The bytes that a block takes, by its kind and its present length, in whole words. -/
def Block.footprint : Block → Nat
  | text bs | bytes bs => (8 + bs.length + 7) / 8 * 8
  | char _ => 8
  | composite .tuple fs | composite .array fs => 8 + 8 * fs.length
  | composite (.record ..) fs | composite (.closure ..) fs => 16 + 8 * fs.length
  | composite (.variant ..) fs => 24 + 8 * fs.length
  | number subtype _ _ => if subtype = NumberTag.rational.tag then 24 else 16

namespace Heap

theorem roundUp_eight (x : Nat) : roundUp x 8 = (x + 7) / 8 * 8 := by
  have hmod : (x + 7) &&& 7 = (x + 7) % 8 := Nat.and_two_pow_sub_one_eq_mod (x + 7) 3
  unfold roundUp
  show x + 7 - ((x + 7) &&& 7) = _
  omega

/-- The size at which a block is allocated is its footprint. -/
theorem blockSize_extent (block : Block) : blockSize block.extent = block.footprint := by
  have hsize (extent : Nat) : blockSize extent = (max extent 8 + 7) / 8 * 8 := roundUp_eight _
  rw [hsize]
  cases block with
  | text bs =>
    show (max (8 + bs.length) 8 + 7) / 8 * 8 = (8 + bs.length + 7) / 8 * 8
    omega
  | bytes bs =>
    show (max (8 + bs.length) 8 + 7) / 8 * 8 = (8 + bs.length + 7) / 8 * 8
    omega
  | char packed =>
    show (max 8 8 + 7) / 8 * 8 = 8
    omega
  | number subtype first second =>
    show (max (if subtype = NumberTag.rational.tag then 24 else 16) 8 + 7) / 8 * 8 =
      if subtype = NumberTag.rational.tag then 24 else 16
    split <;> omega
  | composite shape fs =>
    cases shape with
    | tuple | array =>
      show (max (8 + 8 * fs.length) 8 + 7) / 8 * 8 = 8 + 8 * fs.length
      omega
    | record _ _ | closure _ _ =>
      show (max (16 + 8 * fs.length) 8 + 7) / 8 * 8 = 16 + 8 * fs.length
      omega
    | variant _ _ _ =>
      show (max (24 + 8 * fs.length) 8 + 7) / 8 * 8 = 24 + 8 * fs.length
      omega

/-! ## Sums over the live blocks -/

/-- The names of the live blocks. -/
def live (h : Heap) : Finset BlockId := (Finset.range h.cells.size).filter fun b => (h.cell? b).isSome

/-- The weight of a block; nothing for a name that is not in use. -/
def weigh (weight : Cell → Nat) (h : Heap) (b : BlockId) : Nat := ((h.cell? b).map weight).getD 0

/-- The weights of all live blocks together. -/
def total (weight : Cell → Nat) (h : Heap) : Nat :=
  ∑ b ∈ Finset.range h.cells.size, h.weigh weight b

variable {h h' : Heap} {weight : Cell → Nat} {raw : Bool}

theorem mem_live {b : BlockId} : b ∈ h.live ↔ (h.cell? b).isSome := by
  unfold live
  rw [Finset.mem_filter, Finset.mem_range]
  exact ⟨fun hb => hb.2, fun hb => ⟨lt_size_of_isSome hb, hb⟩⟩

theorem weigh_of_cell? {b : BlockId} {c : Cell} (hc : h.cell? b = some c) :
    h.weigh weight b = weight c := by
  rw [weigh, hc]
  rfl

theorem weigh_of_dead {b : BlockId} (hc : h.cell? b = none) : h.weigh weight b = 0 := by
  rw [weigh, hc]
  rfl

/-- Names that are not in use weigh nothing. -/
theorem total_eq_sum_live (weight : Cell → Nat) (h : Heap) :
    h.total weight = ∑ b ∈ h.live, h.weigh weight b := by
  unfold total live
  rw [Finset.sum_filter]
  refine Finset.sum_congr rfl fun b _ => ?_
  cases hc : h.cell? b with
  | none => exact weigh_of_dead hc
  | some c => rfl

/-- Heaps with the same cells have the same totals. -/
theorem total_congr (hcells : ∀ b, h'.cell? b = h.cell? b) : h'.total weight = h.total weight := by
  have hlive : h'.live = h.live := by
    ext b
    rw [mem_live, mem_live, hcells]
  rw [total_eq_sum_live, total_eq_sum_live, hlive]
  exact Finset.sum_congr rfl fun b _ => by rw [weigh, weigh, hcells]

theorem total_allocateSized (h : Heap) (extent : Nat) (block : Block) :
    (h.allocateSized extent block).2.total weight =
      h.total weight + weight ⟨1, blockSize extent, block⟩ := by
  have hsize : (h.allocateSized extent block).2.cells.size = h.cells.size + 1 := Array.size_push _
  unfold total
  rw [hsize, Finset.sum_range_succ]
  congr 1
  · refine Finset.sum_congr rfl fun b hb => ?_
    rw [weigh, cell?_allocateSized, if_neg (Nat.ne_of_lt (Finset.mem_range.mp hb))]
    rfl
  · rw [weigh, cell?_allocateSized, if_pos rfl]
    rfl

/-- A change of cells that keeps their weights keeps the total. -/
theorem total_modifyCell (weight : Cell → Nat) {a : BlockId} {f : Cell → Cell}
    (hf : ∀ c, weight (f c) = weight c) :
    (h.modifyCell a f).total weight = h.total weight := by
  unfold total
  rw [size_modifyCell]
  refine Finset.sum_congr rfl fun b _ => ?_
  rw [weigh, weigh, cell?_modifyCell]
  split
  · cases h.cell? b with
    | none => rfl
    | some c => exact hf c
  · rfl

/-- A freed block takes its weight off the total. -/
theorem total_free (weight : Cell → Nat) {a : BlockId} {c : Cell} (hc : h.cell? a = some c) :
    (h.free a c).total weight + weight c = h.total weight := by
  have hmem : a ∈ Finset.range h.cells.size :=
    Finset.mem_range.mpr (lt_size_of_isSome (by rw [hc]; rfl))
  have hrest : ∑ b ∈ (Finset.range h.cells.size).erase a, (h.free a c).weigh weight b =
      ∑ b ∈ (Finset.range h.cells.size).erase a, h.weigh weight b := by
    refine Finset.sum_congr rfl fun b hb => ?_
    rw [weigh, cell?_free, if_neg (Finset.ne_of_mem_erase hb).symm]
    rfl
  have hnew : (h.free a c).weigh weight a = 0 :=
    weigh_of_dead ((cell?_free h a c a).trans (if_pos rfl))
  unfold total
  rw [size_free, ← Finset.sum_erase_add _ _ hmem, ← Finset.sum_erase_add _ _ hmem, hrest, hnew,
    weigh_of_cell? hc]
  rfl

/-! ## The totals of the heap -/

/-- The totals are sums over the live blocks, and none was ever overdrawn. -/
structure Counted (h : Heap) : Prop where
  blocks : h.liveBlocks = h.total fun _ => 1
  bytes : h.liveBytes = h.total Cell.size
  no_overdrafts : h.overdrafts = 0

theorem counted_empty (address : BlockId → Pattern) : (empty address).Counted := ⟨rfl, rfl, rfl⟩

theorem Counted.allocateSized (hh : h.Counted) (extent : Nat) (block : Block) :
    (h.allocateSized extent block).2.Counted where
  blocks := by
    rw [total_allocateSized, ← hh.blocks]
    rfl
  bytes := by
    rw [total_allocateSized, ← hh.bytes]
    rfl
  no_overdrafts := hh.no_overdrafts

theorem Counted.modifyCell (hh : h.Counted) (b : BlockId) {f : Cell → Cell}
    (hf : ∀ c, (f c).size = c.size) : (h.modifyCell b f).Counted where
  blocks := hh.blocks.trans (total_modifyCell (fun _ => 1) fun _ => rfl).symm
  bytes := hh.bytes.trans (total_modifyCell Cell.size hf).symm
  no_overdrafts := hh.no_overdrafts

/-- A live block is in the totals, so freeing it overdraws none. -/
theorem Counted.free (hh : h.Counted) {b : BlockId} {c : Cell} (hc : h.cell? b = some c) :
    (h.free b c).Counted := by
  have hblocks := total_free (fun _ => 1) hc
  have hbytes := total_free Cell.size hc
  rw [← hh.blocks] at hblocks
  rw [← hh.bytes] at hbytes
  refine ⟨?_, ?_, ?_⟩
  · show h.liveBlocks - 1 = _
    omega
  · show h.liveBytes - c.size = _
    omega
  · have hwithin : ¬ (h.liveBlocks < 1 || h.liveBytes < c.size) = true := by
      rw [Bool.or_eq_true, decide_eq_true_eq, decide_eq_true_eq]
      omega
    show h.overdrafts + (if (h.liveBlocks < 1 || h.liveBytes < c.size) = true then 1 else 0) = 0
    rw [if_neg hwithin, hh.no_overdrafts]

/-- **Every step keeps the totals exact.** -/
theorem counted_step (hstep : Step raw h h') (hh : h.Counted) : h'.Counted := by
  cases hstep with
  | allocate block => exact hh.allocateSized _ _
  | recount b f => exact hh.modifyCell b fun _ => rfl
  | fault => exact ⟨hh.blocks, hh.bytes, hh.no_overdrafts⟩
  | free hc => exact hh.free hc
  | write b f hf => exact hh.modifyCell b fun _ => rfl
  | blank extent block hraw => exact hh.allocateSized _ _
  | patch b f hraw => exact hh.modifyCell b fun _ => rfl

/-- The size of each cell is that of its contents. -/
def Sized (h : Heap) : Prop := ∀ b c, h.cell? b = some c → c.size = c.block.footprint

theorem sized_empty (address : BlockId → Pattern) : (empty address).Sized := by
  intro b c hc
  simp [cell?, empty] at hc

theorem Sized.modifyCell (hh : h.Sized) {a : BlockId} {f : Cell → Cell}
    (hf : ∀ c, h.cell? a = some c → (f c).size = c.size ∧
      (f c).block.footprint = c.block.footprint) : (h.modifyCell a f).Sized := by
  intro b c hc
  rw [cell?_modifyCell] at hc
  split at hc
  · next hab =>
    subst hab
    obtain ⟨d, hd, rfl⟩ := Option.map_eq_some_iff.mp hc
    rw [(hf d hd).1, (hf d hd).2, hh a d hd]
  · exact hh b c hc

/-- **Every step that is not raw keeps the sizes right.** -/
theorem sized_step (hstep : Step false h h') (hh : h.Sized) : h'.Sized := by
  cases hstep with
  | allocate block =>
    intro b c hc
    rw [Heap.allocate, cell?_allocateSized] at hc
    split at hc
    · cases hc
      exact blockSize_extent block
    · exact hh b c hc
  | recount b f => exact hh.modifyCell fun c _ => ⟨rfl, rfl⟩
  | fault => exact hh
  | free hc =>
    intro b c hb
    rw [cell?_free] at hb
    split at hb
    · cases hb
    · exact hh b c hb
  | write b f hf =>
    refine hh.modifyCell fun c hc => ⟨rfl, ?_⟩
    rw [← blockSize_extent, ← blockSize_extent, hf c hc]
  | blank extent block hraw => cases hraw
  | patch b f hraw => cases hraw

/-! ## Who keeps a block alive -/

variable {owners : List Word}

theorem exists_holder {b : BlockId} (hb : 0 < h.slots b) : ∃ a, h.Holds a b := by
  unfold slots at hb
  obtain ⟨a, -, ha⟩ := Finset.exists_ne_zero_of_sum_ne_zero (Nat.ne_of_gt hb)
  exact ⟨a, List.count_pos_iff.mp (Nat.pos_of_ne_zero ha)⟩

/-- A live block has an owner, or a block that holds it. -/
theorem Balanced.owned_or_held (hb : h.Balanced owners) {b : BlockId} (hlive : (h.cell? b).isSome) :
    .reference b ∈ owners ∨ ∃ a, h.Holds a b := by
  obtain ⟨c, hc⟩ := Option.isSome_iff_exists.mp hlive
  have hcount := hb.count_eq b
  have hpos := hb.count_pos b c hc
  rw [count_of_cell? hc] at hcount
  by_cases howned : 0 < owners.count (.reference b)
  · exact Or.inl (List.count_pos_iff.mp howned)
  · exact Or.inr (exists_holder (by omega))

theorem isSome_of_holds {a b : BlockId} (hab : h.Holds a b) : (h.cell? a).isSome := by
  cases hc : h.cell? a with
  | some c => rfl
  | none =>
    unfold Holds at hab
    rw [fieldsOf_of_dead hc] at hab
    exact absurd hab List.not_mem_nil

/-- **A live block on a heap without cycles is reached from an owner.** -/
theorem Balanced.exists_owner (hb : h.Balanced owners) (ha : h.Acyclic) {b : BlockId}
    (hlive : (h.cell? b).isSome) : ∃ w ∈ owners, h.Reaches w b := by
  -- a block that holds `b` is higher than `b`, and none is higher than the highest
  induction hn : ha.maxHeight - ha.height (.reference b) using Nat.strong_induction_on generalizing b with
  | _ n ih =>
    rcases hb.owned_or_held hlive with howner | ⟨a, hab⟩
    · exact ⟨_, howner, .refl b⟩
    · have hhigher : ha.height (.reference b) < ha.height (.reference a) :=
        ha.isHeight_height.part_lt (.reference a) _ hab
      have htop : ha.height (.reference a) ≤ ha.maxHeight :=
        ha.height_le_maxHeight (lt_size_of_mem_fieldsOf hab)
      obtain ⟨w, hw, c, hwc, hca⟩ := ih _ (by omega) (isSome_of_holds hab) rfl
      exact ⟨w, hw, c, hwc, hca.tail hab⟩

/-- What an owner reaches is live. -/
theorem Balanced.isSome_of_reaches (hb : h.Balanced owners) {w : Word} (hw : w ∈ owners)
    {b : BlockId} (hreach : h.Reaches w b) : (h.cell? b).isSome := by
  obtain ⟨a, rfl, hab⟩ := hreach
  cases hab with
  | refl => exact hb.isLive_of_mem hw b rfl
  | tail _ hlast => exact hb.isLive_of_field hlast b rfl

end Heap

/-! ## Sessions -/

namespace Session

variable {s : Session}

/-- The bytes of a live block as its kind and its present length give them. -/
def footprint (s : Session) (b : BlockId) : Nat :=
  s.heap.weigh (fun c => c.block.footprint) b

theorem counted_run (settings : Settings) (requests : List Request) :
    ((start settings).run requests).heap.Counted :=
  (steps_run (start settings) requests fun _ _ _ => rfl).preserves
    (fun _ _ => Heap.counted_step) (Heap.counted_empty _)

theorem sized_run (settings : Settings) (requests : List Request)
    (hraw : ∀ q ∈ requests, q.command.isRaw = false) :
    ((start settings).run requests).heap.Sized := by
  refine (steps_run (start settings) requests fun q hq h => ?_).preserves
    (fun _ _ => Heap.sized_step) (Heap.sized_empty _)
  rw [hraw q hq] at h
  exact h

/-- **The census is exact, and without cycles nothing leaks.** After any requests, failing ones included,
no total was ever overdrawn, and the totals are the number of the live blocks and the sum of the sizes they
were allocated with; unless raw commands were used, these are their present footprints. If the blocks form
no cycle, the live blocks are exactly those that a register reaches, and when no register refers to a block,
both totals are back where they were at the start. -/
theorem census_exact (settings : Settings) (requests : List Request) :
    let s := (start settings).run requests
    s.heap.overdrafts = 0 ∧
      s.heap.liveBlocks = s.heap.live.card ∧
      s.heap.liveBytes = ∑ b ∈ s.heap.live, s.heap.weigh Cell.size b ∧
      ((∀ q ∈ requests, q.command.isRaw = false) →
        s.heap.liveBytes = ∑ b ∈ s.heap.live, s.footprint b) ∧
      (s.heap.Acyclic →
        (∀ b, b ∈ s.heap.live ↔ ∃ w ∈ s.registers.values, s.heap.Reaches w b) ∧
        ((∀ w ∈ s.registers.values, w.block? = none) →
          s.heap.liveBlocks = (start settings).heap.liveBlocks ∧
            s.heap.liveBytes = (start settings).heap.liveBytes)) := by
  intro s
  have hs : s.Sound [] := sound_run (sound_start settings) requests
  have hcounted : s.heap.Counted := counted_run settings requests
  have hblocks : s.heap.liveBlocks = s.heap.live.card := by
    rw [hcounted.blocks, Heap.total_eq_sum_live, Finset.card_eq_sum_ones]
    refine Finset.sum_congr rfl fun b hb => ?_
    obtain ⟨c, hc⟩ := Option.isSome_iff_exists.mp (Heap.mem_live.mp hb)
    exact Heap.weigh_of_cell? hc
  have hbytes : s.heap.liveBytes = ∑ b ∈ s.heap.live, s.heap.weigh Cell.size b :=
    hcounted.bytes.trans (Heap.total_eq_sum_live _ _)
  refine ⟨hcounted.no_overdrafts, hblocks, hbytes, fun hraw => ?_, fun hacyclic => ?_⟩
  · rw [hbytes]
    refine Finset.sum_congr rfl fun b hb => ?_
    obtain ⟨c, hc⟩ := Option.isSome_iff_exists.mp (Heap.mem_live.mp hb)
    rw [footprint, Heap.weigh_of_cell? hc, Heap.weigh_of_cell? hc]
    exact sized_run settings requests hraw b c hc
  · have hreached (b : BlockId) :
        b ∈ s.heap.live ↔ ∃ w ∈ s.registers.values, s.heap.Reaches w b := by
      rw [Heap.mem_live]
      constructor
      · exact hs.balanced.exists_owner hacyclic
      · rintro ⟨w, hw, hreach⟩
        exact hs.balanced.isSome_of_reaches hw hreach
    refine ⟨hreached, fun hnone => ?_⟩
    have hempty : s.heap.live = ∅ := by
      rw [Finset.eq_empty_iff_forall_notMem]
      intro b hb
      obtain ⟨w, hw, a, rfl, -⟩ := (hreached b).mp hb
      cases hnone _ hw
    rw [hblocks, hbytes, hempty]
    exact ⟨rfl, rfl⟩

/-- A pair of two buffers is built into a register. -/
def pairing : List Request :=
  [⟨.build (.composite .tuple [.buffer [1, 2], .buffer [3]]), some "pair"⟩]

def paired : Session := (start (.usual 0x9747b28c 31)).run pairing

theorem paired_eq : paired =
    ⟨⟨Heap.sequential, #[some ⟨1, 16, .bytes [1, 2]⟩, some ⟨1, 16, .bytes [3]⟩,
        some ⟨1, 24, .composite .tuple [.reference 0, .reference 1]⟩], 3, 56, 3, 0, 0⟩,
      [("pair", .reference 2)], .usual 0x9747b28c 31⟩ := by
  rw [paired, run, pairing, List.foldl_cons, List.foldl_nil,
    serve_build (w := .reference 2) rfl rfl]
  rfl

theorem census_exact_paired : paired.heap.Acyclic ∧
    (∀ b, b ∈ paired.heap.live ↔ ∃ w ∈ paired.registers.values, paired.heap.Reaches w b) ∧
    paired.heap.liveBlocks = paired.heap.live.card ∧
    paired.heap.liveBytes = ∑ b ∈ paired.heap.live, paired.footprint b := by
  have hacyclic : paired.heap.Acyclic := by
    rw [paired_eq]
    exact Heap.acyclic_of_pointsBack (by decide)
  obtain ⟨-, hblocks, -, hbytes, hreached⟩ := census_exact (.usual 0x9747b28c 31) pairing
  exact ⟨hacyclic, (hreached hacyclic).1, hblocks, hbytes (by simp [pairing, Command.isRaw])⟩

end Session

end ValueHeap
