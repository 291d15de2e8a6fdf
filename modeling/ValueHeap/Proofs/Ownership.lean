import Mathlib.Algebra.Order.BigOperators.Group.Finset
import ValueHeap.Heap.Composite
import ValueHeap.Proofs.FieldGraph

/-!
# Counts and owners

`slots h b` counts the field slots of live blocks that refer to block `b`. A heap is `Balanced` for a
list of owners when the count of each block is the number of owners on the list that refer to it plus
its slots, no live block has count 0, and no change of owners has ever met a block without owners.
Words on the list are owned by somebody outside the heap: a register, or an operation under way.

Results, one for each primitive: what it takes from the list and what it adds.
* `Balanced.allocateSized`: a new block takes the words in its fields and adds a reference to itself.
* `Balanced.acquire` adds a word; `Balanced.releaseAll` takes all the words that are to be released
  (`releaseAll_induction`: one owner at a time).
* `Balanced.setField` takes the new word and adds the old one; `Balanced.modifyBlock` changes nothing.
-/

namespace ValueHeap

namespace Heap

/-- The field slots of live blocks that refer to `b`. -/
def slots (h : Heap) (b : BlockId) : Nat :=
  ∑ a ∈ Finset.range h.cells.size, (h.fieldsOf a).count (.reference b)

/-- The value refers to a live block, or to none at all. -/
def IsLive (h : Heap) (w : Word) : Prop := ∀ b, w = .reference b → (h.cell? b).isSome

/-- **The balance of a heap** with the words that are owned from outside. -/
structure Balanced (h : Heap) (owners : List Word) : Prop where
  count_eq : ∀ b, h.count (.reference b) = owners.count (.reference b) + h.slots b
  count_pos : ∀ b c, h.cell? b = some c → 0 < c.count
  no_faults : h.faults = 0

variable {h h' : Heap} {owners : List Word}

/-! ## Slots and counts after an update -/

theorem slots_congr (hsize : h'.cells.size = h.cells.size)
    (hfields : ∀ a, h'.fieldsOf a = h.fieldsOf a) (b : BlockId) : h'.slots b = h.slots b := by
  unfold slots
  rw [hsize]
  exact Finset.sum_congr rfl fun a _ => by rw [hfields a]

/-- When the fields of one block are replaced, the slots change by what they held. -/
theorem slots_replace (hsize : h'.cells.size = h.cells.size) {a : BlockId} (ha : a < h.cells.size)
    (hfields : ∀ i, i ≠ a → h'.fieldsOf i = h.fieldsOf i) (b : BlockId) :
    h'.slots b + (h.fieldsOf a).count (.reference b) =
      h.slots b + (h'.fieldsOf a).count (.reference b) := by
  have hmem : a ∈ Finset.range h.cells.size := Finset.mem_range.mpr ha
  have hrest : ∑ i ∈ (Finset.range h.cells.size).erase a, (h'.fieldsOf i).count (.reference b) =
      ∑ i ∈ (Finset.range h.cells.size).erase a, (h.fieldsOf i).count (.reference b) :=
    Finset.sum_congr rfl fun i hi => by rw [hfields i (Finset.ne_of_mem_erase hi)]
  have hnew := Finset.sum_erase_add _ (fun i => (h'.fieldsOf i).count (.reference b)) hmem
  have hold := Finset.sum_erase_add _ (fun i => (h.fieldsOf i).count (.reference b)) hmem
  unfold slots
  rw [hsize, ← hnew, ← hold, hrest]
  exact Nat.add_right_comm _ _ _

theorem count_le_slots {a : BlockId} (ha : a < h.cells.size) (b : BlockId) :
    (h.fieldsOf a).count (.reference b) ≤ h.slots b :=
  Finset.single_le_sum (f := fun i => (h.fieldsOf i).count (.reference b))
    (fun _ _ => Nat.zero_le _) (Finset.mem_range.mpr ha)

theorem count_of_cell? {b : BlockId} {c : Cell} (hc : h.cell? b = some c) :
    h.count (.reference b) = c.count := by
  rw [count, hc]
  rfl

theorem count_of_dead {b : BlockId} (hc : h.cell? b = none) : h.count (.reference b) = 0 := by
  rw [count, hc]
  rfl

theorem size_modifyCell (h : Heap) (b : BlockId) (f : Cell → Cell) :
    (h.modifyCell b f).cells.size = h.cells.size :=
  Array.size_modify

theorem size_free (h : Heap) (b : BlockId) (c : Cell) :
    (h.free b c).cells.size = h.cells.size :=
  Array.size_setIfInBounds

/-- A change of a cell that keeps its fields keeps all slots. -/
theorem slots_modifyCell {a : BlockId} {f : Cell → Cell}
    (hf : ∀ c, h.cell? a = some c → (f c).block.fields = c.block.fields) (b : BlockId) :
    (h.modifyCell a f).slots b = h.slots b := by
  refine slots_congr (size_modifyCell h a f) (fun i => ?_) b
  unfold fieldsOf
  rw [cell?_modifyCell]
  by_cases hi : a = i
  · subst hi
    rw [if_pos rfl]
    cases hc : h.cell? a with
    | none => rfl
    | some c => exact hf c hc
  · rw [if_neg hi]

/-- A change of contents leaves the counts alone. -/
theorem count_modifyBlock (h : Heap) (a : BlockId) (f : Block → Block) (w : Word) :
    (h.modifyBlock a f).count w = h.count w := by
  cases w with
  | immediate p => rfl
  | reference b =>
    rw [count, count, modifyBlock, cell?_modifyCell]
    split
    · cases h.cell? b <;> rfl
    · rfl

/-! ## What a balance says -/

/-- The balance depends on how often each block is owned only. -/
theorem Balanced.congr {owners' : List Word} (hb : h.Balanced owners)
    (howners : ∀ b, owners'.count (.reference b) = owners.count (.reference b)) :
    h.Balanced owners' :=
  ⟨fun b => by rw [howners b]; exact hb.count_eq b, hb.count_pos, hb.no_faults⟩

theorem Balanced.perm {owners' : List Word} (hb : h.Balanced owners)
    (hperm : owners'.Perm owners) : h.Balanced owners' :=
  hb.congr fun b => hperm.count_eq (.reference b)

/-- Immediates own nothing. -/
theorem balanced_cons_immediate {p : Pattern} :
    h.Balanced (.immediate p :: owners) ↔ h.Balanced owners := by
  have hcount (b : BlockId) :
      (Word.immediate p :: owners).count (.reference b) = owners.count (.reference b) :=
    List.count_cons_of_ne (by simp)
  exact ⟨fun hb => hb.congr fun b => (hcount b).symm, fun hb => hb.congr hcount⟩

theorem Balanced.isSome_of_pos (hb : h.Balanced owners) {b : BlockId}
    (hpos : 0 < owners.count (.reference b) + h.slots b) : (h.cell? b).isSome := by
  cases hc : h.cell? b with
  | some c => rfl
  | none =>
    have := hb.count_eq b
    rw [count_of_dead hc] at this
    omega

/-- An owned value is live. -/
theorem Balanced.isLive_of_mem (hb : h.Balanced owners) {w : Word} (hw : w ∈ owners) :
    h.IsLive w := by
  rintro b rfl
  have := List.count_pos_iff.mpr hw
  exact hb.isSome_of_pos (by omega)

theorem Balanced.count_pos_of_mem (hb : h.Balanced owners) {b : BlockId}
    (hw : .reference b ∈ owners) : 0 < h.count (.reference b) := by
  have := List.count_pos_iff.mpr hw
  have := hb.count_eq b
  omega

/-- A value in a field is live. -/
theorem Balanced.isLive_of_field (hb : h.Balanced owners) {a : BlockId} {w : Word}
    (hw : w ∈ h.fieldsOf a) : h.IsLive w := by
  rintro b rfl
  have hpos := List.count_pos_iff.mpr hw
  have hle := h.count_le_slots (lt_size_of_mem_fieldsOf hw) b
  exact hb.isSome_of_pos (by omega)

/-- A balance is settled by the names that were given out, when nothing refers to any other. -/
theorem balanced_iff_bounded : h.Balanced owners ↔
    (∀ b < h.cells.size, h.count (.reference b) = owners.count (.reference b) + h.slots b ∧
      ∀ c ∈ h.cell? b, 0 < c.count) ∧
    (∀ w ∈ owners, ∀ b ∈ w.block?, b < h.cells.size) ∧
    (∀ a < h.cells.size, ∀ w ∈ h.fieldsOf a, ∀ b ∈ w.block?, b < h.cells.size) ∧
    h.faults = 0 := by
  have hblock {w : Word} {b : BlockId} (hw : b ∈ w.block?) : w = .reference b := by
    cases w with
    | immediate p => cases hw
    | reference a =>
      cases hw
      rfl
  constructor
  · intro hb
    refine ⟨fun b _ => ⟨hb.count_eq b, hb.count_pos b⟩, fun w hw b hwb => ?_,
      fun a _ w hw b hwb => ?_, hb.no_faults⟩
    · exact lt_size_of_isSome (hb.isLive_of_mem hw b (hblock hwb))
    · exact lt_size_of_isSome (hb.isLive_of_field hw b (hblock hwb))
  · rintro ⟨hcounts, howners, hfields, hfaults⟩
    refine ⟨fun b => ?_, fun b c hc => ?_, hfaults⟩
    · by_cases hlt : b < h.cells.size
      · exact (hcounts b hlt).1
      · have hunowned : owners.count (.reference b) = 0 :=
          List.count_eq_zero.mpr fun hmem => hlt (howners _ hmem b rfl)
        have hunheld : h.slots b = 0 := by
          refine Finset.sum_eq_zero fun a ha => List.count_eq_zero.mpr fun hmem => hlt ?_
          exact hfields a (Finset.mem_range.mp ha) _ hmem b rfl
        rw [count_of_dead (cell?_eq_none_of_le (Nat.le_of_not_lt hlt)), hunowned, hunheld]
    · exact (hcounts b (lt_size_of_isSome (by rw [hc]; rfl))).2 c hc

instance (h : Heap) (owners : List Word) : Decidable (h.Balanced owners) :=
  decidable_of_iff' _ balanced_iff_bounded

theorem balanced_empty (address : BlockId → Pattern) : (empty address).Balanced [] where
  count_eq b := by simp [count, cell?, empty, slots]
  count_pos b c hc := by simp [cell?, empty] at hc
  no_faults := rfl

/-! ## Allocation -/

theorem fieldsOf_allocateSized (h : Heap) (extent : Nat) (block : Block) (i : BlockId) :
    (h.allocateSized extent block).2.fieldsOf i =
      if i = h.cells.size then block.fields else h.fieldsOf i := by
  unfold fieldsOf
  rw [cell?_allocateSized]
  split <;> rfl

theorem slots_allocateSized (h : Heap) (extent : Nat) (block : Block) (b : BlockId) :
    (h.allocateSized extent block).2.slots b =
      h.slots b + block.fields.count (.reference b) := by
  have hsize : (h.allocateSized extent block).2.cells.size = h.cells.size + 1 := Array.size_push _
  unfold slots
  rw [hsize, Finset.sum_range_succ]
  congr 1
  · refine Finset.sum_congr rfl fun i hi => ?_
    rw [fieldsOf_allocateSized, if_neg (Nat.ne_of_lt (Finset.mem_range.mp hi))]
  · rw [fieldsOf_allocateSized, if_pos rfl]

/-- **Allocation.** The new block takes over the words in its fields. -/
theorem Balanced.allocateSized {block : Block} (hb : h.Balanced (block.fields ++ owners))
    (extent : Nat) :
    (h.allocateSized extent block).2.Balanced ((h.allocateSized extent block).1 :: owners) where
  count_eq b := by
    have hold := hb.count_eq b
    rw [List.count_append] at hold
    rw [slots_allocateSized]
    show _ = (Word.reference h.cells.size :: owners).count _ + _
    by_cases hn : b = h.cells.size
    · subst hn
      -- nothing refers to a name that was not given out yet
      rw [count_of_dead (cell?_eq_none_of_le (Nat.le_refl _))] at hold
      rw [count_of_cell? ((cell?_allocateSized h extent block _).trans (if_pos rfl)),
        List.count_cons_self]
      show 1 = _
      omega
    · have hcount : (h.allocateSized extent block).2.count (.reference b) =
          h.count (.reference b) := by
        rw [count, count, cell?_allocateSized, if_neg hn]
      rw [hcount, List.count_cons_of_ne (by simpa using Ne.symm hn)]
      omega
  count_pos b c hc := by
    rw [cell?_allocateSized] at hc
    split at hc
    · cases hc
      exact Nat.one_pos
    · exact hb.count_pos b c hc
  no_faults := hb.no_faults

/-! ## Owners come and go -/

/-- A live block has owners already, so another one is counted. -/
theorem Balanced.acquire_eq (hb : h.Balanced owners) {a : BlockId} (ha : (h.cell? a).isSome) :
    h.acquire (.reference a) = h.modifyCell a fun c => { c with count := c.count + 1 } := by
  obtain ⟨c, hc⟩ := Option.isSome_iff_exists.mp ha
  have hpos := hb.count_pos a c hc
  have hne : h.count (.reference a) ≠ 0 := by
    rw [count_of_cell? hc]
    omega
  exact if_neg hne

/-- **A new owner** of a live value. -/
theorem Balanced.acquire (hb : h.Balanced owners) {w : Word} (hw : h.IsLive w) :
    (h.acquire w).Balanced (w :: owners) := by
  cases w with
  | immediate p => exact balanced_cons_immediate.mpr hb
  | reference a =>
    obtain ⟨c, hc⟩ := Option.isSome_iff_exists.mp (hw a rfl)
    have heq := hb.acquire_eq (hw a rfl)
    have hcell (b : BlockId) : (h.acquire (.reference a)).cell? b =
        if a = b then (h.cell? b).map (fun c => { c with count := c.count + 1 }) else h.cell? b := by
      rw [heq, cell?_modifyCell]
    refine ⟨fun b => ?_, fun b d hd => ?_, by rw [heq]; exact hb.no_faults⟩
    · have hslots : (h.acquire (.reference a)).slots b = h.slots b := by
        rw [heq]
        exact slots_modifyCell (by intro c _; rfl) b
      have hold := hb.count_eq b
      rw [hslots]
      by_cases hab : a = b
      · subst hab
        rw [count_of_cell? hc] at hold
        rw [count_of_cell? ((hcell a).trans (by rw [if_pos rfl, hc]; rfl)), List.count_cons_self]
        show c.count + 1 = _
        omega
      · rw [count, hcell b, if_neg hab, List.count_cons_of_ne (by simpa using hab)]
        exact hold
    · rw [hcell b] at hd
      split at hd
      · obtain ⟨d', -, rfl⟩ := Option.map_eq_some_iff.mp hd
        exact Nat.succ_pos _
      · exact hb.count_pos b d hd

/-- The last owner goes: the block is freed and the owners of its fields remain. -/
theorem Balanced.free {b : BlockId} {c : Cell} (hb : h.Balanced (.reference b :: owners))
    (hc : h.cell? b = some c) (hone : c.count = 1) :
    (h.free b c).Balanced (c.block.fields ++ owners) where
  count_eq i := by
    have hfields : (h.free b c).fieldsOf b = [] :=
      fieldsOf_of_dead ((cell?_free h b c b).trans (if_pos rfl))
    have hlt : b < h.cells.size := lt_size_of_isSome (by rw [hc]; rfl)
    have hslots := slots_replace (size_free h b c) hlt (fun j hj => by
      unfold fieldsOf
      rw [cell?_free, if_neg (Ne.symm hj)]) i
    rw [hfields, fieldsOf_of_cell? hc, List.count_nil] at hslots
    have hold := hb.count_eq i
    rw [List.count_append]
    by_cases hi : b = i
    · subst hi
      -- no other owner and no slot refers to the block
      rw [count_of_cell? hc, List.count_cons_self] at hold
      rw [count_of_dead ((cell?_free h b c b).trans (if_pos rfl))]
      omega
    · rw [List.count_cons_of_ne (by simpa using hi)] at hold
      have hcount : (h.free b c).count (.reference i) = h.count (.reference i) := by
        rw [count, count, cell?_free, if_neg hi]
      rw [hcount]
      omega
  count_pos i d hd := by
    rw [cell?_free] at hd
    split at hd
    · cases hd
    · exact hb.count_pos i d hd
  no_faults := hb.no_faults

/-- One of several owners goes. -/
theorem Balanced.decrement {b : BlockId} {c : Cell} (hb : h.Balanced (.reference b :: owners))
    (hc : h.cell? b = some c) (hone : c.count ≠ 1) :
    (h.modifyCell b fun c => { c with count := c.count - 1 }).Balanced owners where
  count_eq i := by
    have hold := hb.count_eq i
    have hslots : (h.modifyCell b fun c => { c with count := c.count - 1 }).slots i = h.slots i :=
      slots_modifyCell (by intro c _; rfl) i
    rw [hslots, count, cell?_modifyCell]
    by_cases hi : b = i
    · subst hi
      rw [count_of_cell? hc, List.count_cons_self] at hold
      rw [if_pos rfl, hc]
      show c.count - 1 = _
      omega
    · rw [List.count_cons_of_ne (by simpa using hi)] at hold
      rw [if_neg hi]
      exact hold
  count_pos i d hd := by
    rw [cell?_modifyCell] at hd
    split at hd
    · next hi =>
      subst hi
      rw [hc] at hd
      cases hd
      have := hb.count_pos b c hc
      show 0 < c.count - 1
      omega
    · exact hb.count_pos i d hd
  no_faults := hb.no_faults

theorem releaseAll_of_dead {b : BlockId} {rest : List Word} (hc : h.cell? b = none) :
    h.releaseAll (.reference b :: rest) = h.fault.releaseAll rest := by
  rw [releaseAll]
  split
  · rfl
  · next c hc' =>
    rw [hc] at hc'
    cases hc'

theorem releaseAll_of_cell {b : BlockId} {c : Cell} {rest : List Word} (hc : h.cell? b = some c) :
    h.releaseAll (.reference b :: rest) =
      if c.count = 0 then h.fault.releaseAll rest
      else if c.count = 1 then (h.free b c).releaseAll (c.block.fields ++ rest)
      else (h.modifyCell b fun c => { c with count := c.count - 1 }).releaseAll rest := by
  conv_lhs => rw [releaseAll]
  split
  · next hc' =>
    rw [hc] at hc'
    cases hc'
  · next c' hc' =>
    rw [hc] at hc'
    cases hc'
    rfl

/-- **A release, one owner at a time.** What each of the four things that can happen to the next pending
word keeps is kept until no word is left. -/
theorem releaseAll_induction {P : List Word → Heap → Prop}
    (immediate : ∀ p rest h, P (.immediate p :: rest) h → P rest h)
    (fault : ∀ b rest h, h.count (.reference b) = 0 → P (.reference b :: rest) h → P rest h.fault)
    (free : ∀ b c rest h, h.cell? b = some c → c.count = 1 → P (.reference b :: rest) h →
      P (c.block.fields ++ rest) (h.free b c))
    (decrement : ∀ b c rest h, h.cell? b = some c → 1 < c.count → P (.reference b :: rest) h →
      P rest (h.modifyCell b fun c => { c with count := c.count - 1 }))
    {pending : List Word} {h : Heap} (hP : P pending h) : P [] (h.releaseAll pending) := by
  induction pending, h using Heap.releaseAll.induct with
  | case1 h =>
    rw [releaseAll]
    exact hP
  | case2 h p rest ih =>
    rw [releaseAll]
    exact ih (immediate p rest h hP)
  | case3 h b rest hc ih =>
    rw [releaseAll_of_dead hc]
    exact ih (fault b rest h (count_of_dead hc) hP)
  | case4 h b rest c hc hzero ih =>
    rw [releaseAll_of_cell hc, if_pos hzero]
    exact ih (fault b rest h ((count_of_cell? hc).trans hzero) hP)
  | case5 h b rest c hc hzero hone ih =>
    rw [releaseAll_of_cell hc, if_neg hzero, if_pos hone]
    exact ih (free b c rest h hc hone hP)
  | case6 h b rest c hc hzero hone ih =>
    rw [releaseAll_of_cell hc, if_neg hzero, if_neg hone]
    exact ih (decrement b c rest h hc (by omega) hP)

/-- **Release.** All the words on the list of pending releases lose one owner each; no owner is ever
taken from a block without owners. -/
theorem Balanced.releaseAll {pending : List Word} (hb : h.Balanced (pending ++ owners)) :
    (h.releaseAll pending).Balanced owners := by
  refine releaseAll_induction (P := fun pending h => h.Balanced (pending ++ owners)) ?_ ?_ ?_ ?_ hb
  · exact fun p rest h hb => balanced_cons_immediate.mp hb
  · intro b rest h hzero hb
    exact absurd hzero (Nat.ne_of_gt (hb.count_pos_of_mem List.mem_cons_self))
  · intro b c rest h hc hone hb
    rw [List.append_assoc]
    exact hb.free hc hone
  · exact fun b c rest h hc hmany hb => hb.decrement hc (Nat.ne_of_gt hmany)

theorem release_immediate (h : Heap) (p : Pattern) : h.release (.immediate p) = h := by
  rw [release, releaseAll, releaseAll]

theorem Balanced.release {w : Word} (hb : h.Balanced (w :: owners)) :
    (h.release w).Balanced owners := by
  have hpending : h.Balanced ([w] ++ owners) := hb
  exact hpending.releaseAll

/-! ## Writes -/

theorem Balanced.count_pos_modifyBlock (hb : h.Balanced owners) {a b : BlockId} {f : Block → Block}
    {c : Cell} (hc : (h.modifyBlock a f).cell? b = some c) : 0 < c.count := by
  unfold Heap.modifyBlock at hc
  rw [cell?_modifyCell] at hc
  split at hc
  · obtain ⟨d, hd, rfl⟩ := Option.map_eq_some_iff.mp hc
    exact hb.count_pos b d hd
  · exact hb.count_pos b c hc

/-- **A write that keeps the fields** keeps the balance. -/
theorem Balanced.modifyBlock {b : BlockId} {f : Block → Block} (hb : h.Balanced owners)
    (hf : ∀ c, h.cell? b = some c → (f c.block).fields = c.block.fields) :
    (h.modifyBlock b f).Balanced owners where
  count_eq i := by
    have hslots : (h.modifyBlock b f).slots i = h.slots i := slots_modifyCell hf i
    rw [count_modifyBlock, hslots]
    exact hb.count_eq i
  count_pos _ _ hc := hb.count_pos_modifyBlock hc
  no_faults := hb.no_faults

/-- Writing an element replaces one occurrence by another. -/
theorem count_set_add {us : List Word} {i : Nat} {old : Word} (hi : us[i]? = some old) (x w : Word) :
    (us.set i x).count w + [old].count w = us.count w + [x].count w := by
  obtain ⟨hlt, rfl⟩ := List.getElem?_eq_some_iff.mp hi
  have hset := (List.set_perm_cons_eraseIdx hlt x).count_eq w
  have hget := (List.getElem_cons_eraseIdx_perm hlt).count_eq w
  rw [← List.singleton_append, List.count_append] at hset hget
  omega

/-- **A write to a field** takes the new word over and hands the old one out. -/
theorem Balanced.setField {b : BlockId} {i : Nat} {x old : Word} {shape : Shape} {us : List Word}
    (hb : h.Balanced (x :: owners)) (hblock : h.block? (.reference b) = some (.composite shape us))
    (hi : us[i]? = some old) : (h.setField b i x).Balanced (old :: owners) where
  count_eq y := by
    obtain ⟨c, hc, hcb⟩ := Option.map_eq_some_iff.mp hblock
    have hlt : b < h.cells.size := lt_size_of_isSome (by rw [hc]; rfl)
    have hcell : (h.setField b i x).cell? b =
        some { c with block := .composite shape (us.set i x) } := by
      unfold Heap.setField Heap.modifyBlock
      rw [cell?_modifyCell, if_pos rfl, hc, Option.map_some, hcb]
    have hsize : (h.setField b i x).cells.size = h.cells.size := size_modifyCell h b _
    have hslots := slots_replace hsize hlt (fun j hj => by
      unfold fieldsOf Heap.setField Heap.modifyBlock
      rw [cell?_modifyCell, if_neg (Ne.symm hj)]) y
    rw [fieldsOf_of_cell? hc, fieldsOf_of_cell? hcell, hcb] at hslots
    have hcount : (h.setField b i x).count (.reference y) = h.count (.reference y) :=
      count_modifyBlock h b _ _
    have hold := hb.count_eq y
    have hset := count_set_add hi x (.reference y)
    rw [← List.singleton_append, List.count_append] at hold ⊢
    rw [hcount]
    simp only [Block.fields] at hslots
    omega
  count_pos _ _ hc := hb.count_pos_modifyBlock hc
  no_faults := hb.no_faults

end Heap

end ValueHeap
