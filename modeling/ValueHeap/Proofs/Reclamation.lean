import Mathlib.Algebra.BigOperators.Group.Finset.Piecewise
import Mathlib.Order.Bounds.Basic
import ValueHeap.Proofs.Atomicity

/-!
# What a release reclaims

A release takes one owner from a block. The block may have been freed then, and with it the owners that
its fields were, so that more blocks are freed; a cycle is not.

* `withdrawn w gone b` counts the references to `b` that are given up when `w` is released and the blocks
  `gone` are freed; `TakesOrphans w gone` says that every block whose counted references are all given up
  is among them.
* `Releasing.Step` works off one pending word, whichever it is. The release of a heap takes the words in
  one order, `releaseNested` is the recursive release, and both are runs of such steps.

The invariant of a run (`Underway`) is that the heap is balanced for the pending words, that it is what is
left of the first heap (`Remnant`), and that nothing was freed without need. The ledger of the first heap
and the present one (`Underway.ledger`) says the rest: a block that is about to be freed had no other
references than those that were given up, and at the end every block of that kind is gone.

Results:
* `Releasing.wellFounded_step`: no order of the pending words goes on forever.
* `Underway.isLeast`: a run that has ended has freed the least set that takes all orphans.
* `Underway.matches`: all such runs end with the same heap.
* `exists_releaseNested`: the recursive release is such a run; it nests no deeper than there are blocks.
* `release_reclaims_least`: the three together.
-/

namespace ValueHeap

namespace Heap

/-- The blocks of `h` that are no longer live in `h'`. -/
def freed (h h' : Heap) : Finset BlockId := h.live \ h'.live

/-- The references to `b` that are given up when `w` is released and the blocks `gone` are freed. -/
def withdrawn (h : Heap) (w : Word) (gone : Finset BlockId) (b : BlockId) : Nat :=
  [w].count (.reference b) + ∑ a ∈ gone, (h.fieldsOf a).count (.reference b)

/-- Every live block all of whose counted references are `w` or fields of the blocks `gone` is one of
these itself. -/
def TakesOrphans (h : Heap) (w : Word) (gone : Finset BlockId) : Prop :=
  ∀ b c, h.cell? b = some c → c.count = h.withdrawn w gone b → b ∈ gone

/-- The heaps are the same, their overdrafts apart. On a heap whose totals are less than what is freed, it
depends on the order of the blocks how many of them overdraw. -/
def Matches (h h' : Heap) : Prop := { h with overdrafts := h'.overdrafts } = h'

variable {base h h' : Heap} {w : Word} {others : List Word} {gone gone' : Finset BlockId} {b : BlockId}

theorem mem_freed : b ∈ h.freed h' ↔ (h.cell? b).isSome ∧ h'.cell? b = none := by
  rw [freed, Finset.mem_sdiff, mem_live, mem_live, Option.not_isSome_iff_eq_none]

theorem withdrawn_mono (hsub : gone ⊆ gone') (w : Word) (b : BlockId) :
    h.withdrawn w gone b ≤ h.withdrawn w gone' b :=
  Nat.add_le_add_left (Finset.sum_le_sum_of_subset hsub) _

/-- No more references are given up than there are. -/
theorem Balanced.withdrawn_le (hb : h.Balanced (w :: others)) (gone : Finset BlockId) (b : BlockId) :
    h.withdrawn w gone b ≤ h.count (.reference b) := by
  have hslots : ∑ a ∈ gone, (h.fieldsOf a).count (.reference b) ≤ h.slots b := by
    refine Finset.sum_le_sum_of_ne_zero fun a _ hne => Finset.mem_range.mpr ?_
    exact lt_size_of_mem_fieldsOf (List.count_pos_iff.mp (Nat.pos_of_ne_zero hne))
  have hcount := hb.count_eq b
  rw [← List.singleton_append, List.count_append] at hcount
  unfold withdrawn
  omega

/-! ## What is left of a heap -/

/-- **`h` is what is left of `base`** after some blocks were freed. Counts apart, the other blocks are as
they were, and the totals have gone down by what was freed. -/
structure Remnant (base h : Heap) : Prop where
  address_eq : h.address = base.address
  size_eq : h.cells.size = base.cells.size
  contents_eq : ∀ b c, h.cell? b = some c → ∃ d, base.cell? b = some d ∧ c.contents = d.contents
  blocks_eq : h.liveBlocks = base.liveBlocks - (base.freed h).card
  bytes_eq : h.liveBytes = base.liveBytes - ∑ b ∈ base.freed h, base.weigh Cell.size b
  allocations_eq : h.allocations = base.allocations
  faults_eq : h.faults = base.faults

theorem Remnant.refl (h : Heap) : h.Remnant h where
  address_eq := rfl
  size_eq := rfl
  contents_eq _ c hc := ⟨c, hc, rfl⟩
  blocks_eq := by simp [freed]
  bytes_eq := by simp [freed]
  allocations_eq := rfl
  faults_eq := rfl

theorem Remnant.dead_of_dead (hr : base.Remnant h) (hdead : base.cell? b = none) :
    h.cell? b = none := by
  cases hc : h.cell? b with
  | none => rfl
  | some c =>
    obtain ⟨d, hd, -⟩ := hr.contents_eq b c hc
    rw [hdead] at hd
    cases hd

theorem live_modifyCell (h : Heap) (b : BlockId) (f : Cell → Cell) :
    (h.modifyCell b f).live = h.live := by
  ext i
  rw [mem_live, mem_live, cell?_modifyCell]
  split <;> simp

theorem freed_free (hbase : (base.cell? b).isSome) (c : Cell) :
    base.freed (h.free b c) = insert b (base.freed h) := by
  ext i
  rw [Finset.mem_insert, mem_freed, mem_freed, cell?_free]
  by_cases hi : b = i
  · subst hi
    simp [hbase]
  · simp [hi, Ne.symm hi]

/-- One of several owners goes. -/
theorem Remnant.recount (hr : base.Remnant h) (b : BlockId) (f : Nat → Nat) :
    base.Remnant (h.modifyCell b fun c => { c with count := f c.count }) := by
  have hfreed : base.freed (h.modifyCell b fun c => { c with count := f c.count }) =
      base.freed h := by
    rw [freed, freed, live_modifyCell]
  refine ⟨hr.address_eq, (size_modifyCell _ _ _).trans hr.size_eq, fun i c hc => ?_, ?_, ?_, hr.allocations_eq,
    hr.faults_eq⟩
  · rw [cell?_modifyCell] at hc
    split at hc
    · obtain ⟨d, hd, rfl⟩ := Option.map_eq_some_iff.mp hc
      exact hr.contents_eq i d hd
    · exact hr.contents_eq i c hc
  · rw [hfreed]
    exact hr.blocks_eq
  · rw [hfreed]
    exact hr.bytes_eq

/-- The last owner goes. -/
theorem Remnant.free (hr : base.Remnant h) {c : Cell} (hc : h.cell? b = some c) :
    base.Remnant (h.free b c) := by
  obtain ⟨d, hd, hcd⟩ := hr.contents_eq b c hc
  have hfreed := freed_free (h := h) (show (base.cell? b).isSome by rw [hd]; rfl) c
  have hnew : b ∉ base.freed h := by
    rw [mem_freed, hc]
    simp
  have hsize : base.weigh Cell.size b = c.size :=
    (weigh_of_cell? hd).trans (congrArg Prod.fst hcd).symm
  refine ⟨hr.address_eq, (size_free _ _ _).trans hr.size_eq, fun i e he => ?_, ?_, ?_, hr.allocations_eq,
    hr.faults_eq⟩
  · rw [cell?_free] at he
    split at he
    · cases he
    · exact hr.contents_eq i e he
  · rw [hfreed, Finset.card_insert_of_notMem hnew, ← Nat.sub_sub, ← hr.blocks_eq]
    rfl
  · rw [hfreed, Finset.sum_insert hnew, hsize, Nat.add_comm, ← Nat.sub_sub, ← hr.bytes_eq]
    rfl

/-- Every slot of the first heap is one of the present heap, or one of a block that was freed. -/
theorem Remnant.slots_eq (hr : base.Remnant h) (b : BlockId) :
    base.slots b =
      h.slots b + ∑ a ∈ base.freed h, (base.fieldsOf a).count (.reference b) := by
  have hsub : base.freed h ⊆ Finset.range base.cells.size := fun a ha =>
    Finset.mem_range.mpr (lt_size_of_isSome (mem_freed.mp ha).1)
  have hsplit (a : BlockId) : (base.fieldsOf a).count (.reference b) =
      (h.fieldsOf a).count (.reference b) +
        if a ∈ base.freed h then (base.fieldsOf a).count (.reference b) else 0 := by
    cases hc : h.cell? a with
    | some c =>
      obtain ⟨d, hd, hcd⟩ := hr.contents_eq a c hc
      have hkept : a ∉ base.freed h := by simp [mem_freed, hc]
      have hfields : h.fieldsOf a = base.fieldsOf a := fieldsOf_congr (by rw [hc, hd]; simp [hcd])
      rw [if_neg hkept, hfields]
      rfl
    | none =>
      rw [fieldsOf_of_dead hc]
      cases hd : base.cell? a with
      | some d => simp [mem_freed, hc, hd]
      | none => simp [mem_freed, hc, hd, fieldsOf_of_dead hd]
  unfold slots
  rw [hr.size_eq, Finset.sum_congr rfl fun a _ => hsplit a, Finset.sum_add_distrib,
    Finset.sum_ite_mem, Finset.inter_eq_right.mpr hsub]

end Heap

/-! ## A release, one pending word at a time -/

/-- A release that is under way. -/
structure Releasing where
  /-- The words that still have an owner to lose. -/
  pending : List Word
  heap : Heap

namespace Releasing

open Heap

/-- **Any of the pending words** is worked off. A block that loses its last owner is freed, and its fields
are pending from then on. -/
inductive Step : Releasing → Releasing → Prop where
  | immediate {pending rest : List Word} {h : Heap} {p : Pattern}
    (hnext : pending.Perm (.immediate p :: rest)) : Step ⟨pending, h⟩ ⟨rest, h⟩
  | free {pending rest : List Word} {h : Heap} {b : BlockId} {c : Cell}
    (hnext : pending.Perm (.reference b :: rest)) (hc : h.cell? b = some c) (hone : c.count = 1) :
    Step ⟨pending, h⟩ ⟨c.block.fields ++ rest, h.free b c⟩
  | decrement {pending rest : List Word} {h : Heap} {b : BlockId} {c : Cell}
    (hnext : pending.Perm (.reference b :: rest)) (hc : h.cell? b = some c) (hmany : 1 < c.count) :
    Step ⟨pending, h⟩ ⟨rest, h.modifyCell b fun c => { c with count := c.count - 1 }⟩

/-- Any number of steps. -/
abbrev Run : Releasing → Releasing → Prop := Relation.ReflTransGen Step

variable {s t : Releasing} {base : Heap} {w : Word} {others : List Word}

/-! ### Runs end -/

/-- A step frees a block, or leaves fewer words pending and the blocks alone. -/
theorem Step.decreases (hstep : Step s t) :
    t.heap.population < s.heap.population ∨
      t.heap.population = s.heap.population ∧ t.pending.length < s.pending.length := by
  cases hstep with
  | immediate hnext => exact Or.inr ⟨rfl, by simp [hnext.length_eq]⟩
  | free hnext hc hone => exact Or.inl (population_free hc)
  | decrement hnext hc hmany =>
    exact Or.inr ⟨population_modifyCell _ _ _, by simp [hnext.length_eq]⟩

/-- **No order of the pending words goes on forever.** -/
theorem wellFounded_step : WellFounded fun t s => Step s t := by
  refine Subrelation.wf (r := InvImage (Prod.Lex (· < ·) (· < ·)) fun s : Releasing =>
    (s.heap.population, s.pending.length)) ?_ (InvImage.wf _ (Prod.lex Nat.lt_wfRel Nat.lt_wfRel).wf)
  intro t s hstep
  rcases hstep.decreases with hfewer | ⟨heq, hshorter⟩
  · exact Prod.Lex.left _ _ hfewer
  · show Prod.Lex _ _ (t.heap.population, _) (s.heap.population, _)
    rw [heq]
    exact Prod.Lex.right _ hshorter

theorem Run.population_le (hrun : Run s t) : t.heap.population ≤ s.heap.population := by
  induction hrun with
  | refl => exact Nat.le_refl _
  | tail _ hstep ih =>
    have := hstep.decreases
    omega

/-- Words that are not touched may be pending as well. -/
theorem Step.append (hstep : Step s t) (more : List Word) :
    Step ⟨s.pending ++ more, s.heap⟩ ⟨t.pending ++ more, t.heap⟩ := by
  cases hstep with
  | immediate hnext => exact .immediate (hnext.append_right more)
  | free hnext hc hone =>
    rw [List.append_assoc]
    exact .free (hnext.append_right more) hc hone
  | decrement hnext hc hmany => exact .decrement (hnext.append_right more) hc hmany

theorem Run.append (hrun : Run s t) (more : List Word) :
    Run ⟨s.pending ++ more, s.heap⟩ ⟨t.pending ++ more, t.heap⟩ := by
  induction hrun with
  | refl => exact .refl
  | tail _ hstep ih => exact ih.tail (hstep.append more)

theorem Step.perm {pending pending' : List Word} {h : Heap} (hstep : Step ⟨pending, h⟩ t)
    (hperm : pending'.Perm pending) : Step ⟨pending', h⟩ t := by
  cases hstep with
  | immediate hnext => exact .immediate (hperm.trans hnext)
  | free hnext hc hone => exact .free (hperm.trans hnext) hc hone
  | decrement hnext hc hmany => exact .decrement (hperm.trans hnext) hc hmany

/-- A run to the end does not depend on how the pending words are listed. -/
theorem Run.perm {pending pending' : List Word} {h h' : Heap} (hrun : Run ⟨pending, h⟩ ⟨[], h'⟩)
    (hperm : pending'.Perm pending) : Run ⟨pending', h⟩ ⟨[], h'⟩ := by
  rcases Relation.ReflTransGen.cases_head hrun with heq | ⟨t, hstep, hrest⟩
  · cases heq
    rw [hperm.eq_nil]
  · exact .head (hstep.perm hperm) hrest

/-! ### Owners -/

theorem Step.balanced (hstep : Step s t) (hb : s.heap.Balanced (s.pending ++ others)) :
    t.heap.Balanced (t.pending ++ others) := by
  cases hstep with
  | immediate hnext =>
    exact balanced_cons_immediate.mp (hb.perm (hnext.append_right others).symm)
  | free hnext hc hone =>
    rw [List.append_assoc]
    exact (hb.perm (hnext.append_right others).symm).free hc hone
  | decrement hnext hc hmany =>
    exact (hb.perm (hnext.append_right others).symm).decrement hc (Nat.ne_of_gt hmany)

theorem Run.balanced (hrun : Run s t) (hb : s.heap.Balanced (s.pending ++ others)) :
    t.heap.Balanced (t.pending ++ others) := by
  induction hrun with
  | refl => exact hb
  | tail _ hstep ih => exact hstep.balanced ih

/-- A release can go on as long as words are pending: no owner is taken from a block without owners. -/
theorem exists_step (hb : s.heap.Balanced (s.pending ++ others)) (hpending : s.pending ≠ []) :
    ∃ t, Step s t := by
  obtain ⟨pending, h⟩ := s
  cases pending with
  | nil => exact absurd rfl hpending
  | cons x rest =>
    cases x with
    | immediate p => exact ⟨_, .immediate (List.Perm.refl _)⟩
    | reference b =>
      have hlive := hb.isLive_of_mem (List.mem_append_left others List.mem_cons_self) b rfl
      obtain ⟨c, hc⟩ := Option.isSome_iff_exists.mp hlive
      have hpos := hb.count_pos b c hc
      by_cases hone : c.count = 1
      · exact ⟨_, .free (List.Perm.refl _) hc hone⟩
      · exact ⟨_, .decrement (List.Perm.refl _) hc (by omega)⟩

/-- **A release is such a run.** -/
theorem run_releaseAll {pending : List Word} {h : Heap} (hb : h.Balanced (pending ++ others)) :
    Run ⟨pending, h⟩ ⟨[], h.releaseAll pending⟩ := by
  refine (releaseAll_induction (P := fun rest h' => h'.Balanced (rest ++ others) ∧
    Run ⟨pending, h⟩ ⟨rest, h'⟩) ?_ ?_ ?_ ?_ ⟨hb, .refl⟩).2
  · intro p rest h' ⟨hb', hrun⟩
    have hstep : Step ⟨.immediate p :: rest, h'⟩ ⟨rest, h'⟩ := .immediate (List.Perm.refl _)
    exact ⟨hstep.balanced hb', hrun.tail hstep⟩
  · intro b rest h' hzero ⟨hb', _⟩
    exact absurd hzero (Nat.ne_of_gt (hb'.count_pos_of_mem List.mem_cons_self))
  · intro b c rest h' hc hone ⟨hb', hrun⟩
    have hstep : Step ⟨.reference b :: rest, h'⟩ ⟨c.block.fields ++ rest, h'.free b c⟩ :=
      .free (List.Perm.refl _) hc hone
    exact ⟨hstep.balanced hb', hrun.tail hstep⟩
  · intro b c rest h' hc hmany ⟨hb', hrun⟩
    have hstep : Step ⟨.reference b :: rest, h'⟩
        ⟨rest, h'.modifyCell b fun c => { c with count := c.count - 1 }⟩ :=
      .decrement (List.Perm.refl _) hc hmany
    exact ⟨hstep.balanced hb', hrun.tail hstep⟩

/-! ### The invariant -/

/-- **The invariant of a release** of `w` on the heap `base`, the other owners of which are `others`. -/
structure Underway (base : Heap) (w : Word) (others : List Word) (s : Releasing) : Prop where
  balanced : s.heap.Balanced (s.pending ++ others)
  remnant : base.Remnant s.heap
  needed : ∀ gone, base.TakesOrphans w gone → base.freed s.heap ⊆ gone

theorem underway_start (hb : base.Balanced (w :: others)) : Underway base w others ⟨[w], base⟩ where
  balanced := hb
  remnant := .refl base
  needed _ _ := by simp [freed]

/-- **The ledger.** What a block has lost of its count are the references that were given up, those that
are still pending apart. -/
theorem Underway.ledger (hs : Underway base w others s) (hb : base.Balanced (w :: others))
    (b : BlockId) :
    base.count (.reference b) + s.pending.count (.reference b) =
      s.heap.count (.reference b) + base.withdrawn w (base.freed s.heap) b := by
  have hbefore := hb.count_eq b
  have hnow := hs.balanced.count_eq b
  have hslots := hs.remnant.slots_eq b
  rw [← List.singleton_append, List.count_append] at hbefore
  rw [List.count_append] at hnow
  unfold withdrawn
  omega

/-- A block that is about to be freed has lost all its references. -/
theorem Underway.orphan (hs : Underway base w others s) (hb : base.Balanced (w :: others))
    {b : BlockId} {c : Cell} (hmem : .reference b ∈ s.pending) (hc : s.heap.cell? b = some c)
    (hone : c.count = 1) :
    base.count (.reference b) = base.withdrawn w (base.freed s.heap) b := by
  have hledger := hs.ledger hb b
  have hcount := hs.balanced.count_eq b
  have hpos := List.count_pos_iff.mpr hmem
  rw [count_of_cell? hc] at hledger hcount
  rw [List.count_append] at hcount
  omega

/-- **One step keeps the invariant.** -/
theorem Underway.step (hs : Underway base w others s) (hb : base.Balanced (w :: others))
    (hstep : Step s t) : Underway base w others t := by
  refine ⟨hstep.balanced hs.balanced, ?_, fun gone hgone => ?_⟩
  · cases hstep with
    | immediate hnext => exact hs.remnant
    | free hnext hc hone => exact hs.remnant.free hc
    | decrement hnext hc hmany => exact hs.remnant.recount _ (· - 1)
  · have hsub := hs.needed gone hgone
    cases hstep with
    | immediate hnext => exact hsub
    | @free _ _ _ b _ hnext hc hone =>
      obtain ⟨d, hd, -⟩ := hs.remnant.contents_eq _ _ hc
      have horphan := hs.orphan hb (hnext.mem_iff.mpr List.mem_cons_self) hc hone
      have hmore := withdrawn_mono (h := base) hsub w b
      have hall := hb.withdrawn_le gone b
      rw [count_of_cell? hd] at horphan hall
      rw [freed_free (by rw [hd]; rfl)]
      exact Finset.insert_subset (hgone b d hd (by omega)) hsub
    | decrement hnext hc hmany =>
      show base.live \ _ ⊆ gone
      rw [live_modifyCell]
      exact hsub

/-- **So does every run.** -/
theorem Underway.run (hs : Underway base w others s) (hb : base.Balanced (w :: others))
    (hrun : Run s t) : Underway base w others t := by
  induction hrun with
  | refl => exact hs
  | tail _ hstep ih => exact ih.step hb hstep

/-! ### The end of a run -/

section End

variable {h h' : Heap}

theorem underway_release (hb : h.Balanced (w :: others)) :
    Underway h w others ⟨[], h.release w⟩ :=
  (underway_start hb).run hb (run_releaseAll (show h.Balanced ([w] ++ others) from hb))

/-- A block that survives has lost the references that were given up, and nothing else. -/
theorem Underway.survivor (hs : Underway base w others ⟨[], h⟩) (hb : base.Balanced (w :: others))
    {b : BlockId} {c : Cell} (hc : base.cell? b = some c) (hkept : b ∉ base.freed h) :
    ∃ d, h.cell? b = some d ∧ d.contents = c.contents ∧
      d.count + base.withdrawn w (base.freed h) b = c.count := by
  cases hd : h.cell? b with
  | none => exact absurd (mem_freed.mpr ⟨by rw [hc]; rfl, hd⟩) hkept
  | some d =>
    obtain ⟨c', hc', hcontents⟩ := hs.remnant.contents_eq b d hd
    have hledger : _ = h.count (.reference b) + base.withdrawn w (base.freed h) b := hs.ledger hb b
    rw [hc] at hc'
    cases hc'
    rw [count_of_cell? hc, count_of_cell? hd] at hledger
    exact ⟨d, rfl, hcontents, hledger.symm⟩

/-- **The blocks that were freed are the least set that takes all orphans.** -/
theorem Underway.isLeast (hs : Underway base w others ⟨[], h⟩) (hb : base.Balanced (w :: others)) :
    IsLeast {gone | base.TakesOrphans w gone} (base.freed h) := by
  refine ⟨fun b c hc hall => ?_, fun gone hgone => hs.needed gone hgone⟩
  by_contra hkept
  obtain ⟨d, hd, -, hcount⟩ := hs.survivor hb hc hkept
  have hpos := hs.balanced.count_pos b d hd
  omega

theorem cells_ext (hsize : h.cells.size = h'.cells.size) (hcell : ∀ b, h.cell? b = h'.cell? b) :
    h.cells = h'.cells := by
  refine Array.ext hsize fun i hi hi' => ?_
  have hget := hcell i
  unfold cell? at hget
  rw [Array.getElem?_eq_getElem hi, Array.getElem?_eq_getElem hi'] at hget
  exact hget

/-- **All runs end with the same heap.** -/
theorem Underway.matches (hs : Underway base w others ⟨[], h⟩)
    (hs' : Underway base w others ⟨[], h'⟩) (hb : base.Balanced (w :: others)) : h.Matches h' := by
  have hfreed : base.freed h = base.freed h' := (hs.isLeast hb).unique (hs'.isLeast hb)
  have hcells : h.cells = h'.cells := by
    refine cells_ext (hs.remnant.size_eq.trans hs'.remnant.size_eq.symm) fun b => ?_
    cases hc : base.cell? b with
    | none => rw [hs.remnant.dead_of_dead hc, hs'.remnant.dead_of_dead hc]
    | some c =>
      by_cases hb' : b ∈ base.freed h
      · rw [(mem_freed.mp hb').2, (mem_freed.mp (hfreed ▸ hb')).2]
      · obtain ⟨⟨n, size, block⟩, hd, hcontents, hn⟩ := hs.survivor hb hc hb'
        obtain ⟨⟨n', size', block'⟩, hd', hcontents', hn'⟩ := hs'.survivor hb hc (hfreed ▸ hb')
        cases hcontents.trans hcontents'.symm
        rw [← hfreed] at hn'
        have hcount : n = n' := Nat.add_right_cancel (hn.trans hn'.symm)
        rw [hd, hd', hcount]
  have hblocks : h.liveBlocks = h'.liveBlocks := by
    rw [hs.remnant.blocks_eq, hs'.remnant.blocks_eq, hfreed]
  have hbytes : h.liveBytes = h'.liveBytes := by
    rw [hs.remnant.bytes_eq, hs'.remnant.bytes_eq, hfreed]
  show Heap.mk h.address h.cells h.liveBlocks h.liveBytes h.allocations h.faults h'.overdrafts = h'
  rw [hs.remnant.address_eq.trans hs'.remnant.address_eq.symm, hcells, hblocks, hbytes,
    hs.remnant.allocations_eq.trans hs'.remnant.allocations_eq.symm,
    hs.remnant.faults_eq.trans hs'.remnant.faults_eq.symm]

end End

end Releasing

/-! ## The recursive release -/

namespace Heap

open Releasing

variable {order : List Word → List Word} {others : List Word}

/-- The release as a recursion that is at most `depth` calls deep: a block that loses its last owner is
freed, and then its fields are released one after the other, in the given order. -/
def releaseNested (order : List Word → List Word) : (depth : Nat) → Word → Heap → Option Heap
  | 0, _, _ => none
  | _ + 1, .immediate _, h => some h
  | depth + 1, .reference b, h =>
    match h.cell? b with
    | none => none
    | some c =>
      if c.count = 0 then none
      else if c.count = 1 then
        (order c.block.fields).foldlM (fun h x => releaseNested order depth x h) (h.free b c)
      else some (h.modifyCell b fun c => { c with count := c.count - 1 })

/-- Words that are released one after the other. -/
theorem exists_foldlM {release : Heap → Word → Option Heap} {n : Nat}
    (hrelease : ∀ (x : Word) (h : Heap) (others : List Word), h.Balanced (x :: others) →
      h.population < n → ∃ g, release h x = some g ∧ Run ⟨[x], h⟩ ⟨[], g⟩)
    (xs : List Word) {h : Heap} (hb : h.Balanced (xs ++ others)) (hn : h.population < n) :
    ∃ g, xs.foldlM release h = some g ∧ Run ⟨xs, h⟩ ⟨[], g⟩ := by
  induction xs generalizing h with
  | nil => exact ⟨h, rfl, .refl⟩
  | cons x xs ih =>
    obtain ⟨g, hg, hrun⟩ := hrelease x h (xs ++ others) hb hn
    have hrun' : Run ⟨x :: xs, h⟩ ⟨xs, g⟩ := hrun.append xs
    obtain ⟨g', hg', hrest⟩ := ih (hrun'.balanced hb) (Nat.lt_of_le_of_lt hrun.population_le hn)
    refine ⟨g', ?_, hrun'.trans hrest⟩
    rw [List.foldlM_cons, hg]
    exact hg'

/-- **The recursive release is a run** of the same steps, and calls itself no deeper than there are live
blocks. -/
theorem exists_releaseNested (horder : ∀ ws, (order ws).Perm ws) {depth : Nat} {w : Word} {h : Heap}
    (hb : h.Balanced (w :: others)) (hdepth : h.population < depth) :
    ∃ g, releaseNested order depth w h = some g ∧ Run ⟨[w], h⟩ ⟨[], g⟩ := by
  induction depth generalizing w h others with
  | zero => exact absurd hdepth (Nat.not_lt_zero _)
  | succ depth ih =>
    cases w with
    | immediate p => exact ⟨h, rfl, .single (.immediate (List.Perm.refl _))⟩
    | reference b =>
      obtain ⟨c, hc⟩ := Option.isSome_iff_exists.mp (hb.isLive_of_mem List.mem_cons_self b rfl)
      have hpos := hb.count_pos b c hc
      simp only [releaseNested, hc]
      rw [if_neg (Nat.ne_of_gt hpos)]
      by_cases hone : c.count = 1
      · rw [if_pos hone]
        have hfields : (h.free b c).Balanced (order c.block.fields ++ others) :=
          (hb.free hc hone).perm ((horder _).append_right others)
        have hfewer := population_free hc
        obtain ⟨g, hg, hrun⟩ := exists_foldlM (fun x h others hb hn => ih hb hn)
          (order c.block.fields) hfields (by omega)
        refine ⟨g, hg, .head (.free (List.Perm.refl _) hc hone) (hrun.perm ?_)⟩
        rw [List.append_nil]
        exact (horder _).symm
      · rw [if_neg hone]
        exact ⟨_, rfl, .single (.decrement (List.Perm.refl _) hc (by omega))⟩

/-- **A release reclaims exactly what it must**, on every heap with exact counts, cycles or not. The blocks
that it frees are the least set that has every block all of whose counted references are the released
word or fields of blocks in the set. Every other block keeps its contents and loses from its count exactly
the references that were given up. No order in which the pending words may be worked off goes on
forever, none meets a block without owners, and wherever one stops, nothing is pending and the heap is
that of the release; so it is for the recursive release, in any order of the fields. -/
theorem release_reclaims_least (h : Heap) (w : Word) (others : List Word)
    (hb : h.Balanced (w :: others)) :
    let h' := h.release w
    IsLeast {gone | h.TakesOrphans w gone} (h.freed h') ∧
      (∀ b, h.cell? b = none → h'.cell? b = none) ∧
      (∀ b c, h.cell? b = some c → b ∉ h.freed h' → ∃ c', h'.cell? b = some c' ∧
        c'.contents = c.contents ∧ c'.count + h.withdrawn w (h.freed h') b = c.count) ∧
      (WellFounded fun t s => Releasing.Step s t) ∧
      Run ⟨[w], h⟩ ⟨[], h'⟩ ∧
      (∀ s, Run ⟨[w], h⟩ s → (∀ t, ¬ Releasing.Step s t) → s.pending = [] ∧ s.heap.Matches h') ∧
      ∀ order : List Word → List Word, (∀ ws, (order ws).Perm ws) → ∀ depth, h.population < depth →
        ∃ g, releaseNested order depth w h = some g ∧ g.Matches h' := by
  intro h'
  have hstart := underway_start hb
  have hend : Underway h w others ⟨[], h'⟩ := underway_release hb
  refine ⟨hend.isLeast hb, fun b hdead => hend.remnant.dead_of_dead hdead,
    fun b c hc hkept => hend.survivor hb hc hkept, wellFounded_step,
    run_releaseAll (show h.Balanced ([w] ++ others) from hb), ?_, ?_⟩
  · rintro ⟨pending, g⟩ hs hstuck
    have hunderway := hstart.run hb hs
    cases pending with
    | nil => exact ⟨rfl, hunderway.matches hend hb⟩
    | cons x rest =>
      obtain ⟨t, ht⟩ := exists_step hunderway.balanced (List.cons_ne_nil x rest)
      exact absurd ht (hstuck t)
  · intro order horder depth hdepth
    obtain ⟨g, hg, hs⟩ := exists_releaseNested horder hb hdepth
    exact ⟨g, hg, (hstart.run hb hs).matches hend hb⟩

/-- A tuple that shares a text with a tuple that holds itself, and has a buffer of its own. -/
def knotted : Heap :=
  ⟨sequential, #[some ⟨2, 16, .text [104, 105]⟩, some ⟨2, 24, .composite .tuple [.reference 1, .reference 0]⟩,
    some ⟨1, 16, .bytes [7]⟩,
    some ⟨1, 32, .composite .tuple [.reference 0, .reference 1, .reference 2]⟩], 4, 88, 4, 0, 0⟩

/-- The tuple goes with its buffer. The text and the cycle lose one owner each and stay. -/
theorem release_knotted : knotted.release (.reference 3) =
    ⟨sequential, #[some ⟨1, 16, .text [104, 105]⟩, some ⟨1, 24, .composite .tuple [.reference 1, .reference 0]⟩,
      none, none], 2, 40, 4, 0, 0⟩ := by
  rw [release, releaseAll_of_cell (c := ⟨1, 32, _⟩) rfl, if_neg (by decide), if_pos rfl]
  show releaseAll [.reference 0, .reference 1, .reference 2] _ = _
  rw [releaseAll_of_cell (c := ⟨2, 16, _⟩) rfl, if_neg (by decide), if_neg (by decide),
    releaseAll_of_cell (c := ⟨2, 24, _⟩) rfl, if_neg (by decide), if_neg (by decide),
    releaseAll_of_cell (c := ⟨1, 16, _⟩) rfl, if_neg (by decide), if_pos rfl]
  show releaseAll [] _ = _
  rw [releaseAll]
  rfl

theorem release_reclaims_least_knotted :
    knotted.Balanced [.reference 3] ∧
      knotted.freed (knotted.release (.reference 3)) = {2, 3} ∧
      IsLeast {gone | knotted.TakesOrphans (.reference 3) gone} {2, 3} := by
  have hb : knotted.Balanced [.reference 3] := by decide +kernel
  have hfreed : knotted.freed (knotted.release (.reference 3)) = {2, 3} := by
    rw [release_knotted]
    decide +kernel
  refine ⟨hb, hfreed, ?_⟩
  rw [← hfreed]
  exact (release_reclaims_least knotted (.reference 3) [] hb).1

end Heap

end ValueHeap
