import ValueHeap.Proofs.Actions

/-!
# New blocks

An action that makes a value puts a block where there was none, and leaves the blocks that were there as
they are, with their owners. `Makes` says so of one run, together with what the new block holds; a maker can
be followed by another one that uses the new value (`Makes.bind`), and by steps that keep the old blocks.
-/

namespace ValueHeap

namespace Heap

variable {h h' h'' : Heap}

/-- Every live block is there afterwards, with its owners, its size and its contents. -/
def KeepsCells (h h' : Heap) : Prop := ∀ b c, h.cell? b = some c → h'.cell? b = some c

theorem KeepsCells.trans (hfirst : h.KeepsCells h') (hsecond : h'.KeepsCells h'') : h.KeepsCells h'' :=
  fun b c hc => hsecond b c (hfirst b c hc)

theorem KeepsCells.block? (hkeeps : h.KeepsCells h') {w : Word} {block : Block}
    (hw : h.block? w = some block) : h'.block? w = some block := by
  cases w with
  | immediate p => cases hw
  | reference b =>
    obtain ⟨c, hc, hblock⟩ := Option.map_eq_some_iff.mp hw
    exact Option.map_eq_some_iff.mpr ⟨c, hkeeps b c hc, hblock⟩

/-- What is not there afterwards was not there before. -/
theorem KeepsCells.block?_eq_none (hkeeps : h.KeepsCells h') {w : Word} (hw : h'.block? w = none) :
    h.block? w = none := by
  cases hblock : h.block? w with
  | none => rfl
  | some block =>
    rw [hkeeps.block? hblock] at hw
    cases hw

theorem keepsCells_allocate (h : Heap) (block : Block) : h.KeepsCells (h.allocate block).2 := by
  intro b c hc
  have hne : b ≠ h.cells.size :=
    Nat.ne_of_lt (lt_size_of_isSome (Option.isSome_of_eq_some hc))
  rw [allocate, cell?_allocateSized, if_neg hne, hc]

theorem block?_allocate (h : Heap) (block : Block) :
    (h.allocate block).2.block? (h.allocate block).1 = some block := by
  show ((h.allocateSized block.extent block).2.cell? h.cells.size).map Cell.block = _
  rw [cell?_allocateSized, if_pos rfl]
  rfl

/-- The name of a new block was not in use. -/
theorem block?_allocate_fst (h : Heap) (block : Block) : h.block? (h.allocate block).1 = none := by
  show (h.cell? h.cells.size).map Cell.block = none
  rw [cell?_eq_none_of_le le_rfl]
  rfl

end Heap

namespace Action

variable {h : Heap} {block block' : Block} {action : Action Word} {k : Word → Action Word}

/-- **Run on `h`, the action makes a value**: it answers with a reference to a block that was not there, which
holds `block`, and keeps all blocks that were. -/
def Makes (action : Action Word) (h : Heap) (block : Block) : Prop :=
  ∃ w h', action h = (.ok w, h') ∧ h.block? w = none ∧ h'.block? w = some block ∧ h.KeepsCells h'

theorem makes_allocate (h : Heap) (block : Block) : Makes (allocate block) h block :=
  ⟨_, _, rfl, h.block?_allocate_fst block, h.block?_allocate block, h.keepsCells_allocate block⟩

/-- One run makes one block. -/
theorem Makes.block_eq (hmakes : Makes action h block) (hmakes' : Makes action h block') :
    block = block' := by
  obtain ⟨w, k, hrun, -, hblock, -⟩ := hmakes
  obtain ⟨w', k', hrun', -, hblock', -⟩ := hmakes'
  cases hrun.symm.trans hrun'
  exact Option.some.inj (hblock.symm.trans hblock')

/-- A maker that uses a value made before. -/
theorem Makes.bind (hfirst : Makes action h block)
    (hsecond : ∀ w h', h.KeepsCells h' → h'.block? w = some block → Makes (k w) h' block') :
    Makes (action >>= k) h block' := by
  obtain ⟨w, h', hrun, -, hblock, hkeeps⟩ := hfirst
  obtain ⟨w', h'', hrun', hnew, hblock', hkeeps'⟩ := hsecond w h' hkeeps hblock
  refine ⟨w', h'', ?_, hkeeps.block?_eq_none hnew, hblock', hkeeps.trans hkeeps'⟩
  rw [bind_of_ok hrun, hrun']

/-- A maker that looks at the heap first. -/
theorem makes_read_bind {α : Type} {f : Heap → Except Error α} {a : α} {k : α → Action Word}
    (hf : f h = .ok a) (hk : Makes (k a) h block) : Makes (read f >>= k) h block := by
  obtain ⟨w, h', hrun, hmade⟩ := hk
  exact ⟨w, h', (read_bind_of_ok hf).trans hrun, hmade⟩

/-- A maker that checks something first. -/
theorem makes_result_bind {α : Type} {r : Except Error α} {a : α} {k : α → Action Word}
    (hr : r = .ok a) (hk : Makes (k a) h block) : Makes (result r >>= k) h block :=
  makes_read_bind (f := fun _ => r) hr hk

end Action

end ValueHeap
