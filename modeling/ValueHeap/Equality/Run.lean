import ValueHeap.Equality.Step

/-!
# Structural equality

The loop over the tasks of a comparison ends on every heap, cyclic ones included.

* `marks` are the blocks that the `leave` tasks on a list will unmark. They are exactly the marked
  blocks, each once, at every step (`Consistent`, `consistent_step`).
* `cost` bounds the steps that a list of tasks can still take: a comparison that runs with `k` blocks
  unmarked costs more than all the comparisons that it schedules, which run with fewer unmarked blocks.
  It falls at every step (`cost_step`).

`Heap.same` is the equality of values.
-/

namespace ValueHeap

namespace Comparison

/-! ## Marks -/

/-- The blocks that a list of tasks will unmark. -/
def marks : List Task → List BlockId
  | [] => []
  | .compare _ _ :: rest => marks rest
  | .leave a none :: rest => a :: marks rest
  | .leave a (some b) :: rest => a :: b :: marks rest

/-- The marked blocks are those that are still to be unmarked, each of them once, and all of them are
blocks of the heap. -/
structure Consistent (h : Heap) (c : Comparison) : Prop where
  nodup : (marks c.tasks).Nodup
  mem_path : ∀ b, b ∈ c.path ↔ b ∈ marks c.tasks
  lt_size : ∀ b ∈ marks c.tasks, b < h.cells.size

theorem marks_append_compares (pairs : List (Word × Word)) (rest : List Task) :
    marks (pairs.map (fun p => Task.compare p.1 p.2) ++ rest) = marks rest := by
  induction pairs with
  | nil => rfl
  | cons p ps ih => exact ih

theorem consistent_start (h : Heap) (x y : Word) : Consistent h (start x y) where
  nodup := List.nodup_nil
  mem_path b := by simp [start, marks]
  lt_size b hb := absurd hb List.not_mem_nil

theorem lt_size_of_cell? {h : Heap} {b : BlockId} {c : Cell} (hc : h.cell? b = some c) :
    b < h.cells.size := by
  have hb : h.cells[b]? = some (some c) := by
    simpa [Heap.cell?, Option.join_eq_some_iff] using hc
  exact (Array.getElem?_eq_some_iff.mp hb).1

/-- A descent pairs the fields of two live blocks. -/
theorem shallow_descend {h : Heap} {x y : Word} {a b : BlockId} {pairs : List (Word × Word)}
    (hs : h.shallow x y = .descend a b pairs) :
    ∃ c d, h.cell? a = some c ∧ h.cell? b = some d ∧ pairs = c.block.fields.zip d.block.fields := by
  unfold Heap.shallow at hs
  split at hs
  · cases hs
  split at hs
  · unfold Shallow.ofBool at hs
    split at hs <;> cases hs
  split at hs
  · split at hs
    · next a' b' c d ha hb =>
      unfold Block.shallow at hs
      split at hs
      · unfold Shallow.ofBool at hs
        split at hs <;> cases hs
      · unfold Shallow.ofBool at hs
        split at hs <;> cases hs
      · unfold Shallow.ofBool at hs
        split at hs <;> cases hs
      · next s us t vs hc hd =>
        split at hs
        · cases hs
          exact ⟨c, d, ha, hb, by rw [hc, hd]; rfl⟩
        · cases hs
      · cases hs
    · cases hs
  · cases hs

theorem consistent_leave {h : Heap} {a : BlockId} {b : Option BlockId} {rest : List Task}
    {path : Std.HashSet BlockId} (hc : Consistent h ⟨.leave a b :: rest, path⟩) :
    Consistent h ⟨rest, unmark path a b⟩ := by
  obtain ⟨hn, hm, hl⟩ := hc
  cases b with
  | none =>
    simp only [marks, List.nodup_cons] at hn
    refine ⟨hn.2, fun i => ?_, fun i hi => hl i (List.mem_cons_of_mem _ hi)⟩
    have hmi := hm i
    simp only [marks, List.mem_cons] at hmi
    simp only [unmark, Std.HashSet.mem_erase, hmi, beq_eq_false_iff_ne, ne_eq]
    constructor
    · rintro ⟨hne, rfl | hi⟩
      · exact absurd rfl hne
      · exact hi
    · exact fun hi => ⟨fun e => hn.1 (e ▸ hi), Or.inr hi⟩
  | some b =>
    simp only [marks, List.nodup_cons, List.mem_cons, not_or] at hn
    refine ⟨hn.2.2, fun i => ?_, fun i hi =>
      hl i (List.mem_cons_of_mem _ (List.mem_cons_of_mem _ hi))⟩
    have hmi := hm i
    simp only [marks, List.mem_cons] at hmi
    simp only [unmark, Std.HashSet.mem_erase, hmi, beq_eq_false_iff_ne, ne_eq]
    constructor
    · rintro ⟨hb, ha, rfl | rfl | hi⟩
      · exact absurd rfl ha
      · exact absurd rfl hb
      · exact hi
    · exact fun hi => ⟨fun e => hn.2.1 (e ▸ hi), fun e => hn.1.2 (e ▸ hi), Or.inr (Or.inr hi)⟩

theorem consistent_enter {h : Heap} {a b : BlockId} {pairs : List (Word × Word)} {rest : List Task}
    {path : Std.HashSet BlockId} (hc : Consistent h ⟨rest, path⟩) (ha : a < h.cells.size)
    (hb : b < h.cells.size) (hnew : a ∉ path) : Consistent h (enter a b pairs rest path) := by
  obtain ⟨hn, hm, hl⟩ := hc
  have ham : a ∉ marks rest := fun hi => hnew ((hm a).mpr hi)
  have hmem (i : BlockId) : i ∈ path.insert a ↔ i = a ∨ i ∈ marks rest := by
    rw [Std.HashSet.mem_insert, beq_iff_eq, hm i]
    exact or_congr_left eq_comm
  unfold enter
  by_cases hbm : b ∈ path.insert a
  · simp only [hbm, if_true]
    refine ⟨?_, fun i => ?_, fun i hi => ?_⟩
    · rw [marks_append_compares]
      exact List.nodup_cons.mpr ⟨ham, hn⟩
    · rw [marks_append_compares]
      simp only [marks, List.mem_cons, hmem]
    · rw [marks_append_compares] at hi
      rcases List.mem_cons.mp hi with rfl | hi
      · exact ha
      · exact hl i hi
  · simp only [hbm, if_false]
    rw [hmem, not_or] at hbm
    refine ⟨?_, fun i => ?_, fun i hi => ?_⟩
    · rw [marks_append_compares]
      refine List.nodup_cons.mpr ⟨fun hi => ?_, List.nodup_cons.mpr ⟨hbm.2, hn⟩⟩
      rcases List.mem_cons.mp hi with e | hi
      · exact hbm.1 e.symm
      · exact ham hi
    · rw [marks_append_compares, Std.HashSet.mem_insert, hmem]
      simp only [marks, List.mem_cons, beq_iff_eq]
      constructor
      · rintro (rfl | rfl | hi)
        · exact Or.inr (Or.inl rfl)
        · exact Or.inl rfl
        · exact Or.inr (Or.inr hi)
      · rintro (rfl | rfl | hi)
        · exact Or.inr (Or.inl rfl)
        · exact Or.inl rfl
        · exact Or.inr (Or.inr hi)
    · rw [marks_append_compares] at hi
      rcases List.mem_cons.mp hi with rfl | hi
      · exact ha
      · rcases List.mem_cons.mp hi with rfl | hi
        · exact hb
        · exact hl i hi

/-- A step keeps the marks in order. -/
theorem consistent_step {h : Heap} {c d : Comparison} (hc : Consistent h c)
    (hs : step h c = .more d) : Consistent h d := by
  obtain ⟨tasks, path⟩ := c
  unfold step at hs
  split at hs
  · cases hs
  · next ht =>
    cases hs
    simp only at ht
    subst ht
    exact consistent_leave hc
  · next x y rest ht =>
    simp only at ht
    subst ht
    have hrest : Consistent h ⟨rest, path⟩ := ⟨hc.nodup, hc.mem_path, hc.lt_size⟩
    split at hs
    · cases hs
      exact hrest
    · cases hs
    · next a b pairs hsh =>
      obtain ⟨ca, cb, ha, hb, -⟩ := shallow_descend hsh
      split at hs
      · cases hs
        exact hrest
      · next hnew =>
        cases hs
        exact consistent_enter hrest (lt_size_of_cell? ha) (lt_size_of_cell? hb) hnew

/-! ## Cost -/

/-- The most fields that a block of the list has. -/
def fanout : List (Option Cell) → Nat
  | [] => 0
  | none :: cells => fanout cells
  | some c :: cells => max c.block.fields.length (fanout cells)

theorem length_le_fanout {cells : List (Option Cell)} {c : Cell} (hc : some c ∈ cells) :
    c.block.fields.length ≤ fanout cells := by
  induction cells with
  | nil => exact absurd hc List.not_mem_nil
  | cons d ds ih =>
    rcases List.mem_cons.mp hc with rfl | hds
    · exact Nat.le_max_left _ _
    · cases d with
      | none => exact ih hds
      | some d => exact Nat.le_trans (ih hds) (Nat.le_max_right _ _)

/-- What a comparison may cost when `k` blocks are unmarked and no block has more than `n` fields. -/
def weight (n : Nat) : Nat → Nat
  | 0 => 1
  | k + 1 => 2 + n * weight n k + weight n k

theorem weight_pos (n k : Nat) : 0 < weight n k := by
  cases k with
  | zero => exact Nat.one_pos
  | succ k => simp only [weight]; omega

theorem weight_mono (n : Nat) {j k : Nat} (hjk : j ≤ k) : weight n j ≤ weight n k := by
  induction k with
  | zero =>
    obtain rfl : j = 0 := Nat.le_zero.mp hjk
    exact Nat.le_refl _
  | succ k ih =>
    by_cases he : j = k + 1
    · subst he
      exact Nat.le_refl _
    · refine Nat.le_trans (ih (by omega)) ?_
      simp only [weight]
      omega

/-- Bounds the steps that the tasks can still take. -/
def cost (n size : Nat) : List Task → Nat
  | [] => 0
  | .compare _ _ :: rest => weight n (size - (marks rest).length) + cost n size rest
  | .leave _ _ :: rest => 1 + cost n size rest

theorem cost_append_compares (n size : Nat) (pairs : List (Word × Word)) (rest : List Task) :
    cost n size (pairs.map (fun p => Task.compare p.1 p.2) ++ rest) =
      pairs.length * weight n (size - (marks rest).length) + cost n size rest := by
  induction pairs with
  | nil => simp
  | cons p ps ih =>
    simp only [List.map_cons, List.cons_append, cost, List.length_cons]
    rw [marks_append_compares, ih, Nat.succ_mul]
    omega

/-- The cost of a comparison on a heap. -/
def measure (h : Heap) (c : Comparison) : Nat :=
  cost (fanout h.cells.toList) h.cells.size c.tasks

theorem length_marks_lt {h : Heap} {c : Comparison} (hc : Consistent h c) {a : BlockId}
    (ha : a < h.cells.size) (hnew : a ∉ c.path) : (marks c.tasks).length < h.cells.size := by
  have hnodup : (a :: marks c.tasks).Nodup :=
    List.nodup_cons.mpr ⟨fun hi => hnew ((hc.mem_path a).mpr hi), hc.nodup⟩
  have hsub : a :: marks c.tasks ⊆ List.range h.cells.size := by
    intro i hi
    rw [List.mem_range]
    rcases List.mem_cons.mp hi with rfl | hi
    · exact ha
    · exact hc.lt_size i hi
  have := hnodup.length_le_of_subset hsub
  simp only [List.length_cons, List.length_range] at this
  omega

theorem cost_enter {h : Heap} {a b : BlockId} {ca cb : Cell} {rest : List Task}
    {path : Std.HashSet BlockId} (hc : Consistent h ⟨rest, path⟩) (ha : h.cell? a = some ca)
    (hnew : a ∉ path) (x y : Word) :
    measure h (enter a b (ca.block.fields.zip cb.block.fields) rest path) <
      measure h ⟨.compare x y :: rest, path⟩ := by
  have hlt := length_marks_lt hc (lt_size_of_cell? ha) hnew
  simp only at hlt
  have hfan : ca.block.fields.length ≤ fanout h.cells.toList := by
    have hb : h.cells[a]? = some (some ca) := by
      simpa [Heap.cell?, Option.join_eq_some_iff] using ha
    obtain ⟨hi, hget⟩ := Array.getElem?_eq_some_iff.mp hb
    exact length_le_fanout (by rw [← hget]; exact Array.getElem_mem_toList hi)
  have hzip : (ca.block.fields.zip cb.block.fields).length ≤ fanout h.cells.toList := by
    rw [List.length_zip]
    omega
  -- the scheduled comparisons run with at least one more block marked
  have key (leaving : Task) (hlen : (marks rest).length < (marks (leaving :: rest)).length)
      (hleave : cost (fanout h.cells.toList) h.cells.size (leaving :: rest) =
        1 + cost (fanout h.cells.toList) h.cells.size rest) :
      cost (fanout h.cells.toList) h.cells.size
          ((ca.block.fields.zip cb.block.fields).map (fun p => Task.compare p.1 p.2) ++
            leaving :: rest) <
        weight (fanout h.cells.toList) (h.cells.size - (marks rest).length) +
          cost (fanout h.cells.toList) h.cells.size rest := by
    rw [cost_append_compares, hleave]
    generalize fanout h.cells.toList = n at hzip ⊢
    generalize (ca.block.fields.zip cb.block.fields).length = l at hzip ⊢
    obtain ⟨k, hk⟩ : ∃ k, h.cells.size - (marks rest).length = k + 1 :=
      ⟨h.cells.size - (marks rest).length - 1, by omega⟩
    have hk' : h.cells.size - (marks (leaving :: rest)).length ≤ k := by omega
    rw [hk]
    have h1 := Nat.mul_le_mul hzip (weight_mono n hk')
    simp only [weight]
    omega
  unfold enter measure
  by_cases hbm : b ∈ path.insert a
  · simp only [hbm, if_true]
    exact key (.leave a none) (by simp [marks]) rfl
  · simp only [hbm, if_false]
    exact key (.leave a (some b)) (by simp only [marks, List.length_cons]; omega) rfl

/-- A step lowers the cost. -/
theorem cost_step {h : Heap} {c d : Comparison} (hc : Consistent h c)
    (hs : step h c = .more d) : measure h d < measure h c := by
  obtain ⟨tasks, path⟩ := c
  unfold step at hs
  split at hs
  · cases hs
  · next ht =>
    cases hs
    simp only at ht
    subst ht
    simp only [measure, cost]
    omega
  · next x y rest ht =>
    simp only at ht
    subst ht
    have hrest : Consistent h ⟨rest, path⟩ := ⟨hc.nodup, hc.mem_path, hc.lt_size⟩
    have hpos := weight_pos (fanout h.cells.toList) (h.cells.size - (marks rest).length)
    split at hs
    · cases hs
      simp only [measure, cost]
      omega
    · cases hs
    · next a b pairs hsh =>
      obtain ⟨ca, cb, ha, hb, rfl⟩ := shallow_descend hsh
      split at hs
      · cases hs
        simp only [measure, cost]
        omega
      · next hnew =>
        cases hs
        exact cost_enter hrest ha hnew x y

/-! ## The loop -/

/-- Performs tasks until a difference is found or none is left. -/
def run (h : Heap) (c : Comparison) (hc : Consistent h c) : Bool :=
  match hs : step h c with
  | .done answer => answer
  | .more d => run h d (consistent_step hc hs)
termination_by measure h c
decreasing_by exact cost_step hc hs

end Comparison

/-- Are the values equal in structure? -/
def Heap.same (h : Heap) (x y : Word) : Bool :=
  Comparison.run h (.start x y) (Comparison.consistent_start h x y)

end ValueHeap
