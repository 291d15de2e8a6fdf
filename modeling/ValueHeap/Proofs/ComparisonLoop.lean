import ValueHeap.Proofs.Census
import ValueHeap.Proofs.Marking

/-!
# The loop of a comparison ends

`iterate` performs a number of tasks and nothing else: no invariant goes with it and nothing makes it
stop. On every heap, cyclic or not, it stops by itself, and on its way the marked blocks are those that
the `leave` tasks on the list name, each once.

* `step_cases` says what a step that does not end the loop can do.
* `iterate_preserves`: what every step keeps holds at every iteration. So it is with the marks
  (`consistent_step`) and with the liveness of the marked blocks (`marked_live_step`).
* `iterate_ends`: the cost falls at every step, so it bounds the number of iterations.

Results:
* `Heap.comparison_ends`: the loop ends with the answer of the comparison, and at every iteration the
  path is the disjoint union of what the `leave` tasks name.
-/

namespace ValueHeap

namespace Comparison

variable {h : Heap} {c d : Comparison}

/-- The comparison after a number of iterations of the loop, or its answer. -/
def iterate (h : Heap) : Nat → Comparison → Progress
  | 0, c => .more c
  | n + 1, c =>
    match step h c with
    | .done answer => .done answer
    | .more next => iterate h n next

theorem iterate_of_done {answer : Bool} (hs : step h c = .done answer) (n : Nat) :
    iterate h (n + 1) c = .done answer := by
  simp only [iterate, hs]

theorem iterate_of_more (hs : step h c = .more d) (n : Nat) :
    iterate h (n + 1) c = iterate h n d := by
  simp only [iterate, hs]

/-- What a step does that does not end the loop: it leaves a pair, it settles a comparison, or it enters
a pair of composites whose left block is not marked. -/
theorem step_cases (hs : step h c = .more d) :
    (∃ a b rest, c.tasks = .leave a b :: rest ∧ d = ⟨rest, unmark c.path a b⟩) ∨
      (∃ x y rest, c.tasks = .compare x y :: rest ∧ d = ⟨rest, c.path⟩) ∨
      ∃ x y rest a b pairs, c.tasks = .compare x y :: rest ∧ h.shallow x y = .descend a b pairs ∧
        a ∉ c.path ∧ d = enter a b pairs rest c.path := by
  unfold step at hs
  split at hs
  · cases hs
  · next a b rest ht =>
    cases hs
    exact Or.inl ⟨a, b, rest, ht, rfl⟩
  · next x y rest ht =>
    split at hs
    · cases hs
      exact Or.inr (Or.inl ⟨x, y, rest, ht, rfl⟩)
    · cases hs
    · next a b pairs hsh =>
      split at hs
      · cases hs
        exact Or.inr (Or.inl ⟨x, y, rest, ht, rfl⟩)
      · next hnew =>
        cases hs
        exact Or.inr (Or.inr ⟨x, y, rest, a, b, pairs, ht, hsh, hnew, rfl⟩)

/-- The loop ends with `true` only when no task is left. -/
theorem tasks_of_done_true (hs : step h c = .done true) : c.tasks = [] := by
  unfold step at hs
  split at hs
  · assumption
  · cases hs
  · split at hs
    · cases hs
    · cases hs
    · split at hs <;> cases hs

/-! ## Every iteration -/

/-- What every step keeps holds at every iteration. -/
theorem iterate_preserves {P : Comparison → Prop} (hstep : ∀ c d, P c → step h c = .more d → P d)
    (n : Nat) (hc : P c) (hn : iterate h n c = .more d) : P d := by
  induction n generalizing c with
  | zero =>
    cases hn
    exact hc
  | succ n ih =>
    cases hs : step h c with
    | done answer =>
      rw [iterate_of_done hs] at hn
      cases hn
    | more e =>
      rw [iterate_of_more hs] at hn
      exact ih (hstep c e hc hs) hn

theorem mem_marks_enter {a b i : BlockId} {pairs : List (Word × Word)} {rest : List Task}
    {path : Std.HashSet BlockId} (hi : i ∈ marks (enter a b pairs rest path).tasks) :
    i = a ∨ i = b ∨ i ∈ marks rest := by
  unfold enter at hi
  by_cases hb : b ∈ path.insert a
  · simp only [hb, if_true, marks_append_compares, marks, List.mem_cons] at hi
    exact hi.imp_right Or.inr
  · simp only [hb, if_false, marks_append_compares, marks, List.mem_cons] at hi
    exact hi

/-- A step marks live blocks only. -/
theorem marked_live_step (hc : ∀ b ∈ marks c.tasks, b ∈ h.live) (hs : step h c = .more d) :
    ∀ b ∈ marks d.tasks, b ∈ h.live := by
  rcases step_cases hs with ⟨a, b, rest, ht, rfl⟩ | ⟨x, y, rest, ht, rfl⟩ |
    ⟨x, y, rest, a, b, pairs, ht, hsh, -, rfl⟩
  · intro i hi
    refine hc i ?_
    rw [ht]
    cases b with
    | none => exact List.mem_cons_of_mem a hi
    | some b => exact List.mem_cons_of_mem a (List.mem_cons_of_mem b hi)
  · intro i hi
    exact hc i (ht ▸ hi)
  · intro i hi
    obtain ⟨ca, cb, ha, hb, -⟩ := shallow_descend hsh
    rcases mem_marks_enter hi with rfl | rfl | hi
    · exact Heap.mem_live.mpr (by rw [ha]; rfl)
    · exact Heap.mem_live.mpr (by rw [hb]; rfl)
    · exact hc i (ht ▸ hi)

/-- The marked blocks are as many as the `leave` tasks name. -/
theorem Consistent.size_path (hc : Consistent h c) : c.path.size = (marks c.tasks).length := by
  have hperm : c.path.toList.Perm (marks c.tasks) := by
    refine (List.perm_ext_iff_of_nodup ?_ hc.nodup).mpr fun b => ?_
    · exact Std.HashSet.distinct_toList.imp fun hne => by simpa using hne
    · rw [Std.HashSet.mem_toList, hc.mem_path]
  rw [← Std.HashSet.length_toList, hperm.length_eq]

/-! ## The end -/

theorem run_of_done {answer : Bool} (hc : Consistent h c) (hs : step h c = .done answer) :
    run h c hc = answer := by
  rw [run]
  split
  · next hs' =>
    cases hs.symm.trans hs'
    rfl
  · next hs' => cases hs.symm.trans hs'

theorem run_of_more (hc : Consistent h c) (hs : step h c = .more d) :
    run h c hc = run h d (consistent_step hc hs) := by
  rw [run]
  split
  · next hs' => cases hs.symm.trans hs'
  · next hs' =>
    cases hs.symm.trans hs'
    rfl

/-- The loop ends within the cost of its tasks. -/
theorem iterate_ends (c : Comparison) (hc : Consistent h c) :
    ∃ n ≤ measure h c + 1, iterate h n c = .done (run h c hc) := by
  cases hs : step h c with
  | done answer =>
    refine ⟨1, Nat.le_add_left 1 _, ?_⟩
    rw [iterate_of_done hs, run_of_done hc hs]
  | more d =>
    have hlt := cost_step hc hs
    obtain ⟨n, hn, hend⟩ := iterate_ends d (consistent_step hc hs)
    refine ⟨n + 1, by omega, ?_⟩
    rw [iterate_of_more hs, hend, run_of_more hc hs]
termination_by measure h c
decreasing_by exact cost_step hc hs

end Comparison

/-- **The comparison of two values ends, on every heap.** The loop stops by itself with the answer of the
comparison, within the cost of comparing the two values. At every iteration the path is the disjoint
union of the blocks that the `leave` tasks on the list name, all of them live, so that it never has more
blocks than the heap; and when the loop answers that the values are equal it is empty. -/
theorem Heap.comparison_ends (h : Heap) (x y : Word) :
    (∃ n ≤ Comparison.measure h (.start x y) + 1,
        Comparison.iterate h n (.start x y) = .done (h.same x y)) ∧
      ∀ (n : Nat) (c : Comparison), Comparison.iterate h n (.start x y) = .more c →
        (Comparison.marks c.tasks).Nodup ∧
        (∀ b, b ∈ c.path ↔ b ∈ Comparison.marks c.tasks) ∧
        (∀ b ∈ c.path, b ∈ h.live) ∧ c.path.size ≤ h.live.card ∧
        (Comparison.step h c = .done true → c.path.isEmpty = true) := by
  refine ⟨Comparison.iterate_ends _ _, fun n c hn => ?_⟩
  have hc : Comparison.Consistent h c :=
    Comparison.iterate_preserves (fun _ _ => Comparison.consistent_step) n
      (Comparison.consistent_start h x y) hn
  have hlive : ∀ b ∈ Comparison.marks c.tasks, b ∈ h.live :=
    Comparison.iterate_preserves (P := fun c => ∀ b ∈ Comparison.marks c.tasks, b ∈ h.live)
      (fun _ _ => Comparison.marked_live_step) n (fun b hb => absurd hb List.not_mem_nil) hn
  refine ⟨hc.nodup, hc.mem_path, fun b hb => hlive b ((hc.mem_path b).mp hb), ?_, fun hdone => ?_⟩
  · rw [hc.size_path, ← List.toFinset_card_of_nodup hc.nodup]
    exact Finset.card_le_card fun b hb => hlive b (List.mem_toFinset.mp hb)
  · rw [Std.HashSet.isEmpty_eq_size_eq_zero, hc.size_path, Comparison.tasks_of_done_true hdone]
    rfl

end ValueHeap
