import Mathlib.Data.Finset.Dedup
import ValueHeap.Proofs.Structure

/-!
# Comparison by marks

The loop over tasks is a recursion over the fields: `sameUnder marked x y` compares `x` and `y` while the
blocks of `marked` are on the path. A composite on the left that is marked is taken for equal to its
partner; otherwise both blocks are marked for the comparison of the fields, and only for it.

Results:
* `sameUnder_eq_true_iff`: what an answer says about the surfaces and the fields.
* `run_eq_verdict`: the loop answers for each task on its list what the recursion does under the marks
  that are left when the task's turn comes; `same_eq_sameUnder` is the case of a whole comparison.
* `IsBisimulation.sameUnder`: values that a bisimulation relates are never told apart, whatever is marked
  and on cyclic heaps too.
* `IsMarkedRecursion` gives the equations of the recursion in terms of agreeing and pairing surfaces. They
  have one solution, and the loop computes it (`run_eq_recursion`).
-/

namespace ValueHeap

namespace Heap

variable {h : Heap}

/-- Entering a pair leaves fewer blocks unmarked. -/
theorem card_unmarked_lt {x y : Word} {a b : BlockId} {pairs : List (Word × Word)}
    {marked : Finset BlockId} (hs : h.shallow x y = .descend a b pairs) (ha : a ∉ marked) :
    (Finset.range h.cells.size \ insert a (insert b marked)).card <
      (Finset.range h.cells.size \ marked).card := by
  obtain ⟨c, -, hc, -, -⟩ := Comparison.shallow_descend hs
  have hrange : a ∈ Finset.range h.cells.size :=
    Finset.mem_range.mpr (Comparison.lt_size_of_cell? hc)
  have hsub : Finset.range h.cells.size \ insert a (insert b marked) ⊆
      Finset.range h.cells.size \ marked :=
    Finset.sdiff_subset_sdiff (Finset.Subset.refl _)
      ((Finset.subset_insert b marked).trans (Finset.subset_insert a _))
  refine Finset.card_lt_card ((Finset.ssubset_iff_of_subset hsub).mpr ⟨a, ?_, ?_⟩)
  · exact Finset.mem_sdiff.mpr ⟨hrange, ha⟩
  · exact fun hmem => (Finset.mem_sdiff.mp hmem).2 (Finset.mem_insert_self a _)

/-- Are the values equal, if a marked block on the left counts as equal to its partner? -/
def sameUnder (h : Heap) (marked : Finset BlockId) (x y : Word) : Bool :=
  match _ : h.shallow x y with
  | .agree => true
  | .differ => false
  | .descend a b pairs =>
    if _ : a ∈ marked then true
    else pairs.all fun p => sameUnder h (insert a (insert b marked)) p.1 p.2
termination_by (Finset.range h.cells.size \ marked).card
decreasing_by exact card_unmarked_lt ‹_› ‹_›

variable {marked : Finset BlockId} {x y : Word}

theorem sameUnder_of_agree (hs : h.shallow x y = .agree) : h.sameUnder marked x y = true := by
  rw [sameUnder]
  split <;> simp_all

theorem sameUnder_of_differ (hs : h.shallow x y = .differ) : h.sameUnder marked x y = false := by
  rw [sameUnder]
  split <;> simp_all

theorem sameUnder_of_descend {a b : BlockId} {pairs : List (Word × Word)}
    (hs : h.shallow x y = .descend a b pairs) :
    h.sameUnder marked x y = (decide (a ∈ marked) ||
      pairs.all fun p => h.sameUnder (insert a (insert b marked)) p.1 p.2) := by
  rw [sameUnder]
  split
  · next hs' => exact absurd (hs.symm.trans hs') (by simp)
  · next hs' => exact absurd (hs.symm.trans hs') (by simp)
  · next a' b' pairs' hs' =>
    cases hs.symm.trans hs'
    by_cases ha : a ∈ marked
    · simp [ha]
    · simp [ha]

/-- A test of all pairs of two lists, by position. -/
theorem all_zip_eq_true_iff {us vs : List Word} {test : Word → Word → Bool} :
    ((us.zip vs).all fun p => test p.1 p.2) = true ↔
      ∀ (i : Nat) (u v : Word), us[i]? = some u → vs[i]? = some v → test u v = true := by
  rw [List.all_eq_true]
  constructor
  · intro hall i u v hu hv
    exact hall (u, v) (List.mem_of_getElem? (List.getElem?_zip_eq_some.mpr ⟨hu, hv⟩))
  · intro hall p hp
    obtain ⟨i, hi⟩ := List.mem_iff_getElem?.mp hp
    obtain ⟨hu, hv⟩ := List.getElem?_zip_eq_some.mp hi
    exact hall i p.1 p.2 hu hv

/-- **What an answer says.** -/
theorem sameUnder_eq_true_iff : h.sameUnder marked x y = true ↔
    (h.surface x).Agrees (h.surface y) ∨
      ∃ a b, x = .reference a ∧ y = .reference b ∧ (h.surface x).Pairs (h.surface y) ∧
        (a ∈ marked ∨ ∀ (i : Nat) (u v : Word), (h.parts x)[i]? = some u →
          (h.parts y)[i]? = some v → h.sameUnder (insert a (insert b marked)) u v = true) := by
  rcases shallow_cases h x y with ⟨hs, hagree⟩ | ⟨a, b, rfl, rfl, -, hs, hpairs⟩ |
    ⟨hs, hagree, hpairs⟩
  · exact iff_of_true (sameUnder_of_agree hs) (Or.inl hagree)
  · rw [sameUnder_of_descend hs, Bool.or_eq_true, decide_eq_true_iff, all_zip_eq_true_iff]
    constructor
    · exact fun hfields => Or.inr ⟨a, b, rfl, rfl, hpairs, hfields⟩
    · rintro (hagree | ⟨a', b', heqa, heqb, -, hfields⟩)
      · rw [shallow_of_agrees hagree] at hs
        cases hs
      · cases heqa
        cases heqb
        exact hfields
  · rw [sameUnder_of_differ hs]
    refine iff_of_false Bool.false_ne_true ?_
    rintro (hyes | ⟨-, -, -, -, hyes, -⟩)
    · exact hagree hyes
    · exact hpairs hyes

/-- **Induction along a comparison**: into the fields of two different composites whose left block is not
marked yet. -/
theorem sameUnder_induction {motive : Finset BlockId → Word → Word → Prop}
    (step : ∀ marked x y, (∀ a b, x = .reference a → y = .reference b → x ≠ y →
      (h.surface x).Pairs (h.surface y) → a ∉ marked →
      ∀ (i : Nat) (u v : Word), (h.parts x)[i]? = some u → (h.parts y)[i]? = some v →
        motive (insert a (insert b marked)) u v) → motive marked x y)
    (marked : Finset BlockId) (x y : Word) : motive marked x y := by
  refine step marked x y fun a b hx hy hne hpairs ha i u v _ _ => ?_
  exact sameUnder_induction step (insert a (insert b marked)) u v
termination_by (Finset.range h.cells.size \ marked).card
decreasing_by
  obtain ⟨a', b', ha', hb', hs⟩ := shallow_of_pairs hne hpairs
  cases hx.symm.trans ha'
  cases hy.symm.trans hb'
  exact card_unmarked_lt hs ha

/-- **Bisimilar values are never told apart**, whatever is marked. -/
theorem IsBisimulation.sameUnder {R : Word → Word → Prop} (hR : h.IsBisimulation R)
    (marked : Finset BlockId) (x y : Word) (hxy : R x y) : h.sameUnder marked x y = true := by
  induction marked, x, y using sameUnder_induction (h := h) with
  | step marked x y ih =>
    rw [sameUnder_eq_true_iff]
    by_cases heq : x = y
    · exact Or.inl (.identical heq)
    rcases hR.cases x y hxy with hagree | ⟨hpairs, hparts⟩
    · exact Or.inl hagree
    obtain ⟨a, b, rfl, rfl, -⟩ := shallow_of_pairs heq hpairs
    refine Or.inr ⟨a, b, rfl, rfl, hpairs, or_iff_not_imp_left.mpr fun ha i u v hu hv => ?_⟩
    exact ih a b rfl rfl heq hpairs ha i u v hu hv (hparts i u v hu hv)

/-- Values of the same structure are never told apart. -/
theorem Alike.sameUnder (hxy : h.Alike x y) : h.sameUnder marked x y = true :=
  (isBisimulation_alike h).sameUnder marked x y hxy

end Heap

/-! ## The loop -/

namespace Comparison

open Heap

variable {h : Heap}

/-- The answer that the recursion gives for all tasks on a list. A comparison runs under the marks that
the tasks after it will take away. -/
def verdict (h : Heap) : List Task → Bool
  | [] => true
  | .leave _ _ :: rest => verdict h rest
  | .compare x y :: rest => h.sameUnder (marks rest).toFinset x y && verdict h rest

theorem verdict_append_compares (pairs : List (Word × Word)) (rest : List Task) :
    verdict h (pairs.map (fun p => Task.compare p.1 p.2) ++ rest) =
      ((pairs.all fun p => h.sameUnder (marks rest).toFinset p.1 p.2) && verdict h rest) := by
  induction pairs with
  | nil => rfl
  | cons p ps ih =>
    rw [List.map_cons, List.cons_append, verdict, marks_append_compares, ih, List.all_cons,
      Bool.and_assoc]

/-- Entering a pair marks both its blocks, for the comparison of the fields only. -/
theorem verdict_enter {a b : BlockId} {pairs : List (Word × Word)} {rest : List Task}
    {path : Std.HashSet BlockId} (hc : Consistent h ⟨rest, path⟩) :
    verdict h (enter a b pairs rest path).tasks =
      ((pairs.all fun p => h.sameUnder (insert a (insert b (marks rest).toFinset)) p.1 p.2) &&
        verdict h rest) := by
  unfold enter
  by_cases hb : b ∈ path.insert a
  · -- the right block was marked before, so that marking it again changes nothing
    have hmem : b ∈ insert a (marks rest).toFinset := by
      rw [Finset.mem_insert, List.mem_toFinset]
      rw [Std.HashSet.mem_insert, beq_iff_eq, hc.mem_path] at hb
      exact hb.imp_left Eq.symm
    have hmarks : (marks (.leave a none :: rest)).toFinset =
        insert a (insert b (marks rest).toFinset) := by
      rw [marks, List.toFinset_cons, Finset.insert_comm a b, Finset.insert_eq_of_mem hmem]
    simp only [hb, if_true]
    rw [verdict_append_compares, hmarks, verdict]
  · simp only [hb, if_false]
    rw [verdict_append_compares, marks, List.toFinset_cons, List.toFinset_cons, verdict]

/-- **A step keeps the verdict.** -/
theorem verdict_step {c d : Comparison} (hc : Consistent h c) (hs : step h c = .more d) :
    verdict h d.tasks = verdict h c.tasks := by
  obtain ⟨tasks, path⟩ := c
  unfold step at hs
  split at hs
  · cases hs
  · next ht =>
    cases hs
    simp only at ht
    rw [ht, verdict]
  · next x y rest ht =>
    simp only at ht
    subst ht
    have hrest : Consistent h ⟨rest, path⟩ := ⟨hc.nodup, hc.mem_path, hc.lt_size⟩
    split at hs
    · next hsh =>
      cases hs
      rw [verdict, sameUnder_of_agree hsh, Bool.true_and]
    · cases hs
    · next a b pairs hsh =>
      have hmem : a ∈ (marks rest).toFinset ↔ a ∈ path := by
        rw [List.mem_toFinset]
        exact (hrest.mem_path a).symm
      rw [verdict, sameUnder_of_descend hsh]
      split at hs
      · next ha =>
        cases hs
        rw [decide_eq_true (hmem.mpr ha), Bool.true_or, Bool.true_and]
      · next ha =>
        cases hs
        rw [verdict_enter hrest, decide_eq_false (fun hm => ha (hmem.mp hm)), Bool.false_or]

/-- The loop stops with the verdict. -/
theorem verdict_done {c : Comparison} {answer : Bool} (hs : step h c = .done answer) :
    verdict h c.tasks = answer := by
  obtain ⟨tasks, path⟩ := c
  unfold step at hs
  split at hs
  · next ht =>
    cases hs
    simp only at ht
    rw [ht, verdict]
  · cases hs
  · next x y rest ht =>
    simp only at ht
    rw [ht]
    split at hs
    · cases hs
    · next hsh =>
      cases hs
      rw [verdict, sameUnder_of_differ hsh, Bool.false_and]
    · split at hs <;> cases hs

/-- **The loop answers what the recursion does** for the tasks on its list. -/
theorem run_eq_verdict (c : Comparison) (hc : Consistent h c) : run h c hc = verdict h c.tasks := by
  rw [run]
  split
  · next answer hs => exact (verdict_done hs).symm
  · next d hs => rw [run_eq_verdict d (consistent_step hc hs), verdict_step hc hs]
termination_by measure h c
decreasing_by exact cost_step hc ‹_›

end Comparison

/-- **The comparison of two values is the recursion**, with nothing marked. -/
theorem Heap.same_eq_sameUnder (h : Heap) (x y : Word) : h.same x y = h.sameUnder ∅ x y := by
  rw [same, Comparison.run_eq_verdict]
  exact Bool.and_true _

/-! ## The equations of the recursion -/

namespace Heap

/-- `eq marked x y` follows the equations of a comparison by recursion over the fields, with the blocks
of `marked` on the path. -/
structure IsMarkedRecursion (h : Heap) (eq : Finset BlockId → Word → Word → Bool) : Prop where
  /-- A word is equal to itself. -/
  identical : ∀ marked x, eq marked x x = true
  /-- Values that are not two composites of one shape and size are equal by what they show. -/
  leaf : ∀ marked x y, ¬ (h.surface x).Pairs (h.surface y) →
    (eq marked x y = true ↔ (h.surface x).Agrees (h.surface y))
  /-- A composite that is marked on the left is taken for equal to its partner. -/
  onPath : ∀ marked a b, (h.surface (.reference a)).Pairs (h.surface (.reference b)) →
    a ∈ marked → eq marked (.reference a) (.reference b) = true
  /-- Any other pair of composites is compared field by field, first to last, with both blocks marked. -/
  fields : ∀ marked a b, a ≠ b → (h.surface (.reference a)).Pairs (h.surface (.reference b)) →
    a ∉ marked → eq marked (.reference a) (.reference b) =
      ((h.fieldsOf a).zip (h.fieldsOf b)).all fun p => eq (insert a (insert b marked)) p.1 p.2

variable {h : Heap}

theorem isMarkedRecursion_sameUnder (h : Heap) : h.IsMarkedRecursion h.sameUnder where
  identical marked x := sameUnder_of_agree (if_pos rfl)
  leaf marked x y hpairs := by
    rw [sameUnder_eq_true_iff]
    constructor
    · rintro (hagree | ⟨-, -, -, -, hyes, -⟩)
      · exact hagree
      · exact absurd hyes hpairs
    · exact Or.inl
  onPath marked a b hpairs ha :=
    sameUnder_eq_true_iff.mpr (Or.inr ⟨a, b, rfl, rfl, hpairs, Or.inl ha⟩)
  fields marked a b hne hpairs ha := by
    have hne' : Word.reference a ≠ .reference b := fun heq => hne (Word.reference.inj heq)
    obtain ⟨a', b', heqa, heqb, hs⟩ := shallow_of_pairs hne' hpairs
    cases heqa
    cases heqb
    rw [sameUnder_of_descend hs, decide_eq_false ha, Bool.false_or]
    rfl

/-- The equations leave no choice, since every pair of composites that is entered leaves fewer blocks
unmarked. -/
theorem IsMarkedRecursion.eq_sameUnder {eq : Finset BlockId → Word → Word → Bool}
    (heq : h.IsMarkedRecursion eq) (marked : Finset BlockId) (x y : Word) :
    eq marked x y = h.sameUnder marked x y := by
  have hrec := isMarkedRecursion_sameUnder h
  induction marked, x, y using sameUnder_induction (h := h) with
  | step marked x y ih =>
    by_cases hxy : x = y
    · subst hxy
      rw [heq.identical, hrec.identical]
    by_cases hpairs : (h.surface x).Pairs (h.surface y)
    · obtain ⟨a, b, rfl, rfl, -⟩ := shallow_of_pairs hxy hpairs
      by_cases ha : a ∈ marked
      · rw [heq.onPath marked a b hpairs ha, hrec.onPath marked a b hpairs ha]
      · have hne : a ≠ b := fun hab => hxy (congrArg Word.reference hab)
        rw [heq.fields marked a b hne hpairs ha, hrec.fields marked a b hne hpairs ha, Bool.eq_iff_iff,
          all_zip_eq_true_iff, all_zip_eq_true_iff]
        refine forall_congr' fun i => forall_congr' fun u => forall_congr' fun v =>
          forall_congr' fun hu => forall_congr' fun hv => ?_
        rw [ih a b rfl rfl hxy hpairs ha i u v hu hv]
    · rw [Bool.eq_iff_iff, heq.leaf marked x y hpairs, hrec.leaf marked x y hpairs]

/-- **The loop over tasks refines the recursion**: one function satisfies the equations, and on every heap
the loop computes it, with nothing marked. -/
theorem run_eq_recursion (h : Heap) :
    (∃! eq, h.IsMarkedRecursion eq) ∧
      ∀ eq, h.IsMarkedRecursion eq → ∀ x y,
        Comparison.run h (.start x y) (Comparison.consistent_start h x y) = eq ∅ x y := by
  constructor
  · refine ⟨h.sameUnder, isMarkedRecursion_sameUnder h, fun eq heq => ?_⟩
    funext marked x y
    exact heq.eq_sameUnder marked x y
  · intro eq heq x y
    rw [heq.eq_sameUnder]
    exact same_eq_sameUnder h x y

end Heap

end ValueHeap
