import Mathlib.Data.Finset.Card
import Mathlib.Data.Finset.Range
import Mathlib.Logic.Relation
import ValueHeap.Heap.Basic

/-!
# The graph of fields

The live blocks of a heap are the nodes of a graph, and the references in their fields are its edges.
The fields of closures count like those of every other composite.

* `Holds a b`: block `a` has a field that refers to block `b`; `Reaches w b`: the value `w` leads to
  block `b` over any number of fields.
* `Acyclic`: no block leads back to itself; `AcyclicFrom w`: no block that `w` reaches does.

Results:
* `AcyclicFrom.induction`: a heap is finite, so what holds of a value whenever it holds of the values in
  its fields holds of every value that reaches no cycle.
* `Acyclic.isHeight_height`: on a heap without cycles every value has a height, one more than that of its
  highest field.
-/

namespace ValueHeap

namespace Heap

/-- The words in the fields of a live block. -/
def fieldsOf (h : Heap) (b : BlockId) : List Word := ((h.cell? b).map fun c => c.block.fields).getD []

/-- The words in the fields of a value; immediates have none. -/
def parts (h : Heap) : Word → List Word
  | .immediate _ => []
  | .reference b => h.fieldsOf b

/-- A field of block `a` refers to block `b`. -/
def Holds (h : Heap) (a b : BlockId) : Prop := .reference b ∈ h.fieldsOf a

/-- The value leads to block `b` over any number of fields. -/
def Reaches (h : Heap) (w : Word) (b : BlockId) : Prop :=
  ∃ a, w = .reference a ∧ Relation.ReflTransGen h.Holds a b

/-- No block leads back to itself. -/
def Acyclic (h : Heap) : Prop := ∀ b, ¬ Relation.TransGen h.Holds b b

/-- No block that the value reaches leads back to itself. -/
def AcyclicFrom (h : Heap) (w : Word) : Prop :=
  ∀ b, h.Reaches w b → ¬ Relation.TransGen h.Holds b b

variable {h : Heap}

theorem fieldsOf_of_cell? {b : BlockId} {c : Cell} (hc : h.cell? b = some c) :
    h.fieldsOf b = c.block.fields := by
  rw [fieldsOf, hc]
  rfl

theorem fieldsOf_of_dead {b : BlockId} (hc : h.cell? b = none) : h.fieldsOf b = [] := by
  rw [fieldsOf, hc]
  rfl

theorem cell?_eq_none_of_le {b : BlockId} (hb : h.cells.size ≤ b) : h.cell? b = none := by
  rw [cell?, Array.getElem?_eq_none hb]
  rfl

theorem lt_size_of_isSome {b : BlockId} (hb : (h.cell? b).isSome) : b < h.cells.size := by
  by_contra hlt
  rw [cell?_eq_none_of_le (Nat.le_of_not_lt hlt)] at hb
  cases hb

/-- Only names that were given out have fields. -/
theorem lt_size_of_mem_fieldsOf {b : BlockId} {w : Word} (hw : w ∈ h.fieldsOf b) :
    b < h.cells.size := by
  by_contra hb
  rw [fieldsOf_of_dead (cell?_eq_none_of_le (Nat.le_of_not_lt hb))] at hw
  exact absurd hw List.not_mem_nil

/-! ## Reaching -/

theorem Reaches.refl (b : BlockId) : h.Reaches (.reference b) b := ⟨b, rfl, .refl⟩

/-- What a field reaches, the value reaches. -/
theorem Reaches.of_part {w x : Word} {b : BlockId} (hx : x ∈ h.parts w) (hb : h.Reaches x b) :
    h.Reaches w b := by
  obtain ⟨a, rfl, hab⟩ := hb
  cases w with
  | immediate p => exact absurd hx List.not_mem_nil
  | reference c => exact ⟨c, rfl, .head hx hab⟩

/-- A block reaches itself and what its fields reach. -/
theorem reaches_reference_iff {a b : BlockId} :
    h.Reaches (.reference a) b ↔ b = a ∨ ∃ x ∈ h.fieldsOf a, h.Reaches x b := by
  constructor
  · rintro ⟨_, ⟨rfl⟩, hab⟩
    rcases Relation.ReflTransGen.cases_head hab with rfl | ⟨c, hac, hcb⟩
    · exact Or.inl rfl
    · exact Or.inr ⟨.reference c, hac, c, rfl, hcb⟩
  · rintro (rfl | ⟨x, hx, hxb⟩)
    · exact .refl b
    · exact hxb.of_part hx

/-- A block that is reached from one of its own fields lies on a cycle. -/
theorem transGen_of_part_reaches {a b : BlockId} {x : Word} (hx : x ∈ h.fieldsOf a)
    (hb : h.Reaches x b) : Relation.TransGen h.Holds a b := by
  obtain ⟨c, rfl, hcb⟩ := hb
  exact Relation.TransGen.head' hx hcb

theorem AcyclicFrom.of_part {w x : Word} (hw : h.AcyclicFrom w) (hx : x ∈ h.parts w) :
    h.AcyclicFrom x :=
  fun b hb => hw b (hb.of_part hx)

/-- The fields of a block lead neither back to it nor to anything that it does not reach itself. -/
theorem AcyclicFrom.not_reaches_of_part {a : BlockId} {x : Word} (ha : h.AcyclicFrom (.reference a))
    (hx : x ∈ h.fieldsOf a) {above : List BlockId} (habove : ∀ b ∈ above, ¬ h.Reaches (.reference a) b) :
    ∀ b ∈ a :: above, ¬ h.Reaches x b := by
  intro b hb hreach
  rcases List.mem_cons.mp hb with rfl | hb
  · exact ha b (.refl b) (transGen_of_part_reaches hx hreach)
  · exact habove b hb (hreach.of_part (w := .reference a) hx)

theorem Acyclic.acyclicFrom (ha : h.Acyclic) (w : Word) : h.AcyclicFrom w := fun b _ => ha b

/-- A heap in which every field refers to an older block has no cycle. -/
theorem acyclic_of_lt (hlt : ∀ a b, h.Holds a b → b < a) : h.Acyclic := by
  have key {a b : BlockId} (hab : Relation.TransGen h.Holds a b) : b < a := by
    induction hab with
    | single hab => exact hlt _ _ hab
    | tail _ hbc ih => exact Nat.lt_trans (hlt _ _ hbc) ih
  exact fun b hb => Nat.lt_irrefl b (key hb)

/-- Does every field refer to an older block? -/
def pointsBack (h : Heap) : Bool :=
  (List.range h.cells.size).all fun a => (h.fieldsOf a).all fun w =>
    match w with
    | .immediate _ => true
    | .reference b => b < a

theorem acyclic_of_pointsBack (hback : h.pointsBack = true) : h.Acyclic := by
  refine acyclic_of_lt fun a b hab => ?_
  have hrange : a ∈ List.range h.cells.size := List.mem_range.mpr (lt_size_of_mem_fieldsOf hab)
  have hfields := List.all_eq_true.mp hback a hrange
  exact of_decide_eq_true (List.all_eq_true.mp hfields (.reference b) hab)

/-! ## Induction along the fields -/

/-- The chain of blocks that lead to `a` grows with every field that is followed, and has no block
twice, so it is never longer than the heap. -/
theorem acc_of_chain (n : Nat) (chain : Finset BlockId) {a : BlockId}
    (hchain : ∀ v ∈ chain, v < h.cells.size ∧ Relation.TransGen h.Holds v a)
    (ha : h.AcyclicFrom (.reference a)) (hn : h.cells.size < n + chain.card) :
    Acc (Function.swap h.Holds) a := by
  induction n generalizing chain a with
  | zero =>
    have hsub : chain ⊆ Finset.range h.cells.size := fun v hv =>
      Finset.mem_range.mpr (hchain v hv).1
    have hcard := Finset.card_le_card hsub
    rw [Finset.card_range] at hcard
    omega
  | succ n ih =>
    refine Acc.intro a fun b hab => ?_
    have hnew : a ∉ chain := fun hm => ha a (.refl a) (hchain a hm).2
    refine ih (insert a chain) (fun v hv => ?_) (ha.of_part hab) ?_
    · rcases Finset.mem_insert.mp hv with rfl | hv
      · exact ⟨lt_size_of_mem_fieldsOf hab, .single hab⟩
      · exact ⟨(hchain v hv).1, (hchain v hv).2.tail hab⟩
    · rw [Finset.card_insert_of_notMem hnew]
      omega

theorem AcyclicFrom.acc {a : BlockId} (ha : h.AcyclicFrom (.reference a)) :
    Acc (Function.swap h.Holds) a :=
  acc_of_chain (h.cells.size + 1) ∅ (fun v hv => absurd hv (Finset.notMem_empty v)) ha (by simp)

/-- **Induction along the fields** of a value that reaches no cycle. -/
theorem AcyclicFrom.induction {motive : Word → Prop}
    (step : ∀ w, h.AcyclicFrom w → (∀ x ∈ h.parts w, motive x) → motive w) {w : Word}
    (hw : h.AcyclicFrom w) : motive w := by
  have ofBlock {a : BlockId} (hacc : Acc (Function.swap h.Holds) a)
      (ha : h.AcyclicFrom (.reference a)) : motive (.reference a) := by
    induction hacc with
    | intro a _ ih =>
      refine step _ ha fun x hx => ?_
      cases x with
      | immediate p =>
        exact step _ (ha.of_part hx) fun y hy => absurd hy List.not_mem_nil
      | reference b => exact ih b hx (ha.of_part hx)
  cases w with
  | immediate p => exact step _ hw fun y hy => absurd hy List.not_mem_nil
  | reference a => exact ofBlock hw.acc hw

/-! ## Heights -/

/-- `height` is one more than that of the highest field, and 0 for a value without fields. -/
structure IsHeight (h : Heap) (height : Word → Nat) : Prop where
  part_lt : ∀ w, ∀ x ∈ h.parts w, height x < height w
  attained : ∀ w, 0 < height w → ∃ x ∈ h.parts w, height w = height x + 1

theorem Acyclic.wellFounded (ha : h.Acyclic) : WellFounded fun x w : Word => x ∈ h.parts w := by
  refine ⟨fun w => AcyclicFrom.induction (fun w _ ih => ?_) (ha.acyclicFrom w)⟩
  exact Acc.intro w fun x hx => ih x hx

/-- The height of a value, by recursion along the fields. -/
noncomputable def Acyclic.height (ha : h.Acyclic) : Word → Nat :=
  ha.wellFounded.fix fun w ih => ((h.parts w).attach.map fun x => ih x.1 x.2 + 1).max?.getD 0

theorem Acyclic.height_eq (ha : h.Acyclic) (w : Word) :
    ha.height w = ((h.parts w).map fun x => ha.height x + 1).max?.getD 0 := by
  rw [show ha.height w = _ from ha.wellFounded.fix_eq _ w]
  exact congrArg (fun heights : List Nat => heights.max?.getD 0)
    (List.attach_map_val (f := fun x => ha.height x + 1))

/-- **Every value on a heap without cycles has a height.** -/
theorem Acyclic.isHeight_height (ha : h.Acyclic) : h.IsHeight ha.height where
  part_lt w x hx := by
    rw [ha.height_eq w]
    exact List.le_max?_getD_of_mem (List.mem_map.mpr ⟨x, hx, rfl⟩)
  attained w hpos := by
    have heq := ha.height_eq w
    cases hmax : ((h.parts w).map fun x => ha.height x + 1).max? with
    | none =>
      rw [heq, hmax] at hpos
      exact absurd hpos (Nat.lt_irrefl 0)
    | some top =>
      rw [hmax] at heq
      obtain ⟨x, hx, htop⟩ := List.mem_map.mp (List.max?_mem hmax)
      exact ⟨x, hx, heq.trans htop.symm⟩

/-- The height of the highest block. -/
noncomputable def Acyclic.maxHeight (ha : h.Acyclic) : Nat :=
  ((List.range h.cells.size).map fun a => ha.height (.reference a)).max?.getD 0

theorem Acyclic.height_le_maxHeight (ha : h.Acyclic) {a : BlockId} (hlt : a < h.cells.size) :
    ha.height (.reference a) ≤ ha.maxHeight :=
  List.le_max?_getD_of_mem (List.mem_map.mpr ⟨a, List.mem_range.mpr hlt, rfl⟩)

variable {height : Word → Nat}

/-- What a value reaches is not higher than the value. -/
theorem IsHeight.le_of_reaches (hh : h.IsHeight height) {w : Word} {b : BlockId}
    (hb : h.Reaches w b) : height (.reference b) ≤ height w := by
  obtain ⟨a, rfl, hab⟩ := hb
  induction hab with
  | refl => exact Nat.le_refl _
  | tail _ hbc ih => exact Nat.le_trans (Nat.le_of_lt (hh.part_lt (.reference _) _ hbc)) ih

end Heap

end ValueHeap
