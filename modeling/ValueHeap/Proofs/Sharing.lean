import ValueHeap.Proofs.Marking
import ValueHeap.Proofs.Sessions

/-!
# Equality on values that share blocks

A comparison marks the blocks of both sides, and takes a marked block on the left for equal to its
partner. On values without cycles this can only go wrong in one way: a block that was marked as a partner
is met again on the left, deeper down. `Enfolds x y` says when that can happen: somewhere in step along
the fields, the right side is a composite that lies inside the left one.

Results:
* `alike_of_sameUnder`: where the left side does not enfold the right one, values found equal are alike.
* `same_iff_trees_alike`: on values without cycles that share no composite, the comparison decides
  equality of the unfoldings.
* `enfolds_iff_not_alike`: on a heap without cycles, values found equal are alike unless the left side
  enfolds the right one, and never when it does.
* `alike_iff_same_both_ways`: being alike is being found equal in both orders.
* `same_comm_iff`: the order of the sides matters exactly where a value is found equal to one that it
  enfolds.
-/

namespace ValueHeap

namespace Heap

/-- The block is a composite other than code, so that equality looks at its fields. -/
def IsStructural (h : Heap) (b : BlockId) : Prop :=
  ∃ shape fields, h.block? (.reference b) = some (.composite shape fields) ∧
    shape.isStructural = true

/-- Somewhere in step along the fields of both values, the right one is a composite inside the left
one. -/
inductive Enfolds (h : Heap) : Word → Word → Prop
  | inside {x u : Word} {b : BlockId} (hu : u ∈ h.parts x) (hb : h.Reaches u b)
      (hs : h.IsStructural b) : Enfolds h x (.reference b)
  | along {x y : Word} {i : Nat} {u v : Word} (hu : (h.parts x)[i]? = some u)
      (hv : (h.parts y)[i]? = some v) (huv : Enfolds h u v) : Enfolds h x y

variable {h : Heap} {x y : Word}

theorem isStructural_of_pairs {b : BlockId} (hxy : (h.surface x).Pairs (h.surface (.reference b))) :
    h.IsStructural b := by
  obtain ⟨shape, -, hy, hcode, -⟩ := exists_shape_of_pairs hxy
  exact ⟨shape, _, hy, hcode⟩

/-! ## Sides that share no composite -/

/-- **Values found equal are alike**, if the left one reaches no cycle and no marked block, and does not
enfold the right one. -/
theorem alike_of_sameUnder (marked : Finset BlockId) (x y : Word) (hx : h.AcyclicFrom x)
    (hmarked : ∀ b ∈ marked, ¬ h.Reaches x b) (henfold : ¬ h.Enfolds x y)
    (hsame : h.sameUnder marked x y = true) : h.Alike x y := by
  induction marked, x, y using sameUnder_induction (h := h) with
  | step marked x y ih =>
    by_cases heq : x = y
    · exact .leaf (.identical heq)
    rcases sameUnder_eq_true_iff.mp hsame with hagree | ⟨a, b, rfl, rfl, hpairs, hfields⟩
    · exact .leaf hagree
    have ha : a ∉ marked := fun ha => hmarked a ha (.refl a)
    refine .node hpairs fun i u v hu hv => ?_
    have hpart : u ∈ h.parts (.reference a) := List.mem_of_getElem? hu
    refine ih a b rfl rfl heq hpairs ha i u v hu hv (hx.of_part hpart) (fun c hc hreach => ?_)
      (fun huv => henfold (.along hu hv huv)) (hfields.resolve_left ha i u v hu hv)
    -- neither the marks of this pair nor the older ones can be met in a field
    rw [Finset.mem_insert, Finset.mem_insert] at hc
    rcases hc with rfl | rfl | hc
    · exact hx c (.refl c) (transGen_of_part_reaches hpart hreach)
    · exact henfold (.inside hpart hreach (isStructural_of_pairs hpairs))
    · exact hmarked c hc (hreach.of_part hpart)

theorem alike_of_same (hx : h.AcyclicFrom x) (henfold : ¬ h.Enfolds x y)
    (hsame : h.same x y = true) : h.Alike x y := by
  rw [same_eq_sameUnder] at hsame
  exact alike_of_sameUnder ∅ x y hx (fun b hb => absurd hb (Finset.notMem_empty b)) henfold hsame

theorem Alike.same (hxy : h.Alike x y) : h.same x y = true := by
  rw [same_eq_sameUnder]
  exact hxy.sameUnder

/-- A value that enfolds another one shares a composite with it. -/
theorem Enfolds.exists_shared (hxy : h.Enfolds x y) :
    ∃ b, h.Reaches x b ∧ h.Reaches y b ∧ h.IsStructural b := by
  induction hxy with
  | inside hu hb hs => exact ⟨_, hb.of_part hu, .refl _, hs⟩
  | along hu hv _ ih =>
    obtain ⟨b, hub, hvb, hs⟩ := ih
    exact ⟨b, hub.of_part (List.mem_of_getElem? hu), hvb.of_part (List.mem_of_getElem? hv), hs⟩

theorem not_enfolds_of_apart (hapart : ∀ b, h.Reaches x b → h.Reaches y b → ¬ h.IsStructural b) :
    ¬ h.Enfolds x y := by
  intro hxy
  obtain ⟨b, hxb, hyb, hs⟩ := hxy.exists_shared
  exact hapart b hxb hyb hs

/-- **The comparison decides equality of unfoldings** on values that reach no cycle and share no
composite. Texts, numbers and code may be shared, and blocks may be shared within each side. -/
theorem same_iff_trees_alike (h : Heap) (x y : Word) (hx : h.AcyclicFrom x) (hy : h.AcyclicFrom y)
    (hapart : ∀ b, h.Reaches x b → h.Reaches y b → ¬ h.IsStructural b) :
    (∃ t, h.Unfolds x t) ∧ (∃ u, h.Unfolds y u) ∧
      ∀ t u, h.Unfolds x t → h.Unfolds y u → (h.same x y = true ↔ t.Alike u) := by
  refine ⟨hx.exists_unfolding, hy.exists_unfolding, fun t u ht hu => ?_⟩
  rw [ht.alike_iff hu]
  exact ⟨alike_of_same hx (not_enfolds_of_apart hapart), Alike.same⟩

/-- A pair that holds one box twice, and a pair of two boxes. All boxes hold the same text; the text of
the first pair is also in a box of the second one. -/
def twins : Heap :=
  ⟨sequential, #[some ⟨2, 16, .text [97]⟩, some ⟨2, 16, .composite .tuple [.reference 0]⟩,
    some ⟨1, 24, .composite .tuple [.reference 1, .reference 1]⟩, some ⟨1, 16, .text [97]⟩,
    some ⟨1, 16, .composite .tuple [.reference 3]⟩, some ⟨1, 16, .composite .tuple [.reference 0]⟩,
    some ⟨1, 24, .composite .tuple [.reference 4, .reference 5]⟩], 7, 128, 7, 0, 0⟩

theorem acyclic_twins : twins.Acyclic := acyclic_of_pointsBack (by decide)

/-- The two pairs share nothing but a text. -/
theorem apart_twins (b : BlockId) (hx : twins.Reaches (.reference 2) b)
    (hy : twins.Reaches (.reference 6) b) : ¬ twins.IsStructural b := by
  have hleft : b = 2 ∨ b = 1 ∨ b = 0 := by
    simpa [reaches_reference_iff, fieldsOf, cell?, twins, Block.fields] using hx
  have hright : b = 6 ∨ (b = 4 ∨ b = 3) ∨ b = 5 ∨ b = 0 := by
    simpa [reaches_reference_iff, fieldsOf, cell?, twins, Block.fields] using hy
  rintro ⟨shape, fields, hblock, -⟩
  rcases hleft with rfl | rfl | rfl
  · exact absurd hright (by decide)
  · exact absurd hright (by decide)
  · cases hblock

theorem same_iff_trees_alike_twins :
    twins.AcyclicFrom (.reference 2) ∧ twins.AcyclicFrom (.reference 6) ∧
      (∀ b, twins.Reaches (.reference 2) b → twins.Reaches (.reference 6) b →
        ¬ twins.IsStructural b) ∧
      (∃ t, twins.Unfolds (.reference 2) t) ∧ (∃ u, twins.Unfolds (.reference 6) u) ∧
      ∀ t u, twins.Unfolds (.reference 2) t → twins.Unfolds (.reference 6) u →
        (twins.same (.reference 2) (.reference 6) = true ↔ t.Alike u) :=
  ⟨acyclic_twins.acyclicFrom _, acyclic_twins.acyclicFrom _, apart_twins,
    same_iff_trees_alike twins _ _ (acyclic_twins.acyclicFrom _) (acyclic_twins.acyclicFrom _)
      apart_twins⟩

/-! ## Heaps without cycles -/

variable {height : Word → Nat}

/-- A value without fields has height 0. -/
theorem IsHeight.eq_zero (hh : h.IsHeight height) (hx : h.parts x = []) : height x = 0 := by
  by_contra hpos
  obtain ⟨u, hu, -⟩ := hh.attained x (Nat.pos_of_ne_zero hpos)
  rw [hx] at hu
  exact absurd hu List.not_mem_nil

/-- The highest field of a value, by its position. -/
theorem IsHeight.exists_highest (hh : h.IsHeight height) (hpos : 0 < height x) :
    ∃ (i : Nat) (u : Word), (h.parts x)[i]? = some u ∧ height x = height u + 1 := by
  obtain ⟨u, hu, heq⟩ := hh.attained x hpos
  obtain ⟨i, hi⟩ := List.mem_iff_getElem?.mp hu
  exact ⟨i, u, hi, heq⟩

theorem IsHeight.lt_of_getElem? (hh : h.IsHeight height) {i : Nat} {u : Word}
    (hu : (h.parts x)[i]? = some u) : height u < height x :=
  hh.part_lt x u (List.mem_of_getElem? hu)

theorem IsHeight.eq_of_agrees (hh : h.IsHeight height) (hxy : (h.surface x).Agrees (h.surface y)) :
    height x = height y := by
  rcases parts_of_agrees hxy with rfl | ⟨hx, hy⟩
  · rfl
  · rw [hh.eq_zero hx, hh.eq_zero hy]

/-- A partner for every field. -/
theorem exists_partner (hlen : (h.parts x).length = (h.parts y).length) {i : Nat} {u : Word}
    (hu : (h.parts x)[i]? = some u) : ∃ v, (h.parts y)[i]? = some v := by
  have hlt : i < (h.parts y).length := by
    rw [← hlen]
    exact (List.getElem?_eq_some_iff.mp hu).1
  exact ⟨_, List.getElem?_eq_getElem hlt⟩

/-- Values of the same structure have the same height. -/
theorem Alike.height_eq (hh : h.IsHeight height) (hxy : h.Alike x y) : height x = height y := by
  have key {x y : Word} (hlen : (h.parts x).length = (h.parts y).length)
      (hparts : ∀ (i : Nat) (u v : Word), (h.parts x)[i]? = some u → (h.parts y)[i]? = some v →
        height u = height v) : height x ≤ height y := by
    by_contra hlt
    obtain ⟨i, u, hu, heq⟩ := hh.exists_highest (x := x) (by omega)
    obtain ⟨v, hv⟩ := exists_partner hlen hu
    have huv := hparts i u v hu hv
    have hvy := hh.lt_of_getElem? hv
    omega
  induction hxy with
  | leaf hxy => exact hh.eq_of_agrees hxy
  | node hxy _ ih =>
    have hlen := length_parts_of_pairs hxy
    exact Nat.le_antisymm (key hlen ih)
      (key hlen.symm fun i u v hu hv => (ih i v u hv hu).symm)

/-- A value that enfolds another one has another structure: where the right side lies inside the left
one, it is lower. -/
theorem Enfolds.not_alike (hh : h.IsHeight height) (hxy : h.Enfolds x y) : ¬ h.Alike x y := by
  induction hxy with
  | inside hu hb _ =>
    intro halike
    have hle := hh.le_of_reaches hb
    have hlt := hh.part_lt _ _ hu
    have heq := halike.height_eq hh
    omega
  | along hu hv _ ih => exact fun halike => ih (halike.part hu hv)

/-- The marks of a pair lie above its fields. -/
theorem lt_height_of_mem_insert {marked : Finset BlockId} {a b : BlockId} {u : Word}
    (ha : height u < height (.reference a)) (hb : height u < height (.reference b))
    (hmarked : ∀ c ∈ marked, height (.reference a) < height (.reference c)) :
    ∀ c ∈ insert a (insert b marked), height u < height (.reference c) := by
  intro c hc
  rw [Finset.mem_insert, Finset.mem_insert] at hc
  rcases hc with rfl | rfl | hc
  · exact ha
  · exact hb
  · exact Nat.lt_trans ha (hmarked c hc)

/-- A value is not found equal to a higher one while all marks lie above it: along the highest fields of
the right side, the left side comes to its end first. -/
theorem sameUnder_of_lower (hh : h.IsHeight height) (marked : Finset BlockId) (x y : Word)
    (hlt : height x < height y) (hmarked : ∀ b ∈ marked, height x < height (.reference b)) :
    h.sameUnder marked x y = false := by
  induction marked, x, y using sameUnder_induction (h := h) with
  | step marked x y ih =>
    rw [← Bool.not_eq_true, sameUnder_eq_true_iff]
    rintro (hagree | ⟨a, b, rfl, rfl, hpairs, hfields⟩)
    · exact absurd (hh.eq_of_agrees hagree) (Nat.ne_of_lt hlt)
    have ha : a ∉ marked := fun ha => Nat.lt_irrefl _ (hmarked a ha)
    have hne : Word.reference a ≠ .reference b := fun heq => Nat.ne_of_lt hlt (congrArg height heq)
    obtain ⟨i, v, hv, heq⟩ := hh.exists_highest (x := .reference b) (by omega)
    obtain ⟨u, hu⟩ := exists_partner (length_parts_of_pairs hpairs).symm hv
    have hua := hh.lt_of_getElem? hu
    have hfalse := ih a b rfl rfl hne hpairs ha i u v hu hv (by omega)
      (lt_height_of_mem_insert hua (by omega) hmarked)
    rw [hfields.resolve_left ha i u v hu hv] at hfalse
    cases hfalse

/-- **Values found equal in both orders are alike**, if the marks lie above them. -/
theorem alike_of_sameUnder_both (hh : h.IsHeight height) (marked : Finset BlockId) (x y : Word)
    (hmarked : ∀ b ∈ marked, height x < height (.reference b))
    (hxy : h.sameUnder marked x y = true) (marked' : Finset BlockId)
    (hmarked' : ∀ b ∈ marked', height y < height (.reference b))
    (hyx : h.sameUnder marked' y x = true) : h.Alike x y := by
  induction marked, x, y using sameUnder_induction (h := h) generalizing marked' with
  | step marked x y ih =>
    have hlevel : height x = height y := by
      rcases Nat.lt_trichotomy (height x) (height y) with hlt | heq | hlt
      · rw [sameUnder_of_lower hh marked x y hlt hmarked] at hxy
        cases hxy
      · exact heq
      · rw [sameUnder_of_lower hh marked' y x hlt hmarked'] at hyx
        cases hyx
    by_cases heq : x = y
    · exact .leaf (.identical heq)
    rcases sameUnder_eq_true_iff.mp hxy with hagree | ⟨a, b, rfl, rfl, hpairs, hfields⟩
    · exact .leaf hagree
    rcases sameUnder_eq_true_iff.mp hyx with hagree | ⟨b', a', hb', ha', -, hfields'⟩
    · exact .leaf hagree.symm
    cases hb'
    cases ha'
    have ha : a ∉ marked := fun ha => Nat.lt_irrefl _ (hmarked a ha)
    have hb : b ∉ marked' := fun hb => Nat.lt_irrefl _ (hmarked' b hb)
    refine .node hpairs fun i u v hu hv => ?_
    have hua := hh.lt_of_getElem? hu
    have hvb := hh.lt_of_getElem? hv
    exact ih a b rfl rfl heq hpairs ha i u v hu hv
      (lt_height_of_mem_insert hua (by omega) hmarked) (hfields.resolve_left ha i u v hu hv)
      (insert b (insert a marked')) (lt_height_of_mem_insert hvb (by omega) hmarked')
      (hfields'.resolve_left hb i v u hv hu)

/-- **The one exception**: values found equal are alike unless the left side enfolds the right one. -/
theorem enfolds_iff_not_alike (hacyclic : h.Acyclic) (hsame : h.same x y = true) :
    h.Enfolds x y ↔ ¬ h.Alike x y := by
  constructor
  · exact fun henfold => henfold.not_alike hacyclic.isHeight_height
  · intro halike
    by_contra henfold
    exact halike (alike_of_same (hacyclic.acyclicFrom x) henfold hsame)

/-- **Being alike is being found equal in both orders.** -/
theorem alike_iff_same_both_ways (hacyclic : h.Acyclic) :
    h.Alike x y ↔ h.same x y = true ∧ h.same y x = true := by
  constructor
  · exact fun hxy => ⟨hxy.same, hxy.symm.same⟩
  · rintro ⟨hxy, hyx⟩
    rw [same_eq_sameUnder] at hxy hyx
    exact alike_of_sameUnder_both hacyclic.isHeight_height ∅ x y
      (fun b hb => absurd hb (Finset.notMem_empty b)) hxy ∅
      (fun b hb => absurd hb (Finset.notMem_empty b)) hyx

/-- A value that is found equal to one it enfolds is not found equal the other way round. -/
theorem enfolds_iff_same_swapped (hacyclic : h.Acyclic) (hsame : h.same x y = true) :
    h.Enfolds x y ↔ h.same y x = false := by
  rw [enfolds_iff_not_alike hacyclic hsame, alike_iff_same_both_ways hacyclic, hsame,
    ← Bool.not_eq_true]
  simp only [true_and]

/-- **When the order of the sides matters** on a heap without cycles: exactly where a value is found
equal to one that it enfolds. -/
theorem same_comm_iff (h : Heap) (x y : Word) (hacyclic : h.Acyclic) :
    h.same x y = h.same y x ↔
      ¬ (h.same x y = true ∧ h.Enfolds x y) ∧ ¬ (h.same y x = true ∧ h.Enfolds y x) := by
  constructor
  · intro hcomm
    constructor
    · rintro ⟨hxy, henfold⟩
      rw [hxy, (enfolds_iff_same_swapped hacyclic hxy).mp henfold] at hcomm
      cases hcomm
    · rintro ⟨hyx, henfold⟩
      rw [hyx, (enfolds_iff_same_swapped hacyclic hyx).mp henfold] at hcomm
      cases hcomm
  · rintro ⟨hleft, hright⟩
    rw [Bool.eq_iff_iff]
    constructor
    · intro hxy
      have henfold : ¬ h.Enfolds x y := fun henfold => hleft ⟨hxy, henfold⟩
      exact (alike_of_same (hacyclic.acyclicFrom x) henfold hxy).symm.same
    · intro hyx
      have henfold : ¬ h.Enfolds y x := fun henfold => hright ⟨hyx, henfold⟩
      exact (alike_of_same (hacyclic.acyclicFrom y) henfold hyx).symm.same

/-- Three boxes, each in the next. -/
def boxes : Heap :=
  ((Session.start (.usual 0x9747b28c 31)).run
    [⟨.build (.nest .tuple 3 (.immediate .void)), some "outer"⟩]).heap

theorem boxes_eq : boxes =
    ⟨sequential, #[some ⟨1, 16, .composite .tuple [.void]⟩, some ⟨1, 16, .composite .tuple [.reference 0]⟩,
      some ⟨1, 16, .composite .tuple [.reference 1]⟩], 3, 48, 3, 0, 0⟩ := by
  rw [boxes, Session.run, List.foldl_cons, List.foldl_nil,
    Session.serve_build (w := .reference 2) rfl rfl]
  rfl

theorem acyclic_boxes : boxes.Acyclic := by
  rw [boxes_eq]
  exact acyclic_of_pointsBack (by decide)

/-- The middle box is a partner at the start, and is met on the left inside the outer one. -/
theorem same_boxes : boxes.same (.reference 2) (.reference 1) = true := by
  have houter : boxes.shallow (.reference 2) (.reference 1) =
      .descend 2 1 [(.reference 1, .reference 0)] := by
    rw [boxes_eq]
    rfl
  have hmiddle : boxes.shallow (.reference 1) (.reference 0) =
      .descend 1 0 [(.reference 0, .void)] := by
    rw [boxes_eq]
    rfl
  rw [same_eq_sameUnder, sameUnder_of_descend houter, List.all_cons, sameUnder_of_descend hmiddle]
  simp

theorem enfolds_boxes : boxes.Enfolds (.reference 2) (.reference 1) := by
  rw [boxes_eq]
  exact .inside (List.mem_singleton_self _) (.refl 1) ⟨.tuple, _, rfl, rfl⟩

theorem same_boxes_swapped : boxes.same (.reference 1) (.reference 2) = false :=
  (enfolds_iff_same_swapped acyclic_boxes same_boxes).mp enfolds_boxes

/-- The outer box is found equal to the middle one, and the middle box is not found equal to the outer
one. -/
theorem boxes_not_symmetric : boxes.Acyclic ∧
    boxes.same (.reference 2) (.reference 1) ≠ boxes.same (.reference 1) (.reference 2) := by
  refine ⟨acyclic_boxes, ?_⟩
  rw [same_boxes, same_boxes_swapped]
  decide

theorem same_comm_iff_boxes : boxes.Acyclic ∧
    (boxes.same (.reference 2) (.reference 1) = boxes.same (.reference 1) (.reference 2) ↔
      ¬ (boxes.same (.reference 2) (.reference 1) = true ∧
          boxes.Enfolds (.reference 2) (.reference 1)) ∧
        ¬ (boxes.same (.reference 1) (.reference 2) = true ∧
          boxes.Enfolds (.reference 1) (.reference 2))) :=
  ⟨acyclic_boxes, same_comm_iff boxes _ _ acyclic_boxes⟩

end Heap

end ValueHeap
