import ValueHeap.Proofs.Marking

/-!
# Bisimilar values

Values that cannot be told apart from outside, on cyclic heaps too.

* `Bisimilar x y`: some bisimulation relates the two values.
* `DiffersAt path x y`: the fields that `path` numbers lead from the two values, step by step through
  composites that pair, to two values that neither agree nor pair.
* `FreshAlong marked path x y`: on the left, the path enters no block that is marked or that it has met
  before on either side.
* `isClosed`: a test for finite lists of pairs. A list that passes relates bisimilar values only.

Results:
* `bisimilar_iff_never_differs`: two values are bisimilar iff no path leads to a difference.
* `sameUnder_eq_false_iff`: a comparison fails iff a fresh path leads to a difference.
* `same_of_bisimilar`: so bisimilar values are found equal.
-/

namespace ValueHeap

namespace Heap

/-- Some bisimulation relates the two values. -/
def Bisimilar (h : Heap) (x y : Word) : Prop := ∃ R, h.IsBisimulation R ∧ R x y

/-- The fields along the path lead from both values to a difference. -/
inductive DiffersAt (h : Heap) : List Nat → Word → Word → Prop
  | here {x y : Word} (hagree : ¬ (h.surface x).Agrees (h.surface y))
      (hpairs : ¬ (h.surface x).Pairs (h.surface y)) : DiffersAt h [] x y
  | field {x y : Word} {i : Nat} {u v : Word} {path : List Nat}
      (hxy : (h.surface x).Pairs (h.surface y)) (hu : (h.parts x)[i]? = some u)
      (hv : (h.parts y)[i]? = some v) (huv : DiffersAt h path u v) : DiffersAt h (i :: path) x y

/-- On the left the path enters only new blocks: none of `marked`, and none that it has met before on
either side. -/
inductive FreshAlong (h : Heap) : Finset BlockId → List Nat → Word → Word → Prop
  | stop {marked : Finset BlockId} {x y : Word} : FreshAlong h marked [] x y
  | field {marked : Finset BlockId} {a b : BlockId} {i : Nat} {u v : Word} {path : List Nat}
      (ha : a ∉ marked) (hu : (h.fieldsOf a)[i]? = some u) (hv : (h.fieldsOf b)[i]? = some v)
      (huv : FreshAlong h (insert a (insert b marked)) path u v) :
      FreshAlong h marked (i :: path) (.reference a) (.reference b)

variable {h : Heap} {x y : Word}

/-! ## Paths to a difference -/

/-- Nothing differs from itself. -/
theorem DiffersAt.ne {path : List Nat} (hxy : h.DiffersAt path x y) : x ≠ y := by
  induction hxy with
  | here hagree _ => exact fun heq => hagree (.identical heq)
  | field _ hu hv _ ih =>
    rintro rfl
    rw [hu] at hv
    exact ih (Option.some.inj hv)

/-- A bisimulation relates no values with a path to a difference. -/
theorem IsBisimulation.not_differsAt {R : Word → Word → Prop} (hR : h.IsBisimulation R)
    {path : List Nat} (hdiff : h.DiffersAt path x y) : ¬ R x y := by
  induction hdiff with
  | here hagree hpairs =>
    intro hxy
    rcases hR.cases _ _ hxy with hyes | ⟨hyes, -⟩
    · exact hagree hyes
    · exact hpairs hyes
  | field _ hu hv huv ih =>
    intro hxy
    rcases hR.cases _ _ hxy with hagree | ⟨-, hparts⟩
    · -- related values that agree and have fields are one value, and the rest of the path is common
      rcases parts_of_agrees hagree with rfl | ⟨hempty, -⟩
      · rw [hu] at hv
        exact huv.ne (Option.some.inj hv)
      · rw [hempty] at hu
        cases hu
    · exact ih (hparts _ _ _ hu hv)

/-- Having no path to a difference is a bisimulation. -/
theorem isBisimulation_never_differs (h : Heap) :
    h.IsBisimulation fun x y => ∀ path, ¬ h.DiffersAt path x y := by
  refine ⟨fun x y hnever => ?_⟩
  by_cases hagree : (h.surface x).Agrees (h.surface y)
  · exact Or.inl hagree
  by_cases hpairs : (h.surface x).Pairs (h.surface y)
  · refine Or.inr ⟨hpairs, fun i u v hu hv path huv => ?_⟩
    exact hnever (i :: path) (.field hpairs hu hv huv)
  · exact absurd (.here hagree hpairs) (hnever [])

/-- **Two values are bisimilar iff no path leads to a difference.** -/
theorem bisimilar_iff_never_differs :
    h.Bisimilar x y ↔ ∀ path, ¬ h.DiffersAt path x y := by
  constructor
  · rintro ⟨R, hR, hxy⟩ path hdiff
    exact hR.not_differsAt hdiff hxy
  · exact fun hnever => ⟨_, isBisimulation_never_differs h, hnever⟩

/-! ## Finite bisimulations -/

/-- Does every pair on the list agree, or lead to pairs of fields that are on the list? -/
def isClosed (h : Heap) (pairs : List (Word × Word)) : Bool :=
  pairs.all fun p =>
    match h.shallow p.1 p.2 with
    | .agree => true
    | .differ => false
    | .descend _ _ fields => fields.all fun q => pairs.contains q

/-- A closed list of pairs is a bisimulation. -/
theorem isBisimulation_of_isClosed {pairs : List (Word × Word)} (hclosed : h.isClosed pairs = true) :
    h.IsBisimulation fun x y => (x, y) ∈ pairs := by
  refine ⟨fun x y hxy => ?_⟩
  have hpair := List.all_eq_true.mp hclosed (x, y) hxy
  rcases shallow_cases h x y with ⟨-, hagree⟩ | ⟨a, b, -, -, -, hs, hpairs⟩ | ⟨hs, -, -⟩
  · exact Or.inl hagree
  · simp only [hs, List.all_eq_true, List.contains_iff_mem] at hpair
    refine Or.inr ⟨hpairs, fun i u v hu hv => ?_⟩
    exact hpair (u, v) (List.mem_of_getElem? (List.getElem?_zip_eq_some.mpr ⟨hu, hv⟩))
  · simp only [hs, Bool.false_eq_true] at hpair

theorem bisimilar_of_isClosed (pairs : List (Word × Word)) (hclosed : h.isClosed pairs = true)
    (hxy : (x, y) ∈ pairs) : h.Bisimilar x y :=
  ⟨_, isBisimulation_of_isClosed hclosed, hxy⟩

/-! ## The comparison -/

/-- A difference at the end of a fresh path is found. -/
theorem DiffersAt.sameUnder_eq_false {path : List Nat} (hdiff : h.DiffersAt path x y)
    {marked : Finset BlockId} (hfresh : h.FreshAlong marked path x y) :
    h.sameUnder marked x y = false := by
  induction hdiff generalizing marked with
  | here hagree hpairs => exact sameUnder_of_differ (shallow_eq_differ hagree hpairs)
  | @field x y i u v path hxy hu hv huv ih =>
    cases hfresh with
    | @field _ a b _ u' v' _ ha hu' hv' hfresh =>
      cases hu.symm.trans hu'
      cases hv.symm.trans hv'
      obtain ⟨a', b', heqa, heqb, hs⟩ := shallow_of_pairs (DiffersAt.field hxy hu hv huv).ne hxy
      cases heqa
      cases heqb
      rw [sameUnder_of_descend hs, decide_eq_false ha, Bool.false_or, ← Bool.not_eq_true,
        all_zip_eq_true_iff]
      intro hall
      exact absurd (hall i u v hu hv) (by simp [ih hfresh])

/-- A comparison that fails has found a difference at the end of a fresh path. -/
theorem exists_path_of_sameUnder_eq_false (marked : Finset BlockId) (x y : Word)
    (hfalse : h.sameUnder marked x y = false) :
    ∃ path, h.DiffersAt path x y ∧ h.FreshAlong marked path x y := by
  induction marked, x, y using sameUnder_induction (h := h) with
  | step marked x y ih =>
    rcases shallow_cases h x y with ⟨hs, -⟩ | ⟨a, b, rfl, rfl, hne, hs, hpairs⟩ |
      ⟨-, hagree, hpairs⟩
    · rw [sameUnder_of_agree hs] at hfalse
      cases hfalse
    · rw [sameUnder_of_descend hs, Bool.or_eq_false_iff, decide_eq_false_iff_not,
        List.all_eq_false] at hfalse
      obtain ⟨ha, ⟨u, v⟩, hmem, huv⟩ := hfalse
      obtain ⟨i, hi⟩ := List.mem_iff_getElem?.mp hmem
      obtain ⟨hu, hv⟩ := List.getElem?_zip_eq_some.mp hi
      obtain ⟨path, hdiff, hfresh⟩ := ih a b rfl rfl hne hpairs ha i u v hu hv
        (Bool.eq_false_iff.mpr huv)
      exact ⟨i :: path, .field hpairs hu hv hdiff, .field ha hu hv hfresh⟩
    · exact ⟨[], .here hagree hpairs, .stop⟩

/-- **When a comparison fails**: some path leads to a difference before it enters a marked block. -/
theorem sameUnder_eq_false_iff {marked : Finset BlockId} : h.sameUnder marked x y = false ↔
    ∃ path, h.DiffersAt path x y ∧ h.FreshAlong marked path x y := by
  constructor
  · exact exists_path_of_sameUnder_eq_false marked x y
  · rintro ⟨path, hdiff, hfresh⟩
    exact hdiff.sameUnder_eq_false hfresh

/-- **Bisimilar values are found equal**, on every heap. Being bisimilar is having no path to a
difference, and a comparison fails exactly where a fresh path leads to one. -/
theorem same_of_bisimilar (h : Heap) (x y : Word) :
    (h.Bisimilar x y → h.same x y = true) ∧
      (h.Bisimilar x y ↔ ∀ path, ¬ h.DiffersAt path x y) ∧
      (h.same x y = false ↔ ∃ path, h.DiffersAt path x y ∧ h.FreshAlong ∅ path x y) := by
  rw [same_eq_sameUnder]
  refine ⟨?_, bisimilar_iff_never_differs, sameUnder_eq_false_iff⟩
  rintro ⟨R, hR, hxy⟩
  exact hR.sameUnder ∅ x y hxy

/-- Three rings of pairs: blocks 1 and 2; blocks 4, 5 and 6; blocks 7 and 8. The first two rings hold
nothing but the number 7, in three representations, and the last one has an 8 in its second block. -/
def rings : Heap :=
  ⟨sequential, #[some ⟨1, 16, Number.box (.int32 7)⟩,
    some ⟨2, 24, .composite .tuple [.reference 0, .reference 2]⟩,
    some ⟨1, 24, .composite .tuple [.immediate 15#64, .reference 1]⟩,
    some ⟨1, 16, Number.box (.float64 0x401c000000000000)⟩,
    some ⟨2, 24, .composite .tuple [.reference 3, .reference 5]⟩,
    some ⟨1, 24, .composite .tuple [.immediate 15#64, .reference 6]⟩,
    some ⟨1, 24, .composite .tuple [.immediate 15#64, .reference 4]⟩,
    some ⟨2, 24, .composite .tuple [.immediate 15#64, .reference 8]⟩,
    some ⟨1, 24, .composite .tuple [.immediate 17#64, .reference 7]⟩], 9, 200, 9, 0, 0⟩

/-- Every block of the first ring meets every block of the second one. -/
def ringPairs : List (Word × Word) :=
  [(.reference 1, .reference 4), (.reference 2, .reference 5), (.reference 1, .reference 6),
    (.reference 2, .reference 4), (.reference 1, .reference 5), (.reference 2, .reference 6),
    (.reference 0, .reference 3), (.reference 0, .immediate 15#64), (.immediate 15#64, .reference 3),
    (.immediate 15#64, .immediate 15#64)]

theorem bisimilar_rings : rings.Bisimilar (.reference 1) (.reference 4) :=
  bisimilar_of_isClosed ringPairs (by decide +kernel) (by decide)

/-- The 7 in block 2 meets the 8. -/
theorem rings_told_apart : rings.same (.reference 1) (.reference 7) = false := by
  have hfirst : rings.shallow (.reference 1) (.reference 7) =
      .descend 1 7 [(.reference 0, .immediate 15#64), (.reference 2, .reference 8)] := rfl
  have hsecond : rings.shallow (.reference 2) (.reference 8) =
      .descend 2 8 [(.immediate 15#64, .immediate 17#64), (.reference 1, .reference 7)] := rfl
  have hnumbers : rings.shallow (.immediate 15#64) (.immediate 17#64) = .differ := rfl
  rw [same_eq_sameUnder, sameUnder_of_descend hfirst]
  simp [sameUnder_of_descend hsecond, sameUnder_of_differ hnumbers]

theorem same_of_bisimilar_rings :
    rings.Bisimilar (.reference 1) (.reference 4) ∧
      rings.same (.reference 1) (.reference 4) = true ∧
      rings.same (.reference 1) (.reference 7) = false ∧
      (∃ path, rings.DiffersAt path (.reference 1) (.reference 7) ∧
        rings.FreshAlong ∅ path (.reference 1) (.reference 7)) ∧
      ¬ rings.Bisimilar (.reference 1) (.reference 7) := by
  obtain ⟨-, hnever, hfails⟩ := same_of_bisimilar rings (.reference 1) (.reference 7)
  obtain ⟨path, hdiff, hfresh⟩ := hfails.mp rings_told_apart
  refine ⟨bisimilar_rings, (same_of_bisimilar rings _ _).1 bisimilar_rings, rings_told_apart,
    ⟨path, hdiff, hfresh⟩, fun hxy => ?_⟩
  exact hnever.mp hxy path hdiff

end Heap

end ValueHeap
