import ValueHeap.Equality.Run
import ValueHeap.Proofs.FieldGraph
import ValueHeap.Proofs.NumberKeys

/-!
# Structure of values

When two values have the same structure, said without the loop that decides it.

* `Surface`: what a value shows without a look into its fields. Two surfaces agree (`Agrees`) when they
  are the same word, the same number, texts or buffers with the same bytes, or characters with the same
  packed form; they pair (`Pairs`) when they are composites of one shape and size that are not code.
* `Alike x y`: the surfaces agree, or they pair and the fields are alike one by one, down to the leaves.
  `IsBisimulation` is the same demand on any relation, so that cyclic values can be related too.
* `Tree`: the unfolding of a value into a finite tree, where it has one (`Unfolds`); `Tree.Alike` is
  equality of such trees.

Results:
* `shallow_cases`: the comparison of surfaces decides agreement, and descends exactly into pairs.
* `Unfolds.alike_iff`: two values are alike iff their unfoldings are.
* `AcyclicFrom.exists_unfolding`: a value that reaches no cycle has an unfolding.
-/

namespace ValueHeap

/-- No composite is a boxed number. -/
theorem Block.kind_composite_ne (shape : Shape) (fields : List Word) :
    (Block.composite shape fields).kind ≠ .number := by
  cases shape <;> simp [Block.kind, Shape.kind]

/-- What a value shows: the word, and the block that it refers to. -/
structure Surface where
  word : Word
  block : Option Block

namespace Surface

/-- The number that the value is. -/
def number? (s : Surface) : Option Number :=
  match s.word.small?, s.block with
  | some n, _ => some (.small n)
  | none, some (.number subtype payload extra) => Number.unbox subtype payload extra
  | none, _ => none

/-- The values are equal by what they show. -/
inductive Agrees (s t : Surface) : Prop
  | identical (heq : s.word = t.word)
  | number {a b : Number} (ha : s.number? = some a) (hb : t.number? = some b) (heq : a.same b = true)
  | text {bs : List UInt8} (hs : s.block = some (.text bs)) (ht : t.block = some (.text bs))
  | bytes {data : List UInt8} (hs : s.block = some (.bytes data)) (ht : t.block = some (.bytes data))
  | char {u v : UInt32} (hs : s.block = some (.char u)) (ht : t.block = some (.char v))
      (heq : Utf8.mask u = Utf8.mask v)

/-- The values are composites of one shape and size, so that their equality is that of their fields.
Code has no structure and pairs with nothing. -/
structure Pairs (s t : Surface) : Prop where
  exists_fields : ∃ shape us vs, s.block = some (.composite shape us) ∧
    t.block = some (.composite shape vs) ∧ shape.isStructural = true ∧ us.length = vs.length

variable {s t : Surface}

theorem Agrees.symm (hs : s.Agrees t) : t.Agrees s := by
  cases hs with
  | identical heq => exact .identical heq.symm
  | number ha hb heq => exact .number hb ha (by rw [Number.same_comm]; exact heq)
  | text hs ht => exact .text ht hs
  | bytes hs ht => exact .bytes ht hs
  | char hs ht heq => exact .char ht hs heq.symm

theorem Pairs.symm (hs : s.Pairs t) : t.Pairs s := by
  obtain ⟨shape, us, vs, hs, ht, hcode, hlen⟩ := hs.exists_fields
  exact ⟨shape, vs, us, ht, hs, hcode, hlen.symm⟩

end Surface

namespace Heap

/-- What a value shows. -/
def surface (h : Heap) (w : Word) : Surface := ⟨w, h.block? w⟩

/-- The two values have the same structure: their surfaces agree, or pair and the fields are alike. -/
inductive Alike (h : Heap) : Word → Word → Prop
  | leaf {x y : Word} (hxy : (h.surface x).Agrees (h.surface y)) : Alike h x y
  | node {x y : Word} (hxy : (h.surface x).Pairs (h.surface y))
      (hparts : ∀ (i : Nat) (u v : Word), (h.parts x)[i]? = some u → (h.parts y)[i]? = some v →
        Alike h u v) : Alike h x y

variable {h : Heap} {x y : Word}

/-! ## The comparison of surfaces -/

theorem number?_surface (h : Heap) (w : Word) : (h.surface w).number? = h.number? w := rfl

/-- Only a reference shows a block. -/
theorem exists_reference {block : Block} (hx : h.block? x = some block) :
    ∃ a c, x = .reference a ∧ h.cell? a = some c ∧ c.block = block := by
  cases x with
  | immediate p => cases hx
  | reference a =>
    obtain ⟨c, hc, hcb⟩ := Option.map_eq_some_iff.mp hx
    exact ⟨a, c, rfl, hc, hcb⟩

theorem isNumber_of_block? {block : Block} (hx : h.block? x = some block) :
    h.isNumber x = (block.kind == .number) := by
  obtain ⟨a, c, rfl, -, -⟩ := exists_reference hx
  unfold isNumber
  rw [hx]
  rfl

theorem isNumber_of_number? {a : Number} (hx : h.number? x = some a) : h.isNumber x = true := by
  unfold number? at hx
  unfold isNumber
  cases hs : x.small? with
  | some n => rfl
  | none =>
    rw [hs] at hx
    cases hb : h.block? x with
    | none =>
      rw [hb] at hx
      cases hx
    | some block =>
      rw [hb] at hx
      cases block with
      | number subtype payload extra => rfl
      | _ => cases hx

theorem parts_of_block? {shape : Shape} {us : List Word}
    (hx : h.block? x = some (.composite shape us)) : h.parts x = us := by
  obtain ⟨a, c, rfl, hc, hcb⟩ := exists_reference hx
  rw [parts, fieldsOf_of_cell? hc, hcb]
  rfl

/-- Pairing values are composites with the fields that they show. -/
theorem exists_shape_of_pairs (hxy : (h.surface x).Pairs (h.surface y)) :
    ∃ shape, h.block? x = some (.composite shape (h.parts x)) ∧
      h.block? y = some (.composite shape (h.parts y)) ∧ shape.isStructural = true ∧
      (h.parts x).length = (h.parts y).length := by
  obtain ⟨shape, us, vs, hx, hy, hcode, hlen⟩ := hxy.exists_fields
  change h.block? x = _ at hx
  change h.block? y = _ at hy
  rw [parts_of_block? hx, parts_of_block? hy]
  exact ⟨shape, hx, hy, hcode, hlen⟩

theorem length_parts_of_pairs (hxy : (h.surface x).Pairs (h.surface y)) :
    (h.parts x).length = (h.parts y).length := by
  obtain ⟨shape, -, -, -, hlen⟩ := exists_shape_of_pairs hxy
  exact hlen

/-- Two different values with blocks that are not both numbers are compared by their blocks. -/
theorem shallow_of_blocks {s t : Block} (hne : x ≠ y) (hx : h.block? x = some s)
    (hy : h.block? y = some t) (hkind : s.kind ≠ .number) :
    ∃ a b, x = .reference a ∧ y = .reference b ∧ h.shallow x y = Block.shallow a b s t := by
  have hnum : h.isNumber x = false := by
    rw [isNumber_of_block? hx]
    exact beq_false_of_ne hkind
  obtain ⟨a, c, rfl, hc, rfl⟩ := exists_reference hx
  obtain ⟨b, d, rfl, hd, rfl⟩ := exists_reference hy
  refine ⟨a, b, rfl, rfl, ?_⟩
  unfold shallow
  rw [if_neg hne, hnum]
  simp only [Bool.false_and, Bool.false_eq_true, if_false, hc, hd]

/-- Agreeing surfaces are found equal. -/
theorem shallow_of_agrees (hxy : (h.surface x).Agrees (h.surface y)) : h.shallow x y = .agree := by
  by_cases hne : x = y
  · exact if_pos hne
  cases hxy with
  | identical heq => exact absurd heq hne
  | number ha hb heq =>
    rw [number?_surface] at ha hb
    have hsame : h.numbersSame x y = true := by
      unfold numbersSame
      rw [ha, hb]
      exact heq
    unfold shallow
    rw [if_neg hne, isNumber_of_number? ha, isNumber_of_number? hb, hsame]
    rfl
  | text hx hy =>
    obtain ⟨a, b, -, -, hs⟩ := shallow_of_blocks hne hx hy (by simp [Block.kind])
    rw [hs, Block.shallow, beq_self_eq_true]
    rfl
  | bytes hx hy =>
    obtain ⟨a, b, -, -, hs⟩ := shallow_of_blocks hne hx hy (by simp [Block.kind])
    rw [hs, Block.shallow, beq_self_eq_true]
    rfl
  | char hx hy heq =>
    obtain ⟨a, b, -, -, hs⟩ := shallow_of_blocks hne hx hy (by simp [Block.kind])
    rw [hs, Block.shallow, heq, beq_self_eq_true]
    rfl

/-- Pairing surfaces of different blocks lead to the fields. -/
theorem shallow_of_pairs (hne : x ≠ y) (hxy : (h.surface x).Pairs (h.surface y)) :
    ∃ a b, x = .reference a ∧ y = .reference b ∧
      h.shallow x y = .descend a b ((h.parts x).zip (h.parts y)) := by
  obtain ⟨shape, hx, hy, hcode, hlen⟩ := exists_shape_of_pairs hxy
  obtain ⟨a, b, ha, hb, hs⟩ := shallow_of_blocks hne hx hy (Block.kind_composite_ne shape _)
  refine ⟨a, b, ha, hb, ?_⟩
  rw [hs, Block.shallow, if_pos ⟨rfl, hcode, hlen⟩]

/-- What the comparison of two blocks can say. -/
theorem blockShallow_cases (h : Heap) {a b : BlockId} {c d : Cell} (hc : h.cell? a = some c)
    (hd : h.cell? b = some d) :
    (Block.shallow a b c.block d.block = .agree ∧
        (h.surface (.reference a)).Agrees (h.surface (.reference b))) ∨
      (∃ pairs, Block.shallow a b c.block d.block = .descend a b pairs ∧
        (h.surface (.reference a)).Pairs (h.surface (.reference b))) ∨
      Block.shallow a b c.block d.block = .differ := by
  have hx : (h.surface (.reference a)).block = some c.block := by
    rw [surface, block?, hc]
    rfl
  have hy : (h.surface (.reference b)).block = some d.block := by
    rw [surface, block?, hd]
    rfl
  have decided {p : Bool} (hp : p = true → (h.surface (.reference a)).Agrees
      (h.surface (.reference b))) : Shallow.ofBool p = .agree ∧
        (h.surface (.reference a)).Agrees (h.surface (.reference b)) ∨
      Shallow.ofBool p = .differ := by
    cases p with
    | true => exact Or.inl ⟨rfl, hp rfl⟩
    | false => exact Or.inr rfl
  unfold Block.shallow
  split
  · next u v hu hv =>
    rw [hu] at hx
    rw [hv] at hy
    exact (decided fun heq => .text hx (by rw [hy, eq_of_beq heq])).imp_right Or.inr
  · next u v hu hv =>
    rw [hu] at hx
    rw [hv] at hy
    exact (decided fun heq => .bytes hx (by rw [hy, eq_of_beq heq])).imp_right Or.inr
  · next u v hu hv =>
    rw [hu] at hx
    rw [hv] at hy
    exact (decided fun heq => .char hx hy (eq_of_beq heq)).imp_right Or.inr
  · next s us t vs hu hv =>
    rw [hu] at hx
    rw [hv] at hy
    split
    · next hst =>
      obtain ⟨rfl, hcode, hlen⟩ := hst
      exact Or.inr (Or.inl ⟨_, rfl, ⟨s, us, vs, hx, hy, hcode, hlen⟩⟩)
    · exact Or.inr (Or.inr rfl)
  · exact Or.inr (Or.inr rfl)

theorem agrees_of_numbersSame (hxy : h.numbersSame x y = true) :
    (h.surface x).Agrees (h.surface y) := by
  unfold numbersSame at hxy
  split at hxy
  · next a b ha hb => exact .number ha hb hxy
  · cases hxy

/-- Surfaces that neither agree nor pair are told apart. -/
theorem shallow_eq_differ (hagree : ¬ (h.surface x).Agrees (h.surface y))
    (hpairs : ¬ (h.surface x).Pairs (h.surface y)) : h.shallow x y = .differ := by
  unfold shallow
  rw [if_neg fun heq : x = y => hagree (.identical heq)]
  split
  · cases hsame : h.numbersSame x y with
    | true => exact absurd (agrees_of_numbersSame hsame) hagree
    | false => rfl
  · split
    · next a b =>
      split
      · next c d hc hd =>
        rcases blockShallow_cases h hc hd with ⟨-, hyes⟩ | ⟨-, -, hyes⟩ | hno
        · exact absurd hyes hagree
        · exact absurd hyes hpairs
        · exact hno
      · rfl
    · rfl

/-- **What the comparison of surfaces says.** -/
theorem shallow_cases (h : Heap) (x y : Word) :
    (h.shallow x y = .agree ∧ (h.surface x).Agrees (h.surface y)) ∨
      (∃ a b, x = .reference a ∧ y = .reference b ∧ x ≠ y ∧
        h.shallow x y = .descend a b ((h.parts x).zip (h.parts y)) ∧
        (h.surface x).Pairs (h.surface y)) ∨
      (h.shallow x y = .differ ∧ ¬ (h.surface x).Agrees (h.surface y) ∧
        ¬ (h.surface x).Pairs (h.surface y)) := by
  by_cases heq : x = y
  · exact Or.inl ⟨if_pos heq, .identical heq⟩
  by_cases hagree : (h.surface x).Agrees (h.surface y)
  · exact Or.inl ⟨shallow_of_agrees hagree, hagree⟩
  refine Or.inr ?_
  by_cases hpairs : (h.surface x).Pairs (h.surface y)
  · obtain ⟨a, b, ha, hb, hs⟩ := shallow_of_pairs heq hpairs
    exact Or.inl ⟨a, b, ha, hb, heq, hs, hpairs⟩
  · exact Or.inr ⟨shallow_eq_differ hagree hpairs, hagree, hpairs⟩

/-! ## Being alike -/

theorem Alike.refl (x : Word) : h.Alike x x := .leaf (.identical rfl)

theorem Alike.symm (hxy : h.Alike x y) : h.Alike y x := by
  induction hxy with
  | leaf hxy => exact .leaf hxy.symm
  | node hxy _ ih => exact .node hxy.symm fun i u v hu hv => ih i v u hv hu

/-- Values whose surfaces agree have the same fields, or none. -/
theorem parts_of_agrees (hxy : (h.surface x).Agrees (h.surface y)) :
    x = y ∨ h.parts x = [] ∧ h.parts y = [] := by
  have leaf {w : Word} {block : Block} (hw : h.block? w = some block) (hf : block.fields = []) :
      h.parts w = [] := by
    obtain ⟨a, c, rfl, hc, rfl⟩ := exists_reference hw
    rw [parts, fieldsOf_of_cell? hc, hf]
  have number {w : Word} {a : Number} (hw : h.number? w = some a) : h.parts w = [] := by
    cases w with
    | immediate p => rfl
    | reference b =>
      cases hb : h.block? (.reference b) with
      | none =>
        rw [parts]
        exact fieldsOf_of_dead (Option.map_eq_none_iff.mp hb)
      | some block =>
        have hkind := isNumber_of_number? hw
        rw [isNumber_of_block? hb] at hkind
        refine leaf hb ?_
        cases block with
        | composite shape us => cases shape <;> cases hkind
        | _ => rfl
  cases hxy with
  | identical heq => exact Or.inl heq
  | number ha hb _ => exact Or.inr ⟨number ha, number hb⟩
  | text hx hy => exact Or.inr ⟨leaf hx rfl, leaf hy rfl⟩
  | bytes hx hy => exact Or.inr ⟨leaf hx rfl, leaf hy rfl⟩
  | char hx hy _ => exact Or.inr ⟨leaf hx rfl, leaf hy rfl⟩

/-- The fields of alike values are alike one by one. -/
theorem Alike.part (hxy : h.Alike x y) {i : Nat} {u v : Word} (hu : (h.parts x)[i]? = some u)
    (hv : (h.parts y)[i]? = some v) : h.Alike u v := by
  cases hxy with
  | node _ hparts => exact hparts i u v hu hv
  | leaf hxy =>
    rcases parts_of_agrees hxy with rfl | ⟨hx, -⟩
    · rw [hu] at hv
      cases hv
      exact .refl u
    · rw [hx] at hu
      cases hu

/-- A relation between values is a bisimulation if the surfaces of related values agree, or pair with the
fields related one by one. -/
structure IsBisimulation (h : Heap) (R : Word → Word → Prop) : Prop where
  cases : ∀ x y, R x y → (h.surface x).Agrees (h.surface y) ∨
    (h.surface x).Pairs (h.surface y) ∧ ∀ (i : Nat) (u v : Word), (h.parts x)[i]? = some u →
      (h.parts y)[i]? = some v → R u v

theorem isBisimulation_alike (h : Heap) : h.IsBisimulation h.Alike := by
  refine ⟨fun x y hxy => ?_⟩
  cases hxy with
  | leaf hxy => exact Or.inl hxy
  | node hxy hparts => exact Or.inr ⟨hxy, hparts⟩

end Heap

/-! ## Unfoldings -/

/-- A value with the values in its fields, and so on downwards. -/
inductive Tree where
  | node (surface : Surface) (children : List Tree)

namespace Tree

instance : Inhabited Tree := ⟨.node ⟨.reference 0, none⟩ []⟩

def surface : Tree → Surface
  | node s _ => s

def children : Tree → List Tree
  | node _ ts => ts

/-- Equality of trees: the roots agree, or they pair and the children are alike one by one. -/
inductive Alike : Tree → Tree → Prop
  | leaf {t u : Tree} (htu : t.surface.Agrees u.surface) : Alike t u
  | node {t u : Tree} (htu : t.surface.Pairs u.surface)
      (hchildren : ∀ (i : Nat) (t' u' : Tree), t.children[i]? = some t' → u.children[i]? = some u' →
        Alike t' u') : Alike t u

end Tree

namespace Heap

/-- The tree `t` is the unfolding of the value. -/
inductive Unfolds (h : Heap) : Word → Tree → Prop
  | intro {w : Word} {t : Tree} (hroot : t.surface = h.surface w)
      (hlen : t.children.length = (h.parts w).length)
      (hchildren : ∀ (i : Nat) (x : Word) (t' : Tree), (h.parts w)[i]? = some x →
        t.children[i]? = some t' → Unfolds h x t') : Unfolds h w t

variable {h : Heap} {x y : Word} {t u : Tree}

/-- The tree below a field. -/
theorem Unfolds.exists_child (hx : h.Unfolds x t) {i : Nat} {w : Word}
    (hw : (h.parts x)[i]? = some w) : ∃ t', t.children[i]? = some t' ∧ h.Unfolds w t' := by
  obtain ⟨-, hlen, hchildren⟩ := hx
  have hlt : i < t.children.length := by
    rw [hlen]
    exact (List.getElem?_eq_some_iff.mp hw).1
  have ht' : t.children[i]? = some t.children[i] := List.getElem?_eq_getElem hlt
  exact ⟨_, ht', hchildren i w _ hw ht'⟩

/-- The field above a subtree. -/
theorem Unfolds.exists_part (hx : h.Unfolds x t) {i : Nat} {t' : Tree}
    (ht' : t.children[i]? = some t') : ∃ w, (h.parts x)[i]? = some w ∧ h.Unfolds w t' := by
  obtain ⟨-, hlen, hchildren⟩ := hx
  have hlt : i < (h.parts x).length := by
    rw [← hlen]
    exact (List.getElem?_eq_some_iff.mp ht').1
  have hw : (h.parts x)[i]? = some (h.parts x)[i] := List.getElem?_eq_getElem hlt
  exact ⟨_, hw, hchildren i _ t' hw ht'⟩

theorem Unfolds.surface_eq (hx : h.Unfolds x t) : t.surface = h.surface x := by
  obtain ⟨hroot, -, -⟩ := hx
  exact hroot

theorem Unfolds.length_children (hx : h.Unfolds x t) : t.children.length = (h.parts x).length := by
  obtain ⟨-, hlen, -⟩ := hx
  exact hlen

theorem Unfolds.alike_of_trees (htu : t.Alike u) (hx : h.Unfolds x t) (hy : h.Unfolds y u) :
    h.Alike x y := by
  induction htu generalizing x y with
  | leaf htu =>
    rw [hx.surface_eq, hy.surface_eq] at htu
    exact .leaf htu
  | node htu _ ih =>
    rw [hx.surface_eq, hy.surface_eq] at htu
    refine .node htu fun i w v hw hv => ?_
    obtain ⟨t', ht', hwt⟩ := hx.exists_child hw
    obtain ⟨u', hu', hvu⟩ := hy.exists_child hv
    exact ih i t' u' ht' hu' hwt hvu

theorem Unfolds.trees_of_alike (hxy : h.Alike x y) (hx : h.Unfolds x t) (hy : h.Unfolds y u) :
    t.Alike u := by
  induction hxy generalizing t u with
  | leaf hxy =>
    rw [← hx.surface_eq, ← hy.surface_eq] at hxy
    exact .leaf hxy
  | node hxy _ ih =>
    rw [← hx.surface_eq, ← hy.surface_eq] at hxy
    refine .node hxy fun i t' u' ht' hu' => ?_
    obtain ⟨w, hw, hwt⟩ := hx.exists_part ht'
    obtain ⟨v, hv, hvu⟩ := hy.exists_part hu'
    exact ih i w v hw hv hwt hvu

/-- **Two values are alike iff their unfoldings are.** -/
theorem Unfolds.alike_iff (hx : h.Unfolds x t) (hy : h.Unfolds y u) : t.Alike u ↔ h.Alike x y :=
  ⟨fun htu => alike_of_trees htu hx hy, fun hxy => trees_of_alike hxy hx hy⟩

/-- **A value that reaches no cycle has an unfolding.** -/
theorem AcyclicFrom.exists_unfolding (hx : h.AcyclicFrom x) : ∃ t, h.Unfolds x t := by
  refine AcyclicFrom.induction (motive := fun w => ∃ t, h.Unfolds w t) (fun w _ ih => ?_) hx
  choose! tree htree using ih
  refine ⟨.node (h.surface w) ((h.parts w).map tree), rfl, List.length_map _, ?_⟩
  intro i v t' hv ht'
  change ((h.parts w).map tree)[i]? = some t' at ht'
  rw [List.getElem?_map, hv] at ht'
  cases ht'
  exact htree v (List.mem_of_getElem? hv)

/-- Only a value that reaches no cycle has one. -/
theorem Unfolds.acyclicFrom (hx : h.Unfolds x t) : h.AcyclicFrom x := by
  induction hx with
  | @intro x t hroot hlen hchildren ih =>
    have hpart {w : Word} (hw : w ∈ h.parts x) : h.AcyclicFrom w := by
      obtain ⟨i, hi⟩ := List.mem_iff_getElem?.mp hw
      obtain ⟨t', ht', -⟩ := (Unfolds.intro hroot hlen hchildren).exists_child hi
      exact ih i w t' hi ht'
    rintro b ⟨a, rfl, hab⟩ hcycle
    -- a cycle through the value itself goes through one of its fields too
    rcases Relation.ReflTransGen.cases_head hab with rfl | ⟨c, hac, hcb⟩
    · obtain ⟨c, hac, hca⟩ := Relation.TransGen.head'_iff.mp hcycle
      exact hpart hac a ⟨c, rfl, hca⟩ hcycle
    · exact hpart hac b ⟨c, rfl, hcb⟩ hcycle

end Heap

end ValueHeap
