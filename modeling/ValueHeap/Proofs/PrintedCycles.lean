import ValueHeap.Proofs.Bisimilarity
import ValueHeap.Proofs.Layout
import ValueHeap.Proofs.Printing
import ValueHeap.Proofs.Sharing

/-!
# Cycles in print

A composite is met once for every path of fields that leads to it, and each time it is printed by that path
alone: as an ellipsis when it lies too deep, as a cycle when it is one of the composites on the path, and in
full otherwise.

* `Leads w path blocks v`: the fields numbered in `path` lead from `w` through the composites `blocks` to
  `v`.
* `Doc.part? d path`: the document that stands in the place of that value.
* `Shape.Encloses`: the texts around the fields of a composite.
* `Tree.Matches`: two unfoldings agree in everything but the names of their blocks.

Results:
* `part?_marked_iff`: the values with a document of their own, and what it is.
* `marked_eq_of_matches`: values with matching unfoldings print alike.
* `cycles_marked`: the rules together, with what follows from them for values that reach no cycle.
-/

namespace ValueHeap

/-! ## Parts of a document -/

namespace Doc

/-- The documents between separators. -/
def items : Doc → List Doc
  | .text s => if s = "" then [] else [.text s]
  | .append d (.append (.append _ .line) rest) => d :: rest.items
  | d => [d]

/-- The documents of the fields in the document of a composite. -/
def fields : Doc → List Doc
  | .append (.text _) (.append (.group (.nest _ body)) (.text _)) => body.items
  | _ => []

/-- The document of the value that is reached over the fields with these numbers. -/
def part? : Doc → List Nat → Option Doc
  | d, [] => some d
  | d, i :: path => d.fields[i]?.bind fun e => e.part? path

theorem part?_append (d : Doc) (path path' : List Nat) :
    d.part? (path ++ path') = (d.part? path).bind fun e => e.part? path' := by
  induction path generalizing d with
  | nil => rfl
  | cons i path ih =>
    rw [List.cons_append, part?, part?, Option.bind_assoc]
    exact congrArg _ (funext ih)

end Doc

/-- A text that starts with other characters is another text. -/
theorem ne_of_take_ne (front : String) {s t : String} (hs : ∃ rest, s.toList = front.toList ++ rest)
    (hlen : 2 ≤ front.toList.length) (hne : front.toList.take 2 ≠ t.toList.take 2) : s ≠ t := by
  rintro rfl
  obtain ⟨rest, hs⟩ := hs
  rw [hs, List.take_append_of_le_length hlen] at hne
  exact hne rfl

/-- The text of a buffer starts with a word of its own. -/
theorem bufferText_ne (data : List UInt8) {s : String} (hs : "<bytes".toList.take 2 ≠ s.toList.take 2) :
    bufferText data ≠ s := by
  refine ne_of_take_ne "<bytes" ?_ (by decide) hs
  unfold bufferText
  simp only [String.toList_append, List.append_assoc]
  exact ⟨_, rfl⟩

variable {marks : List String} {d : Doc}

theorem Atom.items_eq (hmarks : "" ∉ marks) (hd : Atom marks d) : d.items = [d] := by
  cases hd with
  | number x => rfl
  | constant p => rfl
  | text bs => rfl
  | bytes data => exact if_neg (bufferText_ne data (by decide))
  | char packed =>
    unfold charDoc
    split
    · rfl
    · rfl
  | mark hs => exact if_neg (ne_of_mem_of_not_mem hs hmarks)

theorem Atom.fields_eq (hd : Atom marks d) : d.fields = [] := by
  cases hd with
  | char packed =>
    unfold charDoc
    split
    · rfl
    · rfl
  | _ => rfl

/-- The document of a value cannot be taken for several ones, or for none. -/
theorem Printed.items_eq (hmarks : "" ∉ marks) (hd : Printed marks d) : d.items = [d] := by
  cases hd with
  | atom hd => exact hd.items_eq hmarks
  | composite shape hdocs => rfl

theorem Doc.items_separated {docs : List Doc} (hdocs : ∀ d ∈ docs, d.items = [d]) :
    (Doc.separated (.append (.text ",") .line) docs).items = docs := by
  induction docs with
  | nil => rfl
  | cons d ds ih =>
    cases ds with
    | nil => exact hdocs d List.mem_cons_self
    | cons e ds => exact congrArg (List.cons d) (ih fun f hf => hdocs f (List.mem_cons_of_mem d hf))

/-- A composite is printed with the documents of all its fields. -/
theorem fields_compositeDoc (shape : Shape) {docs : List Doc} (hdocs : ∀ d ∈ docs, d.items = [d]) :
    (compositeDoc shape docs).fields = docs := Doc.items_separated hdocs

/-! ## Pieces of a document -/

/-- The texts in front of the fields of a composite and behind them. -/
inductive Shape.Encloses : Shape → String → String → Prop
  | tuple : Encloses .tuple "(" ")"
  | array : Encloses .array "[> " "]"
  | record (module type : UInt32) : Encloses (.record module type)
      ("<record " ++ toString module.toNat ++ ":" ++ toString type.toNat ++ ">\x7b") "\x7d"
  | variant (module type index : UInt32) : Encloses (.variant module type index)
      ("<variant " ++ toString module.toNat ++ ":" ++ toString type.toNat ++ ":" ++
        toString index.toNat ++ ">(") ")"

theorem Shape.encloses_brackets {shape : Shape} (hshape : shape.isStructural = true) :
    shape.Encloses shape.brackets.1 shape.brackets.2 := by
  cases shape with
  | tuple => exact .tuple
  | array => exact .array
  | record module type => exact .record module type
  | variant module type index => exact .variant module type index
  | closure arity code => cases hshape

theorem Doc.separated_cons_cons (separator d e : Doc) (ds : List Doc) :
    separated separator (d :: e :: ds) =
      .append d (.append separator (separated separator (e :: ds))) := rfl

/-- On one line, a comma and a space stand between the documents. -/
theorem Doc.unbroken_separated (docs : List Doc) :
    (Doc.separated (.append (.text ",") .line) docs).unbroken = ", ".intercalate (docs.map unbroken) := by
  induction docs with
  | nil => exact (unbroken_text "").trans String.intercalate_nil.symm
  | cons d ds ih =>
    cases ds with
    | nil => exact String.intercalate_singleton.symm
    | cons e ds =>
      rw [separated_cons_cons, unbroken_append, unbroken_append, ih]
      show _ = ", ".intercalate (d.unbroken :: e.unbroken :: ds.map unbroken)
      rw [String.intercalate_cons_cons, String.append_assoc]
      rfl

theorem unbroken_compositeDoc (shape : Shape) (docs : List Doc) : (compositeDoc shape docs).unbroken =
    shape.brackets.1 ++ ", ".intercalate (docs.map Doc.unbroken) ++ shape.brackets.2 := by
  rw [← Doc.unbroken_separated, compositeDoc, Doc.unbroken_append, Doc.unbroken_append, Doc.unbroken_text,
    Doc.unbroken_text, String.append_assoc]
  rfl

/-- Between the documents there are commas and lines only. -/
theorem Doc.mem_oneLine_separated {docs : List Doc} {p : Piece}
    (hp : p ∈ (Doc.separated (.append (.text ",") .line) docs).oneLine) :
    p ∈ [.text "", .text ",", .text " "] ∨ ∃ d ∈ docs, p ∈ d.oneLine := by
  induction docs with
  | nil =>
    obtain rfl := List.mem_singleton.mp hp
    exact Or.inl List.mem_cons_self
  | cons d ds ih =>
    cases ds with
    | nil => exact Or.inr ⟨d, List.mem_cons_self, hp⟩
    | cons e ds =>
      rcases List.mem_append.mp hp with hp | hp
      · exact Or.inr ⟨d, List.mem_cons_self, hp⟩
      rcases List.mem_append.mp hp with hp | hp
      · exact Or.inl (List.mem_cons_of_mem _ hp)
      · rcases ih hp with hp | ⟨f, hf, hp⟩
        · exact Or.inl hp
        · exact Or.inr ⟨f, List.mem_cons_of_mem d hf, hp⟩

theorem Shape.brackets_ne_cycle (shape : Shape) :
    shape.brackets.1 ≠ "<cycle>" ∧ shape.brackets.2 ≠ "<cycle>" := by
  cases shape with
  | tuple => decide
  | array => decide
  | record module type =>
    refine ⟨ne_of_take_ne "<record " ?_ (by decide) (by decide), ne_of_beq_false rfl⟩
    unfold brackets
    simp only [String.toList_append, List.append_assoc]
    exact ⟨_, rfl⟩
  | variant module type index =>
    refine ⟨ne_of_take_ne "<variant " ?_ (by decide) (by decide), ne_of_beq_false rfl⟩
    unfold brackets
    simp only [String.toList_append, List.append_assoc]
    exact ⟨_, rfl⟩
  | closure arity code => exact ⟨ne_of_beq_false rfl, ne_of_beq_false rfl⟩

theorem Atom.cycle_notMem (hmarks : "<cycle>" ∉ marks) (hd : Atom marks d) :
    .text "<cycle>" ∉ d.oneLine := by
  have other {s : String} (hs : s ≠ "<cycle>") : .text "<cycle>" ∉ (Doc.text s).oneLine := fun hmem =>
    hs (Piece.text.inj (List.mem_singleton.mp hmem)).symm
  cases hd with
  | bytes data => exact other (bufferText_ne data (by decide))
  | char packed =>
    unfold charDoc
    split
    · simp [Doc.oneLine]
    · exact other (by decide)
  | mark hs => exact other (ne_of_mem_of_not_mem hs hmarks)
  | _ => simp [Doc.oneLine]

/-- Without the word for a cycle among the marks, no piece is that word. -/
theorem Printed.cycle_notMem (hmarks : "<cycle>" ∉ marks) (hd : Printed marks d) :
    .text "<cycle>" ∉ d.oneLine := by
  induction hd with
  | atom hd => exact hd.cycle_notMem hmarks
  | @composite shape docs _ ih =>
    obtain ⟨hopening, hclosing⟩ := shape.brackets_ne_cycle
    intro hmem
    rw [oneLine_compositeDoc] at hmem
    rcases List.mem_cons.mp hmem with heq | hmem
    · exact hopening (Piece.text.inj heq).symm
    rcases List.mem_append.mp hmem with hmem | hmem
    · rcases Doc.mem_oneLine_separated hmem with hmem | ⟨d, hd, hmem⟩
      · exact absurd hmem (by decide)
      · exact ih d hd hmem
    · exact hclosing (Piece.text.inj (List.mem_singleton.mp hmem)).symm

namespace Heap

/-! ## Paths of fields -/

/-- The fields with the numbers `path` lead from `w` through the composites `blocks` to `v`. -/
inductive Leads (h : Heap) : Word → List Nat → List BlockId → Word → Prop
  | nil (w : Word) : Leads h w [] [] w
  | cons {w x v : Word} {b : BlockId} {shape : Shape} {fields : List Word} {i : Nat} {path : List Nat}
      {blocks : List BlockId} (hw : h.node? w = some (b, shape, fields)) (hx : fields[i]? = some x)
      (hv : Leads h x path blocks v) : Leads h w (i :: path) (b :: blocks) v

variable {h k : Heap} {levels : Nat} {ancestors : List BlockId} {w v : Word} {b : BlockId} {shape : Shape}
  {fields : List Word}

theorem Leads.unique {path : List Nat} {blocks blocks' : List BlockId} {v' : Word}
    (hv : h.Leads w path blocks v) (hv' : h.Leads w path blocks' v') : blocks = blocks' ∧ v = v' := by
  induction hv generalizing blocks' with
  | nil w =>
    cases hv'
    exact ⟨rfl, rfl⟩
  | cons hw hx _ ih =>
    obtain _ | ⟨hw', hx', hv'⟩ := hv'
    cases hw.symm.trans hw'
    cases hx.symm.trans hx'
    obtain ⟨rfl, rfl⟩ := ih hv'
    exact ⟨rfl, rfl⟩

/-- The documents of fields can be told apart again. -/
theorem fields_compositeDoc_marked (shape : Shape) (fields : List Word) (levels : Nat)
    (ancestors : List BlockId) :
    (compositeDoc shape (fields.map (h.marked levels ancestors))).fields =
      fields.map (h.marked levels ancestors) := by
  refine fields_compositeDoc shape fun d hd => ?_
  obtain ⟨x, -, rfl⟩ := List.mem_map.mp hd
  exact (printed_of_marked h levels ancestors x).items_eq (by decide)

/-- **One field.** The document of a value has one for a field iff the value is a composite that is
printed in full. -/
theorem fields_marked_iff {i : Nat} {d : Doc} : (h.marked levels ancestors w).fields[i]? = some d ↔
    ∃ b shape fields x n, h.node? w = some (b, shape, fields) ∧ levels = n + 1 ∧ b ∉ ancestors ∧
      fields[i]? = some x ∧ d = h.marked n (b :: ancestors) x := by
  cases hw : h.node? w with
  | none =>
    rw [marked_of_leaf hw, (document_of_leaf hw 0 ∅).2.fields_eq]
    simp
  | some node =>
    obtain ⟨b, shape, fields⟩ := node
    cases levels with
    | zero =>
      rw [marked_zero hw]
      simp [Doc.fields]
    | succ n =>
      rw [marked_succ hw]
      split_ifs with hb
      · simp [Doc.fields, hb]
      · rw [fields_compositeDoc_marked, List.getElem?_map, Option.map_eq_some_iff]
        constructor
        · rintro ⟨x, hx, rfl⟩
          exact ⟨b, shape, fields, x, n, rfl, rfl, hb, hx, rfl⟩
        · rintro ⟨_, _, _, x, _, ⟨⟩, ⟨⟩, -, hx, rfl⟩
          exact ⟨x, hx, rfl⟩

/-- **All the way.** A value has a document of its own iff a path leads to it on which no composite is met
twice, none around is met, and the levels last. -/
theorem part?_marked_iff {path : List Nat} {d : Doc} :
    (h.marked levels ancestors w).part? path = some d ↔
      ∃ blocks v, h.Leads w path blocks v ∧ path.length ≤ levels ∧ blocks.Nodup ∧
        (∀ b ∈ blocks, b ∉ ancestors) ∧
        d = h.marked (levels - path.length) (blocks.reverse ++ ancestors) v := by
  induction path generalizing levels ancestors w with
  | nil =>
    constructor
    · rintro ⟨⟩
      exact ⟨[], w, .nil w, Nat.zero_le _, List.nodup_nil, fun b hb => absurd hb List.not_mem_nil, rfl⟩
    · rintro ⟨_, _, ⟨⟩, -, -, -, rfl⟩
      rfl
  | cons i path ih =>
    rw [Doc.part?, Option.bind_eq_some_iff]
    constructor
    · rintro ⟨e, he, hd⟩
      obtain ⟨b, shape, fields, x, n, hw, rfl, hb, hx, rfl⟩ := fields_marked_iff.mp he
      obtain ⟨blocks, v, hv, hlen, hnodup, hout, rfl⟩ := ih.mp hd
      refine ⟨b :: blocks, v, .cons hw hx hv, Nat.succ_le_succ hlen, ?_, ?_, ?_⟩
      · exact List.nodup_cons.mpr ⟨fun hmem => hout b hmem List.mem_cons_self, hnodup⟩
      · intro c hc
        rcases List.mem_cons.mp hc with rfl | hc
        · exact hb
        · exact fun hmem => hout c hc (List.mem_cons_of_mem b hmem)
      · rw [List.length_cons, Nat.succ_sub_succ, List.reverse_cons, List.append_assoc,
          List.singleton_append]
    · rintro ⟨_, v, hv, hlen, hnodup, hout, rfl⟩
      obtain _ | ⟨hw, hx, hv⟩ := hv
      obtain ⟨n, rfl⟩ := Nat.exists_eq_succ_of_ne_zero (Nat.ne_zero_of_lt hlen)
      obtain ⟨hnew, hnodup⟩ := List.nodup_cons.mp hnodup
      refine ⟨_, fields_marked_iff.mpr ⟨_, _, _, _, n, hw, rfl, hout _ List.mem_cons_self, hx, rfl⟩,
        ih.mpr ⟨_, v, hv, Nat.le_of_succ_le_succ hlen, hnodup, fun c hc hmem => ?_, ?_⟩⟩
      · rcases List.mem_cons.mp hmem with rfl | hmem
        · exact hnew hc
        · exact hout c (List.mem_cons_of_mem _ hc) hmem
      · rw [List.length_cons, Nat.succ_sub_succ, List.reverse_cons, List.append_assoc,
          List.singleton_append]

/-- **A composite**, by what is left of the levels and by what is around it. -/
theorem marked_node (hv : h.node? v = some (b, shape, fields)) (levels : Nat) (ancestors : List BlockId) :
    (h.marked levels ancestors v = .text "..." ↔ levels = 0) ∧
      (h.marked levels ancestors v = .text "<cycle>" ↔ 0 < levels ∧ b ∈ ancestors) ∧
      (0 < levels → b ∉ ancestors → h.marked levels ancestors v =
        compositeDoc shape (fields.map (h.marked (levels - 1) (b :: ancestors)))) := by
  cases levels with
  | zero =>
    rw [marked_zero hv]
    simp
  | succ n =>
    rw [marked_succ hv]
    split_ifs with hb
    · simp [hb]
    · simp [hb, compositeDoc]

/-- What the printer makes of a value with `levels` to go, inside the composites `around`. -/
structure MarksCycles (h : Heap) (levels : Nat) (around : Std.HashSet BlockId) (root : Word) : Prop where
  /-- There is a document for each value at the end of a path on which every composite is printed in
  full. -/
  occurs : ∀ path, ((h.document levels root around).1.part? path).isSome ↔
    ∃ blocks v, h.Leads root path blocks v ∧ path.length ≤ levels ∧ blocks.Nodup ∧
      ∀ b ∈ blocks, b ∉ around
  /-- For a composite this is an ellipsis iff the path is too long; a cycle iff it is not, and the composite
  is around its own place; and else its kind with its ids, and the documents of all its fields in
  brackets. -/
  marks : ∀ path blocks v b shape fields d, h.Leads root path blocks v →
    h.node? v = some (b, shape, fields) → (h.document levels root around).1.part? path = some d →
      (d = .text "..." ↔ levels ≤ path.length) ∧
      (d = .text "<cycle>" ↔ path.length < levels ∧ (b ∈ blocks ∨ b ∈ around)) ∧
      (path.length < levels → b ∉ blocks → b ∉ around → ∃ opening closing docs,
        shape.Encloses opening closing ∧
        d = .append (.text opening) (.append
          (.group (.nest 2 (Doc.separated (.append (.text ",") .line) docs))) (.text closing)) ∧
        d.unbroken = opening ++ ", ".intercalate (docs.map Doc.unbroken) ++ closing ∧
        docs.length = fields.length ∧
        ∀ i, (h.document levels root around).1.part? (path ++ [i]) = docs[i]?)
  /-- Any other value is printed as if it stood alone. -/
  atoms : ∀ path blocks v d, h.Leads root path blocks v → h.node? v = none →
    (h.document levels root around).1.part? path = some d → d = h.print v
  /-- The same composites are around afterwards. -/
  restores : ∀ b, b ∈ (h.document levels root around).2 ↔ b ∈ around

theorem marksCycles (h : Heap) (levels : Nat) (around : Std.HashSet BlockId) (root : Word) :
    h.MarksCycles levels around root := by
  have haround : ∀ a, a ∈ around ↔ a ∈ around.toList := fun a => Std.HashSet.mem_toList.symm
  obtain ⟨hdoc, hset⟩ := document_eq_marked (h := h) levels root haround
  constructor
  case occurs =>
    intro path
    rw [hdoc, Option.isSome_iff_exists]
    simp only [part?_marked_iff, haround]
    constructor
    · rintro ⟨d, blocks, v, hv, hlen, hnodup, hout, -⟩
      exact ⟨blocks, v, hv, hlen, hnodup, hout⟩
    · rintro ⟨blocks, v, hv, hlen, hnodup, hout⟩
      exact ⟨_, blocks, v, hv, hlen, hnodup, hout, rfl⟩
  case marks =>
    intro path blocks v b shape fields d hlead hv hd
    rw [hdoc] at hd ⊢
    obtain ⟨blocks', v', hlead', hlen, -, -, rfl⟩ := part?_marked_iff.mp hd
    obtain ⟨rfl, rfl⟩ := hlead.unique hlead'
    obtain ⟨hdeep, hcycle, hfull⟩ := marked_node hv (levels - path.length) (blocks.reverse ++ around.toList)
    have hmem : b ∈ blocks.reverse ++ around.toList ↔ b ∈ blocks ∨ b ∈ around := by
      rw [List.mem_append, List.mem_reverse, haround]
    refine ⟨hdeep.trans (by omega), ?_, fun hlt hblocks hb => ?_⟩
    · rw [hcycle, hmem, Nat.sub_pos_iff_lt]
    · have hprinted := hfull (Nat.sub_pos_of_lt hlt) (mt hmem.mp (not_or.mpr ⟨hblocks, hb⟩))
      refine ⟨_, _, _, Shape.encloses_brackets (block?_of_node? hv).2.2, hprinted,
        hprinted ▸ unbroken_compositeDoc shape _, List.length_map _, fun i => ?_⟩
      rw [Doc.part?_append, hd, hprinted, Option.bind_some, Doc.part?, fields_compositeDoc_marked]
      exact Option.bind_fun_some _
  case atoms =>
    intro path blocks v d hlead hv hd
    rw [hdoc] at hd
    obtain ⟨blocks', v', hlead', -, -, -, rfl⟩ := part?_marked_iff.mp hd
    obtain ⟨-, rfl⟩ := hlead.unique hlead'
    rw [print_eq_marked, marked_of_leaf hv, marked_of_leaf hv]
  case restores => exact fun a => (hset a).trans (haround a).symm

end Heap

/-! ## Unfoldings -/

/-- The block without its fields. -/
def Block.bare : Block → Block
  | .composite shape _ => .composite shape []
  | block => block

theorem Block.cases_of_bare {s t : Block} (hst : s.bare = t.bare) :
    s = t ∨ ∃ shape us vs, s = .composite shape us ∧ t = .composite shape vs := by
  cases s with
  | composite shape us =>
    cases t with
    | composite _ vs =>
      cases hst
      exact Or.inr ⟨shape, us, vs, rfl, rfl⟩
    | _ => cases hst
  | _ =>
    cases t with
    | composite _ _ => cases hst
    | _ => exact Or.inl hst

/-- What a surface shows apart from the names of blocks. -/
def Surface.face (s : Surface) : Option Pattern × Option Block :=
  (match s.word with
    | .immediate p => some p
    | .reference _ => none, s.block.map Block.bare)

/-- The trees agree in everything but the names of blocks. -/
inductive Tree.Matches : Tree → Tree → Prop
  | node {t u : Tree} (hface : t.surface.face = u.surface.face)
      (hlen : t.children.length = u.children.length)
      (hchildren : ∀ (i : Nat) (t' u' : Tree), t.children[i]? = some t' → u.children[i]? = some u' →
        Matches t' u') : Matches t u

theorem Tree.Matches.of_forall₂ {s s' : Surface} {ts us : List Tree} (hface : s.face = s'.face)
    (hchildren : List.Forall₂ Tree.Matches ts us) : Tree.Matches (.node s ts) (.node s' us) := by
  refine .node hface hchildren.length_eq fun i t' u' ht' hu' => ?_
  obtain ⟨hi, rfl⟩ := List.getElem?_eq_some_iff.mp ht'
  obtain ⟨hi', rfl⟩ := List.getElem?_eq_some_iff.mp hu'
  exact hchildren.get hi hi'

namespace Heap

variable {h k : Heap} {x y : Word}

theorem Unfolds.of_forall₂ {w : Word} {ts : List Tree} (hchildren : List.Forall₂ h.Unfolds (h.parts w) ts) :
    h.Unfolds w (.node (h.surface w) ts) := by
  refine .intro rfl hchildren.length_eq.symm fun i x t' hx ht' => ?_
  obtain ⟨hi, rfl⟩ := List.getElem?_eq_some_iff.mp hx
  obtain ⟨hi', rfl⟩ := List.getElem?_eq_some_iff.mp ht'
  exact hchildren.get hi hi'

/-- Two values with one face: the same immediate, or references to blocks that differ in their fields at
most. -/
theorem cases_of_face (hface : (h.surface x).face = (k.surface y).face) :
    (∃ p, x = .immediate p ∧ y = .immediate p) ∨
      ∃ a b, x = .reference a ∧ y = .reference b ∧
        (h.block? x = k.block? y ∨ ∃ shape us vs, h.block? x = some (.composite shape us) ∧
          k.block? y = some (.composite shape vs)) := by
  obtain ⟨hword, hblock⟩ := Prod.mk.inj hface
  cases x with
  | immediate p =>
    cases y with
    | immediate q =>
      cases hword
      exact Or.inl ⟨p, rfl, rfl⟩
    | reference b => cases hword
  | reference a =>
    cases y with
    | immediate q => cases hword
    | reference b =>
      refine Or.inr ⟨a, b, rfl, rfl, ?_⟩
      change (h.block? (.reference a)).map Block.bare = (k.block? (.reference b)).map Block.bare at hblock
      cases hx : h.block? (.reference a) with
      | none =>
        rw [hx] at hblock
        exact Or.inl (Option.map_eq_none_iff.mp hblock.symm).symm
      | some s =>
        rw [hx] at hblock
        obtain ⟨t, ht, hst⟩ := Option.map_eq_some_iff.mp hblock.symm
        rw [ht]
        rcases Block.cases_of_bare hst with rfl | ⟨shape, vs, us, rfl, rfl⟩
        · exact Or.inl rfl
        · exact Or.inr ⟨shape, us, vs, rfl, rfl⟩

theorem leafDoc_of_face (hface : (h.surface x).face = (k.surface y).face) : h.leafDoc x = k.leafDoc y := by
  rcases cases_of_face hface with ⟨p, rfl, rfl⟩ | ⟨a, b, rfl, rfl, hblock | ⟨shape, us, vs, hx, hy⟩⟩
  · have hn : h.number? (.immediate p) = k.number? (.immediate p) := rfl
    unfold leafDoc document
    rw [hn]
    cases k.number? (.immediate p) with
    | some n => rfl
    | none => rfl
  · have hn : h.number? (.reference a) = k.number? (.reference b) := by
      unfold number?
      rw [hblock]
      rfl
    unfold leafDoc document
    rw [hn, hblock]
    cases k.number? (.reference b) with
    | some n => rfl
    | none =>
      cases k.block? (.reference b) with
      | none => rfl
      | some block =>
        cases block with
        | composite shape fields => cases shape <;> rfl
        | _ => rfl
  · unfold leafDoc document number?
    rw [hx, hy]
    cases shape <;> rfl

/-- One of two values with the same face is printed with its fields iff the other is. -/
theorem exists_node?_of_face (hface : (h.surface x).face = (k.surface y).face) {a : BlockId} {shape : Shape}
    {us : List Word} (hx : h.node? x = some (a, shape, us)) : ∃ b vs, k.node? y = some (b, shape, vs) := by
  obtain ⟨rfl, hblock, hcode⟩ := block?_of_node? hx
  rcases cases_of_face hface with ⟨p, ⟨⟩, -⟩ | ⟨_, b, -, rfl, heq | ⟨shape', us', vs, hx', hy⟩⟩
  · exact ⟨b, us, node?_of_block? (heq.symm.trans hblock) hcode⟩
  · cases hblock.symm.trans hx'
    exact ⟨b, vs, node?_of_block? hy hcode⟩

theorem node?_eq_none_of_face (hface : (h.surface x).face = (k.surface y).face) (hx : h.node? x = none) :
    k.node? y = none := by
  by_contra hne
  obtain ⟨⟨b, shape, vs⟩, hy⟩ := Option.ne_none_iff_exists'.mp hne
  obtain ⟨a, us, hx'⟩ := exists_node?_of_face hface.symm hy
  cases hx.symm.trans hx'

/-- **Sharing does not show.** Values that unfold to matching trees print alike, as long as nothing around
them is inside of them. -/
theorem marked_eq_of_matches {t u : Tree} (htu : t.Matches u) (hx : h.Unfolds x t) (hy : k.Unfolds y u)
    (levels : Nat) {above below : List BlockId} (habove : ∀ a ∈ above, ¬ h.Reaches x a)
    (hbelow : ∀ b ∈ below, ¬ k.Reaches y b) : h.marked levels above x = k.marked levels below y := by
  induction htu generalizing x y levels above below with
  | @node t u hface hlen _ ih =>
    rw [hx.surface_eq, hy.surface_eq] at hface
    cases hleft : h.node? x with
    | none =>
      rw [marked_of_leaf hleft, marked_of_leaf (node?_eq_none_of_face hface hleft),
        leafDoc_of_face hface]
    | some node =>
      obtain ⟨a, shape, us⟩ := node
      obtain ⟨b, vs, hright⟩ := exists_node?_of_face hface hleft
      cases levels with
      | zero => rw [marked_zero hleft, marked_zero hright]
      | succ n =>
        have hus := parts_of_node? hleft
        have hvs := parts_of_node? hright
        obtain ⟨rfl, -, -⟩ := block?_of_node? hleft
        obtain ⟨rfl, -, -⟩ := block?_of_node? hright
        rw [marked_succ hleft, marked_succ hright, if_neg fun ha => habove a ha (.refl a),
          if_neg fun hb => hbelow b hb (.refl b)]
        -- the fields are as many on both sides, and print alike one by one
        refine congrArg _ (List.ext_getElem ?_ fun i hi hi' => ?_)
        · rw [List.length_map, List.length_map, ← hus, ← hvs, ← hx.length_children,
            ← hy.length_children, hlen]
        rw [List.length_map, ← hus] at hi
        rw [List.length_map, ← hvs] at hi'
        have hu := List.getElem?_eq_getElem hi
        have hv := List.getElem?_eq_getElem hi'
        obtain ⟨t', ht', hxt⟩ := hx.exists_child hu
        obtain ⟨u', hu', hyu⟩ := hy.exists_child hv
        have hpart := hx.acyclicFrom.not_reaches_of_part (List.getElem_mem hi) habove
        have hpart' := hy.acyclicFrom.not_reaches_of_part (List.getElem_mem hi') hbelow
        simp only [List.getElem_map, ← hus, ← hvs]
        exact ih i t' u' ht' hu' hxt hyu n hpart hpart'

/-! ## Whole values -/

/-- **A value that reaches no cycle** is printed without a mark for one, wherever its lines are broken. -/
theorem cycle_notMem_of_lays (hx : h.AcyclicFrom x) {indent : Nat} {flat : Bool} {ps : List Piece}
    (hps : (h.print x).Lays indent flat ps) : .text "<cycle>" ∉ ps := by
  intro hmem
  have hprinted : Printed placeholders (h.print x) := by
    rw [print_eq_marked]
    exact printed_marked (List.Subset.refl _) printDepth [] x
      (Or.inr ⟨hx, fun a ha => absurd ha List.not_mem_nil⟩)
  exact hprinted.cycle_notMem (by decide) (Piece.text_mem_of_wraps hps.wraps hmem)

theorem print_eq_of_matches {t u : Tree} (htu : t.Matches u) (hx : h.Unfolds x t) (hy : k.Unfolds y u) :
    h.print x = k.print y := by
  rw [print_eq_marked, print_eq_marked]
  exact marked_eq_of_matches htu hx hy printDepth (fun a ha => absurd ha List.not_mem_nil)
    (fun b hb => absurd hb List.not_mem_nil)

/-- **The printer marks exactly the cycles.** At every depth and inside any composites it marks composites
by the path to them, down to the depth of 64 for a value that stands alone. A value that reaches no cycle
prints without a mark, and by its unfolding alone, whatever draws it. -/
theorem cycles_marked (h : Heap) (w : Word) :
    (∀ levels around, h.MarksCycles levels around w) ∧ h.print w = (h.document 64 w ∅).1 ∧
      (h.AcyclicFrom w → ∀ ps, (h.print w).Lays 0 false ps → .text "<cycle>" ∉ ps) ∧
      ∀ (k : Heap) (v : Word) (t u : Tree), t.Matches u → h.Unfolds w t → k.Unfolds v u →
        h.print w = k.print v ∧ ∀ r : Renderer, h.display r w = k.display r v ∧
          ∀ colour, h.pretty r colour w = k.pretty r colour v := by
  refine ⟨fun levels around => marksCycles h levels around w, rfl,
    fun hw ps hps => cycle_notMem_of_lays hw hps, ?_⟩
  intro k v t u htu hw hv
  have hprint := print_eq_of_matches htu hw hv
  refine ⟨hprint, fun r => ⟨?_, fun colour => ?_⟩⟩
  · rw [display, hprint, display]
  · rw [pretty, hprint, pretty]

/-- A record that holds itself. -/
def selfish : Heap :=
  ⟨sequential, #[some ⟨2, 32, .composite (.record 7 9) [.immediate 15#64, .reference 0]⟩], 1, 32, 1, 0, 0⟩

/-- A ring of two pairs is cut where it closes. A record is printed with its ids around both its fields, and
a pair that shares its halves prints like one that does not. -/
theorem cycles_marked_rings_twins :
    (rings.print (.reference 1)).part? [1, 1] = some (.text "<cycle>") ∧
      (∃ first, (selfish.print (.reference 0)).unbroken = "<record 7:9>\x7b" ++ first ++ ", <cycle>\x7d") ∧
      twins.display .standard (.reference 2) = twins.display .standard (.reference 6) := by
  refine ⟨?_, ?_, ?_⟩
  · obtain ⟨hmarks, hprint, -, -⟩ := cycles_marked rings (.reference 1)
    have hlead : rings.Leads (.reference 1) [1, 1] [1, 2] (.reference 1) :=
      .cons rfl rfl (.cons rfl rfl (.nil _))
    obtain ⟨d, hd⟩ := Option.isSome_iff_exists.mp (((hmarks 64 ∅).occurs [1, 1]).mpr
      ⟨_, _, hlead, by decide, by decide, fun b _ => Std.HashSet.not_mem_empty⟩)
    obtain ⟨-, hcycle, -⟩ := (hmarks 64 ∅).marks _ _ _ _ _ _ d hlead rfl hd
    rw [hprint, hd, hcycle.mpr ⟨by decide, Or.inl (by decide)⟩]
  · obtain ⟨hmarks, hprint, -, -⟩ := cycles_marked selfish (.reference 0)
    have hself : selfish.node? (.reference 0) = some (0, .record 7 9, [.immediate 15#64, .reference 0]) := rfl
    have hlead : selfish.Leads (.reference 0) [1] [0] (.reference 0) := .cons hself rfl (.nil _)
    obtain ⟨-, -, hfull⟩ := (hmarks 64 ∅).marks _ _ _ _ _ _ _ (.nil _) hself rfl
    obtain ⟨_, _, docs, ⟨⟩, -, htext, hlen, hpart⟩ :=
      hfull (by decide) List.not_mem_nil Std.HashSet.not_mem_empty
    obtain ⟨first, second, rfl⟩ := List.length_eq_two.mp hlen
    obtain ⟨-, hcycle, -⟩ := (hmarks 64 ∅).marks _ _ _ _ _ _ second hlead hself (hpart 1)
    obtain rfl := hcycle.mpr ⟨by decide, Or.inl List.mem_cons_self⟩
    have hopening : "<record " ++ toString (7 : UInt32).toNat ++ ":" ++ toString (9 : UInt32).toNat ++
        ">\x7b" = "<record 7:9>\x7b" := by decide +kernel
    refine ⟨first.unbroken, ?_⟩
    rw [hprint, htext, hopening, List.map_cons, List.map_singleton, Doc.unbroken_text,
      String.intercalate_cons_cons, String.intercalate_singleton, String.append_assoc, String.append_assoc,
      String.append_assoc]
    rfl
  · have leaf (b : BlockId) (hb : twins.parts (.reference b) = []) :
        twins.Unfolds (.reference b) (.node (twins.surface (.reference b)) []) :=
      .of_forall₂ (hb ▸ .nil)
    have single {a b : BlockId} {t : Tree} (ha : twins.parts (.reference a) = [.reference b])
        (ht : twins.Unfolds (.reference b) t) :
        twins.Unfolds (.reference a) (.node (twins.surface (.reference a)) [t]) :=
      .of_forall₂ (ha ▸ .cons ht .nil)
    have hshared : twins.Unfolds (.reference 2) _ :=
      .of_forall₂ (.cons (single rfl (leaf 0 rfl)) (.cons (single rfl (leaf 0 rfl)) .nil))
    have hapart : twins.Unfolds (.reference 6) _ :=
      .of_forall₂ (.cons (single rfl (leaf 3 rfl)) (.cons (single rfl (leaf 0 rfl)) .nil))
    obtain ⟨-, -, -, halike⟩ := cycles_marked twins (.reference 2)
    refine ((halike twins (.reference 6) _ _ ?_ hshared hapart).2 .standard).1
    exact .of_forall₂ rfl (.cons (.of_forall₂ rfl (.cons (.of_forall₂ rfl .nil) .nil))
      (.cons (.of_forall₂ rfl (.cons (.of_forall₂ rfl .nil) .nil)) .nil))

end Heap

end ValueHeap
