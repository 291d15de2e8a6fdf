import ValueHeap.Print.Value
import ValueHeap.Proofs.Layout
import ValueHeap.Proofs.Structure

/-!
# What is printed for a value

The printer keeps a set of the composites that it is inside of. What it prints is a function of the path
from the outermost value alone.

* `node?`: a composite that is printed with its fields, which is every one but code.
* `marked levels ancestors w`: the document of a value inside the given composites, with nothing kept.
* `Printed marks d`: the form of such documents, from `Atom`s upwards; `marks` are the words that can stand
  for a value.

Results:
* `document_eq_marked`: the printer makes the marked document, and leaves the set with the composites that
  it found in it.
* `printed_marked`: a marked document has the form of a printed one.
-/

namespace ValueHeap

/-- The document of a value that is printed without fields. -/
inductive Atom (marks : List String) : Doc → Prop
  | number (x : Number) : Atom marks (.coloured .cyan x.text)
  | constant (p : Pattern) : Atom marks (.coloured .magenta p.text)
  | text (bs : List UInt8) : Atom marks (.coloured .green (Text.quoteText (Utf8.decodeLossy bs)))
  | bytes (data : List UInt8) : Atom marks (.text (bufferText data))
  | char (packed : UInt32) : Atom marks (charDoc packed)
  | mark {s : String} (hs : s ∈ marks) : Atom marks (.text s)

/-- The document of a value: an atom, or a composite around documents of values. -/
inductive Printed (marks : List String) : Doc → Prop
  | atom {d : Doc} (hd : Atom marks d) : Printed marks d
  | composite (shape : Shape) {docs : List Doc} (hdocs : ∀ d ∈ docs, Printed marks d) :
      Printed marks (compositeDoc shape docs)

/-- The words that stand for a value that has no text of its own, or lies too deep. -/
def placeholders : List String := ["<unknown>", "<number>", "<lambda>", "..."]

theorem Atom.mono {marks more : List String} (hsub : marks ⊆ more) {d : Doc} (hd : Atom marks d) :
    Atom more d := by
  cases hd with
  | number x => exact .number x
  | constant p => exact .constant p
  | text bs => exact .text bs
  | bytes data => exact .bytes data
  | char packed => exact .char packed
  | mark hs => exact .mark (hsub hs)

theorem oneLine_compositeDoc (shape : Shape) (docs : List Doc) : (compositeDoc shape docs).oneLine =
    .text shape.brackets.1 :: ((Doc.separated (.append (.text ",") .line) docs).oneLine ++
      [.text shape.brackets.2]) := rfl

namespace Heap

/-- The block of a composite that is printed with its fields, and what it holds. -/
def node? (h : Heap) : Word → Option (BlockId × Shape × List Word)
  | .immediate _ => none
  | .reference b =>
    match h.block? (.reference b) with
    | some (.composite shape fields) => if shape.isStructural then some (b, shape, fields) else none
    | _ => none

/-- The document of a value that is no such composite. -/
def leafDoc (h : Heap) (w : Word) : Doc := (h.document 0 w ∅).1

/-- The document of a value inside the composites `ancestors`. -/
def marked (h : Heap) (levels : Nat) (ancestors : List BlockId) (w : Word) : Doc :=
  match h.node? w, levels with
  | none, _ => h.leafDoc w
  | some _, 0 => .text "..."
  | some (b, shape, fields), levels + 1 =>
    if b ∈ ancestors then .text "<cycle>"
    else compositeDoc shape (fields.map fun x => h.marked levels (b :: ancestors) x)

variable {h : Heap} {w : Word} {b : BlockId} {shape : Shape} {fields : List Word}

theorem block?_of_node? (hw : h.node? w = some (b, shape, fields)) :
    w = .reference b ∧ h.block? w = some (.composite shape fields) ∧ shape.isStructural = true := by
  cases w with
  | immediate p => cases hw
  | reference a =>
    simp only [node?] at hw
    split at hw
    · next hb =>
      split at hw
      · next hcode =>
        cases hw
        exact ⟨rfl, hb, hcode⟩
      · cases hw
    · cases hw

theorem node?_of_block? (hb : h.block? (.reference b) = some (.composite shape fields))
    (hcode : shape.isStructural = true) : h.node? (.reference b) = some (b, shape, fields) := by
  simp only [node?, hb, hcode, if_true]

theorem parts_of_node? (hw : h.node? w = some (b, shape, fields)) : h.parts w = fields :=
  parts_of_block? (block?_of_node? hw).2.1

/-! ## One value -/

/-- A value that is no composite prints without a look at the levels and the set. -/
theorem document_of_leaf (hw : h.node? w = none) (levels : Nat) (around : Std.HashSet BlockId) :
    h.document levels w around = (h.leafDoc w, around) ∧ Atom placeholders (h.leafDoc w) := by
  unfold leafDoc document
  cases hn : h.number? w with
  | some x => exact ⟨rfl, .number x⟩
  | none =>
    cases w with
    | immediate p => exact ⟨rfl, .constant p⟩
    | reference b =>
      cases hb : h.block? (.reference b) with
      | none => exact ⟨rfl, .mark (by decide)⟩
      | some block =>
        cases block with
        | text bs => exact ⟨rfl, .text bs⟩
        | bytes data => exact ⟨rfl, .bytes data⟩
        | char packed => exact ⟨rfl, .char packed⟩
        | number subtype payload extra => exact ⟨rfl, .mark (by decide)⟩
        | composite shape fields =>
          cases shape with
          | closure _ _ => exact ⟨rfl, .mark (by decide)⟩
          | _ =>
            rw [node?_of_block? hb rfl] at hw
            cases hw

theorem number?_of_node? (hw : h.node? w = some (b, shape, fields)) : h.number? w = none := by
  obtain ⟨rfl, hb, -⟩ := block?_of_node? hw
  unfold number?
  rw [hb]
  rfl

theorem document_zero (hw : h.node? w = some (b, shape, fields)) (around : Std.HashSet BlockId) :
    h.document 0 w around = (.text "...", around) := by
  have hn := number?_of_node? hw
  obtain ⟨rfl, hb, hcode⟩ := block?_of_node? hw
  unfold document
  simp only [hn, hb]
  cases shape with
  | closure _ _ => cases hcode
  | _ => rfl

/-- A composite with a level left. -/
theorem document_succ (hw : h.node? w = some (b, shape, fields)) (levels : Nat)
    (around : Std.HashSet BlockId) : h.document (levels + 1) w around =
      if b ∈ around then (.text "<cycle>", around)
      else
        let inner := (fields.mapM fun x => h.document levels x) (around.insert b)
        (compositeDoc shape inner.1, inner.2.erase b) := by
  have hn := number?_of_node? hw
  obtain ⟨rfl, hb, hcode⟩ := block?_of_node? hw
  conv_lhs => unfold document
  simp only [hn, hb]
  cases shape with
  | closure _ _ => cases hcode
  | _ =>
    show (if b ∈ around then _ else _ : StateM _ _) around = _
    split_ifs with hin
    · rfl
    · rfl

theorem marked_of_leaf (hw : h.node? w = none) (levels : Nat) (ancestors : List BlockId) :
    h.marked levels ancestors w = h.leafDoc w := by
  unfold marked
  rw [hw]

theorem marked_zero (hw : h.node? w = some (b, shape, fields)) (ancestors : List BlockId) :
    h.marked 0 ancestors w = .text "..." := by
  unfold marked
  rw [hw]

theorem marked_succ (hw : h.node? w = some (b, shape, fields)) (levels : Nat) (ancestors : List BlockId) :
    h.marked (levels + 1) ancestors w =
      if b ∈ ancestors then .text "<cycle>"
      else compositeDoc shape (fields.map (h.marked levels (b :: ancestors))) := by
  conv_lhs => unfold marked
  simp only [hw]

/-! ## All fields -/

/-- The documents of fields that are printed one after the other, if each of them leaves the set as it
was, up to what is kept of it. -/
theorem mapM_document {levels : Nat} {doc : Word → Doc} {P : Std.HashSet BlockId → Prop}
    (step : ∀ x around, P around →
      (h.document levels x around).1 = doc x ∧ P (h.document levels x around).2)
    (fields : List Word) (around : Std.HashSet BlockId) (haround : P around) :
    ((fields.mapM fun x => h.document levels x) around).1 = fields.map doc ∧
      P ((fields.mapM fun x => h.document levels x) around).2 := by
  induction fields generalizing around with
  | nil => exact ⟨rfl, haround⟩
  | cons x xs ih =>
    obtain ⟨hdoc, hset⟩ := step x around haround
    obtain ⟨hdocs, hsets⟩ := ih _ hset
    rw [List.mapM_cons]
    exact ⟨congrArg₂ List.cons hdoc hdocs, hsets⟩

/-- **The set is the path.** The printer makes the marked document, and the set holds the same composites
afterwards. -/
theorem document_eq_marked (levels : Nat) (w : Word) {around : Std.HashSet BlockId}
    {ancestors : List BlockId} (haround : ∀ a, a ∈ around ↔ a ∈ ancestors) :
    (h.document levels w around).1 = h.marked levels ancestors w ∧
      ∀ a, a ∈ (h.document levels w around).2 ↔ a ∈ ancestors := by
  induction levels using Nat.strongRecOn generalizing w around ancestors with
  | ind levels ih =>
    cases hw : h.node? w with
    | none =>
      rw [(document_of_leaf hw levels around).1, marked_of_leaf hw]
      exact ⟨rfl, haround⟩
    | some node =>
      obtain ⟨b, shape, fields⟩ := node
      cases levels with
      | zero =>
        rw [document_zero hw, marked_zero hw]
        exact ⟨rfl, haround⟩
      | succ n =>
        rw [document_succ hw, marked_succ hw]
        by_cases hb : b ∈ ancestors
        · rw [if_pos ((haround b).mpr hb), if_pos hb]
          exact ⟨rfl, haround⟩
        · have hinsert : ∀ a, a ∈ around.insert b ↔ a ∈ b :: ancestors := fun a => by
            rw [Std.HashSet.mem_insert, List.mem_cons, haround a, beq_iff_eq, eq_comm]
          obtain ⟨hdocs, hset⟩ := mapM_document (P := fun s => ∀ a, a ∈ s ↔ a ∈ b :: ancestors)
            (fun x s hs => ih n (Nat.lt_succ_self n) x hs) fields (around.insert b) hinsert
          rw [if_neg (mt (haround b).mp hb), if_neg hb]
          refine ⟨congrArg (compositeDoc shape) hdocs, fun a => ?_⟩
          -- the composite itself goes out of the set, and was not in it before
          rw [Std.HashSet.mem_erase, hset a, List.mem_cons, beq_eq_false_iff_ne]
          constructor
          · rintro ⟨hne, rfl | ha⟩
            · exact absurd rfl hne
            · exact ha
          · intro ha
            exact ⟨fun heq => hb (heq ▸ ha), Or.inr ha⟩

theorem print_eq_marked (h : Heap) (w : Word) : h.print w = h.marked printDepth [] w :=
  (document_eq_marked printDepth w fun _ => iff_of_false Std.HashSet.not_mem_empty List.not_mem_nil).1

/-! ## The form of documents -/

/-- The word for a cycle is needed only if the value leads to a cycle, or back to a composite around it. -/
theorem printed_marked {marks : List String} (hmarks : placeholders ⊆ marks) (levels : Nat)
    (ancestors : List BlockId) (w : Word)
    (hcycle : "<cycle>" ∈ marks ∨ h.AcyclicFrom w ∧ ∀ a ∈ ancestors, ¬ h.Reaches w a) :
    Printed marks (h.marked levels ancestors w) := by
  induction levels using Nat.strongRecOn generalizing ancestors w with
  | ind levels ih =>
    cases hw : h.node? w with
    | none =>
      rw [marked_of_leaf hw]
      exact .atom ((document_of_leaf hw levels ∅).2.mono hmarks)
    | some node =>
      obtain ⟨b, shape, fields⟩ := node
      cases levels with
      | zero =>
        rw [marked_zero hw]
        exact .atom (.mark (hmarks (by decide)))
      | succ n =>
        have hparts := parts_of_node? hw
        obtain ⟨rfl, -, -⟩ := block?_of_node? hw
        rw [marked_succ hw]
        split_ifs with hb
        · refine .atom (.mark (hcycle.resolve_right fun hacyclic => ?_))
          exact hacyclic.2 b hb (.refl b)
        · refine .composite shape fun d hd => ?_
          obtain ⟨x, hx, rfl⟩ := List.mem_map.mp hd
          rw [← hparts] at hx
          refine ih n (Nat.lt_succ_self n) (b :: ancestors) x (hcycle.imp_right fun ⟨hacyclic, habove⟩ => ?_)
          exact ⟨hacyclic.of_part hx, hacyclic.not_reaches_of_part hx habove⟩

theorem printed_of_marked (h : Heap) (levels : Nat) (ancestors : List BlockId) (w : Word) :
    Printed ("<cycle>" :: placeholders) (h.marked levels ancestors w) :=
  printed_marked (List.subset_cons_self _ _) levels ancestors w (Or.inl List.mem_cons_self)

end Heap

end ValueHeap
