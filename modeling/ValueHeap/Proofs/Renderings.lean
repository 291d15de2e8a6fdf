import ValueHeap.Proofs.Printing
import ValueHeap.Proofs.Spelling

/-!
# Renderings of a value

A value can be shown plain, coloured, or on one line. The three differ in colour sequences and line ends
only, because no text that is printed for a value has a control character in it, and the text of a value
never starts with a space.

* `Text.isSolid`: both at once, for a text.
* `Doc.Neat`: the same for a document, as the laws of layouts need it.

Results:
* `Number.isSolid_text`, `Text.isSolid_quoteText`, …: what is printed for a value is solid, whatever it
  holds.
* `Printed.neat`: the documents of values are neat.
* `renderings_agree`: the renderings of every value are the same text, by every renderer that keeps to what is
  documented.
-/

namespace ValueHeap

namespace Text

/-- Does the text start with a character past the space, and hold no control character? -/
def isSolid (s : String) : Bool :=
  s.toList.head?.any (' '.toNat < ·.toNat) && s.toList.all (' '.toNat ≤ ·.toNat)

/-- Every character is past the space. -/
def Dense (s : String) : Prop := ∀ c ∈ s.toList, ' '.toNat < c.toNat

instance (s : String) : Decidable (Dense s) := List.decidableBAll _ _

instance (cs : List Char) : Decidable (Inert cs) := List.decidableBAll _ _

variable {s t : String}

theorem isSolid_iff : isSolid s = true ↔
    (∃ c, s.toList.head? = some c ∧ ' '.toNat < c.toNat) ∧ Inert s.toList := by
  simp [isSolid, Inert, Option.any_eq_true]

theorem Inert.append {cs ds : List Char} (hcs : Inert cs) (hds : Inert ds) : Inert (cs ++ ds) :=
  List.forall_mem_append.mpr ⟨hcs, hds⟩

theorem isSolid_append (hs : isSolid s = true) (ht : Inert t.toList) : isSolid (s ++ t) = true := by
  obtain ⟨⟨c, hc, hlt⟩, hinert⟩ := isSolid_iff.mp hs
  rw [isSolid_iff, String.toList_append, List.head?_append, hc]
  exact ⟨⟨c, rfl, hlt⟩, hinert.append ht⟩

theorem inert_of_isSolid (hs : isSolid s = true) : Inert s.toList := (isSolid_iff.mp hs).2

theorem Dense.inert (hs : Dense s) : Inert s.toList := fun c hc => Nat.le_of_lt (hs c hc)

theorem Dense.append (hs : Dense s) (ht : Dense t) : Dense (s ++ t) := by
  unfold Dense
  rw [String.toList_append]
  exact List.forall_mem_append.mpr ⟨hs, ht⟩

theorem Dense.ofList {cs : List Char} (hcs : ∀ c ∈ cs, ' '.toNat < c.toNat) :
    Dense (String.ofList cs) := by
  unfold Dense
  rwa [String.toList_ofList]

theorem Dense.isSolid (hs : Dense s) (hne : s ≠ "") : Text.isSolid s = true := by
  obtain ⟨c, cs, hlist⟩ := List.exists_cons_of_ne_nil (mt String.toList_eq_nil_iff.mp hne)
  refine isSolid_iff.mpr ⟨⟨c, by rw [hlist]; rfl, hs c ?_⟩, hs.inert⟩
  rw [hlist]
  exact List.mem_cons_self

/-! ## Numbers -/

theorem lt_digitChar : ∀ d < 16, ' '.toNat < (Nat.digitChar d).toNat := by decide

theorem lt_of_mem_toDigits {base n : Nat} (hmin : 1 < base) (hmax : base ≤ 16) {c : Char}
    (hc : c ∈ Nat.toDigits base n) : ' '.toNat < c.toNat := by
  induction n using Nat.strongRecOn with
  | ind n ih =>
    rw [Nat.toDigits_eq_if hmin] at hc
    split_ifs at hc with hn
    · rw [List.mem_singleton.mp hc]
      exact lt_digitChar n (by omega)
    · rcases List.mem_append.mp hc with hc | hc
      · exact ih (n / base) (Nat.div_lt_self (by omega) hmin) hc
      · rw [List.mem_singleton.mp hc]
        exact lt_digitChar _ ((Nat.mod_lt n (by omega)).trans_le hmax)

theorem lt_of_mem_replicate {n : Nat} {c : Char} (hc : c ∈ List.replicate n '0') :
    ' '.toNat < c.toNat := by
  rw [List.eq_of_mem_replicate hc]
  decide

theorem dense_toString_nat (n : Nat) : Dense (toString n) := by
  unfold Dense
  rw [Nat.toString_eq_repr, Nat.toList_repr]
  exact fun c hc => lt_of_mem_toDigits (by decide) (by decide) hc

theorem dense_toString (n : Int) : Dense (toString n) := by
  rw [Numeral.toString_eq_ofList]
  refine .ofList (List.forall_mem_append.mpr ⟨?_, fun c hc => ?_⟩)
  · split_ifs
    · exact List.forall_mem_singleton.mpr (by decide)
    · exact List.forall_mem_nil _
  · rw [← Numeral.toDigits_eq_positional] at hc
    exact lt_of_mem_toDigits (by decide) (by decide) hc

theorem toString_ne_empty (n : Int) : toString n ≠ "" := by
  obtain ⟨c, cs, hlist, -, -⟩ := Numeral.spells_toString n
  refine mt String.toList_eq_nil_iff.mpr ?_
  rw [hlist]
  exact List.append_ne_nil_of_right_ne_nil _ (List.cons_ne_nil c cs)

end Text

namespace Decimal

open Text (Dense)

variable (d : Decimal)

theorem lt_of_mem_digits {c : Char} (hc : c ∈ Nat.toDigits 10 d.digits) : ' '.toNat < c.toNat :=
  Text.lt_of_mem_toDigits (by decide) (by decide) hc

theorem dense_positional : Dense d.positional := by
  unfold positional
  dsimp only
  split_ifs
  · refine Dense.append (.ofList fun c hc => ?_) ?_
    · rcases List.mem_append.mp hc with hc | hc
      · exact d.lt_of_mem_digits hc
      · exact Text.lt_of_mem_replicate hc
    · decide
  · refine Dense.append (Dense.append (.ofList fun c hc => ?_) ?_) (.ofList fun c hc => ?_)
    · exact d.lt_of_mem_digits (List.mem_of_mem_take hc)
    · decide
    · exact d.lt_of_mem_digits (List.mem_of_mem_drop hc)
  · refine Dense.append ?_ (.ofList fun c hc => ?_)
    · decide
    · rcases List.mem_append.mp hc with hc | hc
      · exact Text.lt_of_mem_replicate hc
      · exact d.lt_of_mem_digits hc

theorem dense_scientific : Dense d.scientific := by
  unfold scientific
  refine Dense.append (Dense.append (Dense.append (.ofList fun c hc => ?_) ?_) ?_) (Text.dense_toString _)
  · exact d.lt_of_mem_digits (List.mem_of_mem_take hc)
  · split_ifs
    · decide
    · refine Dense.append ?_ (.ofList fun c hc => ?_)
      · decide
      · exact d.lt_of_mem_digits (List.mem_of_mem_drop hc)
  · decide

theorem text_ne_empty : d.text ≠ "" := by
  unfold text positional scientific
  dsimp only
  split_ifs <;> simp

/-- The text of a decimal. -/
theorem isSolid_text : Text.isSolid d.text = true := by
  refine Dense.isSolid ?_ d.text_ne_empty
  unfold text
  split_ifs
  · exact d.dense_positional
  · exact d.dense_scientific

end Decimal

theorem Text.isSolid_toString (n : Int) : isSolid (toString n) = true :=
  (dense_toString n).isSolid (toString_ne_empty n)

theorem Text.isSolid_signed (negative : Bool) {s : String} (hs : isSolid s = true) :
    isSolid ((if negative then "-" else "") ++ s) = true := by
  cases negative with
  | true => exact isSolid_append (by decide) (inert_of_isSolid hs)
  | false =>
    rw [if_neg Bool.false_ne_true, String.empty_append]
    exact hs

theorem Binary.Format.isSolid_text (f : Binary.Format) (p : Nat) : Text.isSolid (f.text p) = true := by
  unfold Binary.Format.text
  by_cases hnan : f.isNaN p = true
  · rw [if_pos hnan]
    decide
  · rw [if_neg hnan]
    refine Text.isSolid_signed _ ?_
    split_ifs
    · decide
    · decide
    · exact Decimal.isSolid_text _

theorem Number.isSolid_text (x : Number) : Text.isSolid x.text = true := by
  cases x with
  | small n => exact Text.isSolid_toString _
  | int64 n => exact Text.isSolid_toString _
  | int32 n => exact Text.isSolid_toString _
  | float32 bits => exact Binary.single.isSolid_text _
  | float64 bits => exact Binary.double.isSolid_text _
  | rational num den =>
    have hnum : Text.isSolid (toString num.toInt ++ "/") = true :=
      Text.isSolid_append (Text.isSolid_toString _) (by decide)
    exact Text.isSolid_append hnum (Text.dense_toString _).inert

/-! ## Texts, characters and buffers -/

namespace Text

theorem le_of_isVisible {c : Char} (hc : isVisible c.toNat = true) : ' '.toNat ≤ c.toNat := by
  show 32 ≤ c.toNat
  unfold isVisible at hc
  split_ifs at hc with hascii
  · simp at hc
    omega
  · omega

theorem inert_hexDigits (n : Nat) : Inert (hexDigits n) := fun _ hc =>
  Nat.le_of_lt (lt_of_mem_toDigits (by decide) (by decide) hc)

theorem inert_hexPadded (width n : Nat) : Inert (hexPadded width n).toList := by
  rw [hexPadded, String.toList_ofList]
  exact Inert.append (fun _ hc => Nat.le_of_lt (lt_of_mem_replicate hc)) (inert_hexDigits n)

/-- **Whatever the character**, it is written without control characters. -/
theorem inert_escapeChar {quote : Char} (hquote : ' '.toNat ≤ quote.toNat) (c : Char) :
    Inert (escapeChar quote c) := by
  unfold escapeChar
  split_ifs with hnul htab hreturn hline hback heq hvisible
  · decide
  · decide
  · decide
  · decide
  · decide
  · exact List.forall_mem_cons.mpr ⟨by decide, List.forall_mem_singleton.mpr hquote⟩
  · exact List.forall_mem_singleton.mpr (le_of_isVisible hvisible)
  · exact (Inert.append (by decide) (inert_hexDigits c.toNat)).append (by decide)

/-- What is written between quotes. -/
theorem isSolid_quoted {quote : Char} (hquote : ' '.toNat < quote.toNat) {cs : List Char}
    (hcs : Inert cs) :
    isSolid (String.ofList (quote :: cs ++ [quote])) = true := by
  have hle : ' '.toNat ≤ quote.toNat := Nat.le_of_lt hquote
  rw [isSolid_iff, String.toList_ofList]
  refine ⟨⟨quote, rfl, hquote⟩, Inert.append (List.forall_mem_cons.mpr ⟨hle, hcs⟩) ?_⟩
  exact List.forall_mem_singleton.mpr hle

theorem isSolid_quoteText (s : String) : isSolid (quoteText s) = true := by
  refine isSolid_quoted (by decide) fun c hc => ?_
  obtain ⟨d, -, hd⟩ := List.mem_flatMap.mp hc
  exact inert_escapeChar (by decide) d c hd

theorem isSolid_quoteChar (c : Char) : isSolid (quoteChar c) = true :=
  isSolid_quoted (by decide) (inert_escapeChar (by decide) c)

end Text

theorem isSolid_bufferText (data : List UInt8) : Text.isSolid (bufferText data) = true := by
  unfold bufferText
  refine Text.isSolid_append (Text.isSolid_append (by decide) fun c hc => ?_) (by decide)
  rw [String.toList_join] at hc
  obtain ⟨s, hs, hc⟩ := List.mem_flatMap.mp hc
  obtain ⟨b, -, rfl⟩ := List.mem_map.mp hs
  rw [String.toList_append] at hc
  exact Text.Inert.append (by decide) (Text.inert_hexPadded 2 b.toNat) c hc

theorem Pattern.isSolid_text (p : Pattern) : Text.isSolid p.text = true := by
  unfold Pattern.text
  split_ifs <;> decide

/-! ## Documents -/

/-- The document of a value: its pieces are tidy, and the first one starts with something other than a
space. -/
structure Doc.Neat (d : Doc) : Prop where
  tidy : Piece.Tidy d.oneLine
  opens : Piece.Opens d.oneLine

/-- A first piece with a solid text. -/
theorem Piece.opens_cons {p : Piece} (hp : Text.isSolid p.plain = true) (ps : List Piece) :
    Opens (p :: ps) := by
  obtain ⟨⟨c, hc, hlt⟩, -⟩ := Text.isSolid_iff.mp hp
  refine ⟨p, c, rfl, hc, ?_⟩
  rintro rfl
  exact absurd hlt (by decide)

theorem Piece.tidy_cons {p : Piece} (hp : Text.isSolid p.plain = true) {ps : List Piece} (hps : Tidy ps) :
    Tidy (p :: ps) := by
  refine ⟨Text.inert_of_isSolid hp, ?_, hps⟩
  rintro rfl
  exact absurd hp (by decide)

/-- A piece that is no line needs nothing after it. -/
theorem Piece.tidy_text {s : String} (hs : Text.Inert s.toList) (hne : s ≠ " ") {ps : List Piece}
    (hps : Tidy ps) : Tidy (.text s :: ps) :=
  ⟨hs, fun heq => absurd (Piece.text.inj heq) hne, hps⟩

theorem Doc.neat_text {s : String} (hs : Text.isSolid s = true) : (Doc.text s).Neat :=
  ⟨Piece.tidy_cons (p := .text s) hs trivial, Piece.opens_cons (p := .text s) hs []⟩

theorem Doc.neat_coloured (colour : Colour) {s : String} (hs : Text.isSolid s = true) :
    (Doc.coloured colour s).Neat :=
  ⟨Piece.tidy_cons (p := .coloured colour s) hs trivial, Piece.opens_cons (p := .coloured colour s) hs []⟩

theorem Atom.neat {marks : List String} (hmarks : ∀ s ∈ marks, Text.isSolid s = true) {d : Doc}
    (hd : Atom marks d) : d.Neat := by
  cases hd with
  | number x => exact Doc.neat_coloured _ x.isSolid_text
  | constant p => exact Doc.neat_coloured _ p.isSolid_text
  | text bs => exact Doc.neat_coloured _ (Text.isSolid_quoteText _)
  | bytes data => exact Doc.neat_text (isSolid_bufferText data)
  | char packed =>
    unfold charDoc
    split
    · exact Doc.neat_coloured _ (Text.isSolid_quoteChar _)
    · exact Doc.neat_text (by decide)
  | mark hs => exact Doc.neat_text (hmarks _ hs)

/-- Neat documents with commas and lines between them: a line is always followed by a neat document. -/
theorem Doc.tidy_separated {docs : List Doc} (hdocs : ∀ d ∈ docs, d.Neat) :
    Piece.Tidy (Doc.separated (.append (.text ",") .line) docs).oneLine ∧
      (docs ≠ [] → Piece.Opens (Doc.separated (.append (.text ",") .line) docs).oneLine) := by
  induction docs with
  | nil => exact ⟨Piece.tidy_text (by decide) (by decide) trivial, fun hne => absurd rfl hne⟩
  | cons d ds ih =>
    have hd := hdocs d List.mem_cons_self
    cases ds with
    | nil => exact ⟨hd.tidy, fun _ => hd.opens⟩
    | cons e ds =>
      obtain ⟨htidy, hopens⟩ := ih fun f hf => hdocs f (List.mem_cons_of_mem d hf)
      have hline : Piece.Tidy
          (.text " " :: (Doc.separated (.append (.text ",") .line) (e :: ds)).oneLine) :=
        ⟨by decide, fun _ => hopens (List.cons_ne_nil e ds), htidy⟩
      exact ⟨hd.tidy.append (Piece.tidy_text (by decide) (by decide) hline), fun _ => hd.opens.append _⟩

/-- The brackets of a composite. -/
theorem Shape.solid_brackets (shape : Shape) :
    Text.isSolid shape.brackets.1 = true ∧ Piece.Tidy [.text shape.brackets.2] := by
  have closing {s : String} (hs : Text.Inert s.toList) (hne : s ≠ " ") : Piece.Tidy [.text s] :=
    Piece.tidy_text hs hne trivial
  have numbered {s t : String} (hs : Text.isSolid s = true) (n : Nat) (ht : Text.Inert t.toList) :
      Text.isSolid (s ++ toString n ++ t) = true :=
    Text.isSolid_append (Text.isSolid_append hs (Text.dense_toString_nat n).inert) ht
  cases shape with
  | tuple => exact ⟨by decide, closing (by decide) (by decide)⟩
  | array => exact ⟨by decide, closing (by decide) (by decide)⟩
  | closure arity code =>
    unfold brackets
    dsimp only
    exact ⟨by decide, closing (by decide) (by decide)⟩
  | record module type =>
    unfold brackets
    dsimp only
    refine ⟨numbered (numbered ?_ module.toNat ?_) type.toNat ?_, closing ?_ ?_⟩
    all_goals decide
  | variant module type index =>
    unfold brackets
    dsimp only
    refine ⟨numbered (numbered (numbered ?_ module.toNat ?_) type.toNat ?_) index.toNat ?_, closing ?_ ?_⟩
    all_goals decide

/-- **Documents of values are neat.** -/
theorem Printed.neat {marks : List String} (hmarks : ∀ s ∈ marks, Text.isSolid s = true) {d : Doc}
    (hd : Printed marks d) : d.Neat := by
  induction hd with
  | atom hd => exact hd.neat hmarks
  | @composite shape docs _ ih =>
    obtain ⟨hopening, hclosing⟩ := shape.solid_brackets
    constructor
    · rw [oneLine_compositeDoc]
      exact Piece.tidy_cons (p := .text shape.brackets.1) hopening
        ((Doc.tidy_separated ih).1.append hclosing)
    · rw [oneLine_compositeDoc]
      exact Piece.opens_cons (p := .text shape.brackets.1) hopening _

namespace Heap

theorem tidy_print (h : Heap) (w : Word) : Piece.Tidy (h.print w).oneLine := by
  rw [print_eq_marked]
  exact ((printed_of_marked h printDepth [] w).neat (by decide)).tidy

/-- **One text.** Whatever draws it by the rules, a value is shown with the same text plain and coloured, up
to colour sequences; and on several lines and on one, up to line ends and the spaces after them. -/
theorem renderings_agree (r : Renderer) (layout : Nat → Doc → List Piece) (hr : r.Documented layout)
    (h : Heap) (w : Word) :
    h.pretty r false w = h.display r w ∧
      Text.uncoloured (h.pretty r true w) = h.display r w ∧
      Text.unwrapped (h.display r w) = (h.print w).unbroken :=
  ⟨hr.write_plain printWidth (h.print w), hr.uncoloured_write (tidy_print h w) printWidth,
    hr.unwrapped_text (tidy_print h w) printWidth⟩

/-- A text with a line end and an escape character in it, and a character that is none. -/
def unruly : Heap :=
  ⟨sequential, #[some ⟨1, 16, .text [0x0a, 0x1b, 0xff]⟩, some ⟨1, 16, .char 0xff⟩,
    some ⟨1, 32, .composite .array [.reference 0, .reference 1]⟩], 3, 64, 3, 0, 0⟩

theorem renderings_agree_unruly :
    Renderer.standard.Documented (fun width d => d.layout width) ∧
      unruly.pretty .standard false (.reference 2) = unruly.display .standard (.reference 2) ∧
      Text.uncoloured (unruly.pretty .standard true (.reference 2)) =
        unruly.display .standard (.reference 2) ∧
      Text.unwrapped (unruly.display .standard (.reference 2)) =
        "[> \"\\n\\u\x7b1b\x7d\ufffd\", <malformed char>]" := by
  have hstandard := Renderer.documented_standard
  obtain ⟨hplain, hcoloured, hline⟩ := renderings_agree .standard _ hstandard unruly (.reference 2)
  refine ⟨hstandard, hplain, hcoloured, hline.trans ?_⟩
  rw [print_eq_marked]
  decide +kernel

end Heap

end ValueHeap
