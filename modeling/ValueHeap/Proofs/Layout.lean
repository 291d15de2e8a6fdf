import Mathlib.Data.List.Forall2
import ValueHeap.Print.Layout

/-!
# What a layout says

However wide the lines are, a layout has the pieces of its document in their order. All that is decided is
which of the possible line breaks are spaces and which are line ends.

* `Doc.oneLine`: the pieces with a space for every line; `Doc.unbroken` is their text.
* `Doc.Lays`: the pieces are a layout of the document. Which groups are on one line is left open.
* `Palette.Paints`: a text is that of the pieces, with what the palette writes between them.
* `Renderer.Documented`: what is known of a renderer. It goes by some layout, writes the texts of the pieces
  and, for colours, only what the palette has for them.
* `Text.unwrap` puts one space for each line end and the spaces after it; `Text.uncolour` leaves the colour
  sequences of a terminal out.
* `Piece.Tidy`: pieces that hold no control character, and in which a line is followed by something other
  than a space. Values print as such pieces.

Results:
* `Doc.Lays.wraps`: a layout wraps the one line.
* `Renderer.Documented.write_plain`: without colours, what is written is the text.
* `Renderer.Documented.uncoloured_write`: without colour sequences, what is written of a tidy document to a
  terminal is the text.
* `Renderer.Documented.unwrapped_text`: without its line ends, the text of a tidy document is that of the one
  line.
* `Renderer.documented_standard`: the standard renderer is one of those.
-/

namespace ValueHeap

/-! ## One line -/

namespace Doc

/-- The pieces of the document on one line. -/
def oneLine : Doc → List Piece
  | .text s => [.text s]
  | .coloured colour s => [.coloured colour s]
  | .line => [.text " "]
  | .nest _ d | .group d => d.oneLine
  | .append a b => a.oneLine ++ b.oneLine

/-- The text of the document on one line. -/
def unbroken (d : Doc) : String := String.join (d.oneLine.map Piece.plain)

theorem unbroken_text (s : String) : (Doc.text s).unbroken = s := String.empty_append

theorem unbroken_append (a b : Doc) : (Doc.append a b).unbroken = a.unbroken ++ b.unbroken := by
  rw [unbroken, oneLine, List.map_append, String.join_append]
  rfl

/-! ## Layouts -/

/-- The pieces are a layout of the document, with lines indented by `indent` unless all is on one line. A
group inside may be on one line or not. -/
inductive Lays : Doc → Nat → Bool → List Piece → Prop
  | text (s : String) (indent : Nat) (flat : Bool) : Lays (.text s) indent flat [.text s]
  | coloured (colour : Colour) (s : String) (indent : Nat) (flat : Bool) :
      Lays (.coloured colour s) indent flat [.coloured colour s]
  | space (indent : Nat) : Lays .line indent true [.text " "]
  | newline (indent : Nat) : Lays .line indent false [.newline indent]
  | nest {d : Doc} {indent n : Nat} {flat : Bool} {ps : List Piece} (hd : Lays d (indent + n) flat ps) :
      Lays (.nest n d) indent flat ps
  | group {d : Doc} {indent : Nat} {flat : Bool} {ps : List Piece} (fitting : Bool)
      (hd : Lays d indent (flat || fitting) ps) : Lays (.group d) indent flat ps
  | append {a b : Doc} {indent : Nat} {flat : Bool} {ps qs : List Piece} (ha : Lays a indent flat ps)
      (hb : Lays b indent flat qs) : Lays (.append a b) indent flat (ps ++ qs)

end Doc

namespace Piece

/-- A piece of a layout and what it is on one line. -/
inductive Wraps : Piece → Piece → Prop
  | same (p : Piece) : Wraps p p
  | broken (indent : Nat) : Wraps (.newline indent) (.text " ")

/-- A text in a layout is there on one line too. -/
theorem text_mem_of_wraps {ps qs : List Piece} (hwraps : List.Forall₂ Wraps ps qs) {s : String}
    (hs : .text s ∈ ps) : .text s ∈ qs := by
  induction hwraps with
  | nil => exact hs
  | cons hpq _ ih =>
    rcases List.mem_cons.mp hs with rfl | hs
    · cases hpq
      exact List.mem_cons_self
    · exact List.mem_cons_of_mem _ (ih hs)

end Piece

/-- **The pieces of a layout** are those of the one line, in their order. -/
theorem Doc.Lays.wraps {d : Doc} {indent : Nat} {flat : Bool} {ps : List Piece}
    (hd : d.Lays indent flat ps) : List.Forall₂ Piece.Wraps ps d.oneLine := by
  induction hd with
  | text s => exact .cons (.same _) .nil
  | coloured colour s => exact .cons (.same _) .nil
  | space => exact .cons (.same _) .nil
  | newline indent => exact .cons (.broken indent) .nil
  | nest _ ih => exact ih
  | group _ _ ih => exact ih
  | append _ _ iha ihb => exact List.rel_append iha ihb

/-! ## Line ends -/

namespace Text

theorem length_dropWhile_le (p : Char → Bool) (cs : List Char) : (cs.dropWhile p).length ≤ cs.length :=
  (List.dropWhile_sublist p).length_le

/-- One space for each line end and the spaces after it. -/
def unwrap : List Char → List Char
  | [] => []
  | c :: cs => if c = '\n' then ' ' :: unwrap (cs.dropWhile (· = ' ')) else c :: unwrap cs
termination_by cs => cs.length
decreasing_by
  · exact Nat.lt_succ_of_le (length_dropWhile_le _ cs)
  · exact Nat.lt_succ_self _

/-- No character is a control character: none is below the space. -/
def Inert (cs : List Char) : Prop := ∀ c ∈ cs, ' '.toNat ≤ c.toNat

theorem unwrap_append {front : List Char} (hfront : Inert front) (cs : List Char) :
    unwrap (front ++ cs) = front ++ unwrap cs := by
  induction front with
  | nil => rfl
  | cons c front ih =>
    have hc : c ≠ '\n' := by
      rintro rfl
      exact absurd (hfront '\n' List.mem_cons_self) (by decide)
    rw [List.cons_append, unwrap, if_neg hc, ih fun d hd => hfront d (List.mem_cons_of_mem c hd)]
    rfl

theorem toList_breakText (indent : Nat) :
    (Piece.breakText indent).toList = '\n' :: List.replicate indent ' ' := by
  simp [Piece.breakText]

/-- The indentation of a line goes with its line end, if the line goes on with something else. -/
theorem unwrap_breakText (indent : Nat) {cs : List Char} {c : Char} (hc : cs.head? = some c)
    (hne : c ≠ ' ') : unwrap ((Piece.breakText indent).toList ++ cs) = ' ' :: unwrap cs := by
  obtain ⟨cs, rfl⟩ := List.head?_eq_some_iff.mp hc
  have hdrop : (List.replicate indent ' ' ++ c :: cs).dropWhile (· = ' ') = c :: cs := by
    rw [List.dropWhile_append_of_pos fun d hd => decide_eq_true (List.eq_of_mem_replicate hd),
      List.dropWhile_cons_of_neg (by simpa using hne)]
  rw [toList_breakText, List.cons_append, unwrap, if_pos rfl, hdrop]

end Text

namespace Piece

/-- The characters of the pieces. -/
def chars (ps : List Piece) : List Char := ps.flatMap (·.plain.toList)

/-- There is a first piece with a text that does not start with a space. -/
def Opens (ps : List Piece) : Prop :=
  ∃ p c, ps.head? = some p ∧ p.plain.toList.head? = some c ∧ c ≠ ' '

/-- The pieces hold no control character, and after a line comes something other than a space. -/
def Tidy : List Piece → Prop
  | [] => True
  | p :: ps => Text.Inert p.plain.toList ∧ (p = .text " " → Opens ps) ∧ Tidy ps

theorem Opens.append {ps : List Piece} (hps : Opens ps) (qs : List Piece) : Opens (ps ++ qs) := by
  obtain ⟨p, c, hp, hc, hne⟩ := hps
  exact ⟨p, c, by rw [List.head?_append, hp]; rfl, hc, hne⟩

theorem Tidy.append {ps qs : List Piece} (hps : Tidy ps) (hqs : Tidy qs) : Tidy (ps ++ qs) := by
  induction ps with
  | nil => exact hqs
  | cons p ps ih =>
    obtain ⟨hinert, hopens, hrest⟩ := hps
    exact ⟨hinert, fun hp => (hopens hp).append qs, ih hrest⟩

/-- What stands after a line end does not start with a space either. -/
theorem head?_chars_of_wraps {ps qs : List Piece} (hwraps : List.Forall₂ Wraps ps qs) (hqs : Opens qs) :
    ∃ c, (chars ps).head? = some c ∧ c ≠ ' ' := by
  obtain ⟨q, c, hq, hc, hne⟩ := hqs
  cases hwraps with
  | nil => cases hq
  | cons hpq hrest =>
    cases hq
    cases hpq with
    | same p =>
      refine ⟨c, ?_, hne⟩
      rw [chars, List.flatMap_cons, List.head?_append, hc]
      rfl
    | broken indent =>
      cases hc
      exact absurd rfl hne

/-- **Without its line ends** a layout reads as one line. -/
theorem unwrap_chars {ps qs : List Piece} (hwraps : List.Forall₂ Wraps ps qs) (hqs : Tidy qs) :
    Text.unwrap (chars ps) = chars qs := by
  induction hwraps with
  | nil => rw [chars, List.flatMap_nil, Text.unwrap]
  | @cons p q ps qs hpq hrest ih =>
    obtain ⟨hinert, hopens, htidy⟩ := hqs
    cases hpq with
    | same p =>
      show Text.unwrap (p.plain.toList ++ chars ps) = p.plain.toList ++ chars qs
      rw [Text.unwrap_append hinert, ih htidy]
    | broken indent =>
      obtain ⟨c, hc, hne⟩ := head?_chars_of_wraps hrest (hopens rfl)
      show Text.unwrap ((breakText indent).toList ++ chars ps) = ' ' :: chars qs
      rw [Text.unwrap_breakText indent hc hne, ih htidy]

end Piece

/-! ## Colours -/

namespace Text

/-- Is this a character between the start of a colour sequence and its end? -/
def isParameter (c : Char) : Bool := c.isDigit || c = ';'

/-- What follows a colour sequence at the front of a text. -/
def afterColour? : List Char → Option (List Char)
  | '\x1b' :: '[' :: cs =>
    match cs.dropWhile isParameter with
    | 'm' :: rest => some rest
    | _ => none
  | _ => none

theorem length_afterColour? {cs rest : List Char} (hcs : afterColour? cs = some rest) :
    rest.length < cs.length := by
  unfold afterColour? at hcs
  split at hcs
  · next cs =>
    have hle := length_dropWhile_le isParameter cs
    split at hcs
    · next rest' heq =>
      cases hcs
      rw [heq] at hle
      simp only [List.length_cons] at hle ⊢
      omega
    · cases hcs
  · cases hcs

/-- The text without colour sequences. -/
def uncolour : List Char → List Char
  | [] => []
  | c :: cs =>
    match _h : afterColour? (c :: cs) with
    | some rest => uncolour rest
    | none => c :: uncolour cs
termination_by cs => cs.length
decreasing_by
  · exact length_afterColour? _h
  · exact Nat.lt_succ_self _

theorem uncolour_of_afterColour? {c : Char} {cs rest : List Char}
    (hcs : afterColour? (c :: cs) = some rest) : uncolour (c :: cs) = uncolour rest := by
  rw [uncolour]
  split
  · next heq =>
    cases hcs.symm.trans heq
    rfl
  · next heq => cases hcs.symm.trans heq

/-- A colour sequence starts with an escape character. -/
theorem afterColour?_cons {c : Char} (hc : c ≠ '\x1b') (cs : List Char) :
    afterColour? (c :: cs) = none := by
  unfold afterColour?
  split
  · next heq => exact absurd (List.cons.inj heq).1 hc
  · rfl

/-- A text without escape characters stays. -/
theorem uncolour_append {front : List Char} (hfront : '\x1b' ∉ front) (cs : List Char) :
    uncolour (front ++ cs) = front ++ uncolour cs := by
  induction front with
  | nil => rfl
  | cons c front ih =>
    obtain ⟨hc, hrest⟩ := not_or.mp (mt List.mem_cons.mpr hfront)
    rw [List.cons_append, uncolour]
    split
    · next heq => cases (afterColour?_cons (Ne.symm hc) _).symm.trans heq
    · rw [ih hrest, List.cons_append]

/-- A colour sequence: an escape character, an opening bracket, parameters and an `m`. -/
def IsColourSequence (cs : List Char) : Prop :=
  ∃ parameters : List Char, parameters.all isParameter = true ∧ cs = '\x1b' :: '[' :: (parameters ++ ['m'])

/-- A colour sequence goes. -/
theorem uncolour_sequence {sequence : List Char} (hsequence : IsColourSequence sequence) (cs : List Char) :
    uncolour (sequence ++ cs) = uncolour cs := by
  obtain ⟨parameters, hp, rfl⟩ := hsequence
  have hdrop : (parameters ++ 'm' :: cs).dropWhile isParameter = 'm' :: cs := by
    rw [List.dropWhile_append_of_pos fun c hc => List.all_eq_true.mp hp c hc,
      List.dropWhile_cons_of_neg (by decide)]
  have hcolour : afterColour? ('\x1b' :: '[' :: (parameters ++ 'm' :: cs)) = some cs := by
    simp only [afterColour?, hdrop]
  rw [List.cons_append, List.cons_append, List.append_assoc]
  exact uncolour_of_afterColour? hcolour

theorem Inert.escape_notMem {cs : List Char} (hcs : Inert cs) : '\x1b' ∉ cs := fun hmem =>
  absurd (hcs '\x1b' hmem) (by decide)

/-- Colour sequences, one after the other. -/
def IsColouring (s : String) : Prop :=
  ∃ sequences : List (List Char), (∀ cs ∈ sequences, IsColourSequence cs) ∧ s.toList = sequences.flatten

theorem uncolour_colouring {s : String} (hs : IsColouring s) (cs : List Char) :
    uncolour (s.toList ++ cs) = uncolour cs := by
  obtain ⟨sequences, hsequences, heq⟩ := hs
  rw [heq]
  clear heq
  induction sequences with
  | nil => rfl
  | cons sequence sequences ih =>
    obtain ⟨hfirst, hrest⟩ := List.forall_mem_cons.mp hsequences
    rw [List.flatten_cons, List.append_assoc, uncolour_sequence hfirst, ih hrest]

end Text

theorem Piece.escape_notMem_of_wraps {p q : Piece} (hpq : Wraps p q) (hq : Text.Inert q.plain.toList) :
    '\x1b' ∉ p.plain.toList := by
  cases hpq with
  | same => exact hq.escape_notMem
  | broken indent =>
    rw [plain, Text.toList_breakText]
    simp

/-- No piece of a tidy layout holds an escape character. -/
theorem Piece.escape_notMem_of_tidy {ps qs : List Piece} (hwraps : List.Forall₂ Wraps ps qs)
    (hqs : Tidy qs) : ∀ p ∈ ps, '\x1b' ∉ p.plain.toList := by
  induction hwraps with
  | nil => exact List.forall_mem_nil _
  | cons hpq _ ih =>
    obtain ⟨hinert, -, htidy⟩ := hqs
    exact List.forall_mem_cons.mpr ⟨escape_notMem_of_wraps hpq hinert, ih htidy⟩

theorem Piece.toList_join_plain (ps : List Piece) : (String.join (ps.map plain)).toList = chars ps := by
  rw [String.toList_join, List.flatMap_map]
  rfl

/-! ## Renderers -/

namespace Palette

/-- All that the palette writes is of one kind. -/
def WritesOnly (palette : Palette) (kind : String → Prop) : Prop :=
  (∀ colour, kind (palette.set colour)) ∧ kind palette.reset

/-- The text is that of the pieces, with what the palette writes anywhere between them. -/
inductive Paints (palette : Palette) : List Piece → String → Prop
  | nil : Paints palette [] ""
  | piece (p : Piece) {ps : List Piece} {s : String} (hs : Paints palette ps s) :
      Paints palette (p :: ps) (p.plain ++ s)
  | set (colour : Colour) {ps : List Piece} {s : String} (hs : Paints palette ps s) :
      Paints palette ps (palette.set colour ++ s)
  | reset {ps : List Piece} {s : String} (hs : Paints palette ps s) :
      Paints palette ps (palette.reset ++ s)

variable {palette : Palette} {ps : List Piece} {s : String}

/-- A palette that writes nothing leaves the texts of the pieces. -/
theorem Paints.eq_join (hs : palette.Paints ps s) (hsilent : palette.WritesOnly (· = "")) :
    s = String.join (ps.map Piece.plain) := by
  induction hs with
  | nil => rfl
  | piece p _ ih => rw [ih, List.map_cons, String.join_cons]
  | set colour _ ih => rw [ih, hsilent.1 colour, String.empty_append]
  | reset _ ih => rw [ih, hsilent.2, String.empty_append]

/-- **Colour sequences go**, and the texts of the pieces stay, if they hold no escape character. -/
theorem Paints.uncolour_eq (hs : palette.Paints ps s) (hcolours : palette.WritesOnly Text.IsColouring)
    (hps : ∀ p ∈ ps, '\x1b' ∉ p.plain.toList) : Text.uncolour s.toList = Piece.chars ps := by
  induction hs with
  | nil => exact Text.uncolour.eq_1
  | piece p _ ih =>
    obtain ⟨hp, hps⟩ := List.forall_mem_cons.mp hps
    rw [String.toList_append, Text.uncolour_append hp, ih hps]
    rfl
  | set colour _ ih => rw [String.toList_append, Text.uncolour_colouring (hcolours.1 colour), ih hps]
  | reset _ ih => rw [String.toList_append, Text.uncolour_colouring hcolours.2, ih hps]

end Palette

/-- The text on one line. -/
def Text.unwrapped (s : String) : String := String.ofList (unwrap s.toList)

/-- The text without colours. -/
def Text.uncoloured (s : String) : String := String.ofList (uncolour s.toList)

namespace Renderer

/-- What is documented of a renderer that lays out documents by `layout`. -/
structure Documented (r : Renderer) (layout : Nat → Doc → List Piece) : Prop where
  /-- A line is a space in a group that is on one line. Else it is a line end and the indentation of the
  nests around it. -/
  lays : ∀ width (d : Doc), d.Lays 0 false (layout width d)
  text_eq : ∀ width d, r.text width d = String.join ((layout width d).map Piece.plain)
  /-- What an output with colours is written is more only by the changes of the colour. -/
  paints : ∀ (palette : Palette) width d, palette.Paints (layout width d) (r.write palette width d)
  /-- An output without colours is written nothing for them. -/
  plain_silent : r.plain.WritesOnly (· = "")
  /-- A terminal is written colour sequences. -/
  terminal_colours : r.terminal.WritesOnly Text.IsColouring

/-- Draws a coloured text that stands alone as it is. -/
def DrawsTexts (r : Renderer) : Prop := ∀ width colour s, r.text width (.coloured colour s) = s

variable {r : Renderer} {layout : Nat → Doc → List Piece}

theorem Documented.drawsTexts (hr : r.Documented layout) : r.DrawsTexts := by
  intro width colour s
  have hlays := hr.lays width (.coloured colour s)
  rw [hr.text_eq]
  generalize layout width (.coloured colour s) = ps at hlays
  cases hlays
  exact String.empty_append

theorem Documented.write_plain (hr : r.Documented layout) (width : Nat) (d : Doc) :
    r.write r.plain width d = r.text width d := by
  rw [hr.text_eq]
  exact (hr.paints r.plain width d).eq_join hr.plain_silent

theorem Documented.uncoloured_write (hr : r.Documented layout) {d : Doc} (hd : Piece.Tidy d.oneLine)
    (width : Nat) : Text.uncoloured (r.write r.terminal width d) = r.text width d := by
  have hescape := Piece.escape_notMem_of_tidy (hr.lays width d).wraps hd
  rw [Text.uncoloured, (hr.paints r.terminal width d).uncolour_eq hr.terminal_colours hescape,
    ← Piece.toList_join_plain, String.ofList_toList, hr.text_eq]

theorem Documented.unwrapped_text (hr : r.Documented layout) {d : Doc} (hd : Piece.Tidy d.oneLine)
    (width : Nat) : Text.unwrapped (r.text width d) = d.unbroken := by
  rw [hr.text_eq, Text.unwrapped, Piece.toList_join_plain, Piece.unwrap_chars (hr.lays width d).wraps hd,
    ← Piece.toList_join_plain, String.ofList_toList, Doc.unbroken]

end Renderer

/-! ## The standard renderer -/

/-- **Line breaking makes layouts.** What is done comes first, then a layout of each part that is left. -/
theorem Doc.lays_layoutFrom (width column : Nat) (done : List Piece) (parts : List Pending) :
    ∃ pss, List.Forall₂ (fun part ps => part.doc.Lays part.indent part.flat ps) parts pss ∧
      layoutFrom width column done parts = done.reverse ++ pss.flatten := by
  fun_induction layoutFrom width column done parts with
  | case1 column done => exact ⟨[], .nil, (List.append_nil _).symm⟩
  | case2 column done i flat rest s ih =>
    obtain ⟨pss, hpss, heq⟩ := ih
    exact ⟨[.text s] :: pss, .cons (.text s i flat) hpss, by simpa using heq⟩
  | case3 column done i flat rest colour s ih =>
    obtain ⟨pss, hpss, heq⟩ := ih
    exact ⟨[.coloured colour s] :: pss, .cons (.coloured colour s i flat) hpss, by simpa using heq⟩
  | case4 column done i rest ih =>
    obtain ⟨pss, hpss, heq⟩ := ih
    exact ⟨[.text " "] :: pss, .cons (.space i) hpss, by simpa using heq⟩
  | case5 column done i flat rest hflat ih =>
    obtain ⟨pss, hpss, heq⟩ := ih
    obtain rfl := eq_false_of_ne_true hflat
    exact ⟨[.newline i] :: pss, .cons (.newline i) hpss, by simpa using heq⟩
  | case6 column done i flat rest n d ih =>
    obtain ⟨_, _ | ⟨hd, hpss⟩, heq⟩ := ih
    exact ⟨_, .cons (.nest hd) hpss, heq⟩
  | case7 column done i flat rest d flat' =>
    rename_i ih
    obtain ⟨_, _ | ⟨hd, hpss⟩, heq⟩ := ih
    exact ⟨_, .cons (.group _ hd) hpss, heq⟩
  | case8 column done i flat rest a b ih =>
    obtain ⟨_, _ | ⟨ha, _ | ⟨hb, hpss⟩⟩, heq⟩ := ih
    exact ⟨_, .cons (.append ha hb) hpss, by simpa using heq⟩

theorem Doc.lays_layout (width : Nat) (d : Doc) : d.Lays 0 false (d.layout width) := by
  obtain ⟨_, _ | ⟨hd, ⟨⟩⟩, heq⟩ := lays_layoutFrom width 0 [] [⟨0, false, d⟩]
  rw [layout, heq]
  simpa using hd

namespace Palette

theorem paints_painted (palette : Palette) (ps : List Piece) :
    palette.Paints ps (String.join (ps.map (Piece.painted palette))) := by
  induction ps with
  | nil => exact .nil
  | cons p ps ih =>
    rw [List.map_cons, String.join_cons]
    cases p with
    | text s => exact .piece _ ih
    | newline indent => exact .piece _ ih
    | coloured colour s =>
      rw [Piece.painted, String.append_assoc, String.append_assoc]
      exact .set colour (.piece (.coloured colour s) (.reset ih))

theorem isColourSequence_reset : Text.IsColourSequence resetSequence.toList :=
  ⟨['0'], by decide, by decide +kernel⟩

theorem isColourSequence_sequence (colour : Colour) : Text.IsColourSequence (sequence colour).toList := by
  cases colour with
  | cyan => exact ⟨['3', '6'], by decide, by decide +kernel⟩
  | magenta => exact ⟨['3', '5'], by decide, by decide +kernel⟩
  | green => exact ⟨['3', '2'], by decide, by decide +kernel⟩

theorem writesOnly_ansi : ansi.WritesOnly Text.IsColouring := by
  constructor
  · intro colour
    refine ⟨[resetSequence.toList, (sequence colour).toList], ?_, ?_⟩
    · exact List.forall_mem_cons.mpr
        ⟨isColourSequence_reset, List.forall_mem_singleton.mpr (isColourSequence_sequence colour)⟩
    · simp [ansi]
  · exact ⟨[resetSequence.toList], List.forall_mem_singleton.mpr isColourSequence_reset, by simp [ansi]⟩

end Palette

theorem Renderer.documented_standard : standard.Documented fun width d => d.layout width where
  lays width d := d.lays_layout width
  text_eq _ _ := rfl
  paints palette width d := palette.paints_painted (d.layout width)
  plain_silent := ⟨fun _ => rfl, rfl⟩
  terminal_colours := Palette.writesOnly_ansi

end ValueHeap
