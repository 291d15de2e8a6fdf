import Mathlib.Data.Nat.Digits.Lemmas
import ValueHeap.Heap.Integer
import ValueHeap.Print.Value
import ValueHeap.Proofs.Actions
import ValueHeap.Proofs.Encoding
import ValueHeap.Proofs.Layout
import ValueHeap.Proofs.Numerals
import ValueHeap.Proofs.WordEncoding

/-!
# Integers that are written and read again

An integer is written by position: a minus sign if it is negative, then its digits in the radix, the most
significant one first and never a needless zero in front. Digits past nine are letters, of either case,
and underscores may stand among the digits and after them.

* `positional radix m`: the digits, from repeated division.
* `Spells radix n text`: the text writes the integer in this way.

Results:
* `scan_of_writes`: what the digits stand for is read off them, wherever the underscores are.
* `splitRadix_of_spells`: no such text is taken for one with a radix mark.
* `spells_toString`: the text of an integer in decimal is among those that write it.
* `exists_parseInteger`: the value that is made of such a text holds the integer.
* `integers_read_back`: what is written in any of these ways is read as the integer, up to the two ends of
  the 64-bit range.
-/

namespace ValueHeap

namespace Numeral

/-- The digits of a number, most significant first. -/
def positional (radix m : Nat) : List Nat := if m = 0 then [0] else (Nat.digits radix m).reverse

/-- The characters write these digits, with any underscores among them. -/
def Writes (radix : Nat) (digits : List Nat) (cs : List Char) : Prop :=
  (cs.filter (· ≠ '_')).map (valueBelow? radix) = digits.map some

instance (radix : Nat) (digits : List Nat) (cs : List Char) : Decidable (Writes radix digits cs) :=
  inferInstanceAs (Decidable (_ = _))

/-- The text writes the integer. -/
def Spells (radix : Nat) (n : Int) (text : String) : Prop :=
  ∃ c cs, text.toList = (if n < 0 then ['-'] else []) ++ c :: cs ∧ c ≠ '_' ∧
    Writes radix (positional radix n.natAbs) (c :: cs)

/-- The text of an integer in a radix, with small letters and without underscores. -/
def spelling (radix : Nat) (n : Int) : String :=
  String.ofList ((if n < 0 then ['-'] else []) ++
    (positional radix n.natAbs).map fun d => digitChars.getD d '0')

/-! ## Digits by position -/

variable {radix m : Nat}

theorem positional_of_lt (hm : m < radix) : positional radix m = [m] := by
  unfold positional
  split_ifs with hzero
  · rw [hzero]
  · rw [Nat.digits_of_lt radix m hzero hm]
    rfl

theorem positional_of_le (hradix : 2 ≤ radix) (hm : radix ≤ m) :
    positional radix m = positional radix (m / radix) ++ [m % radix] := by
  have hdiv : m / radix ≠ 0 := (Nat.div_pos hm (by omega)).ne'
  unfold positional
  rw [if_neg (by omega), if_neg hdiv, Nat.digits_def' (by omega) (by omega), List.reverse_cons]

theorem ofDigits_positional (radix m : Nat) : Nat.ofDigits radix (positional radix m).reverse = m := by
  unfold positional
  split_ifs with hzero
  · rw [hzero]
    exact Nat.ofDigits_singleton
  · rw [List.reverse_reverse, Nat.ofDigits_digits]

theorem positional_ne_nil (radix m : Nat) : positional radix m ≠ [] := by
  unfold positional
  split_ifs with hzero
  · exact List.cons_ne_nil _ _
  · exact mt List.reverse_eq_nil_iff.mp (Nat.digits_ne_nil_iff_ne_zero.mpr hzero)

theorem lt_of_mem_positional (hradix : 2 ≤ radix) {d : Nat} (hd : d ∈ positional radix m) : d < radix := by
  unfold positional at hd
  split_ifs at hd
  · obtain rfl := List.mem_singleton.mp hd
    omega
  · exact Nat.digits_lt_base (by omega) (List.mem_reverse.mp hd)

/-- Within the limit there are so few digits that their count is right. -/
theorem length_positional_le (hradix : 2 ≤ radix) (hm : m ≤ limit) : (positional radix m).length ≤ 64 := by
  unfold positional
  split_ifs with hzero
  · exact (by decide : 1 ≤ 64)
  · rw [List.length_reverse, Nat.digits_length_le_iff (by omega)]
    calc m < 2 ^ 64 := hm.trans_lt (by decide)
      _ ≤ radix ^ 64 := Nat.pow_le_pow_left hradix 64

/-- Only zero starts with a zero. -/
theorem eq_zero_of_positional {ds : List Nat} (hds : positional radix m = 0 :: ds) : m = 0 ∧ ds = [] := by
  unfold positional at hds
  split_ifs at hds with hzero
  · exact ⟨hzero, (List.cons.inj hds).2.symm⟩
  · have hlast := Nat.getLast_digit_ne_zero radix hzero
    rw [List.getLast_eq_head_reverse] at hlast
    simp only [hds, List.head_cons] at hlast
    exact absurd rfl hlast

/-! ## Characters that write digits -/

theorem writes_cons_underscore {digits : List Nat} {cs : List Char} :
    Writes radix digits ('_' :: cs) ↔ Writes radix digits cs := by
  rfl

theorem exists_of_writes_cons {digits : List Nat} {c : Char} {cs : List Char} (hc : c ≠ '_')
    (hwrites : Writes radix digits (c :: cs)) :
    ∃ d ds, digits = d :: ds ∧ valueBelow? radix c = some d ∧ Writes radix ds cs := by
  rw [Writes, List.filter_cons_of_pos (by simpa using hc), List.map_cons] at hwrites
  cases digits with
  | nil => cases hwrites
  | cons d ds =>
    obtain ⟨hd, hds⟩ := List.cons.inj hwrites
    exact ⟨d, ds, rfl, hd, hds⟩

/-- Digits in front make a number no smaller. -/
theorem ofDigits_le_append (hradix : 0 < radix) (front read : List Nat) :
    Nat.ofDigits radix read ≤ Nat.ofDigits radix (front ++ read) := by
  rw [Nat.ofDigits_append]
  have hpow : 1 ≤ radix ^ front.length := Nat.one_le_pow _ _ hradix
  calc Nat.ofDigits radix read = 1 * Nat.ofDigits radix read := (Nat.one_mul _).symm
    _ ≤ radix ^ front.length * Nat.ofDigits radix read := Nat.mul_le_mul_right _ hpow
    _ ≤ _ := Nat.le_add_left _ _

/-- **Digits are read as what they write**, as long as their number is within the limit. -/
theorem scan_of_writes (numeral : String) (hradix : 0 < radix) {digits read : List Nat} {cs : List Char}
    (hwrites : Writes radix digits cs) (hle : Nat.ofDigits radix (digits.reverse ++ read) ≤ limit) :
    scan numeral radix read cs = .ok (digits.reverse ++ read) := by
  induction cs generalizing digits read with
  | nil =>
    obtain rfl := List.map_eq_nil_iff.mp hwrites.symm
    rfl
  | cons c cs ih =>
    unfold scan
    by_cases hc : c = '_'
    · subst hc
      rw [if_pos rfl]
      exact ih (writes_cons_underscore.mp hwrites) hle
    · obtain ⟨d, ds, rfl, hd, hds⟩ := exists_of_writes_cons hc hwrites
      rw [List.reverse_cons, List.append_assoc] at hle ⊢
      have hwithin : ¬ limit < Nat.ofDigits radix (d :: read) :=
        not_lt.mpr ((ofDigits_le_append hradix ds.reverse (d :: read)).trans hle)
      simp only [if_neg hc, hd, if_neg hwithin]
      exact ih hds hle

/-- The number that is read off the digits of a magnitude, and how many digits there are. -/
theorem readDigits_of_writes (numeral : String) (hradix : 0 < radix) (hm : m ≤ limit) {cs : List Char}
    (hwrites : Writes radix (positional radix m) cs) :
    readDigits numeral radix 0 0 cs = .ok (-(m : Int), .ofNat (positional radix m).length) := by
  have hle : Nat.ofDigits radix ((positional radix m).reverse ++ []) ≤ limit := by
    rwa [List.append_nil, ofDigits_positional]
  have hread := readDigits_eq_scan numeral hradix [] cs
  rw [scan_of_writes numeral hradix hwrites hle, List.append_nil] at hread
  refine hread.trans ?_
  show Except.ok (-((Nat.ofDigits radix (positional radix m).reverse : Nat) : Int), _) = _
  rw [ofDigits_positional, List.length_reverse]

/-! ## The front of a text -/

theorem valueBelow?_minus (radix : Nat) : valueBelow? radix '-' = none := by
  have hnone : digitChars.idxOf? '-'.toLower = none := by decide +kernel
  rw [valueBelow?, hnone]
  rfl

theorem splitSign_of_spells {n : Int} {c : Char} {cs : List Char} (hc : c ≠ '_')
    (hwrites : Writes radix (positional radix n.natAbs) (c :: cs)) :
    splitSign ((if n < 0 then ['-'] else []) ++ c :: cs) = (decide (n < 0), c :: cs) := by
  split_ifs with hneg
  · rw [decide_eq_true hneg]
    rfl
  · obtain ⟨d, ds, -, hd, -⟩ := exists_of_writes_cons hc hwrites
    have hne : c ≠ '-' := by
      rintro rfl
      rw [valueBelow?_minus] at hd
      cases hd
    rw [decide_eq_false hneg, List.nil_append, splitSign_eq]
    simp [hne]

/-- A character that writes no digit is an underscore. -/
theorem eq_underscore_of_writes_nil {c : Char} {cs : List Char} (hwrites : Writes radix [] (c :: cs)) :
    c = '_' := by
  by_contra hc
  obtain ⟨d, ds, hnil, -, -⟩ := exists_of_writes_cons hc hwrites
  cases hnil

/-- **No mark.** A text that starts with a zero is zero, and has nothing but underscores after it. -/
theorem splitRadix_of_spells (hradix : 2 ≤ radix) {c : Char} {cs : List Char} (hc : c ≠ '_')
    (hwrites : Writes radix (positional radix m) (c :: cs)) :
    splitRadix radix (c :: cs) = (radix, c :: cs) := by
  obtain ⟨d, ds, hdigits, hd, hds⟩ := exists_of_writes_cons hc hwrites
  unfold splitRadix
  split
  · next b e rest heq =>
    obtain ⟨rfl, rfl⟩ := List.cons.inj heq
    rw [valueBelow?_zero (by omega)] at hd
    cases hd
    obtain ⟨-, rfl⟩ := eq_zero_of_positional hdigits
    obtain rfl := eq_underscore_of_writes_nil hds
    rfl
  · rfl

/-! ## Whole texts -/

/-- **Reading inverts writing.** -/
theorem parse_of_spells (hmin : 2 ≤ radix) (hmax : radix ≤ 36) {n : Int64} {text : String}
    (htext : Spells radix n.toInt text) : parse text radix = .ok n := by
  obtain ⟨c, cs, hlist, hc, hwrites⟩ := htext
  have hne : ¬ text.isEmpty = true := by
    rw [String.isEmpty_iff]
    rintro rfl
    exact absurd (congrArg List.length hlist) (by simp)
  have hlow := n.le_toInt
  have hhigh := n.toInt_lt
  have hlimit : n.toInt.natAbs ≤ limit := by
    unfold limit
    omega
  have hseen : Int32.ofNat (positional radix n.toInt.natAbs).length ≠ 0 :=
    ofNat_length_ne_zero (positional_ne_nil _ _)
      ((length_positional_le hmin hlimit).trans_lt (by decide))
  unfold parse
  rw [if_neg (by omega), if_neg hne, hlist, splitSign_of_spells hc hwrites]
  simp only [Int.toNat_natCast, splitRadix_of_spells hmin hc hwrites,
    readDigits_of_writes text (by omega) hlimit hwrites]
  show (if _ then _ else _) = _
  rw [if_neg hseen]
  by_cases hneg : n.toInt < 0
  · rw [if_pos (decide_eq_true hneg), show -(n.toInt.natAbs : Int) = n.toInt by omega, Int64.ofInt_toInt]
  · rw [if_neg (by simpa using hneg), if_neg (by unfold lowest; omega),
      show - -(n.toInt.natAbs : Int) = n.toInt by omega, Int64.ofInt_toInt]

theorem idxOf?_digitChars_getD :
    ∀ d < 36, digitChars.idxOf? (digitChars.getD d '0').toLower = some d := by
  decide +kernel

theorem getD_digitChars_ne : ∀ d < 36, digitChars.getD d '0' ≠ '_' := by decide +kernel

/-- Characters that write digits one by one, none of them an underscore. -/
theorem writes_map {digits : List Nat} {f : Nat → Char}
    (hf : ∀ d ∈ digits, f d ≠ '_' ∧ valueBelow? radix (f d) = some d) :
    Writes radix digits (digits.map f) := by
  unfold Writes
  rw [List.filter_eq_self.mpr, List.map_map]
  · exact List.map_congr_left fun d hd => (hf d hd).2
  · intro c hc
    obtain ⟨d, hd, rfl⟩ := List.mem_map.mp hc
    exact decide_eq_true (hf d hd).1

/-- A sign and the characters of the digits write the integer. -/
theorem spells_of_map {n : Int} {f : Nat → Char}
    (hf : ∀ d ∈ positional radix n.natAbs, f d ≠ '_' ∧ valueBelow? radix (f d) = some d) :
    Spells radix n
      (String.ofList ((if n < 0 then ['-'] else []) ++ (positional radix n.natAbs).map f)) := by
  have hwrites := writes_map hf
  obtain ⟨d, ds, hdigits⟩ := List.exists_cons_of_ne_nil (positional_ne_nil radix n.natAbs)
  rw [hdigits] at hf hwrites
  refine ⟨f d, ds.map f, ?_, (hf d List.mem_cons_self).1, hdigits ▸ hwrites⟩
  rw [String.toList_ofList, hdigits]
  rfl

/-- Every integer can be written in every radix. -/
theorem spells_spelling (hmin : 2 ≤ radix) (hmax : radix ≤ 36) (n : Int) :
    Spells radix n (spelling radix n) := by
  refine spells_of_map fun d hd => ?_
  have hlt := lt_of_mem_positional hmin hd
  exact ⟨getD_digitChars_ne d (by omega), valueBelow?_of_idxOf? (idxOf?_digitChars_getD d (by omega)) hlt⟩

theorem toDigits_eq_positional (m : Nat) : Nat.toDigits 10 m = (positional 10 m).map Nat.digitChar := by
  induction m using Nat.strongRecOn with
  | ind m ih =>
    rw [Nat.toDigits_eq_if (by decide)]
    split_ifs with hm
    · rw [positional_of_lt hm]
      rfl
    · rw [positional_of_le (by decide) (not_lt.mp hm), List.map_append, ih (m / 10) (by omega)]
      rfl

theorem toString_eq_ofList (n : Int) : toString n =
    String.ofList ((if n < 0 then ['-'] else []) ++ (positional 10 n.natAbs).map Nat.digitChar) := by
  rw [Int.toString_eq_repr, Int.repr_eq_if, ← toDigits_eq_positional]
  split_ifs with hpos hneg hneg
  · omega
  · rw [show n.toNat = n.natAbs by omega]
    rfl
  · rw [show (-n).toNat = n.natAbs by omega, String.ofList_append]
    rfl
  · omega

theorem digitChar_decimal : ∀ d < 10,
    Nat.digitChar d ≠ '_' ∧ digitChars.idxOf? (Nat.digitChar d).toLower = some d := by
  decide +kernel

/-- **The decimal text of an integer writes it.** -/
theorem spells_toString (n : Int) : Spells 10 n (toString n) := by
  rw [toString_eq_ofList]
  refine spells_of_map fun d hd => ?_
  have hlt := lt_of_mem_positional (by decide) hd
  obtain ⟨hne, hvalue⟩ := digitChar_decimal d hlt
  exact ⟨hne, valueBelow?_of_idxOf? hvalue hlt⟩

end Numeral

/-! ## Values -/

/-- An integer of any representation is shown in decimal. -/
theorem Number.text_of_integer {x : Number} {n : Int64} (hx : x.quantity = .integer n) :
    x.text = toString n.toInt := by
  cases x with
  | small k => cases hx; rfl
  | int64 k => cases hx; rfl
  | int32 k =>
    cases hx
    rw [Int32.toInt_toInt64]
    rfl
  | float32 bits => cases hx
  | float64 bits => cases hx
  | rational num den => cases hx

namespace Heap

theorem print_of_number {h : Heap} {w : Word} {x : Number} (hx : h.number? w = some x) :
    h.print w = .coloured .cyan x.text := by
  unfold print document
  rw [hx]
  rfl

/-- A number is shown as its text. -/
theorem display_of_number {r : Renderer} (hr : r.DrawsTexts) {h : Heap} {w : Word} {x : Number}
    (hx : h.number? w = some x) : h.display r w = x.text := by
  rw [display, print_of_number hx, hr]

/-- A text that holds the bytes of a string is that string. -/
theorem textString_of_encode {h : Heap} {w : Word} {s : String}
    (hs : h.block? w = some (.text (Utf8.encode s))) : h.textString w = .ok s := by
  rw [textString, textBytes, hs]
  simp only [bind, Except.bind, Utf8.decode?_encode]

/-- A radix may be an integer of any representation. -/
theorem expectRadix_of_integer {h : Heap} {w : Word} {x : Number} {n : Int64} (hw : h.number? w = some x)
    (hx : x.quantity = .integer n) : h.expectRadix w = .ok n := by
  unfold expectRadix
  rw [hw]
  cases x with
  | small k => cases hx; rfl
  | int64 k => cases hx; rfl
  | int32 k => cases hx; rfl
  | float32 bits => cases hx
  | float64 bits => cases hx
  | rational num den => cases hx

end Heap

namespace Action

open Numeral

/-- **The value made of an integer's text** is the variant for a result, and holds the integer. -/
theorem exists_parseInteger {h : Heap} {text radix : Word} {n : Int64}
    (hread : h.readInteger text radix = .ok n) :
    ∃ v h' integer, parseInteger text radix h = (.ok v, h') ∧
      h'.block? v = some (.composite (.variant 0 1 0) [integer]) ∧ h'.number? integer =
        some (if -2 ^ 62 ≤ n.toInt ∧ n.toInt ≤ 2 ^ 62 - 1 then .small n else .int64 n) := by
  obtain ⟨integer, k, hnew, hnumber⟩ := exists_newInteger_number n h
  obtain ⟨v, h', hmade, -, hblock, hkeeps⟩ :=
    makes_allocate k (.composite (.variant 0 1 0) [integer])
  refine ⟨v, h', integer, ?_, hblock, hkeeps.keepsNumbers integer _ hnumber⟩
  unfold parseInteger
  rw [read_bind_of_ok (f := fun h => .ok (h.readInteger text radix)) (congrArg Except.ok hread)]
  exact (bind_of_ok hnew).trans hmade

/-- Integers are read back from every text that writes them: as they are, from what is shown of them, and as
values from texts on a heap. -/
structure ReadsBack (r : Renderer) (n : Int64) : Prop where
  /-- There is a text for each radix. -/
  written : ∀ radix : Nat, 2 ≤ radix → radix ≤ 36 → Spells radix n.toInt (spelling radix n.toInt)
  read : ∀ (radix : Nat) text, 2 ≤ radix → radix ≤ 36 → Spells radix n.toInt text → parse text radix = .ok n
  /-- What is shown of the integer, in whatever representation, is read as the integer. -/
  shown : ∀ (h : Heap) w x, h.number? w = some x → x.quantity = .integer n →
    parse (h.display r w) 10 = .ok n
  /-- From a text on a heap that is shown of the integer, the variant for a result is made, and it holds the
  integer: in a word if it has at most 63 bits, and boxed else. -/
  made : ∀ (h : Heap) w x (k : Heap) text radix y, h.number? w = some x → x.quantity = .integer n →
    k.block? text = some (.text (Utf8.encode (h.display r w))) → k.number? radix = some y →
      y.quantity = .integer 10 → ∃ v k' integer, parseInteger text radix k = (.ok v, k') ∧
        k'.block? v = some (.composite (.variant 0 1 0) [integer]) ∧ k'.number? integer =
          some (if -2 ^ 62 ≤ n.toInt ∧ n.toInt ≤ 2 ^ 62 - 1 then .small n else .int64 n)

/-- **Integers are read as they are written**, in every radix, with digits of either case and any
underscores behind the first digit; and as they are shown, by whatever draws a text that stands alone as it
is. -/
theorem integers_read_back (r : Renderer) (hr : r.DrawsTexts) (n : Int64) : ReadsBack r n := by
  have hshown (h : Heap) (w : Word) (x : Number) (hx : h.number? w = some x)
      (hn : x.quantity = .integer n) : parse (h.display r w) 10 = .ok n := by
    rw [Heap.display_of_number hr hx, Number.text_of_integer hn]
    exact parse_of_spells (by decide) (by decide) (spells_toString n.toInt)
  constructor
  case written => exact fun radix hmin hmax => spells_spelling hmin hmax n.toInt
  case read => exact fun radix text hmin hmax htext => parse_of_spells hmin hmax htext
  case shown => exact hshown
  case made =>
    intro h w x k text radix y hx hn htext hy hradix
    refine exists_parseInteger ?_
    rw [Heap.readInteger, Heap.expectRadix_of_integer hy hradix, Heap.textString_of_encode htext]
    exact hshown h w x hx hn

/-- The lowest integer, boxed; a boxed ten, and the text of the lowest integer. -/
def lowestNoted : Heap :=
  ⟨Heap.sequential, #[some ⟨1, 16, Number.box (.int64 Int64.minValue)⟩, some ⟨1, 16, Number.box (.int32 10)⟩,
    some ⟨1, 32, .text (Utf8.encode "-9223372036854775808")⟩], 3, 64, 3, 0, 0⟩

/-- Digits of both cases and underscores are read. The lowest integer is read from what is shown of it, and is
boxed in the answer. -/
theorem integers_read_back_lowest :
    Spells 16 (-2047 : Int64).toInt "-7F_f__" ∧ parse "-7F_f__" 16 = .ok (-2047) ∧
      parse (lowestNoted.display .standard (.reference 0)) 10 = .ok Int64.minValue ∧
      ∃ v k integer, parseInteger (.reference 2) (.reference 1) lowestNoted = (.ok v, k) ∧
        k.block? v = some (.composite (.variant 0 1 0) [integer]) ∧
        k.number? integer = some (.int64 Int64.minValue) := by
  have hspells : Spells 16 (-2047 : Int64).toInt "-7F_f__" :=
    ⟨'7', ['F', '_', 'f', '_', '_'], by decide +kernel, by decide, by decide +kernel⟩
  have hdraws := Renderer.documented_standard.drawsTexts
  have hlowest : lowestNoted.number? (.reference 0) = some (.int64 Int64.minValue) := rfl
  have hten : lowestNoted.number? (.reference 1) = some (.int32 10) := rfl
  have htext : lowestNoted.block? (.reference 2) =
      some (.text (Utf8.encode (lowestNoted.display .standard (.reference 0)))) := by
    rw [Heap.display_of_number hdraws hlowest, Number.text_of_integer rfl]
    rfl
  have hback := integers_read_back .standard hdraws Int64.minValue
  exact ⟨hspells, (integers_read_back .standard hdraws (-2047)).read 16 _ (by decide) (by decide) hspells,
    hback.shown _ _ _ hlowest rfl, hback.made _ _ _ _ _ _ _ hlowest rfl htext hten rfl⟩

end Action

end ValueHeap
