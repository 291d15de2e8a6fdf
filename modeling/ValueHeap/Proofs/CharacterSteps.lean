import Mathlib.Order.Bounds.Basic
import ValueHeap.Proofs.Characters

/-!
# Stepping through the characters

A step from a character reads its code, goes to the next code or to the one before, past the gap that the
surrogates leave, and makes a new character of it. Stray bytes after the encoding are lost on the way, which
no comparison sees.

Results:
* `Utf8.isLeast_next`, `Utf8.isGreatest_previous`: a step leads to the nearest scalar value.
* `Utf8.previous_next`, `Utf8.next_previous`: a step back undoes a step.
* `Action.characterSteps`: the laws of the two steps on every character block, well-formed or not.
-/

namespace ValueHeap

namespace Utf8

/-- The code after `code`, the surrogates left out. -/
def next (code : Nat) : Nat := if code = 0xd7ff then 0xe000 else code + 1

/-- The code before `code`, the surrogates left out. -/
def previous (code : Nat) : Nat := if code = 0xe000 then 0xd7ff else code - 1

variable {code : Nat}

theorem isScalar_natCast_iff :
    isScalar code = true ↔ code ≤ 0xd7ff ∨ 0xe000 ≤ code ∧ code ≤ 0x10ffff := by
  simp only [isScalar, Bool.or_eq_true, Bool.and_eq_true, decide_eq_true_eq]
  omega

/-- **The next code is the least scalar value above.** -/
theorem isLeast_next (hcode : isScalar code = true) (hne : code ≠ lastScalar) :
    IsLeast {n : Nat | isScalar n = true ∧ code < n} (next code) := by
  rw [isScalar_natCast_iff] at hcode
  unfold lastScalar at hne
  unfold next
  constructor
  · refine ⟨isScalar_natCast_iff.mpr ?_, ?_⟩ <;> split <;> omega
  · rintro n ⟨hscalar, hlt⟩
    rw [isScalar_natCast_iff] at hscalar
    split <;> omega

/-- **The previous code is the greatest scalar value below.** -/
theorem isGreatest_previous (hcode : isScalar code = true) (hne : code ≠ 0) :
    IsGreatest {n : Nat | isScalar n = true ∧ n < code} (previous code) := by
  rw [isScalar_natCast_iff] at hcode
  unfold previous
  constructor
  · refine ⟨isScalar_natCast_iff.mpr ?_, ?_⟩ <;> split <;> omega
  · rintro n ⟨hscalar, hlt⟩
    rw [isScalar_natCast_iff] at hscalar
    split <;> omega

theorem previous_next (hcode : isScalar code = true) : previous (next code) = code := by
  rw [isScalar_natCast_iff] at hcode
  unfold previous next
  split_ifs <;> omega

theorem next_previous (hcode : isScalar code = true) (hne : code ≠ 0) : next (previous code) = code := by
  rw [isScalar_natCast_iff] at hcode
  unfold previous next
  split_ifs <;> omega

end Utf8

namespace Heap

variable {h h' : Heap} {w v : Word} {code : Nat}

/-- The code of a character is a scalar value. -/
theorem isScalar_of_charCode (hw : h.charCode w = .ok code) : Utf8.isScalar code = true := by
  obtain ⟨packed, -, hcode⟩ := h.exists_packed hw
  obtain ⟨c, rfl, -⟩ := unpackChar_eq_ok_iff.mp hcode
  exact Utf8.isScalar_iff.mpr ⟨c, rfl⟩

theorem KeepsCells.charCode (hkeeps : h.KeepsCells h') (hw : h.charCode w = .ok code) :
    h'.charCode w = .ok code := by
  obtain ⟨packed, hblock, hcode⟩ := h.exists_packed hw
  rw [h'.charCode_of_block? (hkeeps.block? hblock), hcode]

/-- Characters with one code are equal, whatever follows their encodings. -/
theorem same_of_charCode (hv : h.charCode v = .ok code) (hw : h.charCode w = .ok code) :
    h.same v w = true := by
  obtain ⟨p, hblockv, hp⟩ := h.exists_packed hv
  obtain ⟨q, hblockw, hq⟩ := h.exists_packed hw
  obtain ⟨c, hc, hmaskp⟩ := unpackChar_eq_ok_iff.mp hp
  obtain ⟨d, hd, hmaskq⟩ := unpackChar_eq_ok_iff.mp hq
  rw [h.same_of_chars hblockv hblockw, hmaskp, hmaskq, Char.toNat_inj.mp (hc.trans hd.symm)]

end Heap

namespace Action

variable {h h' : Heap} {w u : Word} {code : Nat} {action : Action Word}

/-- Run on `h`, the action makes the character with the given code, with nothing after its encoding. -/
def MakesChar (action : Action Word) (h : Heap) (code : Nat) : Prop :=
  ∃ c : Char, c.toNat = code ∧ Makes action h (.char (Utf8.pack c))

theorem makesChar_newCharOfCode (hcode : Utf8.isScalar code = true) (h : Heap) :
    MakesChar (newCharOfCode (.ofNat code)) h code := by
  obtain ⟨c, hc⟩ := Utf8.isScalar_iff.mp hcode
  cases Int.ofNat_inj.mp hc
  exact ⟨c, rfl, makes_newCharOfCode (toInt_ofNat_toNat c).symm h⟩

/-- What is made has the code, and the values that were there stay. -/
theorem MakesChar.of_run (hmakes : MakesChar action h code) (hrun : action h = (.ok u, h')) :
    h'.charCode u = .ok code ∧ h.KeepsCells h' := by
  obtain ⟨c, rfl, w, k, hrun', -, hblock, hkeeps⟩ := hmakes
  cases hrun'.symm.trans hrun
  rw [h'.charCode_of_block? hblock]
  exact ⟨unpackChar_eq_ok_iff.mpr ⟨c, rfl, Utf8.mask_pack c⟩, hkeeps⟩

theorem MakesChar.ne_error (hmakes : MakesChar action h code) (e : Error) (h' : Heap) :
    action h ≠ (.error e, h') := by
  obtain ⟨-, -, u, k, hmade, -⟩ := hmakes
  intro hrun
  cases hmade.symm.trans hrun

/-- A character that is made anew, later on, is equal to the one that was there. -/
theorem MakesChar.same (hmakes : MakesChar action h' code) (hkeeps : h.KeepsCells h')
    (hw : h.charCode w = .ok code) :
    ∃ v h'', action h' = (.ok v, h'') ∧ h''.same v w = true := by
  obtain ⟨c, hc, v, h'', hrun, hmade⟩ := hmakes
  obtain ⟨hv, hkeeps'⟩ := MakesChar.of_run ⟨c, hc, v, h'', hrun, hmade⟩ hrun
  exact ⟨v, h'', hrun, Heap.same_of_charCode hv ((hkeeps.trans hkeeps').charCode hw)⟩

/-! ## The two steps -/

theorem charSucc_of_last (hw : h.charCode w = .ok lastScalar) :
    charSucc w h = (.error .noNextScalar, h) := by
  unfold charSucc
  rw [read_bind_of_ok hw]
  rfl

theorem makesChar_charSucc (hw : h.charCode w = .ok code) (hne : code ≠ lastScalar) :
    MakesChar (charSucc w) h (Utf8.next code) := by
  have hscalar := (Utf8.isLeast_next (Heap.isScalar_of_charCode hw) hne).1.1
  have hrun : charSucc w h = newCharOfCode (.ofNat (Utf8.next code)) h := by
    unfold charSucc Utf8.next
    rw [read_bind_of_ok hw, if_neg hne]
    split <;> rfl
  unfold MakesChar Makes
  rw [hrun]
  exact makesChar_newCharOfCode hscalar h

theorem charPred_of_zero (hw : h.charCode w = .ok 0) : charPred w h = (.error .noPreviousScalar, h) := by
  unfold charPred
  rw [read_bind_of_ok hw]
  rfl

theorem makesChar_charPred (hw : h.charCode w = .ok code) (hne : code ≠ 0) :
    MakesChar (charPred w) h (Utf8.previous code) := by
  have hscalar := (Utf8.isGreatest_previous (Heap.isScalar_of_charCode hw) hne).1.1
  have hrun : charPred w h = newCharOfCode (.ofNat (Utf8.previous code)) h := by
    unfold charPred Utf8.previous
    rw [read_bind_of_ok hw, if_neg hne]
    split <;> rfl
  unfold MakesChar Makes
  rw [hrun]
  exact makesChar_newCharOfCode hscalar h

/-- A step that succeeds started from a character. -/
theorem exists_charCode_of_run {k : Nat → Action Word}
    (hrun : (read (·.charCode w) >>= k) h = (.ok u, h')) : ∃ code, h.charCode w = .ok code := by
  cases hcode : h.charCode w with
  | error e =>
    rw [read_bind_of_error hcode] at hrun
    cases hrun
  | ok code => exact ⟨code, rfl⟩

theorem charSucc_fails_iff (hw : h.charCode w = .ok code) :
    (∃ e h', charSucc w h = (.error e, h') ∧ e.category = .invalidArgument) ↔ code = lastScalar := by
  constructor
  · rintro ⟨e, h', hrun, -⟩
    by_contra hne
    exact (makesChar_charSucc hw hne).ne_error e h' hrun
  · rintro rfl
    exact ⟨_, h, charSucc_of_last hw, rfl⟩

theorem charPred_fails_iff (hw : h.charCode w = .ok code) :
    (∃ e h', charPred w h = (.error e, h') ∧ e.category = .invalidArgument) ↔ code = 0 := by
  constructor
  · rintro ⟨e, h', hrun, -⟩
    by_contra hne
    exact (makesChar_charPred hw hne).ne_error e h' hrun
  · rintro rfl
    exact ⟨_, h, charPred_of_zero hw, rfl⟩

/-- A step up that succeeds can be taken back. -/
theorem exists_charPred (hrun : charSucc w h = (.ok u, h')) :
    ∃ v h'', charPred u h' = (.ok v, h'') ∧ h''.same v w = true := by
  obtain ⟨code, hcode⟩ := exists_charCode_of_run hrun
  have hne : code ≠ lastScalar := by
    rintro rfl
    cases (charSucc_of_last hcode).symm.trans hrun
  obtain ⟨hu, hkeeps⟩ := (makesChar_charSucc hcode hne).of_run hrun
  have hscalar := Heap.isScalar_of_charCode hcode
  have hpos : Utf8.next code ≠ 0 := Nat.ne_zero_of_lt (Utf8.isLeast_next hscalar hne).1.2
  have hback := makesChar_charPred hu hpos
  rw [Utf8.previous_next hscalar] at hback
  exact hback.same hkeeps hcode

/-- A step down that succeeds can be taken back. -/
theorem exists_charSucc (hrun : charPred w h = (.ok u, h')) :
    ∃ v h'', charSucc u h' = (.ok v, h'') ∧ h''.same v w = true := by
  obtain ⟨code, hcode⟩ := exists_charCode_of_run hrun
  have hne : code ≠ 0 := by
    rintro rfl
    cases (charPred_of_zero hcode).symm.trans hrun
  obtain ⟨hu, hkeeps⟩ := (makesChar_charPred hcode hne).of_run hrun
  have hscalar := Heap.isScalar_of_charCode hcode
  have hlt : Utf8.previous code < code := (Utf8.isGreatest_previous hscalar hne).1.2
  have hlast : Utf8.previous code ≠ lastScalar := by
    rw [Utf8.isScalar_natCast_iff] at hscalar
    unfold lastScalar
    omega
  have hback := makesChar_charSucc hu hlast
  rw [Utf8.next_previous hscalar hne] at hback
  exact hback.same hkeeps hcode

/-! ## The laws -/

/-- The laws of the steps from the character `w`, which is stored as `packed`. -/
structure CharacterSteps (h : Heap) (w : Word) (packed : UInt32) : Prop where
  /-- There is no step from what does not read as a character. -/
  malformed : ∀ e, unpackChar packed = .error e → e.category = .malformedUtf8 ∧
    charSucc w h = (.error e, h) ∧ charPred w h = (.error e, h)
  /-- A step up fails at the last scalar value only, -/
  succ_fails_iff : ∀ code, unpackChar packed = .ok code →
    ((∃ e h', charSucc w h = (.error e, h') ∧ e.category = .invalidArgument) ↔ code = 0x10ffff)
  /-- and leads to the least scalar value above elsewhere. -/
  succ_least : ∀ code, unpackChar packed = .ok code → code ≠ 0x10ffff →
    ∃ next, IsLeast {n : Nat | Utf8.isScalar n = true ∧ code < n} next ∧
      MakesChar (charSucc w) h next
  pred_fails_iff : ∀ code, unpackChar packed = .ok code →
    ((∃ e h', charPred w h = (.error e, h') ∧ e.category = .invalidArgument) ↔ code = 0)
  pred_greatest : ∀ code, unpackChar packed = .ok code → code ≠ 0 →
    ∃ previous, IsGreatest {n : Nat | Utf8.isScalar n = true ∧ n < code} previous ∧
      MakesChar (charPred w) h previous
  /-- A step and a step back lead to a character that is equal to the one they started from. -/
  pred_succ : ∀ u h', charSucc w h = (.ok u, h') →
    ∃ v h'', charPred u h' = (.ok v, h'') ∧ h''.same v w = true
  succ_pred : ∀ u h', charPred w h = (.ok u, h') →
    ∃ v h'', charSucc u h' = (.ok v, h'') ∧ h''.same v w = true

/-- **The steps go through the scalar values in order**, from every block that reads as one of them. -/
theorem characterSteps (h : Heap) (w : Word) (packed : UInt32)
    (hw : h.block? w = some (.char packed)) : CharacterSteps h w packed := by
  have hread := h.charCode_of_block? hw
  constructor
  case malformed =>
    intro e he
    refine ⟨category_of_unpackChar he, ?_, ?_⟩
    · rw [charSucc, read_bind_of_error (hread.trans he)]
    · rw [charPred, read_bind_of_error (hread.trans he)]
  case succ_fails_iff =>
    intro code hcode
    exact charSucc_fails_iff (hread.trans hcode)
  case succ_least =>
    intro code hcode hne
    have hscalar := Heap.isScalar_of_charCode (hread.trans hcode)
    exact ⟨_, Utf8.isLeast_next hscalar hne, makesChar_charSucc (hread.trans hcode) hne⟩
  case pred_fails_iff =>
    intro code hcode
    exact charPred_fails_iff (hread.trans hcode)
  case pred_greatest =>
    intro code hcode hne
    have hscalar := Heap.isScalar_of_charCode (hread.trans hcode)
    exact ⟨_, Utf8.isGreatest_previous hscalar hne, makesChar_charPred (hread.trans hcode) hne⟩
  case pred_succ => exact fun u h' => exists_charPred
  case succ_pred => exact fun u h' => exists_charSucc

/-- A heap with the last character before the surrogates, with a stray byte after its encoding. -/
def brink : Heap := (Heap.vacant.allocate (.char 0xffbf9fed)).2

/-- The step from it leads over the gap, and back to a character that is equal to it. -/
theorem characterSteps_brink : ∃ u h', charSucc (.reference 0) brink = (.ok u, h') ∧
    h'.charCode u = .ok 0xe000 ∧
    ∃ v h'', charPred u h' = (.ok v, h'') ∧ h''.same v (.reference 0) = true := by
  have hlaws := characterSteps brink (.reference 0) 0xffbf9fed rfl
  obtain ⟨next, hleast, hmakes⟩ := hlaws.succ_least 0xd7ff (by decide) (by decide)
  have hnext : next = 0xe000 := hleast.unique (Utf8.isLeast_next (by decide) (by decide))
  subst hnext
  have hmade := hmakes
  obtain ⟨-, -, u, h', hrun, -⟩ := hmade
  exact ⟨u, h', hrun, (hmakes.of_run hrun).1, hlaws.pred_succ u h' hrun⟩

end Action

end ValueHeap
