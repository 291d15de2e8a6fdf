import Mathlib.Algebra.Order.Ring.Nat
import Mathlib.Data.List.Basic
import ValueHeap.Buffer.Basic
import ValueHeap.Text.Utf8

/-!
# Reading a character is the inverse of encoding it

The reader takes a first byte apart by a table of ranges and then collects six bits a byte. The encoder
knows nothing of that table: it cuts the code point into digits to the base 64.

* `tailBytes`: the digits of a code point as continuation bytes. `readTail_eq_ok_iff` says what the loop
  over them accepts, with the range of the first one.
* `Lead.Admits`: the code points that a first byte and the range after it leave open.
  `exists_lead_admits_iff`: the table leaves open exactly the scalar values, each to its own first byte, and
  no overlong form of any.

Results:
* `readCode_eq_ok_iff`: the reader accepts exactly the encodings.
* `mask_eq_pack_iff`, `unpack_eq_ok_iff`: so does the reader of characters packed into a word, up to bytes
  past the announced width.
* `decode?_encode`: the bytes of a text read as the text.
-/

namespace ValueHeap

namespace Utf8

/-! ## Continuation bytes -/

/-- The last `n` digits of `code` to the base 64, as continuation bytes. -/
def tailBytes : (n code : Nat) → List UInt8
  | 0, _ => []
  | n + 1, code => .ofNat (0x80 + code / 64 ^ n % 64) :: tailBytes n code

theorem length_tailBytes (n code : Nat) : (tailBytes n code).length = n := by
  induction n with
  | zero => rfl
  | succ n ih => simp [tailBytes, ih]

/-- The first of `n` continuation bytes of `code` is in the range, if there is one. -/
def Opens (low high : UInt8) : (n code : Nat) → Prop
  | 0, _ => True
  | n + 1, code =>
    low.toNat ≤ 0x80 + code / 64 ^ n % 64 ∧ 0x80 + code / 64 ^ n % 64 ≤ high.toNat

/-- Every digit is in the full range. -/
theorem opens_full (n code : Nat) : Opens 0x80 0xbf n code := by
  cases n with
  | zero => trivial
  | succ n =>
    have hlow : (0x80 : UInt8).toNat = 0x80 := rfl
    have hhigh : (0xbf : UInt8).toNat = 0xbf := rfl
    constructor <;> omega

/-- The byte of a digit is the digit above the mark of continuation bytes. -/
theorem toNat_digit (q : Nat) : (UInt8.ofNat (0x80 + q % 64)).toNat = 0x80 + q % 64 := by
  rw [UInt8.toNat_ofNat']
  omega

/-- One byte of the loop: it is the next digit of the code point. -/
theorem digit_iff {b : UInt8} (q bits : Nat) (hlow : 0x80 ≤ b.toNat) (hhigh : b.toNat ≤ 0xbf) :
    q = bits * 64 + b.toNat % 64 ↔ q / 64 = bits ∧ b = .ofNat (0x80 + q % 64) := by
  rw [← UInt8.toNat_inj, toNat_digit]
  omega

/-- **What the loop over the continuation bytes accepts**: the digits of the code point below those that
were read before, the first of them in the given range. -/
theorem readTail_eq_ok_iff {n : Nat} {low high : UInt8} {bits used code : Nat} {bs rest : List UInt8}
    (hlow : 0x80 ≤ low.toNat) (hhigh : high.toNat ≤ 0xbf) :
    readTail n low high bits used bs = .ok (code, rest) ↔
      code / 64 ^ n = bits ∧ Opens low high n code ∧ bs = tailBytes n code ++ rest := by
  induction n generalizing low high bits used bs with
  | zero => simp [readTail, Opens, tailBytes, eq_comm]
  | succ n ih =>
    cases bs with
    | nil => simp [readTail, tailBytes]
    | cons b bs =>
      have hdiv : code / 64 ^ (n + 1) = code / 64 ^ n / 64 := by
        rw [Nat.pow_succ, Nat.div_div_eq_div_mul]
      rw [readTail, hdiv, tailBytes, List.cons_append, List.cons.injEq]
      by_cases hb : low.toNat ≤ b.toNat ∧ b.toNat ≤ high.toNat
      · have hdigit := digit_iff (code / 64 ^ n) bits (hlow.trans hb.1) (hb.2.trans hhigh)
        rw [if_pos (by simpa [UInt8.le_iff_toNat_le] using hb), ih le_rfl le_rfl, hdigit]
        constructor
        · rintro ⟨⟨hbits, hbyte⟩, -, hrest⟩
          refine ⟨hbits, ?_, hbyte, hrest⟩
          rw [Opens, ← toNat_digit, ← hbyte]
          exact hb
        · rintro ⟨hbits, -, hbyte, hrest⟩
          exact ⟨⟨hbits, hbyte⟩, opens_full n code, hrest⟩
      · rw [if_neg (by simpa [UInt8.le_iff_toNat_le] using hb)]
        refine iff_of_false nofun ?_
        rintro ⟨-, hopens, hbyte, -⟩
        rw [Opens, ← toNat_digit, ← hbyte] at hopens
        exact hb hopens

/-! ## First bytes -/

/-- How many bytes follow the first one of a code point. -/
def followers (code : Nat) : Nat :=
  if code ≤ 0x7f then 0 else if code ≤ 0x7ff then 1 else if code ≤ 0xffff then 2 else 3

/-- The high bits of a first byte that announces `n` more. -/
def mark : (n : Nat) → Nat
  | 0 => 0
  | 1 => 0xc0
  | 2 => 0xe0
  | _ => 0xf0

/-- The first byte of a code point: its highest digits under the mark. -/
def firstByte (code : Nat) : UInt8 := .ofNat (mark (followers code) + code / 64 ^ followers code)

/-- The code points that a first byte leaves open, together with the range of the byte after it. -/
def Lead.Admits (l : Lead) (code : Nat) : Prop :=
  code / 64 ^ l.follow = l.bits ∧ Opens l.low l.high l.follow code

theorem toNat_firstByte {code : Nat} (hcode : code.isValidChar) :
    (firstByte code).toNat = mark (followers code) + code / 64 ^ followers code := by
  rw [firstByte, UInt8.toNat_ofNat', Nat.mod_eq_of_lt]
  unfold followers
  split_ifs <;> simp only [mark] <;> omega

/-- The four lengths of an encoding, with the first byte of each. -/
theorem firstByte_cases {code : Nat} (hcode : code.isValidChar) :
    (code ≤ 0x7f ∧ followers code = 0 ∧ (firstByte code).toNat = code) ∨
      (0x7f < code ∧ code ≤ 0x7ff ∧ followers code = 1 ∧ (firstByte code).toNat = 0xc0 + code / 64) ∨
      (0x7ff < code ∧ code ≤ 0xffff ∧ followers code = 2 ∧
        (firstByte code).toNat = 0xe0 + code / 4096) ∨
      (0xffff < code ∧ followers code = 3 ∧ (firstByte code).toNat = 0xf0 + code / 262144) := by
  have hfirst := toNat_firstByte hcode
  generalize (firstByte code).toNat = b at hfirst ⊢
  unfold followers at hfirst ⊢
  split_ifs at hfirst ⊢ <;> simp only [mark] at hfirst <;> omega

/-- What the table says of a first byte: it is the mark with the bits, the range after it is one of
continuation bytes, and what they leave open are scalar values of that length. -/
theorem lead?_eq_some {b : UInt8} {l : Lead} (hl : lead? b = some l) :
    b.toNat = mark l.follow + l.bits ∧ 0x80 ≤ l.low.toNat ∧ l.high.toNat ≤ 0xbf ∧
      ∀ code, l.Admits code → code.isValidChar ∧ followers code = l.follow := by
  unfold lead? at hl
  simp only [UInt8.le_iff_toNat_le, UInt8.reduceToNat, Bool.and_eq_true, decide_eq_true_eq, beq_iff_eq,
    ← UInt8.toNat_inj] at hl
  -- One case for each row of the table, with its own ends of the range.
  split_ifs at hl
  all_goals
    cases hl
    simp only [mark, Lead.Admits, Opens, followers, UInt8.reduceToNat]
    refine ⟨by omega, by omega, by omega, fun code hcode => ⟨by omega, ?_⟩⟩
    split_ifs <;> omega

/-- A scalar value is left open by its first byte. -/
theorem exists_admits {code : Nat} (hcode : code.isValidChar) :
    ∃ l, lead? (firstByte code) = some l ∧ l.Admits code := by
  have hcases := firstByte_cases hcode
  generalize firstByte code = b at hcases
  unfold lead? Lead.Admits
  simp only [UInt8.le_iff_toNat_le, UInt8.reduceToNat, Bool.and_eq_true, decide_eq_true_eq, beq_iff_eq,
    ← UInt8.toNat_inj]
  rcases hcases with ⟨hone, -, hb⟩ | ⟨hone, htwo, -, hb⟩ | ⟨htwo, hthree, -, hb⟩ | ⟨hthree, -, hb⟩
  · rw [if_pos (by omega)]
    exact ⟨_, rfl, by simp [hb], trivial⟩
  · rw [if_neg (by omega), if_pos (by omega)]
    refine ⟨_, rfl, ?_, ?_⟩
    · simp only [hb]
      omega
    · simp only [Opens, UInt8.reduceToNat]
      omega
  · rw [if_neg (by omega), if_neg (by omega), if_pos (by omega)]
    refine ⟨_, rfl, ?_, ?_⟩
    · simp only [hb]
      omega
    · simp only [Opens, apply_ite UInt8.toNat, UInt8.reduceToNat]
      split_ifs <;> omega
  · rw [if_neg (by omega), if_neg (by omega), if_neg (by omega), if_pos (by omega)]
    refine ⟨_, rfl, ?_, ?_⟩
    · simp only [hb]
      omega
    · simp only [Opens, apply_ite UInt8.toNat, UInt8.reduceToNat]
      split_ifs <;> omega

/-- **The table leaves open exactly the scalar values**, each to its own first byte. -/
theorem exists_lead_admits_iff {b : UInt8} {code : Nat} :
    (∃ l, lead? b = some l ∧ l.Admits code) ↔ code.isValidChar ∧ b = firstByte code := by
  constructor
  · rintro ⟨l, hl, hcode⟩
    obtain ⟨hbyte, -, -, hadmits⟩ := lead?_eq_some hl
    obtain ⟨hvalid, hfollow⟩ := hadmits code hcode
    refine ⟨hvalid, ?_⟩
    rw [← UInt8.toNat_inj, toNat_firstByte hvalid, hfollow, hcode.1, hbyte]
  · rintro ⟨hvalid, rfl⟩
    exact exists_admits hvalid

/-! ## Whole characters -/

theorem exists_char {code : Nat} (hcode : code.isValidChar) : ∃ c : Char, c.toNat = code :=
  ⟨Char.ofNatAux code hcode, rfl⟩

theorem utf8EncodeChar_eq (c : Char) :
    String.utf8EncodeChar c = firstByte c.toNat :: tailBytes (followers c.toNat) c.toNat := by
  have hvalid : c.toNat.isValidChar := c.valid
  unfold String.utf8EncodeChar firstByte followers
  simp only [Char.toNat_val]
  split_ifs <;> simp [tailBytes, mark, ← UInt8.toNat_inj] <;> omega

/-- **The reader accepts exactly the encodings.** -/
theorem readCode_eq_ok_iff {b : UInt8} {bs rest : List UInt8} {code : Nat} :
    readCode b bs = .ok (code, rest) ↔
      ∃ c : Char, c.toNat = code ∧ b :: bs = String.utf8EncodeChar c ++ rest := by
  constructor
  · intro hread
    unfold readCode at hread
    cases hl : lead? b with
    | none =>
      rw [hl] at hread
      cases hread
    | some l =>
      obtain ⟨-, hlow, hhigh, hadmits⟩ := lead?_eq_some hl
      rw [hl, readTail_eq_ok_iff hlow hhigh] at hread
      obtain ⟨hbits, hopens, hbs⟩ := hread
      obtain ⟨hvalid, hfirst⟩ := exists_lead_admits_iff.mp ⟨l, hl, hbits, hopens⟩
      have hfollow := (hadmits code ⟨hbits, hopens⟩).2
      obtain ⟨c, rfl⟩ := exists_char hvalid
      refine ⟨c, rfl, ?_⟩
      rw [utf8EncodeChar_eq, hfollow, hfirst, hbs, List.cons_append]
  · rintro ⟨c, rfl, hbytes⟩
    rw [utf8EncodeChar_eq, List.cons_append, List.cons.injEq] at hbytes
    obtain ⟨rfl, rfl⟩ := hbytes
    obtain ⟨l, hl, hadmits⟩ := exists_admits (show c.toNat.isValidChar from c.valid)
    obtain ⟨-, hlow, hhigh, hfollow⟩ := lead?_eq_some hl
    unfold readCode
    rw [hl]
    refine (readTail_eq_ok_iff hlow hhigh).mpr ⟨hadmits.1, hadmits.2, ?_⟩
    rw [(hfollow _ hadmits).2]

/-- The announced width is the length of the encoding. -/
theorem width_firstByte (c : Char) : width (firstByte c.toNat) = (String.utf8EncodeChar c).length := by
  rw [utf8EncodeChar_eq, List.length_cons, length_tailBytes]
  unfold width
  simp only [UInt8.lt_iff_toNat_lt, UInt8.reduceToNat]
  rcases firstByte_cases (show c.toNat.isValidChar from c.valid) with
    ⟨hone, hfollow, hb⟩ | ⟨hone, htwo, hfollow, hb⟩ | ⟨htwo, hthree, hfollow, hb⟩ | ⟨hthree, hfollow, hb⟩
  · rw [hfollow, hb, if_pos (by omega)]
  · rw [hfollow, hb, if_neg (by omega), if_pos (by omega)]
  · rw [hfollow, hb, if_neg (by omega), if_neg (by omega), if_pos (by omega)]
  · rw [hfollow, hb, if_neg (by omega), if_neg (by omega), if_neg (by omega)]

end Utf8

/-! ## Bytes in a word -/

namespace Octets

theorem toNat_shift_or {w : UInt32} (hw : w.toNat < 2 ^ 24) (b : UInt8) :
    (w <<< 8 ||| b.toUInt32).toNat = 256 * w.toNat + b.toNat := by
  have hshift : (w <<< 8).toNat = w.toNat <<< 8 := by
    rw [UInt32.toNat_shiftLeft, Nat.mod_eq_of_lt]
    · rfl
    · show w.toNat <<< 8 < 2 ^ 32
      rw [Nat.shiftLeft_eq]
      omega
  rw [UInt32.toNat_or, hshift, UInt8.toNat_toUInt32, ← Nat.shiftLeft_add_eq_or_of_lt b.toNat_lt,
    Nat.shiftLeft_eq]
  omega

/-- Three bytes leave room for a fourth one. -/
theorem toNat_toWord_lt {bs : List UInt8} (hbs : bs.length ≤ 3) :
    (toWord bs).toNat < 256 ^ bs.length := by
  induction bs with
  | nil => decide
  | cons b bs ih =>
    have hlen : bs.length ≤ 2 := Nat.succ_le_succ_iff.mp hbs
    have hlt := ih (hlen.trans (by decide))
    have hpow : 256 ^ bs.length ≤ 256 ^ 2 := Nat.pow_le_pow_right (by decide) hlen
    have hb := b.toNat_lt
    show (toWord bs <<< 8 ||| b.toUInt32).toNat < _
    rw [toNat_shift_or (by omega), List.length_cons, Nat.pow_succ]
    omega

theorem toNat_toWord_cons {bs : List UInt8} (hbs : bs.length ≤ 3) (b : UInt8) :
    (toWord (b :: bs)).toNat = 256 * (toWord bs).toNat + b.toNat := by
  have hpow : 256 ^ bs.length ≤ 256 ^ 3 := Nat.pow_le_pow_right (by decide) hbs
  exact toNat_shift_or ((toNat_toWord_lt hbs).trans_le hpow) b

theorem ofWord_eq_ofNat (w : UInt32) : ofWord w = Bytes.ofNat 4 w.toNat := by
  simp [ofWord, Bytes.ofNat, ← UInt8.toNat_inj, Nat.shiftRight_eq_div_pow, Nat.div_div_eq_div_mul]

theorem ofNat_zero (n : Nat) : Bytes.ofNat n 0 = List.replicate n 0 := by
  induction n with
  | zero => rfl
  | succ n ih =>
    rw [Bytes.ofNat, Nat.zero_div, ih]
    rfl

theorem ofNat_toWord {bs : List UInt8} {n : Nat} (hbs : bs.length ≤ n) (hn : n ≤ 4) :
    Bytes.ofNat n (toWord bs).toNat = bs ++ List.replicate (n - bs.length) 0 := by
  induction bs generalizing n with
  | nil => exact ofNat_zero n
  | cons b bs ih =>
    cases n with
    | zero => simp at hbs
    | succ n =>
      rw [List.length_cons] at hbs ⊢
      have hhead : UInt8.ofNat (256 * (toWord bs).toNat + b.toNat) = b := by
        have hb := b.toNat_lt
        rw [← UInt8.toNat_inj, UInt8.toNat_ofNat']
        omega
      have htail : (256 * (toWord bs).toNat + b.toNat) / 256 = (toWord bs).toNat := by
        have hb := b.toNat_lt
        omega
      rw [toNat_toWord_cons (by omega), Bytes.ofNat, hhead, htail, ih (by omega) (by omega),
        Nat.add_sub_add_right, List.cons_append]

/-- Bytes that are put into a word are its low ones; the others are zero. -/
theorem ofWord_toWord {bs : List UInt8} (hbs : bs.length ≤ 4) :
    ofWord (toWord bs) = bs ++ List.replicate (4 - bs.length) 0 := by
  rw [ofWord_eq_ofNat, ofNat_toWord hbs le_rfl]

theorem toWord_inj {bs cs : List UInt8} (hbs : bs.length ≤ 4) (hlen : bs.length = cs.length) :
    toWord bs = toWord cs ↔ bs = cs := by
  refine ⟨fun heq => ?_, congrArg toWord⟩
  have hofWord := congrArg ofWord heq
  rw [ofWord_toWord hbs, ofWord_toWord (hlen ▸ hbs), hlen] at hofWord
  exact List.append_cancel_right hofWord

theorem toNat_toWord_take {k n m : Nat} (hk : k ≤ n) (hn : n ≤ 4) :
    (toWord ((Bytes.ofNat n m).take k)).toNat = m % 256 ^ k := by
  induction k generalizing n m with
  | zero => simp [toWord, Nat.mod_one]
  | succ k ih =>
    cases n with
    | zero => simp at hk
    | succ n =>
      have hlen : ((Bytes.ofNat n (m / 256)).take k).length ≤ 3 := by
        rw [List.length_take]
        omega
      have hbyte : (UInt8.ofNat m).toNat = m % 256 := UInt8.toNat_ofNat'
      rw [Bytes.ofNat, List.take_succ_cons, toNat_toWord_cons hlen, ih (by omega) (by omega), hbyte,
        Nat.pow_succ', Nat.mod_mul, Nat.add_comm]

end Octets

/-! ## Packed characters -/

namespace Utf8

theorem toNat_and_low (w : UInt32) {m : UInt32} {n : Nat} (hm : m.toNat = 256 ^ n - 1) :
    (w &&& m).toNat = w.toNat % 256 ^ n := by
  have hpow : 256 ^ n = 2 ^ (8 * n) := (Nat.pow_mul 2 8 n).symm
  rw [UInt32.toNat_and, hm, hpow, Nat.and_two_pow_sub_one_eq_mod]

/-- Masking keeps the bytes of the announced width. -/
theorem mask_eq_toWord (w : UInt32) :
    mask w = Octets.toWord ((Octets.ofWord w).take (width w.toUInt8)) := by
  have hwidth : width w.toUInt8 = 1 ∨ width w.toUInt8 = 2 ∨ width w.toUInt8 = 3 ∨
      width w.toUInt8 = 4 := by
    unfold width
    split_ifs <;> simp
  have htake (n : Nat) (hn : n ≤ 4) :
      (Octets.toWord ((Octets.ofWord w).take n)).toNat = w.toNat % 256 ^ n := by
    rw [Octets.ofWord_eq_ofNat, Octets.toNat_toWord_take hn le_rfl]
  unfold mask
  rw [← UInt32.toNat_inj]
  rcases hwidth with hw | hw | hw | hw
  · rw [hw, htake 1 (by decide)]
    exact toNat_and_low w rfl
  · rw [hw, htake 2 (by decide)]
    exact toNat_and_low w rfl
  · rw [hw, htake 3 (by decide)]
    exact toNat_and_low w rfl
  · rw [hw, htake 4 (by decide)]
    exact (Nat.mod_eq_of_lt w.toNat_lt).symm

theorem length_utf8EncodeChar_le (c : Char) : (String.utf8EncodeChar c).length ≤ 4 := by
  rw [String.length_utf8EncodeChar]
  exact c.utf8Size_le_four

theorem width_pos (b : UInt8) : 0 < width b := by
  unfold width
  split_ifs <;> decide

/-- A word that starts with an encoding announces its length. -/
theorem take_width {w : UInt32} {c : Char} {rest : List UInt8}
    (hrest : Octets.ofWord w = String.utf8EncodeChar c ++ rest) :
    (Octets.ofWord w).take (width w.toUInt8) = String.utf8EncodeChar c := by
  have hfirst : w.toUInt8 = firstByte c.toNat := by
    rw [utf8EncodeChar_eq] at hrest
    exact (List.cons.inj hrest).1
  rw [hfirst, width_firstByte, hrest, List.take_left']
  rfl

/-- The words that are masked to the packed form of a character are those that start with its encoding. -/
theorem mask_eq_pack_iff {w : UInt32} {c : Char} :
    mask w = pack c ↔ ∃ rest, Octets.ofWord w = String.utf8EncodeChar c ++ rest := by
  rw [mask_eq_toWord, pack]
  constructor
  · intro hmask
    have htake : ((Octets.ofWord w).take (width w.toUInt8)).length ≤ 4 := List.length_take_le' _ _
    -- The first bytes agree, since both words have theirs lowest, and so do the lengths.
    have hfirst : w.toUInt8 = firstByte c.toNat := by
      have hbytes := congrArg (List.head? ∘ Octets.ofWord) hmask
      obtain ⟨n, hn⟩ := Nat.exists_eq_succ_of_ne_zero (width_pos w.toUInt8).ne'
      simp only [Function.comp, Octets.ofWord_toWord htake,
        Octets.ofWord_toWord (length_utf8EncodeChar_le c)] at hbytes
      rw [hn, utf8EncodeChar_eq] at hbytes
      exact Option.some.inj hbytes
    have hlen : ((Octets.ofWord w).take (width w.toUInt8)).length = (String.utf8EncodeChar c).length := by
      rw [hfirst, width_firstByte, List.length_take]
      exact Nat.min_eq_left (length_utf8EncodeChar_le c)
    rw [← (Octets.toWord_inj htake hlen).mp hmask]
    exact ⟨_, (List.take_append_drop _ _).symm⟩
  · rintro ⟨rest, hrest⟩
    rw [take_width hrest]

/-- **A packed character reads as the one that its bytes up to the announced width encode.** -/
theorem unpack_eq_ok_iff {w : UInt32} {code : Nat} :
    unpack w = .ok code ↔ ∃ c : Char, c.toNat = code ∧ mask w = pack c := by
  simp only [mask_eq_pack_iff]
  constructor
  · intro hunpack
    unfold unpack at hunpack
    split at hunpack
    · cases hunpack
    · next b rest hword =>
      cases hread : readCode b rest with
      | error e =>
        rw [hread] at hunpack
        cases hunpack
      | ok r =>
        rw [hread] at hunpack
        cases hunpack
        obtain ⟨c, hc, hbytes⟩ := readCode_eq_ok_iff.mp hread
        exact ⟨c, hc, r.2, hword.trans hbytes⟩
  · rintro ⟨c, hc, rest, hrest⟩
    have hread := readCode_eq_ok_iff.mpr ⟨c, hc, hrest⟩
    simp only [unpack, Octets.ofWord, hread]

/-! ## Whole texts -/

/-- One character is read, and the reader goes on behind it. -/
theorem readAll_append (offset : Nat) (front : List Char) (c : Char) (bs : List UInt8) :
    readAll offset front (String.utf8EncodeChar c ++ bs) =
      readAll (offset + c.utf8Size) (c :: front) bs := by
  obtain ⟨b, rest, hbytes⟩ := List.exists_cons_of_ne_nil (String.utf8EncodeChar_ne_nil (c := c))
  have hread : readCode b (rest ++ bs) = .ok (c.toNat, bs) :=
    readCode_eq_ok_iff.mpr ⟨c, rfl, by rw [hbytes]; rfl⟩
  rw [hbytes, List.cons_append, readAll]
  split
  · next hfault =>
    rw [hread] at hfault
    cases hfault
  · next code rest' hcode =>
    rw [hread] at hcode
    cases hcode
    rw [Char.ofNat_toNat]

theorem readAll_flatMap (offset : Nat) (front cs : List Char) :
    readAll offset front (cs.flatMap String.utf8EncodeChar) = .ok (front.reverse ++ cs) := by
  induction cs generalizing offset front with
  | nil =>
    rw [List.flatMap_nil, readAll, List.append_nil]
  | cons c cs ih =>
    rw [List.flatMap_cons, readAll_append, ih, List.reverse_cons, List.append_assoc]
    rfl

/-- **The bytes of a text read as the text.** -/
theorem decode?_encode (s : String) : decode? (encode s) = .ok s := by
  rw [decode?, encode, readAll_flatMap]
  exact congrArg Except.ok String.ofList_toList

end Utf8

end ValueHeap
