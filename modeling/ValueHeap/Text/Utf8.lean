import ValueHeap.Bits.Octets

/-!
# UTF-8

Reading and writing UTF-8, on lists of bytes and on characters packed into 32 bits, first byte
lowest.

* `readCode` reads one code point off the front of a byte list, or says which byte rules it out and
  how many bytes had been acceptable up to there;
* `pack`, `unpack` and `mask` deal with a packed character, whose bytes past the width that its first
  byte announces carry no meaning;
* `decode?` and `decodeLossy` read a whole text: the first reports where it stops being UTF-8, the
  second puts a replacement character for each maximal part that cannot be read.
-/

namespace ValueHeap.Utf8

/-- Why bytes are not UTF-8. -/
inductive Fault where
  /-- No character starts with this byte. -/
  | lead (byte : UInt8)
  /-- The byte is not in the range that a continuation has to come from here. -/
  | continuation (byte low high : UInt8)
  /-- The bytes end inside a character. -/
  | truncated
  /-- The bytes spell a number that is no scalar value. -/
  | notScalar (code : Nat)
  deriving Repr, DecidableEq

/-- What the first byte of a character announces: its share of the code point, how many bytes
follow, and the range of the first of them. -/
structure Lead where
  bits : Nat
  follow : Nat
  low : UInt8
  high : UInt8
  deriving Repr, DecidableEq

/-- The announcement of a first byte. The ranges shut out overlong forms, surrogates and code points
past the last one. -/
def lead? (b : UInt8) : Option Lead :=
  if b ≤ 0x7f then some ⟨b.toNat, 0, 0x80, 0xbf⟩
  else if 0xc2 ≤ b && b ≤ 0xdf then some ⟨b.toNat % 32, 1, 0x80, 0xbf⟩
  else if 0xe0 ≤ b && b ≤ 0xef then
    some ⟨b.toNat % 16, 2, if b == 0xe0 then 0xa0 else 0x80, if b == 0xed then 0x9f else 0xbf⟩
  else if 0xf0 ≤ b && b ≤ 0xf4 then
    some ⟨b.toNat % 8, 3, if b == 0xf0 then 0x90 else 0x80, if b == 0xf4 then 0x8f else 0xbf⟩
  else none

/-- Reads `n` continuation bytes onto `code`, the first in `low..high` and the others in
`80..bf`. A failure tells how many bytes of the character were acceptable, `used` of them before the
call. -/
def readTail : (n : Nat) → (low high : UInt8) → (code used : Nat) → List UInt8 →
    Except (Fault × Nat) (Nat × List UInt8)
  | 0, _, _, code, _, rest => .ok (code, rest)
  | _ + 1, _, _, _, used, [] => .error (.truncated, used)
  | n + 1, low, high, code, used, b :: rest =>
    if low ≤ b && b ≤ high then readTail n 0x80 0xbf (code * 64 + b.toNat % 64) (used + 1) rest
    else .error (.continuation b low high, used)

/-- Reads the code point that starts with byte `b` and goes on in `rest`. -/
def readCode (b : UInt8) (rest : List UInt8) : Except (Fault × Nat) (Nat × List UInt8) :=
  match lead? b with
  | none => .error (.lead b, 1)
  | some l => readTail l.follow l.low l.high l.bits 1 rest

theorem length_of_readTail {n : Nat} {low high : UInt8} {code used : Nat} {bs : List UInt8}
    {r : Nat × List UInt8} (h : readTail n low high code used bs = .ok r) :
    r.2.length ≤ bs.length := by
  fun_induction readTail n low high code used bs with
  | case1 => cases h; exact Nat.le_refl _
  | case2 => cases h
  | case3 n low high code used b rest hb ih => exact Nat.le_succ_of_le (ih h)
  | case4 => cases h

theorem length_of_readCode {b : UInt8} {bs : List UInt8} {r : Nat × List UInt8}
    (h : readCode b bs = .ok r) : r.2.length ≤ bs.length := by
  unfold readCode at h
  split at h
  · cases h
  · exact length_of_readTail h

/-- Reads the rest of a text after the characters `front`, which are in reverse. A failure tells how
many bytes are readable before the first that is not, `offset` of them before the call. -/
def readAll (offset : Nat) (front : List Char) (bs : List UInt8) : Except Nat (List Char) :=
  match bs with
  | [] => .ok front.reverse
  | b :: rest =>
    match _h : readCode b rest with
    | .error _ => .error offset
    | .ok (code, rest') =>
      let c := Char.ofNat code
      readAll (offset + c.utf8Size) (c :: front) rest'
termination_by bs.length
decreasing_by
  have : rest'.length ≤ rest.length := length_of_readCode _h
  simp only [List.length_cons]
  omega

/-- The text with these bytes, or the number of readable bytes in front. -/
def decode? (bs : List UInt8) : Except Nat String := (readAll 0 [] bs).map String.ofList

/-- The replacement character. -/
def replacement : Char := '\uFFFD'

/-- Reads the rest of a text after the characters `front`, which are in reverse, with a replacement
character for each maximal part that cannot be read. -/
def readLossy (front : List Char) (bs : List UInt8) : List Char :=
  match bs with
  | [] => front.reverse
  | b :: rest =>
    match _h : readCode b rest with
    | .error (_, used) => readLossy (replacement :: front) (rest.drop (used - 1))
    | .ok (code, rest') => readLossy (Char.ofNat code :: front) rest'
termination_by bs.length
decreasing_by
  · simp only [List.length_drop, List.length_cons]
    omega
  · have : rest'.length ≤ rest.length := length_of_readCode _h
    simp only [List.length_cons]
    omega

/-- The text with these bytes, unreadable parts replaced. -/
def decodeLossy (bs : List UInt8) : String := String.ofList (readLossy [] bs)

/-- The bytes of a text. -/
def encode (s : String) : List UInt8 := s.toList.flatMap String.utf8EncodeChar

/-! ## Packed characters -/

/-- Is `code` a scalar value: a code point that is no surrogate? -/
def isScalar (code : Int) : Bool :=
  (0 ≤ code && code ≤ 0xd7ff) || (0xe000 ≤ code && code ≤ 0x10ffff)

/-- The character with this code point, if there is one. -/
def char? (code : Nat) : Option Char := if code.isValidChar then some (Char.ofNat code) else none

/-- The number of bytes that a first byte announces, well-formed or not. -/
def width (b : UInt8) : Nat := if b < 0x80 then 1 else if b < 0xe0 then 2 else if b < 0xf0 then 3 else 4

/-- The word with the bytes past the announced width cleared. -/
def mask (w : UInt32) : UInt32 :=
  match width w.toUInt8 with
  | 4 => w
  | n => w &&& ((1 <<< (8 * n).toUInt32) - 1)

/-- The packed form of a character. -/
def pack (c : Char) : UInt32 := Octets.toWord (String.utf8EncodeChar c)

/-- The scalar value of a packed character. -/
def unpack (w : UInt32) : Except Fault Nat :=
  match Octets.ofWord w with
  | [] => .error .truncated
  | b :: rest =>
    match readCode b rest with
    | .ok (code, _) => .ok code
    | .error (fault, _) => .error fault

end ValueHeap.Utf8
