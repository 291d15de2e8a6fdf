import Mathlib.Data.List.Basic
import ValueHeap.Hash.Mixer

/-!
# The mixer is MurmurHash3

`Murmur3.hash` is the 32-bit MurmurHash3 of a whole text of bytes: all full blocks by their place in the
text, then the bytes after the last block, then the length. The incremental mixer gives the same for what
it was written, in however many writes of whatever sizes.

* `Write` is one call, and `Write.data` the bytes that it stands for, integers lowest byte first. Every
  write is a write of its bytes (`write_eq_writeBytes`).
* A write after one of whole blocks continues it (`writeBytes_append`), so a sequence of writes is one
  write of all its bytes (`foldl_write`).

Results:
* `mixBytes_eq`: the state after a run of bytes is that of the block loop and the tail.
* `finish_eq_murmur3`: the hash of a sequence of writes.
-/

namespace ValueHeap

/-! ## The hash of a whole text -/

namespace Murmur3

/-- The byte at a place of the text, as a word. -/
def byteAt (data : List UInt8) (i : Nat) : BitVec 32 := (data.getD i 0).toBitVec.setWidth 32

/-- The block with the given number, lowest byte first. -/
def block (data : List UInt8) (i : Nat) : BitVec 32 :=
  byteAt data (4 * i) ||| byteAt data (4 * i + 1) <<< 8 ||| byteAt data (4 * i + 2) <<< 16 |||
    byteAt data (4 * i + 3) <<< 24

def premix (k : BitVec 32) : BitVec 32 := (k * 0xcc9e2d51#32).rotateLeft 15 * 0x1b873593#32

/-- The state after one block. -/
def mixBlock (h k : BitVec 32) : BitVec 32 := (h ^^^ premix k).rotateLeft 13 * 5#32 + 0xe6546b64#32

/-- The state after all full blocks. -/
def body (seed : BitVec 32) (data : List UInt8) : BitVec 32 :=
  (List.range (data.length / 4)).foldl (fun h i => mixBlock h (block data i)) seed

/-- The bytes after the last full block, the first of them lowest. -/
def tail (data : List UInt8) : BitVec 32 :=
  let t := 4 * (data.length / 4)
  match data.length % 4 with
  | 1 => byteAt data t
  | 2 => byteAt data (t + 1) <<< 8 ^^^ byteAt data t
  | 3 => byteAt data (t + 2) <<< 16 ^^^ byteAt data (t + 1) <<< 8 ^^^ byteAt data t
  | _ => 0

def finalize (h : BitVec 32) : BitVec 32 :=
  let h := (h ^^^ h >>> 16) * 0x85ebca6b#32
  let h := (h ^^^ h >>> 13) * 0xc2b2ae35#32
  h ^^^ h >>> 16

/-- The 32-bit MurmurHash3 of a text. -/
def hash (seed : UInt32) (data : List UInt8) : UInt32 :=
  .ofBitVec (finalize (body seed.toBitVec data ^^^ premix (tail data) ^^^ .ofNat 32 data.length))

theorem body_of_short {data : List UInt8} (hdata : data.length < 4) (seed : BitVec 32) :
    body seed data = seed := by
  rw [body, Nat.div_eq_of_lt hdata]
  rfl

section Cons

variable (a b c d : UInt8) (rest : List UInt8)

theorem body_cons (seed : BitVec 32) :
    body seed (a :: b :: c :: d :: rest) =
      body (mixBlock seed (block (a :: b :: c :: d :: rest) 0)) rest := by
  have hcount : (a :: b :: c :: d :: rest).length / 4 = rest.length / 4 + 1 :=
    Nat.add_div_right rest.length (by decide : 0 < 4)
  rw [body, hcount, List.range_succ_eq_map, List.foldl_cons, List.foldl_map]
  rfl

theorem tail_cons : tail (a :: b :: c :: d :: rest) = tail rest := by
  have hcount : (a :: b :: c :: d :: rest).length / 4 = rest.length / 4 + 1 :=
    Nat.add_div_right rest.length (by decide : 0 < 4)
  have hleft : (a :: b :: c :: d :: rest).length % 4 = rest.length % 4 :=
    Nat.add_mod_right rest.length 4
  unfold tail
  rw [hcount, hleft]
  rfl

end Cons

/-- Induction over a text of whole blocks. -/
theorem blocks_induction {motive : (data : List UInt8) → 4 ∣ data.length → Prop}
    (nil : motive [] (Nat.dvd_zero 4))
    (cons : ∀ a b c d rest hrest hdata, motive rest hrest → motive (a :: b :: c :: d :: rest) hdata) :
    ∀ (data : List UInt8) (hdata : 4 ∣ data.length), motive data hdata
  | [], _ => nil
  | [_], hdata | [_, _], hdata | [_, _, _], hdata => by simp at hdata
  | a :: b :: c :: d :: rest, hdata =>
    have hrest : 4 ∣ rest.length := (Nat.dvd_add_left (Nat.dvd_refl 4)).mp hdata
    cons a b c d rest hrest hdata (blocks_induction nil cons rest hrest)

/-- After whole blocks the loop goes on with the rest of the text. -/
theorem body_append {xs : List UInt8} (hxs : 4 ∣ xs.length) (ys : List UInt8) (seed : BitVec 32) :
    body seed (xs ++ ys) = body (body seed xs) ys := by
  induction xs, hxs using blocks_induction generalizing seed with
  | nil => rfl
  | cons a b c d rest _ _ ih =>
    rw [body_cons, ← ih]
    exact body_cons a b c d (rest ++ ys) seed

theorem tail_append {xs : List UInt8} (hxs : 4 ∣ xs.length) (ys : List UInt8) :
    tail (xs ++ ys) = tail ys := by
  induction xs, hxs using blocks_induction with
  | nil => rfl
  | cons a b c d rest _ _ ih =>
    rw [← ih]
    exact tail_cons a b c d (rest ++ ys)

end Murmur3

/-! ## Writes -/

namespace Hasher

open Murmur3 (byteAt block premix mixBlock body tail finalize)

/-- The lowest bytes of a number, lowest first. -/
def littleEndian (count n : Nat) : List UInt8 :=
  (List.range count).map fun i => .ofNat (n >>> (8 * i))

/-- One call of the mixer. -/
inductive Write where
  | word32 (k : UInt32)
  | word64 (k : UInt64)
  | bytes (bs : List UInt8)
  deriving Repr, DecidableEq

/-- The bytes that a write stands for. -/
def Write.data : Write → List UInt8
  | word32 k => littleEndian 4 k.toNat
  | word64 k => littleEndian 8 k.toNat
  | bytes bs => bs

def write (s : Hasher) : Write → Hasher
  | .word32 k => s.write32 k
  | .word64 k => s.write64 k
  | .bytes bs => s.writeBytes bs

theorem toBitVec_rotate {n : UInt32} (hpos : 0 < n.toNat) (hlt : n.toNat < 32) (x : UInt32) :
    (rotate x n).toBitVec = x.toBitVec.rotateLeft n.toNat := by
  -- the difference is taken modulo the size of a word, and a shift counts modulo 32
  have hback : (UInt32.size - n.toNat) % 32 = 32 - n.toNat := by
    have : UInt32.size = 4294967296 := rfl
    omega
  simp [rotate, BitVec.rotateLeft_def, Nat.mod_eq_of_lt hlt, hback]

theorem toBitVec_scramble (k : UInt32) : (scramble k).toBitVec = premix k.toBitVec := by
  simp [scramble, premix, toBitVec_rotate]

theorem toBitVec_mix (state k : UInt32) :
    (mix state k).toBitVec = mixBlock state.toBitVec k.toBitVec := by
  simp [mix, mixBlock, toBitVec_rotate, toBitVec_scramble]

theorem toBitVec_avalanche (x : UInt32) : (avalanche x).toBitVec = finalize x.toBitVec := by
  simp [avalanche, finalize]

/-! ## Runs of bytes -/

theorem toBitVec_toWord_cons (b : UInt8) (bs : List UInt8) :
    (Octets.toWord (b :: bs)).toBitVec =
      (Octets.toWord bs).toBitVec <<< 8 ||| b.toBitVec.setWidth 32 := by
  simp [Octets.toWord]

/-- A byte below a shifted word meets none of its bits. -/
theorem shift_or_byte (w : BitVec 32) (b : BitVec 8) :
    w <<< 8 ||| b.setWidth 32 = w <<< 8 ^^^ b.setWidth 32 := by
  ext i hi
  by_cases h8 : i < 8
  · simp [h8]
  · simp [h8, BitVec.getLsbD_of_ge b i (by omega)]

theorem toBitVec_toWord_block (a b c d : UInt8) (rest : List UInt8) :
    (Octets.toWord [a, b, c, d]).toBitVec = block (a :: b :: c :: d :: rest) 0 := by
  have hnil : (Octets.toWord []).toBitVec = 0#32 := rfl
  have hblock : block (a :: b :: c :: d :: rest) 0 = a.toBitVec.setWidth 32 |||
      b.toBitVec.setWidth 32 <<< 8 ||| c.toBitVec.setWidth 32 <<< 16 |||
      d.toBitVec.setWidth 32 <<< 24 := rfl
  have htwo (x : BitVec 32) : x <<< 8 <<< 8 = x <<< 16 := (BitVec.shiftLeft_add x 8 8).symm
  have hthree (x : BitVec 32) : x <<< 8 <<< 16 = x <<< 24 := (BitVec.shiftLeft_add x 8 16).symm
  rw [hblock, toBitVec_toWord_cons, toBitVec_toWord_cons, toBitVec_toWord_cons, toBitVec_toWord_cons,
    hnil, BitVec.zero_shiftLeft, BitVec.zero_or, BitVec.shiftLeft_or_distrib,
    BitVec.shiftLeft_or_distrib, BitVec.shiftLeft_or_distrib, htwo, htwo, hthree,
    BitVec.or_comm, BitVec.or_comm _ (b.toBitVec.setWidth 32 <<< 8),
    BitVec.or_comm (d.toBitVec.setWidth 32 <<< 24), BitVec.or_assoc, BitVec.or_assoc]

/-- What is left at the end of a run is the tail of the text. -/
theorem toBitVec_toWord_tail {bs : List UInt8} (hbs : bs.length < 4) :
    (Octets.toWord bs).toBitVec = tail bs := by
  have hnil : (Octets.toWord []).toBitVec = 0#32 := rfl
  have hcons (b : UInt8) (bs : List UInt8) : (Octets.toWord (b :: bs)).toBitVec =
      (Octets.toWord bs).toBitVec <<< 8 ^^^ b.toBitVec.setWidth 32 := by
    rw [toBitVec_toWord_cons, shift_or_byte]
  match bs, hbs with
  | [], _ => rfl
  | [a], _ => simp [hcons, hnil, tail, byteAt]
  | [a, b], _ => simp [hcons, hnil, tail, byteAt]
  | [a, b, c], _ => simp [hcons, hnil, tail, byteAt, BitVec.shiftLeft_xor_distrib]

/-- **The state after a run of bytes** is that of the block loop and the tail. -/
theorem mixBytes_eq (state : UInt32) (bs : List UInt8) :
    (mixBytes state bs).toBitVec = body state.toBitVec bs ^^^ premix (tail bs) := by
  fun_induction mixBytes state bs with
  | case1 state a b c d rest ih =>
    rw [ih, toBitVec_mix, toBitVec_toWord_block a b c d rest, ← Murmur3.body_cons, Murmur3.tail_cons]
  | case2 state => exact (BitVec.xor_zero).symm
  | case3 state bs hfour hnil =>
    have hshort : bs.length < 4 := by
      match bs with
      | [] | [_] | [_, _] | [_, _, _] => simp
      | a :: b :: c :: d :: rest => exact (hfour a b c d rest rfl).elim
    rw [Murmur3.body_of_short hshort, UInt32.toBitVec_xor, toBitVec_scramble,
      toBitVec_toWord_tail hshort]

/-- A run of bytes after one of whole blocks continues it. -/
theorem mixBytes_append (state : UInt32) {xs : List UInt8} (hxs : 4 ∣ xs.length) (ys : List UInt8) :
    mixBytes state (xs ++ ys) = mixBytes (mixBytes state xs) ys := by
  have hnone : premix (tail xs) = 0#32 := by
    rw [← List.append_nil xs, Murmur3.tail_append hxs]
    rfl
  rw [← UInt32.toBitVec_inj, mixBytes_eq, mixBytes_eq, mixBytes_eq, hnone, BitVec.xor_zero,
    Murmur3.body_append hxs, Murmur3.tail_append hxs]

theorem writeBytes_nil (s : Hasher) : s.writeBytes [] = s := by
  have hlength : s.length + UInt32.ofNat 0 = s.length := UInt32.add_zero _
  show (⟨s.state, s.length + UInt32.ofNat 0⟩ : Hasher) = s
  rw [hlength]

theorem writeBytes_append (s : Hasher) {xs : List UInt8} (hxs : 4 ∣ xs.length) (ys : List UInt8) :
    s.writeBytes (xs ++ ys) = (s.writeBytes xs).writeBytes ys := by
  simp [writeBytes, mixBytes_append s.state hxs, UInt32.add_assoc]

/-- A word is its lowest byte below the others. -/
theorem shift_or_lowest (w : BitVec 32) : w >>> 8 <<< 8 ||| (w.setWidth 8).setWidth 32 = w := by
  ext i hi
  by_cases h8 : i < 8
  · simp [h8, BitVec.getLsbD_eq_getElem hi]
  · have hback : 8 + (i - 8) = i := by omega
    simp [h8, hback, BitVec.getLsbD_eq_getElem hi]

theorem toWord_ofWord (k : UInt32) : Octets.toWord (Octets.ofWord k) = k := by
  have hnil : (Octets.toWord []).toBitVec = 0#32 := rfl
  have hshift8 : (k >>> 8).toBitVec = k.toBitVec >>> 8 := by simp
  have hshift16 : (k >>> 16).toBitVec = k.toBitVec >>> 16 := by simp
  have hshift24 : (k >>> 24).toBitVec = k.toBitVec >>> 24 := by simp
  have hlast : k.toBitVec >>> 32 = 0#32 := BitVec.ushiftRight_eq_zero (by decide)
  -- the bytes from a place on make up the word shifted to that place
  have hnext (n : Nat) : k.toBitVec >>> (n + 8) <<< 8 ||| ((k.toBitVec >>> n).setWidth 8).setWidth 32 =
      k.toBitVec >>> n := by
    rw [BitVec.shiftRight_add]
    exact shift_or_lowest _
  rw [← UInt32.toBitVec_inj, Octets.ofWord, toBitVec_toWord_cons, toBitVec_toWord_cons,
    toBitVec_toWord_cons, toBitVec_toWord_cons, hnil, ← hlast]
  simp only [UInt32.toBitVec_toUInt8, hshift8, hshift16, hshift24]
  rw [hnext 24, hnext 16, hnext 8, shift_or_lowest]

theorem littleEndian_four (k : UInt32) : littleEndian 4 k.toNat = Octets.ofWord k := by
  simp [littleEndian, List.range_succ, Octets.ofWord, ← UInt8.toNat_inj, Nat.shiftRight_eq_div_pow]

theorem littleEndian_eight (k : UInt64) :
    littleEndian 8 k.toNat = Octets.ofWord k.toUInt32 ++ Octets.ofWord (k >>> 32).toUInt32 := by
  simp [littleEndian, List.range_succ, Octets.ofWord, ← UInt8.toNat_inj, Nat.shiftRight_eq_div_pow]
  omega

theorem write32_eq_writeBytes (s : Hasher) (k : UInt32) :
    s.write32 k = s.writeBytes (Octets.ofWord k) := by
  have hstate : mixBytes s.state (Octets.ofWord k) =
      mix s.state (Octets.toWord (Octets.ofWord k)) := rfl
  rw [writeBytes, hstate, toWord_ofWord]
  rfl

/-- **Every write is a write of its bytes.** -/
theorem write_eq_writeBytes (s : Hasher) (w : Write) : s.write w = s.writeBytes w.data := by
  cases w with
  | word32 k => rw [write, Write.data, littleEndian_four, write32_eq_writeBytes]
  | word64 k =>
    have hlow : 4 ∣ (Octets.ofWord k.toUInt32).length := Nat.dvd_refl 4
    rw [write, Write.data, littleEndian_eight, write64, write32_eq_writeBytes,
      write32_eq_writeBytes, writeBytes_append s hlow]
  | bytes bs => rfl

/-- A sequence of writes is one write of all its bytes, if no write but the last leaves a tail. -/
theorem foldl_write (ws : List Write) (s : Hasher) (hws : ∀ w ∈ ws.dropLast, 4 ∣ w.data.length) :
    ws.foldl write s = s.writeBytes (ws.flatMap Write.data) := by
  induction ws generalizing s with
  | nil => exact (writeBytes_nil s).symm
  | cons w ws ih =>
    cases ws with
    | nil => simp [write_eq_writeBytes]
    | cons v vs =>
      rw [List.dropLast_cons_cons] at hws
      have hw : 4 ∣ w.data.length := hws w List.mem_cons_self
      rw [List.foldl_cons, ih _ fun u hu => hws u (List.mem_cons_of_mem w hu), write_eq_writeBytes,
        ← writeBytes_append s hw]
      rfl

/-- **The incremental mixer is MurmurHash3.** For every seed and every sequence of writes, of which only
the last may leave bytes past a whole block, the result is the hash of all the bytes written. -/
theorem finish_eq_murmur3 (seed : UInt32) (ws : List Write)
    (hws : ∀ bs, Write.bytes bs ∈ ws.dropLast → 4 ∣ bs.length) :
    (ws.foldl write (start seed)).finish = Murmur3.hash seed (ws.flatMap Write.data) := by
  have hwhole : ∀ w ∈ ws.dropLast, 4 ∣ w.data.length := by
    intro w hw
    cases w with
    | word32 k => simp [Write.data, littleEndian]
    | word64 k => simp [Write.data, littleEndian]
    | bytes bs => exact hws bs hw
  rw [foldl_write ws _ hwhole, ← UInt32.toBitVec_inj, finish, toBitVec_avalanche, writeBytes,
    UInt32.toBitVec_xor, mixBytes_eq]
  simp only [start, UInt32.zero_add]
  rfl

/-- Nineteen bytes in four writes, of which the last leaves three. -/
def inFourWrites : List Write :=
  [.bytes [0x54, 0x68, 0x65, 0x20], .word32 0x63697571, .word64 0x206e776f7262206b,
    .bytes [0x66, 0x6f, 0x78]]

theorem finish_eq_murmur3_inFourWrites :
    (∀ bs, Write.bytes bs ∈ inFourWrites.dropLast → 4 ∣ bs.length) ∧
      (inFourWrites.foldl write (start 0x9747b28c)).finish =
        Murmur3.hash 0x9747b28c (inFourWrites.flatMap Write.data) := by
  have hwhole : ∀ bs, Write.bytes bs ∈ inFourWrites.dropLast → 4 ∣ bs.length := by
    intro bs hbs
    simp only [inFourWrites, List.dropLast_cons_cons, List.dropLast_singleton, List.mem_cons,
      Write.bytes.injEq, reduceCtorEq, List.not_mem_nil, or_false] at hbs
    subst hbs
    decide
  exact ⟨hwhole, finish_eq_murmur3 _ _ hwhole⟩

-- the published value for "Hello, world!"
example : Murmur3.hash 0x9747b28c
    [72, 101, 108, 108, 111, 44, 32, 119, 111, 114, 108, 100, 33] = 0x24884cba := by
  decide

end Hasher

end ValueHeap
