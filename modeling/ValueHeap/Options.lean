import ValueHeap.Binary.Arith
import ValueHeap.Decimal.Reader
import ValueHeap.Text.Blank

/-!
# Options

The settings that a process takes from its environment: the seed and the depth of the hash, and whether
heap traffic is traced. A variable that is unset, or that cannot be read, leaves the default.

A size is a hexadecimal number after `0x`, or a decimal number with an optional suffix for binary
thousands, millions and billions. The decimal is read as a 64-bit float and cut to a whole number before
the suffix scales it, on 64 bits, which wrap around.
-/

namespace ValueHeap

structure Options where
  /-- The seed of the hash; none if it is to be drawn at random. -/
  hashSeed : Option UInt32
  /-- The levels to which the hash unrolls a value. -/
  hashDepth : Nat
  traceHeap : Bool
  deriving Repr, DecidableEq

namespace Options

open Binary (double)

/-- The largest depth that can be asked for. -/
def maxHashDepth : Nat := 1024

/-- What holds when no variable is set. -/
def default : Options := ⟨none, 31, false⟩

/-- The value of a hexadecimal digit. -/
def hexDigit? (c : Char) : Option Nat :=
  if '0' ≤ c ∧ c ≤ '9' then some (c.toNat - '0'.toNat)
  else if 'a' ≤ c ∧ c ≤ 'f' then some (c.toNat - 'a'.toNat + 10)
  else if 'A' ≤ c ∧ c ≤ 'F' then some (c.toNat - 'A'.toNat + 10)
  else none

/-- The 64-bit number with these hexadecimal digits, of which there is at least one. A plus sign may
stand in front. -/
def readHex? (cs : List Char) : Option Nat :=
  let ds := match cs with
    | '+' :: ds => ds
    | ds => ds
  match ds.mapM hexDigit? with
  | none | some [] => none
  | some vs =>
    let n := vs.foldl (fun n v => 16 * n + v) 0
    if n < UInt64.size then some n else none

/-- The factor of a suffix. -/
def suffixFactor? (c : Char) : Option Nat :=
  if c = 'k' ∨ c = 'K' then some 0x400
  else if c = 'm' ∨ c = 'M' then some 0x100000
  else if c = 'g' ∨ c = 'G' then some 0x40000000
  else none

/-- A number without its suffix, and the factor of the suffix. -/
def splitSuffix (cs : List Char) : List Char × Nat :=
  match cs.getLast?.bind suffixFactor? with
  | some factor => (cs.dropLast, factor)
  | none => (cs, 1)

/-- The whole part of a float that is neither negative nor infinite, at most the largest 64-bit
number. -/
def wholePart? (p : Nat) : Option Nat :=
  if !double.isFinite p || (double.isNegative p && !double.isZero p) then none
  else some (min (double.truncate p).toNat (UInt64.size - 1))

/-- A decimal number with an optional suffix. -/
def readScaled? (cs : List Char) : Option Nat := do
  let (digits, factor) := splitSuffix cs
  let literal ← Literal.read? digits
  let n ← wholePart? (literal.toBinary double)
  return n * factor % UInt64.size

/-- The size that a variable's value stands for. -/
def readSize? (s : String) : Option Nat :=
  match Text.strip s.toList with
  | '0' :: 'x' :: ds | '0' :: 'X' :: ds => readHex? ds
  | cs => readScaled? cs

/-- The truth value that a variable's value stands for. -/
def readFlag? (s : String) : Option Bool :=
  let word := String.ofList ((Text.strip s.toList).map Char.toLower)
  if word ∈ ["1", "true", "yes", "on"] then some true
  else if word ∈ ["0", "false", "no", "off", ""] then some false
  else none

/-- A seed has 32 bits; a larger one does not count. -/
def checkSeed (n : Nat) : Option UInt32 := if n < UInt32.size then some (.ofNat n) else none

/-- The options with the given values of the variables for seed, depth and tracing. -/
def ofVariables (seed depth trace : Option String) : Options where
  hashSeed := (seed.bind readSize?).bind checkSeed
  hashDepth := ((depth.bind readSize?).map (min · maxHashDepth)).getD default.hashDepth
  traceHeap := (trace.bind readFlag?).getD default.traceHeap

/-- The options in an environment. -/
def ofEnvironment (lookup : String → Option String) : Options :=
  ofVariables (lookup "CORVID_HASH_SEED") (lookup "CORVID_HASH_DEPTH")
    (lookup "CORVID_TRACE_HEAP")

end Options

end ValueHeap
