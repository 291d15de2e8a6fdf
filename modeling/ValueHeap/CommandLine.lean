import ValueHeap.Hash.Walk
import ValueHeap.Heap.Integer
import ValueHeap.Options
import ValueHeap.Print.Value

/-!
# The command line

Reads one text as an integer and shows the resulting value and its hash. The arguments may hold a radix;
the first argument that is left is the text.
-/

namespace ValueHeap.CommandLine

/-- What a run of the program leaves behind. -/
structure Outcome where
  status : Nat
  out : String
  err : String
  deriving Repr, DecidableEq

/-- Why the text of an integer option is not a signed 64-bit integer. -/
inductive Cause where
  | empty | invalidDigit | tooLarge | tooSmall
  deriving Repr, DecidableEq

def Cause.message : Cause → String
  | empty => "cannot parse integer from empty string"
  | invalidDigit => "invalid digit found in string"
  | tooLarge => "number too large to fit in target type"
  | tooSmall => "number too small to fit in target type"

/-- Why the arguments cannot be used. -/
inductive Fault where
  | missingRadix
  | badRadix (text : String) (cause : Cause)
  | missingText
  deriving Repr, DecidableEq

def Fault.message : Fault → String
  | missingRadix => "the '--radix' option doesn't have an associated value"
  | badRadix text cause => "failed to parse '" ++ text ++ "': " ++ cause.message
  | missingText => "free-standing argument is missing"

def usage : String :=
  "Usage: corvid [options] <text>\n" ++
  "Parses <text> as an integer and prints the result value and its hash.\n" ++
  "Options:\n" ++
  "  -h, --help: Print this help message\n" ++
  "  --radix <n>: Radix to parse in, 2 to 36 (default: 10)\n" ++
  "Environment:\n" ++
  "  CORVID_HASH_SEED, CORVID_HASH_DEPTH, CORVID_TRACE_HEAP\n"

/-- Reads decimal digits onto `value`, upwards or downwards. The first bad digit, or the first that
leaves the range, is what is reported. -/
def readDigits (negative : Bool) : Int → List Char → Except Cause Int
  | value, [] => .ok value
  | value, c :: cs =>
    if c.isDigit then
      let d : Int := c.toNat - '0'.toNat
      let next := if negative then value * 10 - d else value * 10 + d
      if Number.fitsInt64 next then readDigits negative next cs
      else .error (if negative then .tooSmall else .tooLarge)
    else .error .invalidDigit

/-- The signed 64-bit integer that a text stands for. -/
def readInt (s : String) : Except Cause Int :=
  match s.toList with
  | [] => .error .empty
  | ['+'] | ['-'] => .error .invalidDigit
  | '-' :: cs => readDigits true 0 cs
  | '+' :: cs => readDigits false 0 cs
  | cs => readDigits false 0 cs

/-- The value of the first radix option, and the other arguments. -/
def takeRadix : List String → Except Fault (Option String × List String)
  | [] => .ok (none, [])
  | arg :: rest =>
    if arg = "--radix" then
      match rest with
      | [] => .error .missingRadix
      | value :: rest => .ok (some value, rest)
    else do
      let (value, others) ← takeRadix rest
      return (value, arg :: others)

/-- The radix and the text that the arguments ask for. -/
def readArguments (args : List String) : Except Fault (Int × String) := do
  let (value, others) ← takeRadix args
  let radix ← match value with
    | none => pure 10
    | some s =>
      match readInt s with
      | .ok n => pure n
      | .error cause => throw (.badRadix s cause)
  match others with
  | [] => throw .missingText
  | text :: _ => return (radix, text)

/-- The value of a text in a radix, and its hash. -/
def report (renderer : Renderer) (address : BlockId → Pattern) (seed : UInt32) (depth : Nat)
    (colour : Bool) (radix : Int) (text : String) : String :=
  let action : Action Word := do
    let t ← Action.newText text
    let r ← Action.newInteger (.ofInt radix)
    Action.parseInteger t r
  match action.run.run (Heap.empty address) with
  | (.ok w, h) =>
    h.pretty renderer colour w ++ "\nhash: " ++ toString (h.hash seed depth w).toNat ++ "\n"
  | (.error e, _) => e.message ++ "\n"

/-- Is the output coloured? It is on a terminal that is not a dumb one, unless colour is declined. -/
def wantsColour (lookup : String → Option String) : Bool :=
  match lookup "TERM" with
  | none => false
  | some term => term != "dumb" && (lookup "NO_COLOR").isNone

/-- Runs the program. `entropy` is the seed of the hash if the environment gives none. -/
def run (renderer : Renderer) (address : BlockId → Pattern) (args : List String)
    (lookup : String → Option String) (entropy : UInt32) : Outcome :=
  if "-h" ∈ args ∨ "--help" ∈ args then ⟨0, usage, ""⟩
  else
    match readArguments args with
    | .error fault => ⟨2, "", "corvid: " ++ fault.message ++ "\n"⟩
    | .ok (radix, text) =>
      let options := Options.ofEnvironment lookup
      ⟨0, report renderer address (options.hashSeed.getD entropy) options.hashDepth (wantsColour lookup)
        radix text, ""⟩

end ValueHeap.CommandLine
