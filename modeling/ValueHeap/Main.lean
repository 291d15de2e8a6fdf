import ValueHeap.CommandLine
import ValueHeap.Print.Layout

/-!
# The program
-/

open ValueHeap

/-- The environment variables that a run depends on. -/
def environmentNames : List String :=
  ["CORVID_HASH_SEED", "CORVID_HASH_DEPTH", "CORVID_TRACE_HEAP", "TERM", "NO_COLOR"]

def main (args : List String) : IO UInt32 := do
  let values ← environmentNames.mapM fun name => do return (name, ← IO.getEnv name)
  let seed ← IO.rand 0 (UInt32.size - 1)
  let outcome := CommandLine.run .standard Heap.sequential args (fun name => (values.lookup name).join)
    (.ofNat seed)
  IO.print outcome.out
  IO.eprint outcome.err
  return .ofNat outcome.status
