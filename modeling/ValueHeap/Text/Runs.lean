/-!
# Runs of code points

A property of code points that holds in long runs is kept as the sorted list of the code points at which
it changes: it holds where an odd number of changes lie at or below.
-/

namespace ValueHeap.Text

/-- Does the property with these changes hold of `code`? -/
def inRuns (changes : List Nat) (code : Nat) : Bool := changes.countP (· ≤ code) % 2 == 1

end ValueHeap.Text
