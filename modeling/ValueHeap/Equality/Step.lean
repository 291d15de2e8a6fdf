import Std.Data.HashSet
import ValueHeap.Number.Boxed

/-!
# Structural equality, step by step

Two values are compared by a loop over a list of tasks, so that neither deep nesting nor cycles need
recursion. Comparing two composites schedules the comparison of their fields, first to last, and marks
both blocks as being on the path; when the fields are done, a `leave` task takes the marks away that
this comparison put there. A composite that is reached again on the left while it is marked counts as
equal to its partner.

* `Heap.shallow` compares two words without a look at their fields;
* `Comparison.step` performs one task.
-/

namespace ValueHeap

/-- What the surface of two words says about their equality. -/
inductive Shallow where
  | agree
  | differ
  /-- Composites of one shape and size: it depends on the fields, paired in order. -/
  | descend (left right : BlockId) (pairs : List (Word × Word))
  deriving Repr, DecidableEq

/-- Agreement or difference. -/
def Shallow.ofBool (b : Bool) : Shallow := if b then agree else differ

/-- Can two composites of this shape be equal without being the same block? Code has no structure. -/
def Shape.isStructural : Shape → Bool
  | closure .. => false
  | _ => true

/-- Compares two blocks. Boxed numbers and closures equal nothing but themselves here. -/
def Block.shallow (a b : BlockId) : Block → Block → Shallow
  | .text u, .text v => .ofBool (u == v)
  | .bytes u, .bytes v => .ofBool (u == v)
  | .char u, .char v => .ofBool (Utf8.mask u == Utf8.mask v)
  | .composite s us, .composite t vs =>
    if s = t ∧ s.isStructural ∧ us.length = vs.length then .descend a b (us.zip vs) else .differ
  | _, _ => .differ

/-- Compares two words up to their fields. -/
def Heap.shallow (h : Heap) (x y : Word) : Shallow :=
  if x = y then .agree
  else if h.isNumber x && h.isNumber y then .ofBool (h.numbersSame x y)
  else
    match x, y with
    | .reference a, .reference b =>
      match h.cell? a, h.cell? b with
      | some c, some d => Block.shallow a b c.block d.block
      | _, _ => .differ
    | _, _ => .differ

/-- Something left to do in a comparison. -/
inductive Task where
  | compare (x y : Word)
  /-- Takes away the marks that one pair of composites has put. -/
  | leave (left : BlockId) (right : Option BlockId)
  deriving Repr, DecidableEq

/-- The state of a comparison: what is left to do, and the marked blocks. -/
structure Comparison where
  tasks : List Task
  path : Std.HashSet BlockId

/-- What one task leads to. -/
inductive Progress where
  | done (answer : Bool)
  | more (next : Comparison)

namespace Comparison

/-- The comparison of two values, with nothing done yet. -/
def start (x y : Word) : Comparison := ⟨[.compare x y], ∅⟩

/-- The path without the marks of one pair. -/
def unmark (path : Std.HashSet BlockId) (left : BlockId) (right : Option BlockId) :
    Std.HashSet BlockId :=
  match right with
  | some b => (path.erase left).erase b
  | none => path.erase left

/-- Enters a pair of composites: marks both blocks and schedules their fields. -/
def enter (left right : BlockId) (pairs : List (Word × Word)) (rest : List Task)
    (path : Std.HashSet BlockId) : Comparison :=
  let fields := pairs.map fun p => Task.compare p.1 p.2
  let marked := path.insert left
  if right ∈ marked then ⟨fields ++ .leave left none :: rest, marked⟩
  else ⟨fields ++ .leave left (some right) :: rest, marked.insert right⟩

/-- Performs the next task. -/
def step (h : Heap) (c : Comparison) : Progress :=
  match c.tasks with
  | [] => .done true
  | .leave a b :: rest => .more ⟨rest, unmark c.path a b⟩
  | .compare x y :: rest =>
    match h.shallow x y with
    | .agree => .more ⟨rest, c.path⟩
    | .differ => .done false
    | .descend a b pairs =>
      if a ∈ c.path then .more ⟨rest, c.path⟩ else .more (enter a b pairs rest c.path)

end Comparison

end ValueHeap
