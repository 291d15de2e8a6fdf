import ValueHeap.Session.Command

/-!
# Sessions

A session is a heap with named values. `Session.exec` carries out one command: it builds the operands,
does the work and releases the operands, whether the work fails or not. A value in the answer is then
either kept in a register or discarded. `Session.run` carries out one request after the other.
-/

namespace ValueHeap

structure Session where
  heap : Heap
  registers : Registers
  settings : Settings

namespace Session

/-- No values and no registers. -/
def start (settings : Settings) : Session := ⟨Heap.empty settings.address, [], settings⟩

/-- Builds one operand for an action. -/
def withOperand {α : Type} (r : Registers) (x : Expr) (f : Word → Action α) : Action α := do
  let w ← x.eval r
  Action.thenRelease w (f w)

/-- Builds two operands for an action, the left one first. -/
def withOperands {α : Type} (r : Registers) (x y : Expr) (f : Word → Word → Action α) : Action α :=
  withOperand r x fun a => withOperand r y fun b => f a b

/-- The action of a command. Dropping a register is not an action on the heap alone; it is done by
`exec`. -/
def action (s : Settings) (r : Registers) : Command → Action Reply
  | .build e => Reply.value <$> e.eval r
  | .ask q x => withOperand r x fun w => Action.read fun h => q.answer s h w
  | .askPair q x y => withOperands r x y fun a b => Action.read fun h => q.answer s h a b
  | .make op x => withOperand r x fun w => Reply.value <$> op.run s w
  | .makePair op x y => withOperands r x y fun a b => Reply.value <$> op.run a b
  | .change op x => withOperand r x fun w => do
    op.run w
    return .done
  | .changePair op x y => withOperands r x y fun a b => do
    op.run a b
    return .done
  | .owners (.register name) => Action.read fun h => .ok (.size (h.count (r.get name)))
  | .owners x => withOperand r x fun w => Action.read fun h => .ok (.size (h.count w))
  | .drop name => do
    Action.update (·.release (r.get name))
    return .done
  | .totals => Action.read fun h => .ok (.totals h.liveBlocks h.liveBytes h.allocations)
  | .blank kind extent => Reply.value <$> Action.newBlank kind extent
  | .write op x => do
    let w ← x.eval r
    Action.patchBlock w op.patch
    return .value w

/-- The registers after a command. -/
def registersAfter (r : Registers) : Command → Registers
  | .drop name => r.filter fun entry => entry.1 != name
  | _ => r

/-- Carries out a command. -/
def exec (c : Command) (s : Session) : Except Error Reply × Session :=
  let (reply, heap) := action s.settings s.registers c s.heap
  (reply, { s with heap, registers := registersAfter s.registers c })

/-- Stores a value in a register and releases what was there. Takes the value over. -/
def keep (name : String) (w : Word) (s : Session) : Session :=
  { s with
    heap := s.heap.release (s.registers.get name)
    registers := (name, w) :: s.registers.filter fun entry => entry.1 != name }

/-- Releases a value. -/
def discard (w : Word) (s : Session) : Session := { s with heap := s.heap.release w }

/-- Gives the value in an answer to its register, or releases it. -/
def settle (target : Option String) (reply : Except Error Reply) (s : Session) : Session :=
  match reply, target with
  | .ok (.value w), some name => s.keep name w
  | .ok (.value w), none => s.discard w
  | _, _ => s

/-- One request: a command, and the register for the value that it answers with. -/
structure Request where
  command : Command
  target : Option String

/-- Carries out a request and settles its answer. -/
def serve (s : Session) (q : Request) : Session :=
  let (reply, s) := s.exec q.command
  s.settle q.target reply

/-- The session after a list of requests. -/
def run (s : Session) (requests : List Request) : Session := requests.foldl serve s

end Session

end ValueHeap
