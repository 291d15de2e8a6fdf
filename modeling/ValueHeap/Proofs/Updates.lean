import ValueHeap.Proofs.Steps
import ValueHeap.Session.Run

/-!
# What operations do to a heap

Every operation changes the heap by steps. Almost every one is all or nothing: it looks at its operands
first and touches the heap only when nothing can fail any more. The exceptions are writes to fields, which
have taken the new value over when they fail, and the joining of buffers, which has made a buffer by then.

Results:
* `Maker.allOrNothing_run`, `PairMaker.allOrNothing_run`, `Change.allOrNothing_run`: the operations that are
  all or nothing.
* `Session.follows_action`: every command works by steps, and a command that is not raw without raw ones.
* `Session.steps_run`: so does every list of requests.
-/

namespace ValueHeap

namespace Action

variable {raw : Bool}

/-! ## New values -/

theorem sure_allocate (block : Block) : Sure raw (allocate block) :=
  fun h => ⟨_, _, rfl, .single (.allocate h block)⟩

theorem sure_newBoxed (x : Number) : Sure raw (newBoxed x) := sure_allocate _

theorem sure_newInteger (n : Int64) : Sure raw (newInteger n) := by
  unfold newInteger
  split
  · exact sure_pure _
  · exact sure_newBoxed _

theorem sure_newTextBytes (bs : List UInt8) : Sure raw (newTextBytes bs) := sure_allocate _

theorem sure_newText (s : String) : Sure raw (newText s) := sure_newTextBytes _

theorem sure_newBuffer (data : List UInt8) : Sure raw (newBuffer data) := sure_allocate _

theorem sure_newComposite (shape : Shape) (fields : List Word) :
    Sure raw (newComposite shape fields) :=
  sure_allocate _

theorem sure_newFilled (n : Nat) (w : Word) : Sure raw (newFilled n w) := by
  have hacquire : Sure raw (update (·.acquireTimes n w)) := fun h =>
    ⟨(), _, rfl, Heap.steps_acquireTimes h n w⟩
  exact hacquire.bind fun _ => sure_newComposite _ _

theorem allOrNothing_newRational (num den : Int64) : AllOrNothing raw (newRational num den) :=
  AllOrNothing.result_bind fun r => by
    cases r with
    | whole n => exact (sure_newInteger n).allOrNothing
    | proper n d => exact (sure_newBoxed _).allOrNothing

theorem allOrNothing_newCharOfCode (code : Int64) : AllOrNothing raw (newCharOfCode code) := by
  unfold newCharOfCode
  split
  · exact (sure_allocate _).allOrNothing
  · exact allOrNothing_throw _

/-! ## Operations on values -/

theorem allOrNothing_charText (w : Word) : AllOrNothing raw (charText w) :=
  AllOrNothing.read_bind fun _ => (sure_newText _).allOrNothing

theorem allOrNothing_charSucc (w : Word) : AllOrNothing raw (charSucc w) :=
  AllOrNothing.read_bind fun code => by
    split
    · exact allOrNothing_throw _
    · split
      · exact allOrNothing_newCharOfCode _
      · exact allOrNothing_newCharOfCode _

theorem allOrNothing_charPred (w : Word) : AllOrNothing raw (charPred w) :=
  AllOrNothing.read_bind fun code => by
    split
    · exact allOrNothing_throw _
    · split
      · exact allOrNothing_newCharOfCode _
      · exact allOrNothing_newCharOfCode _

theorem allOrNothing_textConcat (x y : Word) : AllOrNothing raw (textConcat x y) :=
  AllOrNothing.read_bind fun _ => AllOrNothing.read_bind fun _ => (sure_newTextBytes _).allOrNothing

theorem allOrNothing_intBinary (t : IntType) (op : IntBinary) (x y : Word) :
    AllOrNothing raw (intBinary t op x y) :=
  AllOrNothing.read_bind fun _ => AllOrNothing.read_bind fun _ =>
    AllOrNothing.result_bind fun _ => (sure_newBoxed _).allOrNothing

theorem allOrNothing_intUnary (t : IntType) (op : IntUnary) (x : Word) :
    AllOrNothing raw (intUnary t op x) :=
  AllOrNothing.read_bind fun _ => (sure_newBoxed _).allOrNothing

theorem allOrNothing_intTest (t : IntType) (r : Relation) (signed : Bool) (x y : Word) :
    AllOrNothing raw (intTest t r signed x y) :=
  AllOrNothing.read_bind fun _ => AllOrNothing.read_bind fun _ => (sure_pure _).allOrNothing

theorem allOrNothing_floatBinary (t : FloatType) (op : FloatBinary) (x y : Word) :
    AllOrNothing raw (floatBinary t op x y) :=
  AllOrNothing.read_bind fun _ => AllOrNothing.read_bind fun _ => (sure_newBoxed _).allOrNothing

theorem allOrNothing_floatUnary (t : FloatType) (op : FloatUnary) (x : Word) :
    AllOrNothing raw (floatUnary t op x) :=
  AllOrNothing.read_bind fun _ => (sure_newBoxed _).allOrNothing

theorem allOrNothing_floatTest (t : FloatType) (r : Relation) (x y : Word) :
    AllOrNothing raw (floatTest t r x y) :=
  AllOrNothing.read_bind fun _ => AllOrNothing.read_bind fun _ => (sure_pure _).allOrNothing

theorem allOrNothing_newHash (seed : UInt32) (levels : Nat) (w : Word) :
    AllOrNothing raw (newHash seed levels w) :=
  AllOrNothing.read_bind fun _ => (sure_newInteger _).allOrNothing

theorem allOrNothing_parseInteger (text radix : Word) : AllOrNothing raw (parseInteger text radix) :=
  AllOrNothing.read_bind fun r => by
    cases r with
    | ok n => exact ((sure_newInteger n).bind fun _ => sure_newComposite _ _).allOrNothing
    | error e => exact ((sure_newText _).bind fun _ => sure_newComposite _ _).allOrNothing

/-! ## Fields -/

theorem allOrNothing_getField (kind : Kind) (w : Word) (index : UInt64) :
    AllOrNothing raw (getField kind w index) :=
  AllOrNothing.read_bind fun place => by
    obtain ⟨_, _, fields⟩ := place
    cases hx : fields[index.toNat]? with
    | none =>
      simp only [hx]
      exact allOrNothing_throw _
    | some x =>
      simp only [hx]
      have hacquire : Sure raw (update (·.acquire x)) := fun h => ⟨(), _, rfl, Heap.steps_acquire h x⟩
      exact (hacquire.bind fun _ => sure_pure x).allOrNothing

/-- A field is written and the old value released; if that fails, the new value is released. -/
theorem follows_setField (kind : Kind) (w : Word) (index : UInt64) (x : Word) :
    Follows raw (setField kind w index x) := by
  intro h
  unfold setField
  simp only
  split
  · exact (Heap.steps_setField h _ _ x).trans (Heap.steps_release _ _)
  · exact Heap.steps_release h x

/-! ## Buffers -/

theorem allOrNothing_bufferOfText (w : Word) : AllOrNothing raw (bufferOfText w) :=
  AllOrNothing.read_bind fun _ => (sure_newBuffer _).allOrNothing

theorem allOrNothing_textOfBuffer (w : Word) : AllOrNothing raw (textOfBuffer w) :=
  AllOrNothing.read_bind fun _ => (sure_newTextBytes _).allOrNothing

theorem allOrNothing_bufferCopy (w : Word) : AllOrNothing raw (bufferCopy w) :=
  AllOrNothing.read_bind fun _ => (sure_newBuffer _).allOrNothing

theorem allOrNothing_bufferSlice (w : Word) (start len : Int) :
    AllOrNothing raw (bufferSlice w start len) :=
  AllOrNothing.read_bind fun _ => AllOrNothing.result_bind fun _ => (sure_newBuffer _).allOrNothing

theorem allOrNothing_bufferResize (w : Word) (left right : Int) :
    AllOrNothing raw (bufferResize w left right) :=
  AllOrNothing.read_bind fun _ => AllOrNothing.result_bind fun _ => (sure_newBuffer _).allOrNothing

theorem allOrNothing_bufferFill (w : Word) (n : Int) : AllOrNothing raw (bufferFill w n) :=
  fun _ => Effect.read_bind fun _ hdata => Heap.steps_setBuffer hdata List.length_replicate

theorem allOrNothing_bufferSet (width : Nat) (w : Word) (index : Int) (n : Nat) :
    AllOrNothing raw (bufferSet width w index n) := by
  refine fun h => Effect.read_bind fun data hdata => Effect.result_bind fun i hi => ?_
  refine Heap.steps_setBuffer hdata (Bytes.length_overwrite ?_)
  rw [Bytes.length_ofNat]
  exact (Bytes.checkIndex_eq_ok hi).2

/-- Both ranges are checked before anything is moved. -/
theorem allOrNothing_bufferMove (srcIndex dstIndex len : Int) (src dst : Word) :
    AllOrNothing raw (bufferMove srcIndex dstIndex len src dst) := by
  refine fun h => Effect.read_bind fun source _ => Effect.read_bind fun target htarget =>
    Effect.result_bind fun taken htaken => Effect.result_bind fun place hplace => ?_
  obtain ⟨s, l⟩ := taken
  obtain ⟨t, l'⟩ := place
  obtain ⟨-, hl, hsource⟩ := Bytes.checkRange_eq_ok htaken
  obtain ⟨-, hl', hfits⟩ := Bytes.checkRange_eq_ok hplace
  refine Heap.steps_setBuffer htarget (Bytes.length_overwrite ?_)
  rw [Bytes.length_slice hsource]
  omega

theorem follows_bufferConcat (x y : Word) : Follows raw (bufferConcat x y) := by
  refine (follows_read _).bind fun tail => (allOrNothing_bufferResize x 0 tail).follows.bind fun joined => ?_
  have hmove : AllOrNothing raw (do
      let front ← Action.read (·.bufferLength x)
      bufferMove 0 front tail y joined) :=
    AllOrNothing.read_bind fun _ => allOrNothing_bufferMove _ _ _ _ _
  exact (hmove.follows.orRelease joined).bind fun _ => (sure_pure joined).follows

/-! ## Raw blocks -/

theorem sure_newBlank (hraw : raw = true) (kind : Kind) (extent : Nat) :
    Sure raw (newBlank kind extent) :=
  fun h => ⟨_, _, rfl, .single (.blank h extent _ hraw)⟩

theorem sure_patchBlock (hraw : raw = true) (w : Word) (f : Block → Block) :
    Sure raw (patchBlock w f) := by
  intro h
  cases w with
  | immediate p => exact ⟨(), h, rfl, .refl⟩
  | reference b => exact ⟨(), _, rfl, .single (.patch h b f hraw)⟩

end Action

open ValueHeap.Action

variable {raw : Bool}

/-! ## Expressions -/

namespace Action

theorem sure_nest (shape : Shape) (n : Nat) (w : Word) : Sure raw (nest shape n w) := by
  induction n generalizing w with
  | zero => exact sure_pure w
  | succ n ih => exact (sure_newComposite _ _).bind ih

theorem sure_chain (first n : Nat) (w : Word) : Sure raw (chain first n w) := by
  induction n generalizing first w with
  | zero => exact sure_pure w
  | succ n ih =>
    exact (sure_newInteger _).bind fun _ => (sure_newComposite _ _).bind (ih (first + 1))

theorem follows_newRawText (data : List UInt8) : Follows raw (newRawText data) :=
  (sure_newBuffer data).follows.bind fun b => (allOrNothing_textOfBuffer b).follows.thenRelease b

end Action

namespace Expr

mutual

/-- An expression is built by steps. -/
theorem follows_eval (r : Registers) : ∀ e : Expr, Follows raw (e.eval r)
  | immediate p => by rw [eval]; exact (sure_pure _).follows
  | register name => by
    rw [eval]
    have hacquire : Follows raw (update (·.acquire (r.get name))) := fun h => Heap.steps_acquire h _
    exact hacquire.bind fun _ => (sure_pure _).follows
  | integer n => by rw [eval]; exact (sure_newInteger n).follows
  | boxed x => by rw [eval]; exact (sure_newBoxed x).follows
  | rational num den => by rw [eval]; exact (allOrNothing_newRational num den).follows
  | text s => by rw [eval]; exact (sure_newText s).follows
  | rawText data => by rw [eval]; exact follows_newRawText data
  | buffer data => by rw [eval]; exact (sure_newBuffer data).follows
  | char code => by rw [eval]; exact (allOrNothing_newCharOfCode code).follows
  | composite shape fields => by
    rw [eval]
    exact (follows_evalAll r fields).bind fun _ => (sure_newComposite _ _).follows
  | nest shape n inner => by
    rw [eval]
    exact (follows_eval r inner).bind fun w => (sure_nest shape n w).follows
  | chain n inner => by
    rw [eval]
    exact (follows_eval r inner).bind fun w => (sure_chain 0 n w).follows

theorem follows_evalAll (r : Registers) : ∀ es : List Expr, Follows raw (evalAll r es)
  | [] => by rw [evalAll]; exact (sure_pure _).follows
  | e :: es => by
    rw [evalAll]
    exact (follows_eval r e).bind fun w =>
      ((follows_evalAll r es).orRelease w).bind fun ws => (sure_pure _).follows

end

end Expr

/-! ## Commands -/

theorem Maker.allOrNothing_run (settings : Settings) (w : Word) (op : Maker) :
    AllOrNothing raw (op.run settings w) := by
  cases op with
  | int t op => exact allOrNothing_intUnary t op w
  | float t op => exact allOrNothing_floatUnary t op w
  | charText => exact allOrNothing_charText w
  | charSucc => exact allOrNothing_charSucc w
  | charPred => exact allOrNothing_charPred w
  | bufferOfText => exact allOrNothing_bufferOfText w
  | textOfBuffer => exact allOrNothing_textOfBuffer w
  | bufferCopy => exact allOrNothing_bufferCopy w
  | bufferSlice start len => exact allOrNothing_bufferSlice w start len
  | bufferResize left right => exact allOrNothing_bufferResize w left right
  | filled n => exact (sure_newFilled n w).allOrNothing
  | field kind index => exact allOrNothing_getField kind w index
  | hash => exact allOrNothing_newHash _ _ w

/-- Of the operations on two values only the joining of buffers has something to undo. -/
theorem PairMaker.allOrNothing_run (x y : Word) (op : PairMaker) (hop : op ≠ .bufferConcat) :
    AllOrNothing raw (op.run x y) := by
  cases op with
  | int t op => exact allOrNothing_intBinary t op x y
  | intTest t r signed => exact allOrNothing_intTest t r signed x y
  | float t op => exact allOrNothing_floatBinary t op x y
  | floatTest t r => exact allOrNothing_floatTest t r x y
  | parseInteger => exact allOrNothing_parseInteger x y
  | textConcat => exact allOrNothing_textConcat x y
  | bufferConcat => exact absurd rfl hop

theorem PairMaker.follows_run (x y : Word) (op : PairMaker) : Follows raw (op.run x y) := by
  by_cases hop : op = .bufferConcat
  · rw [hop]
    exact follows_bufferConcat x y
  · exact (op.allOrNothing_run x y hop).follows

theorem Change.allOrNothing_run (w : Word) (op : Change) : AllOrNothing raw (op.run w) := by
  cases op with
  | bufferFill n => exact allOrNothing_bufferFill w n
  | bufferInt width index value => exact allOrNothing_bufferSet width w index _
  | bufferFloat t index pattern => exact allOrNothing_bufferSet t.width w index pattern

theorem PairChange.follows_run (x y : Word) (op : PairChange) : Follows raw (op.run x y) := by
  cases op with
  | bufferMove srcIndex dstIndex len => exact (allOrNothing_bufferMove _ _ _ x y).follows
  | setField kind index =>
    have hacquire : Follows raw (update (·.acquire y)) := fun h => Heap.steps_acquire h y
    exact hacquire.bind fun _ => follows_setField kind x index y

/-- Does the command bypass the rules for blocks? -/
def Command.isRaw : Command → Bool
  | blank .. | write .. => true
  | _ => false

namespace Session

theorem follows_withOperand {α : Type} (r : Registers) (x : Expr) {f : Word → Action α}
    (hf : ∀ w, Follows raw (f w)) : Follows raw (withOperand r x f) :=
  (Expr.follows_eval r x).bind fun w => (hf w).thenRelease w

theorem follows_withOperands {α : Type} (r : Registers) (x y : Expr) {f : Word → Word → Action α}
    (hf : ∀ a b, Follows raw (f a b)) : Follows raw (withOperands r x y f) :=
  follows_withOperand r x fun a => follows_withOperand r y fun b => hf a b

/-- **Every command works by steps**, a raw one by raw steps. -/
theorem follows_action (settings : Settings) (r : Registers) (c : Command)
    (hc : c.isRaw = true → raw = true) : Follows raw (action settings r c) := by
  cases c with
  | build e => exact (Expr.follows_eval r e).map _
  | ask q x => exact follows_withOperand r x fun w => follows_read _
  | askPair q x y => exact follows_withOperands r x y fun a b => follows_read _
  | make op x =>
    exact follows_withOperand r x fun w => (op.allOrNothing_run settings w).follows.map _
  | makePair op x y => exact follows_withOperands r x y fun a b => (op.follows_run a b).map _
  | change op x =>
    exact follows_withOperand r x fun w => (op.allOrNothing_run w).follows.map _
  | changePair op x y => exact follows_withOperands r x y fun a b => (op.follows_run a b).map _
  | owners x =>
    cases x with
    | register name => exact follows_read _
    | _ => exact follows_withOperand r _ fun w => follows_read _
  | drop name => exact fun h => Heap.steps_release h _
  | totals => exact follows_read _
  | blank kind extent => exact (sure_newBlank (hc rfl) kind extent).follows.map _
  | write op x =>
    exact (Expr.follows_eval r x).bind fun w =>
      ((sure_patchBlock (hc rfl) w op.patch).bind fun _ => sure_pure _).follows

theorem steps_settle (s : Session) (target : Option String) (reply : Except Error Reply) :
    Heap.Steps raw s.heap (s.settle target reply).heap := by
  cases reply with
  | error e => exact .refl
  | ok a =>
    cases a with
    | value w =>
      cases target with
      | some name => exact Heap.steps_release _ _
      | none => exact Heap.steps_release _ _
    | _ => exact .refl

theorem steps_serve (s : Session) (q : Request) (hq : q.command.isRaw = true → raw = true) :
    Heap.Steps raw s.heap (s.serve q).heap :=
  (follows_action s.settings s.registers q.command hq s.heap).trans
    (steps_settle (s.exec q.command).2 q.target (s.exec q.command).1)

/-- **Every list of requests works by steps.** -/
theorem steps_run (s : Session) (requests : List Request)
    (hq : ∀ q ∈ requests, q.command.isRaw = true → raw = true) :
    Heap.Steps raw s.heap (s.run requests).heap := by
  induction requests generalizing s with
  | nil => exact .refl
  | cons q qs ih =>
    refine (steps_serve s q (hq q List.mem_cons_self)).trans ?_
    exact ih _ fun p hp => hq p (List.mem_cons_of_mem q hp)

end Session

end ValueHeap
