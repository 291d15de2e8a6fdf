import ValueHeap.Proofs.Ownership
import ValueHeap.Session.Command

/-!
# What an action takes and what it gives

`Balances held given made action` says that the action, run on a heap that is balanced for the words
`given` to it and the words `held` by others, leaves a heap that is balanced for `held` and for what it
has `made`; if it fails, it has released what was given to it and leaves a heap balanced for `held`
alone. Words that an action only looks at are among those held.

* The rules: `Balances.bind`, `Balances.orRelease`, `Balances.thenRelease` follow the way actions are
  put together; `Balances.read_bind` and `Balances.result_bind` are the cases of `bind` for steps that
  leave the heap alone.
* The actions: each gives one value to the caller (`Gives`) or none (`Keeps`). Reading a field gives a
  new owner, writing one takes the value over also when it fails.
-/

namespace ValueHeap

namespace Action

variable {α β : Type} {held given : List Word}

/-- The heap after an action is balanced for `held` and for what the action has made. -/
def Outcome (held : List Word) (made : α → List Word) : Except Error α × Heap → Prop
  | (.ok a, h) => h.Balanced (made a ++ held)
  | (.error _, h) => h.Balanced held

/-- What the action does to the owners. -/
def Balances (held given : List Word) (made : α → List Word) (action : Action α) : Prop :=
  ∀ h : Heap, h.Balanced (given ++ held) → Outcome held made (action h)

/-- The action answers with a value that the caller owns from then on. -/
abbrev Gives (held given : List Word) (action : Action Word) : Prop :=
  Balances held given (fun w => [w]) action

/-- The action leaves the caller with nothing to own. -/
abbrev Keeps (held given : List Word) (action : Action α) : Prop :=
  Balances held given (fun _ => []) action

/-! ## Rules -/

section Bind

variable {x : Action α} {k : α → Action β} {h h' : Heap}

theorem bind_of_ok {a : α} (hx : x h = (.ok a, h')) : (x >>= k) h = k a h' := by
  change ExceptT.bindCont k (x h).1 (x h).2 = _
  rw [hx]
  rfl

theorem bind_of_error {e : Error} (hx : x h = (.error e, h')) : (x >>= k) h = (.error e, h') := by
  change ExceptT.bindCont k (x h).1 (x h).2 = _
  rw [hx]
  rfl

variable {f : Heap → Except Error α}

theorem read_bind_of_ok {a : α} (hf : f h = .ok a) : (read f >>= k) h = k a h :=
  bind_of_ok (show read f h = (.ok a, h) by rw [read, hf])

theorem read_bind_of_error {e : Error} (hf : f h = .error e) : (read f >>= k) h = (.error e, h) :=
  bind_of_error (show read f h = (.error e, h) by rw [read, hf])

variable {r : Except Error α}

theorem result_bind_of_ok {a : α} (hr : r = .ok a) : (result r >>= k) h = k a h :=
  read_bind_of_ok (f := fun _ => r) hr

theorem result_bind_of_error {e : Error} (hr : r = .error e) : (result r >>= k) h = (.error e, h) :=
  read_bind_of_error (f := fun _ => r) hr

end Bind

theorem Balances.pure {made : α → List Word} {a : α} :
    Balances held (made a) made (pure a) :=
  fun _ hb => hb

theorem Balances.throw {made : α → List Word} {e : Error} : Balances held [] made (throw e) :=
  fun _ hb => hb

theorem Balances.bind {made : α → List Word} {made' : β → List Word} {x : Action α}
    {k : α → Action β} (hx : Balances held given made x)
    (hk : ∀ a, Balances held (made a) made' (k a)) : Balances held given made' (x >>= k) := by
  intro h hb
  have hout := hx h hb
  rcases hxh : x h with ⟨r, h'⟩
  rw [hxh] at hout
  cases r with
  | ok a =>
    rw [bind_of_ok hxh]
    exact hk a h' hout
  | error e =>
    rw [bind_of_error hxh]
    exact hout

theorem Balances.map {made : α → List Word} {made' : β → List Word} {x : Action α} {f : α → β}
    (hx : Balances held given made x) (hf : ∀ a, made' (f a) = made a) :
    Balances held given made' (f <$> x) := by
  show Balances held given made' (x >>= fun a => Pure.pure (f a))
  refine hx.bind fun a => ?_
  rw [← hf a]
  exact Balances.pure

theorem Outcome.read_bind {made : β → List Word} {f : Heap → Except Error α} {k : α → Action β}
    {h : Heap} (hb : h.Balanced held) (hk : ∀ a, f h = .ok a → Outcome held made (k a h)) :
    Outcome held made ((read f >>= k) h) := by
  cases hf : f h with
  | ok a =>
    rw [read_bind_of_ok hf]
    exact hk a hf
  | error e =>
    rw [read_bind_of_error hf]
    exact hb

/-- A look at the heap changes no owners. -/
theorem Balances.read_bind {made : β → List Word} {f : Heap → Except Error α} {k : α → Action β}
    (hk : ∀ a, Balances held [] made (k a)) : Balances held [] made (read f >>= k) :=
  fun h hb => Outcome.read_bind hb fun a _ => hk a h hb

theorem Balances.result_bind {made : β → List Word} {r : Except Error α} {k : α → Action β}
    (hk : ∀ a, Balances held [] made (k a)) : Balances held [] made (result r >>= k) :=
  Balances.read_bind (f := fun _ => r) hk

theorem Balances.update {made : List Word} {f : Heap → Heap}
    (hf : ∀ h : Heap, h.Balanced (given ++ held) → (f h).Balanced (made ++ held)) :
    Balances held given (fun _ => made) (update f) :=
  fun h hb => hf h hb

/-- A live value gets another owner. -/
theorem balances_acquire {w : Word} (hw : ∀ h : Heap, h.Balanced held → h.IsLive w) :
    Balances held [] (fun _ => [w]) (Action.update (·.acquire w)) :=
  Balances.update fun h hb => hb.acquire (hw h hb)

/-- A new block takes over the words in its fields. -/
theorem gives_allocate {block : Block} : Gives held block.fields (allocate block) :=
  fun _ hb => hb.allocateSized _

theorem gives_leaf {block : Block} (hf : block.fields = []) : Gives held [] (allocate block) := by
  have hx : Gives held block.fields (allocate block) := gives_allocate
  rw [hf] at hx
  exact hx

/-- A value that is kept for an action is released when the action fails. -/
theorem Balances.orRelease {made : α → List Word} {w : Word} {x : Action α}
    (hx : Balances (w :: held) given made x) :
    Balances held (given ++ [w]) (fun a => made a ++ [w]) (orRelease w x) := by
  intro h hb
  have hout := hx h (by simpa using hb)
  unfold Action.orRelease
  rcases hxh : x h with ⟨r, h'⟩
  rw [hxh] at hout
  cases r with
  | ok a =>
    show h'.Balanced (made a ++ [w] ++ held)
    rw [List.append_assoc]
    exact hout
  | error e => exact Heap.Balanced.release hout

/-- A value that is needed for the time of an action only. -/
theorem Balances.thenRelease {made : α → List Word} {w : Word} {x : Action α}
    (hx : Balances (w :: held) given made x) :
    Balances held (given ++ [w]) made (thenRelease w x) := by
  intro h hb
  have hout := hx h (by simpa using hb)
  unfold Action.thenRelease
  rcases hxh : x h with ⟨r, h'⟩
  rw [hxh] at hout
  cases r with
  | ok a =>
    refine Heap.Balanced.release (w := w) (hout.perm ?_)
    exact List.perm_middle.symm
  | error e => exact Heap.Balanced.release hout

/-! ## Numbers, texts, characters -/

theorem fields_box (x : Number) : x.box.fields = [] := by
  cases x <;> rfl

theorem gives_newBoxed {x : Number} : Gives held [] (newBoxed x) := gives_leaf (fields_box x)

theorem gives_newInteger {n : Int64} : Gives held [] (newInteger n) := by
  unfold newInteger
  split
  · exact fun h hb => Heap.balanced_cons_immediate.mpr hb
  · exact gives_newBoxed

theorem gives_newRational {num den : Int64} : Gives held [] (newRational num den) :=
  Balances.result_bind fun r => by
    cases r with
    | whole n => exact gives_newInteger
    | proper n d => exact gives_newBoxed

theorem gives_newTextBytes {bs : List UInt8} : Gives held [] (newTextBytes bs) := gives_leaf rfl

theorem gives_newText {s : String} : Gives held [] (newText s) := gives_newTextBytes

theorem gives_newBuffer {data : List UInt8} : Gives held [] (newBuffer data) := gives_leaf rfl

theorem gives_newCharOfCode {code : Int64} : Gives held [] (newCharOfCode code) := by
  unfold newCharOfCode
  split
  · exact gives_leaf rfl
  · exact Balances.throw

/-- An answer that is a truth value is owned by nobody. -/
theorem gives_ofBool {b : Bool} : Gives held [] (pure (.ofBool b)) :=
  fun _ hb => Heap.balanced_cons_immediate.mpr hb

theorem gives_charText {w : Word} : Gives held [] (charText w) :=
  Balances.read_bind fun _ => gives_newText

theorem gives_charSucc {w : Word} : Gives held [] (charSucc w) :=
  Balances.read_bind fun code => by
    split
    · exact Balances.throw
    · split
      · exact gives_newCharOfCode
      · exact gives_newCharOfCode

theorem gives_charPred {w : Word} : Gives held [] (charPred w) :=
  Balances.read_bind fun code => by
    split
    · exact Balances.throw
    · split
      · exact gives_newCharOfCode
      · exact gives_newCharOfCode

theorem gives_textConcat {x y : Word} : Gives held [] (textConcat x y) :=
  Balances.read_bind fun _ => Balances.read_bind fun _ => gives_newTextBytes

theorem gives_intBinary {t : IntType} {op : IntBinary} {x y : Word} :
    Gives held [] (intBinary t op x y) :=
  Balances.read_bind fun _ => Balances.read_bind fun _ => Balances.result_bind fun _ => gives_newBoxed

theorem gives_intUnary {t : IntType} {op : IntUnary} {x : Word} : Gives held [] (intUnary t op x) :=
  Balances.read_bind fun _ => gives_newBoxed

theorem gives_intTest {t : IntType} {r : Relation} {signed : Bool} {x y : Word} :
    Gives held [] (intTest t r signed x y) :=
  Balances.read_bind fun _ => Balances.read_bind fun _ => gives_ofBool

theorem gives_floatBinary {t : FloatType} {op : FloatBinary} {x y : Word} :
    Gives held [] (floatBinary t op x y) :=
  Balances.read_bind fun _ => Balances.read_bind fun _ => gives_newBoxed

theorem gives_floatUnary {t : FloatType} {op : FloatUnary} {x : Word} :
    Gives held [] (floatUnary t op x) :=
  Balances.read_bind fun _ => gives_newBoxed

theorem gives_floatTest {t : FloatType} {r : Relation} {x y : Word} :
    Gives held [] (floatTest t r x y) :=
  Balances.read_bind fun _ => Balances.read_bind fun _ => gives_ofBool

theorem gives_newHash {seed : UInt32} {levels : Nat} {w : Word} :
    Gives held [] (newHash seed levels w) :=
  Balances.read_bind fun _ => gives_newInteger

/-! ## Composites -/

theorem gives_newComposite {shape : Shape} {fields : List Word} :
    Gives held fields (newComposite shape fields) := by
  show Gives held (Block.composite shape fields).fields _
  exact gives_allocate

/-- The answer of a reader of integers owns the integer or the wording in it. -/
theorem gives_parseInteger {text radix : Word} : Gives held [] (parseInteger text radix) :=
  Balances.read_bind fun r => by
    cases r with
    | ok n => exact gives_newInteger.bind fun _ => gives_newComposite
    | error e => exact gives_newText.bind fun _ => gives_newComposite

theorem balanced_acquireTimes {h : Heap} {w : Word} (n : Nat) (hb : h.Balanced held)
    (hw : w ∈ held) : (h.acquireTimes n w).Balanced (List.replicate n w ++ held) := by
  induction n with
  | zero => exact hb
  | succ n ih => exact ih.acquire (ih.isLive_of_mem (List.mem_append_right _ hw))

/-- Every field of a filled array owns the value once. -/
theorem gives_newFilled {n : Nat} {w : Word} (hw : w ∈ held) : Gives held [] (newFilled n w) := by
  have hacquire : Balances held [] (fun _ => List.replicate n w) (update (·.acquireTimes n w)) :=
    Balances.update fun h hb => balanced_acquireTimes n hb hw
  exact hacquire.bind fun _ => gives_newComposite

theorem composite_eq_ok {h : Heap} {kind : Kind} {w : Word} {b : BlockId} {shape : Shape}
    {fields : List Word} (hc : h.composite kind w = .ok (b, shape, fields)) :
    w = .reference b ∧ h.block? w = some (.composite shape fields) := by
  unfold Heap.composite at hc
  split at hc
  · next hblock =>
    split at hc
    · cases hc
      exact ⟨rfl, hblock⟩
    · cases hc
  · cases hc

theorem fieldsOf_of_block? {h : Heap} {b : BlockId} {block : Block}
    (hblock : h.block? (.reference b) = some block) : h.fieldsOf b = block.fields := by
  obtain ⟨c, hc, rfl⟩ := Option.map_eq_some_iff.mp hblock
  exact Heap.fieldsOf_of_cell? hc

/-- Reading a field gives a new owner of what is in it. -/
theorem gives_getField {kind : Kind} {w : Word} {index : UInt64} :
    Gives held [] (getField kind w index) := by
  intro h hb
  refine Outcome.read_bind hb fun r hr => ?_
  obtain ⟨b, shape, fields⟩ := r
  obtain ⟨rfl, hblock⟩ := composite_eq_ok hr
  cases hx : fields[index.toNat]? with
  | none =>
    simp only [hx]
    exact hb
  | some x =>
    simp only [hx]
    have hmem : x ∈ h.fieldsOf b := by
      rw [fieldsOf_of_block? hblock]
      exact List.mem_of_getElem? hx
    exact hb.acquire (hb.isLive_of_field hmem)

/-- Writing a field takes the new value over, also when it fails, and releases the old one. -/
theorem keeps_setField {kind : Kind} {w : Word} {index : UInt64} {x : Word} :
    Keeps held [x] (setField kind w index x) := by
  intro h hb
  unfold setField
  simp only
  split
  · next b old hplace =>
    refine Heap.Balanced.release (w := old) ?_
    cases hc : h.composite kind w with
    | error e =>
      rw [hc] at hplace
      cases hplace
    | ok r =>
      obtain ⟨b', shape, fields⟩ := r
      obtain ⟨rfl, hblock⟩ := composite_eq_ok hc
      cases hx : fields[index.toNat]? with
      | none =>
        simp only [hc, bind, Except.bind, hx] at hplace
        cases hplace
      | some old' =>
        simp only [hc, bind, Except.bind, hx] at hplace
        cases hplace
        exact hb.setField hblock hx
  · exact Heap.Balanced.release hb

/-! ## Buffers -/

theorem bufferBytes_eq_ok {h : Heap} {w : Word} {data : List UInt8}
    (hw : h.bufferBytes w = .ok data) : h.block? w = some (.bytes data) := by
  unfold Heap.bufferBytes at hw
  split at hw
  · next hblock =>
    cases hw
    exact hblock
  · cases hw

/-- New contents of a buffer: neither the old ones nor the new ones own anything. -/
theorem balanced_setBuffer {h : Heap} {w : Word} {data new : List UInt8} (hb : h.Balanced held)
    (hw : h.bufferBytes w = .ok data) : (h.setBuffer w new).Balanced held := by
  cases w with
  | immediate p => exact hb
  | reference b =>
    refine Heap.Balanced.modifyBlock (f := fun _ => .bytes new) hb fun c hc => ?_
    have hblock := bufferBytes_eq_ok hw
    rw [Heap.block?, hc] at hblock
    have hdata : c.block = .bytes data := Option.some.inj hblock
    rw [hdata]
    rfl

theorem gives_bufferOfText {w : Word} : Gives held [] (bufferOfText w) :=
  Balances.read_bind fun _ => gives_newBuffer

theorem gives_textOfBuffer {w : Word} : Gives held [] (textOfBuffer w) :=
  Balances.read_bind fun _ => gives_newTextBytes

theorem gives_bufferCopy {w : Word} : Gives held [] (bufferCopy w) :=
  Balances.read_bind fun _ => gives_newBuffer

theorem gives_bufferSlice {w : Word} {start len : Int} : Gives held [] (bufferSlice w start len) :=
  Balances.read_bind fun _ => Balances.result_bind fun _ => gives_newBuffer

theorem gives_bufferResize {w : Word} {left right : Int} :
    Gives held [] (bufferResize w left right) :=
  Balances.read_bind fun _ => Balances.result_bind fun _ => gives_newBuffer

theorem Outcome.result_bind {made : β → List Word} {r : Except Error α} {k : α → Action β}
    {h : Heap} (hb : h.Balanced held) (hk : ∀ a, Outcome held made (k a h)) :
    Outcome held made ((result r >>= k) h) :=
  Outcome.read_bind (f := fun _ => r) hb fun a _ => hk a

theorem keeps_bufferFill {w : Word} {n : Int} : Keeps held [] (bufferFill w n) :=
  fun _ hb => Outcome.read_bind hb fun _ hdata => balanced_setBuffer hb hdata

theorem keeps_bufferSet {width : Nat} {w : Word} {index : Int} {n : Nat} :
    Keeps held [] (bufferSet width w index n) :=
  fun _ hb => Outcome.read_bind hb fun _ hdata =>
    Outcome.result_bind hb fun _ => balanced_setBuffer hb hdata

theorem keeps_bufferMove {srcIndex dstIndex len : Int} {src dst : Word} :
    Keeps held [] (bufferMove srcIndex dstIndex len src dst) :=
  fun _ hb => Outcome.read_bind hb fun _ _ => Outcome.read_bind hb fun _ hdata =>
    Outcome.result_bind hb fun _ => Outcome.result_bind hb fun _ => balanced_setBuffer hb hdata

/-- The joined buffer is kept while the second part is moved into it. -/
theorem gives_bufferConcat {x y : Word} : Gives held [] (bufferConcat x y) := by
  refine Balances.read_bind fun tail => gives_bufferResize.bind fun joined => ?_
  have hmove : Keeps (joined :: held) [] (do
      let front ← Action.read (·.bufferLength x)
      bufferMove 0 front tail y joined) :=
    Balances.read_bind fun _ => keeps_bufferMove
  exact hmove.orRelease.bind fun _ => Balances.pure

/-! ## Raw blocks -/

theorem gives_newBlank {kind : Kind} {extent : Nat} : Gives held [] (newBlank kind extent) := by
  intro h hb
  have hfields : (Block.blank kind).fields = [] := by cases kind <;> rfl
  have hb' : h.Balanced ((Block.blank kind).fields ++ held) := by
    rw [hfields]
    exact hb
  exact hb'.allocateSized extent

/-- A raw write reaches no field. -/
theorem fields_patch (op : RawWrite) (block : Block) : (op.patch block).fields = block.fields := by
  cases op with
  | header offset v =>
    cases block with
    | composite shape fields => cases shape <;> rfl
    | _ => rfl
  | byte index v => cases block <;> rfl

/-- A raw write cannot fail, and changes no owners. -/
theorem balances_patchBlock {w : Word} {op : RawWrite} :
    Balances held given (fun _ => given) (patchBlock w op.patch) := by
  intro h hb
  cases w with
  | immediate p => exact hb
  | reference b => exact hb.modifyBlock fun c _ => fields_patch op c.block

end Action

end ValueHeap
