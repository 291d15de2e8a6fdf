import Mathlib.Logic.Relation
import ValueHeap.Proofs.Actions
import ValueHeap.Proofs.ByteSequences

/-!
# The steps of a heap

All that is done to a heap is done in steps of a few kinds (`Heap.Step`): a block is allocated or freed, a
count changes, a fault is noted, contents are replaced by contents of the same extent. `Step true` has
also the raw steps, which break the rule about extents. What every step keeps, every run keeps.

An action `Follows` the steps if it changes the heap by steps only. It is `Sure` if it also never fails, and
`AllOrNothing` if it has not touched the heap when it fails.

Results:
* `Heap.steps_releaseAll`: a release is made of steps, one owner at a time.
* The rules `Follows.bind`, `Sure.bind`, `Effect.read_bind` and so on, which follow the way actions are put
  together.
-/

namespace ValueHeap

namespace Heap

/-- One change of a heap; with `raw`, contents and sizes may go apart. -/
inductive Step (raw : Bool) : Heap → Heap → Prop where
  | allocate (h : Heap) (block : Block) : Step raw h (h.allocate block).2
  | recount (h : Heap) (b : BlockId) (f : Nat → Nat) :
    Step raw h (h.modifyCell b fun c => { c with count := f c.count })
  | fault (h : Heap) : Step raw h h.fault
  | free (h : Heap) {b : BlockId} {c : Cell} (hc : h.cell? b = some c) : Step raw h (h.free b c)
  | write (h : Heap) (b : BlockId) (f : Block → Block)
    (hf : ∀ c, h.cell? b = some c → (f c.block).extent = c.block.extent) :
    Step raw h (h.modifyBlock b f)
  | blank (h : Heap) (extent : Nat) (block : Block) (hraw : raw = true) :
    Step raw h (h.allocateSized extent block).2
  | patch (h : Heap) (b : BlockId) (f : Block → Block) (hraw : raw = true) :
    Step raw h (h.modifyBlock b f)

/-- Any number of steps. -/
abbrev Steps (raw : Bool) : Heap → Heap → Prop := Relation.ReflTransGen (Step raw)

variable {raw : Bool} {h : Heap}

/-- **What every step keeps is kept by any number of steps.** -/
theorem Steps.preserves {P : Heap → Prop} (hstep : ∀ h h', Step raw h h' → P h → P h') {h h' : Heap}
    (hsteps : Steps raw h h') (hP : P h) : P h' := by
  induction hsteps with
  | refl => exact hP
  | tail _ hlast ih => exact hstep _ _ hlast ih

/-! ## Owners come and go by steps -/

theorem steps_releaseAll (h : Heap) (pending : List Word) : Steps raw h (h.releaseAll pending) :=
  releaseAll_induction (P := fun _ h' => Steps raw h h') (fun _ _ _ hs => hs)
    (fun _ _ h' _ hs => hs.tail (.fault h')) (fun _ _ _ h' hc _ hs => hs.tail (.free h' hc))
    (fun b _ _ h' _ _ hs => hs.tail (.recount h' b (· - 1))) .refl

theorem steps_release (h : Heap) (w : Word) : Steps raw h (h.release w) := h.steps_releaseAll [w]

theorem steps_acquire (h : Heap) (w : Word) : Steps raw h (h.acquire w) := by
  cases w with
  | immediate p => exact .refl
  | reference b =>
    show Steps raw h (if h.count (.reference b) = 0 then h.fault else _)
    by_cases hzero : h.count (.reference b) = 0
    · rw [if_pos hzero]
      exact .single (.fault h)
    · rw [if_neg hzero]
      exact .single (.recount h b (· + 1))

theorem steps_acquireTimes (h : Heap) (n : Nat) (w : Word) : Steps raw h (h.acquireTimes n w) := by
  induction n with
  | zero => exact .refl
  | succ n ih => exact ih.trans (steps_acquire _ w)

/-! ## Writes of the same extent -/

/-- A field is replaced by another. -/
theorem steps_setField (h : Heap) (b : BlockId) (i : Nat) (w : Word) :
    Steps raw h (h.setField b i w) := by
  refine .single (.write h b _ fun c _ => ?_)
  cases c.block with
  | composite shape fields => simp [Block.extent]
  | _ => rfl

/-- The bytes of a buffer are replaced by as many others. -/
theorem steps_setBuffer {w : Word} {data new : List UInt8} (hw : h.bufferBytes w = .ok data)
    (hlength : new.length = data.length) : Steps raw h (h.setBuffer w new) := by
  cases w with
  | immediate p => exact .refl
  | reference b =>
    refine .single (.write h b (fun _ => .bytes new) fun c hc => ?_)
    have hblock := Action.bufferBytes_eq_ok hw
    rw [block?, hc] at hblock
    rw [show c.block = .bytes data from Option.some.inj hblock]
    simp [Block.extent, hlength]

end Heap

namespace Action

variable {raw : Bool} {α β : Type} {h h' : Heap}

/-! ## Rules -/

/-- The action changes the heap by steps. -/
def Follows (raw : Bool) (x : Action α) : Prop := ∀ h, Heap.Steps raw h (x h).2

/-- The action changes the heap by steps and never fails. -/
def Sure (raw : Bool) (x : Action α) : Prop := ∀ h, ∃ a h', x h = (.ok a, h') ∧ Heap.Steps raw h h'

/-- What an action has done to the heap `h`: steps if it succeeded, nothing at all if it failed. -/
def Effect (raw : Bool) (h : Heap) : Except Error α × Heap → Prop
  | (.ok _, h') => Heap.Steps raw h h'
  | (.error _, h') => h' = h

/-- The action changes the heap by steps, and does nothing to it if it fails. -/
def AllOrNothing (raw : Bool) (x : Action α) : Prop := ∀ h, Effect raw h (x h)

theorem Sure.allOrNothing {x : Action α} (hx : Sure raw x) : AllOrNothing raw x := by
  intro h
  obtain ⟨a, h', heq, hsteps⟩ := hx h
  rw [heq]
  exact hsteps

theorem AllOrNothing.eq_of_error {x : Action α} (hx : AllOrNothing raw x) {e : Error}
    (hfail : x h = (.error e, h')) : h' = h := by
  have heffect := hx h
  rw [hfail] at heffect
  exact heffect

theorem AllOrNothing.follows {x : Action α} (hx : AllOrNothing raw x) : Follows raw x := by
  intro h
  have heffect := hx h
  rcases hxh : x h with ⟨r, h'⟩
  rw [hxh] at heffect
  cases r with
  | ok a => exact heffect
  | error e => exact heffect ▸ .refl

theorem Sure.follows {x : Action α} (hx : Sure raw x) : Follows raw x := hx.allOrNothing.follows

theorem sure_pure (a : α) : Sure raw (pure a) := fun h => ⟨a, h, rfl, .refl⟩

theorem Sure.bind {x : Action α} {k : α → Action β} (hx : Sure raw x) (hk : ∀ a, Sure raw (k a)) :
    Sure raw (x >>= k) := by
  intro h
  obtain ⟨a, h', hxh, hsteps⟩ := hx h
  obtain ⟨b, h'', hkh, hsteps'⟩ := hk a h'
  exact ⟨b, h'', (bind_of_ok hxh).trans hkh, hsteps.trans hsteps'⟩

theorem allOrNothing_throw (e : Error) : AllOrNothing raw (throw e : Action α) := fun _ => rfl

theorem Effect.read_bind {f : Heap → Except Error α} {k : α → Action β}
    (hk : ∀ a, f h = .ok a → Effect raw h (k a h)) : Effect raw h ((read f >>= k) h) := by
  cases hf : f h with
  | ok a =>
    rw [read_bind_of_ok hf]
    exact hk a hf
  | error e =>
    rw [read_bind_of_error hf]
    exact rfl

theorem Effect.result_bind {r : Except Error α} {k : α → Action β}
    (hk : ∀ a, r = .ok a → Effect raw h (k a h)) : Effect raw h ((result r >>= k) h) :=
  Effect.read_bind (f := fun _ => r) hk

theorem AllOrNothing.read_bind {f : Heap → Except Error α} {k : α → Action β}
    (hk : ∀ a, AllOrNothing raw (k a)) : AllOrNothing raw (read f >>= k) :=
  fun h => Effect.read_bind fun a _ => hk a h

theorem AllOrNothing.result_bind {r : Except Error α} {k : α → Action β}
    (hk : ∀ a, AllOrNothing raw (k a)) : AllOrNothing raw (result r >>= k) :=
  fun h => Effect.result_bind fun a _ => hk a h

theorem Follows.bind {x : Action α} {k : α → Action β} (hx : Follows raw x)
    (hk : ∀ a, Follows raw (k a)) : Follows raw (x >>= k) := by
  intro h
  have hsteps := hx h
  rcases hxh : x h with ⟨r, h'⟩
  rw [hxh] at hsteps
  cases r with
  | ok a =>
    rw [bind_of_ok hxh]
    exact hsteps.trans (hk a h')
  | error e =>
    rw [bind_of_error hxh]
    exact hsteps

theorem Follows.map {x : Action α} (hx : Follows raw x) (f : α → β) : Follows raw (f <$> x) :=
  hx.bind fun a => (sure_pure (f a)).follows

theorem follows_read (f : Heap → Except Error α) : Follows raw (read f) := fun _ => .refl

theorem Follows.orRelease {x : Action α} (hx : Follows raw x) (w : Word) :
    Follows raw (orRelease w x) := by
  intro h
  have hsteps := hx h
  unfold Action.orRelease
  rcases hxh : x h with ⟨r, h'⟩
  rw [hxh] at hsteps
  cases r with
  | ok a => exact hsteps
  | error e => exact hsteps.trans (Heap.steps_release h' w)

theorem Follows.thenRelease {x : Action α} (hx : Follows raw x) (w : Word) :
    Follows raw (thenRelease w x) :=
  fun h => (hx h).trans (Heap.steps_release _ w)

end Action

end ValueHeap
