import ValueHeap.Proofs.Census

/-!
# Failing commands leave no trace

When a command fails, it has built operands, made results and handed values over, and has to give all of
this back. `Extends base h` says how far a heap may be from the heap `base` that the command started on: the
old blocks have their contents, and the new ones refer to older ones only. The counts may differ; they are
what the balance is about.

* `Extends.releaseAll`: while somebody else holds what keeps the old blocks alive, a release frees new
  blocks only.
* `Extends.cell?_eq`: an extension that is balanced for the same owners as `base` has the same cells. No new
  block is live then: the newest one would have neither an owner nor a block that holds it.
* `Spares`: the action leaves an extension, always or when it fails. The rules follow those for `Balances`,
  which says who owns what in between.

Results:
* `Expr.spares_eval`: building a value spares all that was there, whether it fails or not.
* `Session.spares_action`: so does every command that fails.
* `Session.failing_exec_atomic`: after any requests, a command that fails changes no cell and no total.
-/

namespace ValueHeap

/-- What a cell holds, its count apart. -/
def Cell.contents (c : Cell) : Nat × Block := (c.size, c.block)

namespace Heap

/-- **The heap `h` extends `base`.** -/
structure Extends (base h : Heap) : Prop where
  size_le : base.cells.size ≤ h.cells.size
  contents_eq : ∀ b < base.cells.size,
    (h.cell? b).map Cell.contents = (base.cell? b).map Cell.contents
  points_back : ∀ a b, base.cells.size ≤ a → h.Holds a b → b < a

/-- The words on the list, with the fields, are enough to keep all blocks alive. -/
structure KeptBy (h : Heap) (held : List Word) : Prop where
  count_le : ∀ b, h.count (.reference b) ≤ held.count (.reference b) + h.slots b
  count_pos : ∀ b c, h.cell? b = some c → 0 < c.count

variable {base h : Heap} {held : List Word}

theorem Balanced.keptBy (hb : h.Balanced held) : h.KeptBy held :=
  ⟨fun b => Nat.le_of_eq (hb.count_eq b), hb.count_pos⟩

theorem KeptBy.cons (hk : h.KeptBy held) (w : Word) : h.KeptBy (w :: held) where
  count_le b := by
    have := hk.count_le b
    have := List.count_le_count_cons (a := Word.reference b) (b := w) (l := held)
    omega
  count_pos := hk.count_pos

theorem KeptBy.append (hk : h.KeptBy held) (ws : List Word) : h.KeptBy (ws ++ held) := by
  induction ws with
  | nil => exact hk
  | cons w ws ih => exact ih.cons w

theorem Extends.refl (h : Heap) : h.Extends h where
  size_le := Nat.le_refl _
  contents_eq _ _ := rfl
  points_back _ _ ha hab := absurd (lt_size_of_mem_fieldsOf hab) (Nat.not_lt.mpr ha)

theorem fieldsOf_congr {h h' : Heap} {a : BlockId}
    (hcontents : (h'.cell? a).map Cell.contents = (h.cell? a).map Cell.contents) :
    h'.fieldsOf a = h.fieldsOf a := by
  have hfields (g : Heap) : g.fieldsOf a =
      (((g.cell? a).map Cell.contents).map fun c => c.2.fields).getD [] := by
    rw [Option.map_map]
    rfl
  rw [hfields h', hfields h, hcontents]

theorem isSome_congr {h h' : Heap} {a : BlockId}
    (hcontents : (h'.cell? a).map Cell.contents = (h.cell? a).map Cell.contents) :
    (h'.cell? a).isSome = (h.cell? a).isSome := by
  rw [← Option.isSome_map (f := Cell.contents), hcontents, Option.isSome_map]

theorem Extends.fieldsOf_eq (hx : base.Extends h) {a : BlockId} (ha : a < base.cells.size) :
    h.fieldsOf a = base.fieldsOf a :=
  fieldsOf_congr (hx.contents_eq a ha)

/-- The old slots are still there. -/
theorem Extends.slots_le (hx : base.Extends h) (b : BlockId) : base.slots b ≤ h.slots b := by
  have hold : base.slots b =
      ∑ a ∈ Finset.range base.cells.size, (h.fieldsOf a).count (.reference b) :=
    Finset.sum_congr rfl fun a ha => by rw [hx.fieldsOf_eq (Finset.mem_range.mp ha)]
  rw [hold]
  exact Finset.sum_le_sum_of_subset (Finset.range_subset_range.mpr hx.size_le)

/-! ## What keeps an extension -/

theorem Extends.allocate (hx : base.Extends h) {block : Block}
    (hb : h.Balanced (block.fields ++ held)) : base.Extends (h.allocate block).2 where
  size_le := by
    have hsize : (h.allocate block).2.cells.size = h.cells.size + 1 := Array.size_push _
    have := hx.size_le
    omega
  contents_eq b hlt := by
    rw [Heap.allocate, cell?_allocateSized,
      if_neg (Nat.ne_of_lt (Nat.lt_of_lt_of_le hlt hx.size_le))]
    exact hx.contents_eq b hlt
  points_back a b ha hab := by
    unfold Holds at hab
    rw [Heap.allocate, fieldsOf_allocateSized] at hab
    split at hab
    · next hnew =>
      -- the fields of the new block were live before it
      rw [hnew]
      exact lt_size_of_isSome (hb.isLive_of_mem (List.mem_append_left held hab) b rfl)
    · exact hx.points_back a b ha hab

/-- A change of a count. -/
theorem Extends.recount (hx : base.Extends h) (b : BlockId) (f : Nat → Nat) :
    base.Extends (h.modifyCell b fun c => { c with count := f c.count }) := by
  have hcontents (i : BlockId) :
      ((h.modifyCell b fun c => { c with count := f c.count }).cell? i).map Cell.contents =
        (h.cell? i).map Cell.contents := by
    rw [cell?_modifyCell]
    split
    · rw [Option.map_map]
      rfl
    · rfl
  refine ⟨?_, fun i hi => (hcontents i).trans (hx.contents_eq i hi), fun a i ha hai => ?_⟩
  · rw [size_modifyCell]
    exact hx.size_le
  · unfold Holds at hai
    rw [fieldsOf_congr (hcontents a)] at hai
    exact hx.points_back a i ha hai

theorem Extends.acquire (hx : base.Extends h) {w : Word} (hb : h.Balanced held)
    (hw : h.IsLive w) : base.Extends (h.acquire w) := by
  cases w with
  | immediate p => exact hx
  | reference b =>
    rw [hb.acquire_eq (hw b rfl)]
    exact hx.recount b (· + 1)

/-- A new block is freed. -/
theorem Extends.free (hx : base.Extends h) {b : BlockId} (c : Cell) (hnew : base.cells.size ≤ b) :
    base.Extends (h.free b c) where
  size_le := by
    rw [size_free]
    exact hx.size_le
  contents_eq i hi := by
    rw [cell?_free, if_neg (Nat.ne_of_gt (Nat.lt_of_lt_of_le hi hnew))]
    exact hx.contents_eq i hi
  points_back a i ha hai := by
    have hne : b ≠ a := by
      rintro rfl
      exact absurd (isSome_of_holds hai) (by rw [cell?_free, if_pos rfl]; simp)
    unfold Holds fieldsOf at hai
    rw [cell?_free, if_neg hne] at hai
    exact hx.points_back a i ha hai

/-- An old block that is about to lose an owner has another one: somebody holds what kept it alive. -/
theorem Extends.one_lt_count (hx : base.Extends h) (hk : base.KeptBy held) {pending : List Word}
    {b : BlockId} (hb : h.Balanced (.reference b :: (pending ++ held))) (hold : b < base.cells.size) :
    1 < h.count (.reference b) := by
  have hlive : (base.cell? b).isSome := by
    rw [← isSome_congr (hx.contents_eq b hold)]
    exact hb.isLive_of_mem List.mem_cons_self b rfl
  obtain ⟨c, hc⟩ := Option.isSome_iff_exists.mp hlive
  have hpos := hk.count_pos b c hc
  have hle := hk.count_le b
  have hslots := hx.slots_le b
  have hcount := hb.count_eq b
  rw [count_of_cell? hc] at hle
  rw [List.count_cons_self, List.count_append] at hcount
  omega

/-- **A release frees new blocks only.** -/
theorem Extends.releaseAll (hx : base.Extends h) (hk : base.KeptBy held) {pending : List Word}
    (hb : h.Balanced (pending ++ held)) : base.Extends (h.releaseAll pending) := by
  refine (releaseAll_induction (P := fun pending h => h.Balanced (pending ++ held) ∧ base.Extends h)
    ?_ ?_ ?_ ?_ ⟨hb, hx⟩).2
  · exact fun p rest h hP => ⟨balanced_cons_immediate.mp hP.1, hP.2⟩
  · intro b rest h hzero hP
    exact absurd hzero (Nat.ne_of_gt (hP.1.count_pos_of_mem List.mem_cons_self))
  · intro b c rest h hc hone hP
    refine ⟨?_, hP.2.free c ?_⟩
    · rw [List.append_assoc]
      exact hP.1.free hc hone
    · by_contra hold
      have hcount := hP.2.one_lt_count hk hP.1 (Nat.lt_of_not_le hold)
      rw [count_of_cell? hc] at hcount
      omega
  · exact fun b c rest h hc hmany hP =>
      ⟨hP.1.decrement hc (Nat.ne_of_gt hmany), hP.2.recount b (· - 1)⟩

theorem Extends.release (hx : base.Extends h) (hk : base.KeptBy held) {w : Word}
    (hb : h.Balanced (w :: held)) : base.Extends (h.release w) := by
  have hpending : h.Balanced ([w] ++ held) := hb
  exact hx.releaseAll hk hpending

/-! ## Back to the heap before -/

/-- No new block is live when the old owners are the only ones. -/
theorem Extends.dead_of_new (hx : base.Extends h) (hbase : base.Balanced held) (hb : h.Balanced held)
    {b : BlockId} (hnew : base.cells.size ≤ b) : h.cell? b = none := by
  -- a block that holds `b` is new as well, and newer
  induction hn : h.cells.size - b using Nat.strong_induction_on generalizing b with
  | _ n ih =>
    have hunused := hbase.count_eq b
    rw [count_of_dead (cell?_eq_none_of_le hnew)] at hunused
    rw [← Option.not_isSome_iff_eq_none]
    intro hlive
    rcases hb.owned_or_held hlive with howner | ⟨a, hab⟩
    · have := List.count_pos_iff.mpr howner
      omega
    · have hlt := lt_size_of_mem_fieldsOf hab
      by_cases ha : a < base.cells.size
      · have hold : .reference b ∈ base.fieldsOf a := by
          rw [← hx.fieldsOf_eq ha]
          exact hab
        have := base.count_le_slots ha b
        have := List.count_pos_iff.mpr hold
        omega
      · have hback := hx.points_back a b (Nat.le_of_not_lt ha) hab
        have hfewer : h.cells.size - a < n := hn ▸ Nat.sub_lt_sub_left (Nat.lt_trans hback hlt) hback
        have hdead := ih _ hfewer (Nat.le_of_not_lt ha) rfl
        have hsome := isSome_of_holds hab
        rw [hdead] at hsome
        cases hsome

theorem Extends.slots_eq (hx : base.Extends h) (hbase : base.Balanced held) (hb : h.Balanced held)
    (b : BlockId) : h.slots b = base.slots b := by
  have hsub : Finset.range base.cells.size ⊆ Finset.range h.cells.size :=
    Finset.range_subset_range.mpr hx.size_le
  have hrest := Finset.sum_subset hsub (f := fun a => (h.fieldsOf a).count (.reference b))
    fun a _ ha => by
      have hnew : base.cells.size ≤ a := Nat.le_of_not_lt fun hlt => ha (Finset.mem_range.mpr hlt)
      rw [fieldsOf_of_dead (hx.dead_of_new hbase hb hnew)]
      rfl
  unfold slots
  rw [← hrest]
  exact Finset.sum_congr rfl fun a ha => by rw [hx.fieldsOf_eq (Finset.mem_range.mp ha)]

/-- **An extension for the same owners has the same cells.** -/
theorem Extends.cell?_eq (hx : base.Extends h) (hbase : base.Balanced held) (hb : h.Balanced held)
    (b : BlockId) : h.cell? b = base.cell? b := by
  by_cases hold : b < base.cells.size
  · have hcount : h.count (.reference b) = base.count (.reference b) := by
      rw [hb.count_eq b, hbase.count_eq b, hx.slots_eq hbase hb b]
    have hcontents := hx.contents_eq b hold
    cases hc : h.cell? b with
    | none =>
      rw [hc] at hcontents
      exact (Option.map_eq_none_iff.mp hcontents.symm).symm
    | some c =>
      rw [hc] at hcontents
      obtain ⟨d, hd, hcd⟩ := Option.map_eq_some_iff.mp hcontents.symm
      rw [count_of_cell? hc, count_of_cell? hd] at hcount
      rw [hd]
      obtain ⟨count, size, block⟩ := c
      obtain ⟨count', size', block'⟩ := d
      cases hcd
      cases hcount
      rfl
  · have hnew := Nat.le_of_not_lt hold
    rw [hx.dead_of_new hbase hb hnew, cell?_eq_none_of_le hnew]

end Heap

namespace Action

variable {α β : Type} {always : Bool} {base : Heap} {held given : List Word}

/-- The heap after an action extends `base`; without `always` this is asked of failures only. -/
def Leaves (always : Bool) (base : Heap) : Except Error α × Heap → Prop
  | (.ok _, h) => always = true → base.Extends h
  | (.error _, h) => base.Extends h

/-- The action spares the blocks of `base`, always or when it fails. -/
def Spares (always : Bool) (base : Heap) (held given : List Word) (x : Action α) : Prop :=
  ∀ h : Heap, h.Balanced (given ++ held) → base.Extends h → Leaves always base (x h)

/-! ## Rules -/

theorem leaves_of_extends {r : Except Error α} {h : Heap} (hext : base.Extends h) :
    Leaves always base (r, h) := by
  cases r with
  | ok a => exact fun _ => hext
  | error e => exact hext

theorem Spares.of_always {x : Action α} (hx : Spares true base held given x) :
    Spares false base held given x := by
  intro h hb hext
  have hleft := hx h hb hext
  rcases hxh : x h with ⟨r, h'⟩
  rw [hxh] at hleft
  cases r with
  | ok a => exact nofun
  | error e => exact hleft

/-- An action that is all or nothing spares the heap when it fails. -/
theorem AllOrNothing.spares {x : Action α} (hx : AllOrNothing true x) :
    Spares false base held given x := by
  intro h _ hext
  rcases hxh : x h with ⟨r, h'⟩
  cases r with
  | ok a => exact nofun
  | error e =>
    rw [hx.eq_of_error hxh]
    exact hext

theorem spares_pure (a : α) : Spares always base held given (pure a) :=
  fun _ _ hext => leaves_of_extends hext

theorem spares_throw (e : Error) : Spares always base held given (throw e : Action α) :=
  fun _ _ hext => hext

theorem spares_read (f : Heap → Except Error α) : Spares always base held given (read f) :=
  fun _ _ hext => leaves_of_extends hext

section Rules

variable {x : Action α} {k : α → Action β} {made : α → List Word} {w : Word}

theorem Spares.bind (hgives : Balances held given made x) (hx : Spares true base held given x)
    (hk : ∀ a, Spares always base held (made a) (k a)) :
    Spares always base held given (x >>= k) := by
  intro h hb hext
  have hout := hgives h hb
  have hleft := hx h hb hext
  rcases hxh : x h with ⟨r, h'⟩
  rw [hxh] at hout hleft
  cases r with
  | ok a =>
    rw [bind_of_ok hxh]
    exact hk a h' hout (hleft rfl)
  | error e =>
    rw [bind_of_error hxh]
    exact hleft

/-- After an action that spares the heap when it fails, nothing may fail any more. -/
theorem Spares.bind_sure (hx : Spares false base held given x)
    (hk : ∀ a, Sure true (k a)) : Spares false base held given (x >>= k) := by
  intro h hb hext
  have hleft := hx h hb hext
  rcases hxh : x h with ⟨r, h'⟩
  rw [hxh] at hleft
  cases r with
  | ok a =>
    obtain ⟨_, _, hok, -⟩ := hk a h'
    rw [bind_of_ok hxh, hok]
    exact nofun
  | error e =>
    rw [bind_of_error hxh]
    exact hleft

theorem Spares.map (hx : Spares false base held given x) (f : α → β) :
    Spares false base held given (f <$> x) :=
  hx.bind_sure fun a => sure_pure (f a)

theorem Spares.read_bind {f : Heap → Except Error α}
    (hk : ∀ a, Spares always base held given (k a)) :
    Spares always base held given (read f >>= k) := by
  intro h hb hext
  cases hf : f h with
  | ok a =>
    rw [read_bind_of_ok hf]
    exact hk a h hb hext
  | error e =>
    rw [read_bind_of_error hf]
    exact hext

theorem Spares.result_bind {r : Except Error α} (hk : ∀ a, Spares always base held given (k a)) :
    Spares always base held given (result r >>= k) :=
  Spares.read_bind (f := fun _ => r) hk

/-- A value that is kept for an action. -/
theorem Spares.orRelease (hkept : base.KeptBy held) (hgives : Balances (w :: held) given made x)
    (hx : Spares always base (w :: held) given x) :
    Spares always base held (given ++ [w]) (orRelease w x) := by
  intro h hb hext
  have hb' : h.Balanced (given ++ w :: held) := by simpa using hb
  have hout := hgives h hb'
  have hleft := hx h hb' hext
  unfold Action.orRelease
  rcases hxh : x h with ⟨r, h'⟩
  rw [hxh] at hout hleft
  cases r with
  | ok a => exact hleft
  | error e => exact hleft.release hkept hout

/-- A value that is needed for the time of an action only. -/
theorem Spares.thenRelease (hkept : base.KeptBy held) (hgives : Balances (w :: held) given made x)
    (hx : Spares always base (w :: held) given x) :
    Spares always base held (given ++ [w]) (thenRelease w x) := by
  intro h hb hext
  have hb' : h.Balanced (given ++ w :: held) := by simpa using hb
  have hout := hgives h hb'
  have hleft := hx h hb' hext
  unfold Action.thenRelease
  rcases hxh : x h with ⟨r, h'⟩
  rw [hxh] at hout hleft
  cases r with
  | ok a =>
    have hrest : h'.Balanced (w :: (made a ++ held)) := hout.perm List.perm_middle.symm
    exact fun halways => (hleft halways).release (hkept.append (made a)) hrest
  | error e => exact hleft.release hkept hout

end Rules

/-- A new block is no part of `base`. -/
theorem spares_allocate {block : Block} : Spares always base held block.fields (allocate block) :=
  fun _ hb hext => leaves_of_extends (hext.allocate hb)

theorem spares_leaf {block : Block} (hf : block.fields = []) :
    Spares always base held [] (allocate block) := by
  have hx : Spares always base held block.fields (allocate block) := spares_allocate
  rw [hf] at hx
  exact hx

/-- A live value gets another owner. -/
theorem spares_acquire {w : Word} (hw : ∀ h : Heap, h.Balanced held → h.IsLive w) :
    Spares always base held [] (update (·.acquire w)) :=
  fun h hb hext => leaves_of_extends (hext.acquire hb (hw h hb))

/-! ## New values -/

theorem spares_newBoxed {x : Number} : Spares true base held [] (newBoxed x) :=
  spares_leaf (fields_box x)

theorem spares_newInteger {n : Int64} : Spares true base held [] (newInteger n) := by
  unfold newInteger
  split
  · exact spares_pure _
  · exact spares_newBoxed

theorem spares_newRational {num den : Int64} :
    Spares true base held [] (newRational num den) :=
  Spares.result_bind fun r => by
    cases r with
    | whole n => exact spares_newInteger
    | proper n d => exact spares_newBoxed

theorem spares_newTextBytes {bs : List UInt8} : Spares true base held [] (newTextBytes bs) :=
  spares_leaf rfl

theorem spares_newBuffer {data : List UInt8} : Spares true base held [] (newBuffer data) :=
  spares_leaf rfl

theorem spares_newCharOfCode {code : Int64} :
    Spares true base held [] (newCharOfCode code) := by
  unfold newCharOfCode
  split
  · exact spares_leaf rfl
  · exact spares_throw _

theorem spares_newComposite {shape : Shape} {fields : List Word} :
    Spares true base held fields (newComposite shape fields) := by
  show Spares true base held (Block.composite shape fields).fields _
  exact spares_allocate

theorem spares_nest {shape : Shape} {n : Nat} {w : Word} :
    Spares true base held [w] (nest shape n w) := by
  induction n generalizing w with
  | zero => exact spares_pure w
  | succ n ih => exact spares_newComposite.bind gives_newComposite fun _ => ih

theorem spares_chain {first n : Nat} {w : Word} :
    Spares true base held [w] (chain first n w) := by
  induction n generalizing first w with
  | zero => exact spares_pure w
  | succ n ih =>
    have hnumber : Spares true base (w :: held) [] (newInteger (.ofNat first)) := spares_newInteger
    refine Spares.bind newInteger_keeping hnumber fun _ => ?_
    exact spares_newComposite.bind gives_newComposite fun _ => ih

theorem spares_newRawText (hkept : base.KeptBy held) {data : List UInt8} :
    Spares true base held [] (newRawText data) := by
  refine Spares.bind gives_newBuffer spares_newBuffer fun b => ?_
  exact Spares.thenRelease hkept gives_textOfBuffer (Spares.read_bind fun _ => spares_newTextBytes)

/-! ## Operations that have something to give back -/

/-- A write to a field that fails releases the value it has taken over. -/
theorem spares_setField (hkept : base.KeptBy held) {kind : Kind} {w : Word} {index : UInt64}
    {x : Word} : Spares false base held [x] (setField kind w index x) := by
  intro h hb hext
  unfold setField
  simp only
  split
  · exact nofun
  · exact hext.release hkept hb

theorem spares_bufferResize {w : Word} {left right : Int} :
    Spares true base held [] (bufferResize w left right) :=
  Spares.read_bind fun _ => Spares.result_bind fun _ => spares_newBuffer

/-- The joined buffer is released when the second part cannot be moved into it. -/
theorem spares_bufferConcat (hkept : base.KeptBy held) {x y : Word} :
    Spares false base held [] (bufferConcat x y) := by
  refine Spares.read_bind fun tail =>
    Spares.bind gives_bufferResize spares_bufferResize fun joined => ?_
  have hkeeps : Keeps (joined :: held) [] (do
      let front ← Action.read (·.bufferLength x)
      bufferMove 0 front tail y joined) :=
    Balances.read_bind fun _ => keeps_bufferMove
  have hmove : Spares false base (joined :: held) [] (do
      let front ← Action.read (·.bufferLength x)
      bufferMove 0 front tail y joined) :=
    Spares.read_bind fun _ => (allOrNothing_bufferMove _ _ _ _ _).spares
  exact (Spares.orRelease hkept hkeeps hmove).bind_sure fun _ => sure_pure joined

end Action

open ValueHeap.Action

variable {base : Heap} {held : List Word} {r : Registers}

/-! ## Expressions -/

namespace Expr

mutual

/-- **Building a value spares all that was there**, whether it fails or not. -/
theorem spares_eval {held : List Word} (hkept : base.KeptBy held) (hr : r.HeldBy held) :
    ∀ e : Expr, Spares true base held [] (e.eval r)
  | immediate p => by rw [eval]; exact spares_pure _
  | register name => by
    rw [eval]
    have hlive := hr.isLive_get name
    exact Spares.bind (balances_acquire hlive) (spares_acquire hlive) fun _ => spares_pure _
  | integer n => by rw [eval]; exact spares_newInteger
  | boxed x => by rw [eval]; exact spares_newBoxed
  | rational num den => by rw [eval]; exact spares_newRational
  | text s => by rw [eval]; exact spares_newTextBytes
  | rawText data => by rw [eval]; exact spares_newRawText hkept
  | buffer data => by rw [eval]; exact spares_newBuffer
  | char code => by rw [eval]; exact spares_newCharOfCode
  | composite shape fields => by
    rw [eval]
    exact Spares.bind (balances_evalAll hr fields) (spares_evalAll hkept hr fields) fun _ =>
      spares_newComposite
  | nest shape n inner => by
    rw [eval]
    exact Spares.bind (gives_eval hr inner) (spares_eval hkept hr inner) fun _ => spares_nest
  | chain n inner => by
    rw [eval]
    exact Spares.bind (gives_eval hr inner) (spares_eval hkept hr inner) fun _ => spares_chain

/-- The values that were built before the one that failed are released. -/
theorem spares_evalAll {held : List Word} (hkept : base.KeptBy held) (hr : r.HeldBy held) :
    ∀ es : List Expr, Spares true base held [] (evalAll r es)
  | [] => by rw [evalAll]; exact spares_pure _
  | e :: es => by
    rw [evalAll]
    refine Spares.bind (gives_eval hr e) (spares_eval hkept hr e) fun w => ?_
    have hgives := balances_evalAll (hr.cons w) es
    have hrest := spares_evalAll (hkept.cons w) (hr.cons w) es
    exact Spares.bind hgives.orRelease (Spares.orRelease hkept hgives hrest) fun _ => spares_pure _

end

end Expr

/-! ## Commands -/

theorem PairMaker.spares_run (hkept : base.KeptBy held) {x y : Word} (op : PairMaker) :
    Spares false base held [] (op.run x y) := by
  by_cases hop : op = .bufferConcat
  · rw [hop]
    exact spares_bufferConcat hkept
  · exact (op.allOrNothing_run x y hop).spares

theorem PairChange.spares_run (hkept : base.KeptBy held) {x y : Word} (hy : y ∈ held)
    (op : PairChange) : Spares false base held [] (op.run x y) := by
  cases op with
  | bufferMove srcIndex dstIndex len => exact (allOrNothing_bufferMove _ _ _ x y).spares
  | setField kind index =>
    have hlive (h : Heap) (hb : h.Balanced held) : h.IsLive y := hb.isLive_of_mem hy
    exact Spares.bind (balances_acquire hlive) (spares_acquire hlive) fun _ => spares_setField hkept

namespace Session

theorem spares_withOperand {f : Word → Action Reply} (hkept : base.KeptBy held)
    (hr : r.HeldBy held) (x : Expr) (hgives : ∀ w, Balances (w :: held) [] Reply.owned (f w))
    (hf : ∀ w, Spares false base (w :: held) [] (f w)) :
    Spares false base held [] (withOperand r x f) :=
  Spares.bind (Expr.gives_eval hr x) (Expr.spares_eval hkept hr x) fun w =>
    Spares.thenRelease hkept (hgives w) (hf w)

theorem spares_withOperands {f : Word → Word → Action Reply} (hkept : base.KeptBy held)
    (hr : r.HeldBy held) (x y : Expr)
    (hgives : ∀ a b, Balances (b :: a :: held) [] Reply.owned (f a b))
    (hf : ∀ a b, Spares false base (b :: a :: held) [] (f a b)) :
    Spares false base held [] (withOperands r x y f) :=
  spares_withOperand hkept hr x (fun a => balances_withOperand (hr.cons a) y (hgives a)) fun a =>
    spares_withOperand (hkept.cons a) (hr.cons a) y (hgives a) (hf a)

/-- **A command that fails has spared all that was there.** -/
theorem spares_action (settings : Settings) (hkept : base.KeptBy held) (hr : r.HeldBy held)
    (c : Command) : Spares false base held [] (action settings r c) := by
  cases c with
  | build e => exact (Expr.spares_eval hkept hr e).of_always.map _
  | ask q x =>
    exact spares_withOperand hkept hr x
      (fun _ => balances_ask fun _ _ ha => owned_answer ha) fun _ => spares_read _
  | askPair q x y =>
    exact spares_withOperands hkept hr x y
      (fun _ _ => balances_ask fun _ _ ha => owned_answerPair ha) fun _ _ => spares_read _
  | make op x =>
    exact spares_withOperand hkept hr x
      (fun _ => (op.gives_run List.mem_cons_self).map fun _ => rfl) fun w =>
        (op.allOrNothing_run settings w).spares.map _
  | makePair op x y =>
    exact spares_withOperands hkept hr x y
      (fun _ _ => op.gives_run.map fun _ => rfl) fun a b =>
        (op.spares_run ((hkept.cons a).cons b)).map _
  | change op x =>
    exact spares_withOperand hkept hr x
      (fun _ => op.keeps_run.map fun _ => rfl) fun w =>
        (op.allOrNothing_run w).spares.map _
  | changePair op x y =>
    exact spares_withOperands hkept hr x y
      (fun _ _ => (op.keeps_run List.mem_cons_self).map fun _ => rfl) fun a b =>
        (op.spares_run ((hkept.cons a).cons b) List.mem_cons_self).map _
  | owners x =>
    cases x with
    | register name => exact spares_read _
    | _ =>
      exact spares_withOperand hkept hr _ (fun _ => balances_tell fun _ => rfl) fun _ =>
        spares_read _
  | drop name =>
    have hdrop : Sure true (update (·.release (r.get name))) := fun h =>
      ⟨(), _, rfl, Heap.steps_release h _⟩
    exact (hdrop.bind fun _ => sure_pure _).allOrNothing.spares
  | totals => exact spares_read _
  | blank kind extent => exact (sure_newBlank rfl kind extent).allOrNothing.spares.map _
  | write op x =>
    exact (Expr.spares_eval hkept hr x).of_always.bind_sure fun w =>
      (sure_patchBlock rfl w op.patch).bind fun _ => sure_pure _

/-! ## Sessions -/

/-- No step takes back that there was an allocation. -/
theorem allocations_le_step {n : Nat} {raw : Bool} {h h' : Heap} (hstep : Heap.Step raw h h')
    (hn : n ≤ h.allocations) : n ≤ h'.allocations := by
  cases hstep with
  | allocate block => exact Nat.le_succ_of_le hn
  | blank extent block hraw => exact Nat.le_succ_of_le hn
  | _ => exact hn

/-- A failing command leaves an extension of the heap. -/
theorem extends_exec {s : Session} (hs : s.Sound []) {c : Command} {e : Error}
    (hfail : (s.exec c).1 = .error e) : s.heap.Extends (s.exec c).2.heap := by
  have hleft := spares_action s.settings hs.balanced.keptBy (fun _ hw => hw) c s.heap hs.balanced
    (.refl s.heap)
  unfold exec at hfail ⊢
  rcases hact : action s.settings s.registers c s.heap with ⟨reply, heap⟩
  rw [hact] at hleft hfail
  cases hfail
  exact hleft

/-- A failing command has not dropped a register. -/
theorem registers_exec {s : Session} {c : Command} {e : Error}
    (hfail : (s.exec c).1 = .error e) : (s.exec c).2.registers = s.registers := by
  refine registersAfter_eq fun name hname => ?_
  rw [hname] at hfail
  cases hfail

/-- **Failing commands are atomic.** After any requests, failing ones included, let a command fail, be it
while its operands are built or after. Once the operands are released, every name has the cell it had:
the blocks that were live have their contents and their counts, and no other block is live. The totals of
live blocks and bytes and the registers are what they were; only the number of allocations may have
grown. -/
theorem failing_exec_atomic (settings : Settings) (requests : List Request) (c : Command)
    (e : Error) (hfail : (((start settings).run requests).exec c).1 = .error e) :
    let s := (start settings).run requests
    let s' := (s.exec c).2
    (∀ b, s'.heap.cell? b = s.heap.cell? b) ∧
      s'.heap.liveBlocks = s.heap.liveBlocks ∧
      s'.heap.liveBytes = s.heap.liveBytes ∧
      s'.registers = s.registers ∧
      s.heap.allocations ≤ s'.heap.allocations := by
  intro s s'
  have hs : s.Sound [] := sound_run (sound_start settings) requests
  have hs' : s'.Sound (pending (s.exec c).1) := sound_exec hs c
  rw [hfail] at hs'
  have hsteps : Heap.Steps true s.heap s'.heap :=
    follows_action s.settings s.registers c (fun _ => rfl) s.heap
  have hregisters : s'.registers = s.registers := registers_exec hfail
  have hcells (b : BlockId) : s'.heap.cell? b = s.heap.cell? b := by
    have hb := hs'.balanced
    rw [hregisters] at hb
    exact (extends_exec hs hfail).cell?_eq hs.balanced hb b
  have hcounted : s.heap.Counted := counted_run settings requests
  have hcounted' : s'.heap.Counted := hsteps.preserves (fun _ _ => Heap.counted_step) hcounted
  refine ⟨hcells, ?_, ?_, hregisters,
    hsteps.preserves (fun _ _ => allocations_le_step) (Nat.le_refl _)⟩
  · rw [hcounted'.blocks, hcounted.blocks, Heap.total_congr hcells]
  · rw [hcounted'.bytes, hcounted.bytes, Heap.total_congr hcells]

/-- A new buffer is to be stored behind the last field of a pair. -/
def storeBeyond : Command := .changePair (.setField .tuple 2) (.register "pair") (.buffer [4])

theorem exec_storeBeyond : (paired.exec storeBeyond).1 = .error (.indexOutOfBounds 2 1 2) := by
  rw [paired_eq]
  rfl

theorem failing_exec_atomic_storeBeyond :
    (paired.exec storeBeyond).1 = .error (.indexOutOfBounds 2 1 2) ∧
      (∀ b, (paired.exec storeBeyond).2.heap.cell? b = paired.heap.cell? b) ∧
      (paired.exec storeBeyond).2.heap.liveBlocks = paired.heap.liveBlocks ∧
      (paired.exec storeBeyond).2.heap.liveBytes = paired.heap.liveBytes := by
  obtain ⟨hcells, hblocks, hbytes, -⟩ :=
    failing_exec_atomic (.usual 0x9747b28c 31) pairing storeBeyond _ exec_storeBeyond
  exact ⟨exec_storeBeyond, hcells, hblocks, hbytes⟩

end Session

end ValueHeap
