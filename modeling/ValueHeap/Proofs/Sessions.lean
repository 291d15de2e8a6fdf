import ValueHeap.Proofs.Actions
import ValueHeap.Session.Run

/-!
# Counts are exact over whole sessions

Between two requests the only owners outside the heap are the registers. `Session.Sound s extra` says
that the heap of a session is balanced for its registers and for the words `extra`, which belong to an
answer that is not settled yet.

Results:
* `Expr.gives_eval`: an expression gives its value to whoever asked, and if a part of it fails, what
  was built before is released.
* `Session.sound_exec`, `Session.sound_settle`: a command and the settling of its answer keep a session
  sound, whether the command fails or not.
* `Session.sound_run`: so does every list of requests.
* `Session.counts_exact`: after every list of requests the count of each live block is the number of
  registers and of field slots that refer to it.
-/

namespace ValueHeap

open ValueHeap.Action

variable {held : List Word} {r : Registers}

/-- The values in the registers. -/
def Registers.values (r : Registers) : List Word := r.map Prod.snd

theorem Registers.get_cons (n : String) (w : Word) (r : Registers) (name : String) :
    Registers.get ((n, w) :: r) name = if name = n then w else r.get name := by
  unfold Registers.get
  by_cases hn : name = n
  · subst hn
    rw [List.lookup_cons_self, if_pos rfl]
    rfl
  · rw [List.lookup_cons, beq_false_of_ne hn, if_neg hn]

theorem Registers.get_cases (r : Registers) (name : String) :
    r.get name = .void ∨ r.get name ∈ r.values := by
  induction r with
  | nil => exact Or.inl rfl
  | cons entry r ih =>
    obtain ⟨n, w⟩ := entry
    rw [get_cons]
    split
    · exact Or.inr List.mem_cons_self
    · exact ih.imp_right (List.mem_cons_of_mem _)

/-- The registers are among the words that others hold. -/
abbrev Registers.HeldBy (r : Registers) (held : List Word) : Prop := ∀ w ∈ r.values, w ∈ held

theorem Registers.HeldBy.cons (hr : r.HeldBy held) (w : Word) : r.HeldBy (w :: held) :=
  fun x hx => List.mem_cons_of_mem w (hr x hx)

/-- What is in a register is live. -/
theorem Registers.HeldBy.isLive_get (hr : r.HeldBy held) (name : String) (h : Heap)
    (hb : h.Balanced held) : h.IsLive (r.get name) := by
  rcases r.get_cases name with hvoid | hmem
  · rw [hvoid]
    exact nofun
  · exact hb.isLive_of_mem (hr _ hmem)

/-! ## Expressions -/

namespace Action

/-- An answer that is put together from what the steps before it made. -/
theorem Balances.pure_perm {α : Type} {given : List Word} {made : α → List Word} {a : α}
    (hperm : (made a).Perm given) : Balances held given made (Pure.pure a) :=
  fun _ hb => hb.perm (hperm.append_right held)

/-- Integers are built without fail, so a value can be kept meanwhile. -/
theorem newInteger_keeping {n : Int64} {w : Word} :
    Balances held [w] (fun number => [number, w]) (newInteger n) := by
  intro h hb
  have hout : Outcome (w :: held) (fun number => [number]) (newInteger n h) := gives_newInteger h hb
  have hok : ∃ number h', newInteger n h = (.ok number, h') := by
    unfold newInteger
    cases Pattern.ofInt? n with
    | some p => exact ⟨_, _, rfl⟩
    | none => exact ⟨_, _, rfl⟩
  obtain ⟨number, h', heq⟩ := hok
  rw [heq] at hout ⊢
  exact hout

theorem gives_nest {shape : Shape} {n : Nat} {w : Word} : Gives held [w] (nest shape n w) := by
  induction n generalizing w with
  | zero => exact Balances.pure
  | succ n ih => exact gives_newComposite.bind fun _ => ih

theorem gives_chain {first n : Nat} {w : Word} : Gives held [w] (chain first n w) := by
  induction n generalizing first w with
  | zero => exact Balances.pure
  | succ n ih =>
    exact newInteger_keeping.bind fun _ => gives_newComposite.bind fun _ => ih

theorem gives_newRawText {data : List UInt8} : Gives held [] (newRawText data) :=
  gives_newBuffer.bind fun _ => gives_textOfBuffer.thenRelease

end Action

namespace Expr

theorem gives_register (hr : r.HeldBy held) (name : String) :
    Gives held [] ((register name).eval r) := by
  rw [eval]
  exact (balances_acquire (hr.isLive_get name)).bind fun _ => Balances.pure

mutual

/-- **An expression gives its value to whoever asked.** -/
theorem gives_eval {r : Registers} {held : List Word} (hr : r.HeldBy held) :
    ∀ e : Expr, Gives held [] (e.eval r)
  | immediate p => by
    rw [eval]
    exact fun _ hb => Heap.balanced_cons_immediate.mpr hb
  | register name => gives_register hr name
  | integer n => by rw [eval]; exact gives_newInteger
  | boxed x => by rw [eval]; exact gives_newBoxed
  | rational num den => by rw [eval]; exact gives_newRational
  | text s => by rw [eval]; exact gives_newText
  | rawText data => by rw [eval]; exact gives_newRawText
  | buffer data => by rw [eval]; exact gives_newBuffer
  | char code => by rw [eval]; exact gives_newCharOfCode
  | composite shape fields => by
    rw [eval]
    exact (balances_evalAll hr fields).bind fun _ => gives_newComposite
  | nest shape n inner => by
    rw [eval]
    exact (gives_eval hr inner).bind fun _ => gives_nest
  | chain n inner => by
    rw [eval]
    exact (gives_eval hr inner).bind fun _ => gives_chain

/-- The values of a list of expressions are all given, or none of them is. -/
theorem balances_evalAll {r : Registers} {held : List Word} (hr : r.HeldBy held) :
    ∀ es : List Expr, Balances held [] id (evalAll r es)
  | [] => by
    rw [evalAll]
    exact Balances.pure_perm (List.Perm.refl _)
  | e :: es => by
    rw [evalAll]
    refine (gives_eval hr e).bind fun w => ?_
    -- the first value is kept while the others are built
    have hrest := (balances_evalAll (hr.cons w) es).orRelease
    exact hrest.bind fun ws => Balances.pure_perm (List.perm_append_singleton w ws).symm

end

end Expr

/-! ## Commands -/

/-- Every way to make a value gives it to the caller. The operand is only looked at. -/
theorem Maker.gives_run {settings : Settings} {w : Word} (hw : w ∈ held) (op : Maker) :
    Gives held [] (op.run settings w) := by
  cases op with
  | int t op => exact gives_intUnary
  | float t op => exact gives_floatUnary
  | charText => exact gives_charText
  | charSucc => exact gives_charSucc
  | charPred => exact gives_charPred
  | bufferOfText => exact gives_bufferOfText
  | textOfBuffer => exact gives_textOfBuffer
  | bufferCopy => exact gives_bufferCopy
  | bufferSlice start len => exact gives_bufferSlice
  | bufferResize left right => exact gives_bufferResize
  | filled n => exact gives_newFilled hw
  | field kind index => exact gives_getField
  | hash => exact gives_newHash

theorem PairMaker.gives_run {x y : Word} (op : PairMaker) : Gives held [] (op.run x y) := by
  cases op with
  | int t op => exact gives_intBinary
  | intTest t r signed => exact gives_intTest
  | float t op => exact gives_floatBinary
  | floatTest t r => exact gives_floatTest
  | parseInteger => exact gives_parseInteger
  | textConcat => exact gives_textConcat
  | bufferConcat => exact gives_bufferConcat

theorem Change.keeps_run {w : Word} (op : Change) : Keeps held [] (op.run w) := by
  cases op with
  | bufferFill n => exact keeps_bufferFill
  | bufferInt width index value => exact keeps_bufferSet
  | bufferFloat t index pattern => exact keeps_bufferSet

/-- A value that is stored gets an owner of its own first. -/
theorem PairChange.keeps_run {x y : Word} (hy : y ∈ held) (op : PairChange) :
    Keeps held [] (op.run x y) := by
  cases op with
  | bufferMove srcIndex dstIndex len => exact keeps_bufferMove
  | setField kind index =>
    exact (balances_acquire fun _ hb => hb.isLive_of_mem hy).bind fun _ => keeps_setField

/-- The values in an answer, owned by whoever asked. -/
def Reply.owned : Reply → List Word
  | value w => [w]
  | _ => []

namespace Session

variable {α : Type}

theorem balances_withOperand {made : α → List Word} {f : Word → Action α} (hr : r.HeldBy held)
    (x : Expr) (hf : ∀ w, Balances (w :: held) [] made (f w)) :
    Balances held [] made (withOperand r x f) :=
  (Expr.gives_eval hr x).bind fun w => (hf w).thenRelease

theorem balances_withOperands {made : α → List Word} {f : Word → Word → Action α}
    (hr : r.HeldBy held) (x y : Expr) (hf : ∀ a b, Balances (b :: a :: held) [] made (f a b)) :
    Balances held [] made (withOperands r x y f) :=
  balances_withOperand hr x fun a => balances_withOperand (hr.cons a) y fun b => hf a b

theorem balances_ask {f : Heap → Except Error Reply}
    (hf : ∀ h a, f h = .ok a → a.owned = []) : Balances held [] Reply.owned (Action.read f) := by
  intro h hb
  show Outcome held _ (f h, h)
  cases ha : f h with
  | error e => exact hb
  | ok a =>
    show h.Balanced (a.owned ++ held)
    rw [hf h a ha]
    exact hb

theorem balances_tell {f : Heap → Reply} (hf : ∀ h, (f h).owned = []) :
    Balances held [] Reply.owned (Action.read fun h => .ok (f h)) :=
  balances_ask fun h a ha => by
    cases ha
    exact hf h

theorem owned_of_map {x : Except Error α} {f : α → Reply} (hf : ∀ a, (f a).owned = []) {a : Reply}
    (ha : x.map f = .ok a) : a.owned = [] := by
  cases x with
  | error e => cases ha
  | ok b =>
    cases ha
    exact hf b

/-- Questions are answered without values. -/
theorem owned_answer {settings : Settings} {h : Heap} {w : Word} {q : Query} {a : Reply}
    (ha : q.answer settings h w = .ok a) : a.owned = [] := by
  cases q with
  | hash | hashWith seed | display | pretty colour | contents =>
    cases ha
    rfl
  | int t | float t | number | charCode | charValue | textLength | textBytes | textString
  | bufferLength | bufferBytes | bufferInt layout index | bufferFloat t index | fieldCount kind
  | shape kind =>
    exact owned_of_map (fun _ => rfl) ha

theorem owned_answerPair {settings : Settings} {h : Heap} {x y : Word} {q : PairQuery}
    {a : Reply} (ha : q.answer settings h x y = .ok a) : a.owned = [] := by
  cases q with
  | same | identical | sameHash | sameNumber =>
    cases ha
    rfl
  | compare => exact owned_of_map (fun _ => rfl) ha

/-- **What a command does to the owners.** The value in its answer is owned in addition; dropping a
register is the exception, since it takes an owner away. -/
theorem balances_action (settings : Settings) (hr : r.HeldBy held) (c : Command)
    (hc : ∀ name, c ≠ .drop name) : Balances held [] Reply.owned (action settings r c) := by
  cases c with
  | build e => exact (Expr.gives_eval hr e).map fun _ => rfl
  | ask q x =>
    exact balances_withOperand hr x fun w => balances_ask fun h a ha => owned_answer ha
  | askPair q x y =>
    exact balances_withOperands hr x y fun a b => balances_ask fun h a ha => owned_answerPair ha
  | make op x =>
    exact balances_withOperand hr x fun w => (op.gives_run List.mem_cons_self).map fun _ => rfl
  | makePair op x y =>
    exact balances_withOperands hr x y fun a b => op.gives_run.map fun _ => rfl
  | change op x =>
    exact balances_withOperand hr x fun w => op.keeps_run.map fun _ => rfl
  | changePair op x y =>
    exact balances_withOperands hr x y fun a b =>
      (op.keeps_run List.mem_cons_self).map fun _ => rfl
  | owners x =>
    cases x with
    | register name => exact balances_tell fun _ => rfl
    | _ => exact balances_withOperand hr _ fun w => balances_tell fun _ => rfl
  | drop name => exact absurd rfl (hc name)
  | totals => exact balances_tell fun _ => rfl
  | blank kind extent => exact gives_newBlank.map fun _ => rfl
  | write op x =>
    exact (Expr.gives_eval hr x).bind fun w => balances_patchBlock.bind fun _ => Balances.pure

/-! ## Sessions -/

/-- The heap is balanced for the registers and for the words of an unsettled answer, and no name
stands for two registers. -/
structure Sound (s : Session) (extra : List Word) : Prop where
  names : (s.registers.map Prod.fst).Nodup
  balanced : s.heap.Balanced (extra ++ s.registers.values)

/-- The registers without one name. -/
abbrev without (r : Registers) (name : String) : Registers := r.filter fun entry => entry.1 != name

theorem names_without (hn : (r.map Prod.fst).Nodup) (name : String) :
    ((without r name).map Prod.fst).Nodup :=
  (List.filter_sublist.map Prod.fst).nodup hn

/-- The value of a register is owned apart from those of the others. -/
theorem count_values (hn : (r.map Prod.fst).Nodup) (name : String) (b : BlockId) :
    r.values.count (.reference b) =
      [r.get name].count (.reference b) + (without r name).values.count (.reference b) := by
  induction r with
  | nil => rfl
  | cons entry r ih =>
    obtain ⟨n, w⟩ := entry
    rw [List.map_cons, List.nodup_cons] at hn
    rw [Registers.get_cons]
    by_cases hname : name = n
    · subst hname
      have hrest : without ((name, w) :: r) name = r := by
        rw [without, List.filter_cons_of_neg (by simp)]
        refine List.filter_eq_self.mpr fun entry hentry => bne_iff_ne.mpr fun heq => ?_
        exact hn.1 (List.mem_map.mpr ⟨entry, hentry, heq⟩)
      rw [if_pos rfl, hrest, ← List.count_append]
      rfl
    · have hrest : without ((n, w) :: r) name = (n, w) :: without r name :=
        List.filter_cons_of_pos (bne_iff_ne.mpr (Ne.symm hname))
      rw [if_neg hname, hrest]
      show (w :: Registers.values r).count _ = _ + (w :: (without r name).values).count _
      have hall := List.count_cons (a := Word.reference b) (b := w) (l := Registers.values r)
      have hothers :=
        List.count_cons (a := Word.reference b) (b := w) (l := (without r name).values)
      rw [hall, hothers, ih hn.2]
      omega

/-- Taking a register out leaves its value to whoever took it. -/
theorem Sound.take {s : Session} {extra : List Word} (hs : s.Sound extra) (name : String) :
    s.heap.Balanced (s.registers.get name :: (extra ++ (without s.registers name).values)) := by
  refine hs.balanced.congr fun b => ?_
  rw [← List.singleton_append, List.count_append, List.count_append, List.count_append,
    count_values hs.names name b]
  omega

/-- The values in the answer of a command, failed ones included. -/
def pending : Except Error Reply → List Word
  | .ok a => a.owned
  | .error _ => []

theorem registersAfter_eq {c : Command} (hc : ∀ name, c ≠ .drop name) : registersAfter r c = r := by
  cases c with
  | drop name => exact absurd rfl (hc name)
  | _ => rfl

/-- **One command.** -/
theorem sound_exec {s : Session} (hs : s.Sound []) (c : Command) :
    (s.exec c).2.Sound (pending (s.exec c).1) := by
  by_cases hdrop : ∃ name, c = .drop name
  · obtain ⟨name, rfl⟩ := hdrop
    exact ⟨names_without hs.names name, (hs.take name).release⟩
  · have hc : ∀ name, c ≠ .drop name := fun name heq => hdrop ⟨name, heq⟩
    have hout := balances_action s.settings (fun _ hw => hw) c hc s.heap hs.balanced
    unfold exec
    rcases hact : action s.settings s.registers c s.heap with ⟨reply, heap⟩
    rw [hact] at hout
    simp only [registersAfter_eq hc]
    refine ⟨hs.names, ?_⟩
    cases reply with
    | ok a => exact hout
    | error e => exact hout

theorem sound_keep {s : Session} {w : Word} (hs : s.Sound [w]) (name : String) :
    (s.keep name w).Sound [] where
  names := by
    refine List.nodup_cons.mpr ⟨fun hmem => ?_, names_without hs.names name⟩
    obtain ⟨entry, hentry, heq⟩ := List.mem_map.mp hmem
    exact bne_iff_ne.mp (List.mem_filter.mp hentry).2 heq
  balanced := (hs.take name).release

/-- **The settling of an answer.** -/
theorem sound_settle {s : Session} {reply : Except Error Reply} (hs : s.Sound (pending reply))
    (target : Option String) : (s.settle target reply).Sound [] := by
  cases reply with
  | error e => exact hs
  | ok a =>
    cases a with
    | value w =>
      cases target with
      | some name => exact sound_keep hs name
      | none => exact ⟨hs.names, hs.balanced.release⟩
    | _ => exact hs

theorem sound_serve {s : Session} (hs : s.Sound []) (q : Request) : (s.serve q).Sound [] :=
  sound_settle (sound_exec hs q.command) q.target

/-- **Every list of requests** keeps a session sound. -/
theorem sound_run {s : Session} (hs : s.Sound []) (requests : List Request) :
    (s.run requests).Sound [] := by
  induction requests generalizing s with
  | nil => exact hs
  | cons q qs ih => exact ih (sound_serve hs q)

theorem sound_start (settings : Settings) : (start settings).Sound [] :=
  ⟨List.nodup_nil, Heap.balanced_empty settings.address⟩

/-- The registers that refer to a block. -/
def handles (s : Session) (b : BlockId) : Nat := s.registers.values.count (.reference b)

/-- **Counts are exact.** After any requests, failing ones included, every live block has as many
owners as there are registers and field slots of live blocks that refer to it, and at least one. So
no register and no field refers to a freed block, and no owner was ever added to or taken from a block
without owners. -/
theorem counts_exact (settings : Settings) (requests : List Request) :
    let s := (start settings).run requests
    (∀ b c, s.heap.cell? b = some c → 1 ≤ c.count ∧ c.count = s.handles b + s.heap.slots b) ∧
      (∀ w ∈ s.registers.values, s.heap.IsLive w) ∧
      (∀ a, ∀ w ∈ s.heap.fieldsOf a, s.heap.IsLive w) ∧
      s.heap.faults = 0 := by
  have hs := sound_run (sound_start settings) requests
  refine ⟨fun b c hc => ⟨hs.balanced.count_pos b c hc, ?_⟩, fun w hw => hs.balanced.isLive_of_mem hw,
    fun a w hw => hs.balanced.isLive_of_field hw, hs.balanced.no_faults⟩
  have heq := hs.balanced.count_eq b
  rw [Heap.count_of_cell? hc] at heq
  exact heq

/-! ## Building into a register -/

/-- A value that is built into a register that holds nothing. -/
theorem serve_build {s : Session} {e : Expr} {name : String} {w : Word} {h : Heap}
    (he : e.eval s.registers s.heap = (.ok w, h)) (hname : s.registers.get name = .void) :
    s.serve ⟨.build e, some name⟩ =
      ⟨h, (name, w) :: s.registers.filter fun entry => entry.1 != name, s.settings⟩ := by
  have hbuilt : action s.settings s.registers (.build e) s.heap = (.ok (.value w), h) :=
    bind_of_ok (k := fun a => Pure.pure (Reply.value a)) he
  have hexec : s.exec (.build e) = (.ok (.value w), ⟨h, s.registers, s.settings⟩) := by
    rw [exec, hbuilt]
    rfl
  rw [serve, hexec]
  show keep name w ⟨h, s.registers, s.settings⟩ = _
  rw [keep, hname, Word.void, Heap.release_immediate]

end Session

end ValueHeap
