import Starfish.Interleave
import Starfish.Places
import Starfish.SList
import Starfish.RemotePage.Model

/-!
# Starfish.RemotePage.Stack

Any number of machines push batches and take all batches at the same time.  A step is
one access to shared memory (`Runs`): a thread in a call is what is left of `rpfPush` or
`rpfPopAll`, and the call takes effect with the step in which it returns.  The proof looks
at the points of the two functions that a thread can have reached (`Phase`, `Acts`);
`acts_of_runs` says that the code goes from one to the next.

A push links its batch to the batch that the head names and swaps the head.  When the
swap succeeds the head names the same batch again, whatever happened in between, so the
link is right; nobody reads the link of a batch before it owns the whole stack.  The
generation is not needed for that.
-/

namespace Starfish.RemotePage

open Function RpfMem Prog

attribute [local simp] Prog.next

/-! ## Steps -/

inductive Phase where
  | idle
  /-- `rpf_push` before the load of the head. -/
  | push (owner batch : ℕ)
  /-- Before the store to the link. -/
  | pushLoaded (owner batch old : ℕ)
  /-- Before the swap. -/
  | pushLinked (owner batch old : ℕ)
  /-- `rpf_pop_all` before the load of the head. -/
  | popAll (owner : ℕ)
  /-- Before the swap. -/
  | popLoaded (owner old : ℕ)

/-- The batch that a thread pushes. -/
@[simp] def Phase.batch? : Phase → Option ℕ
  | push _ batch => some batch
  | pushLoaded _ batch _ => some batch
  | pushLinked _ batch _ => some batch
  | _ => none

/-- What `rpf_pop_all` returned, the links at this moment, and the batches it took off the
stack. -/
structure Popped where
  head : ℕ
  links : ℕ → ℕ
  batches : List ℕ

/-- The memory, the allocator's record of batches, the batches that somebody works with,
and for each owner the account of its stack: what was pushed and not yet popped, all
pushes, and what each pop took. -/
structure Shared where
  mem : RpfMem
  live : ℕ → Bool
  owned : List ℕ
  stack : ℕ → List ℕ
  pushed : ℕ → List ℕ
  popped : ℕ → List Popped

/-- A push returns. -/
def Shared.push (s : Shared) (owner batch : ℕ) (mem : RpfMem) : Shared :=
  { s with
    mem
    stack := update s.stack owner (batch :: s.stack owner)
    pushed := update s.pushed owner (batch :: s.pushed owner) }

/-- A pop returns `head`: the batches belong to whoever called it. -/
@[simp] def Shared.popAll (s : Shared) (owner : ℕ) (mem : RpfMem) (head : ℕ) : Shared :=
  { s with
    mem
    owned := s.stack owner ++ s.owned
    stack := update s.stack owner []
    popped := update s.popped owner (⟨head, mem.next, s.stack owner⟩ :: s.popped owner) }

/-- What a thread can do, by the point that it has reached. -/
inductive Acts : Shared → Phase → Shared → Phase → Prop
  | callPush {s : Shared} {owner batch : ℕ} (h : batch ∈ s.owned) :
      Acts s .idle { s with owned := s.owned.erase batch } (.push owner batch)
  | pushLoad {s : Shared} {owner batch : ℕ} :
      Acts s (.push owner batch) s (.pushLoaded owner batch (s.mem.head owner))
  | pushLink {s : Shared} {owner batch old : ℕ} :
      Acts s (.pushLoaded owner batch old) { s with mem := s.mem.setNext batch (rpfDecode old) }
        (.pushLinked owner batch old)
  | pushCas {s : Shared} {owner batch old : ℕ} (hoff : ¬ (batch = 0 ∨ batch > rpfOffMask))
      (h : s.mem.head owner = old) :
      Acts s (.pushLinked owner batch old)
        (s.push owner batch (s.mem.setHead owner (rpfEncode (rpfNextGeneration old) batch))) .idle
  | pushRetry {s : Shared} {owner batch old : ℕ} (hoff : ¬ (batch = 0 ∨ batch > rpfOffMask))
      (h : s.mem.head owner ≠ old) :
      Acts s (.pushLinked owner batch old) s (.push owner batch)
  | callPopAll {s : Shared} {owner : ℕ} : Acts s .idle s (.popAll owner)
  | popNull {s : Shared} {owner : ℕ} (h : rpfDecode (s.mem.head owner) = 0) :
      Acts s (.popAll owner) (s.popAll owner s.mem 0) .idle
  | popLoad {s : Shared} {owner : ℕ} (h : rpfDecode (s.mem.head owner) ≠ 0) :
      Acts s (.popAll owner) s (.popLoaded owner (s.mem.head owner))
  | popCas {s : Shared} {owner old : ℕ} (h : s.mem.head owner = old) :
      Acts s (.popLoaded owner old)
        (s.popAll owner (s.mem.setHead owner (rpfEmptied old)) (rpfDecode old)) .idle
  | popRetry {s : Shared} {owner old : ℕ} (h : s.mem.head owner ≠ old) :
      Acts s (.popLoaded owner old) s (.popAll owner)
  /-- The owner of a batch writes to it. -/
  | use {s : Shared} {batch off : ℕ} (h : batch ∈ s.owned) :
      Acts s .idle { s with mem := s.mem.setNext batch off } .idle
  | kmalloc {s : Shared} {batch : ℕ} (h : s.live batch = false) :
      Acts s .idle { s with
        live := update s.live batch true
        owned := batch :: s.owned } .idle
  | kfree {s : Shared} {batch : ℕ} (h : batch ∈ s.owned) :
      Acts s .idle { s with
        live := update s.live batch false
        owned := s.owned.erase batch } .idle

/-- What a thread runs: nothing, or what is left of its call. -/
inductive Code where
  | idle
  | push (owner batch : ℕ) (c : Prog RpfMem Unit)
  | popAll (owner : ℕ) (c : Prog RpfMem ℕ)

/-- One step of a thread that runs the code. -/
inductive Runs : Shared → Code → Shared → Code → Prop
  | callPush {s : Shared} {owner batch fuel : ℕ} (h : batch ∈ s.owned) :
      Runs s .idle { s with owned := s.owned.erase batch }
        (.push owner batch (rpfPush fuel owner batch))
  | pushStep {s : Shared} {owner batch : ℕ} {c c' : Prog RpfMem Unit} {mem : RpfMem}
      (h : c.next s.mem = some (c', mem)) (hc : c' ≠ pure ()) :
      Runs s (.push owner batch c) { s with mem } (.push owner batch c')
  | pushReturn {s : Shared} {owner batch : ℕ} {c : Prog RpfMem Unit} {mem : RpfMem}
      (h : c.next s.mem = some (pure (), mem)) :
      Runs s (.push owner batch c) (s.push owner batch mem) .idle
  | callPopAll {s : Shared} {owner fuel : ℕ} :
      Runs s .idle s (.popAll owner (rpfPopAll fuel owner))
  | popStep {s : Shared} {owner : ℕ} {c c' : Prog RpfMem ℕ} {mem : RpfMem}
      (h : c.next s.mem = some (c', mem)) (hc : ∀ head, c' ≠ pure head) :
      Runs s (.popAll owner c) { s with mem } (.popAll owner c')
  | popReturn {s : Shared} {owner head : ℕ} {c : Prog RpfMem ℕ} {mem : RpfMem}
      (h : c.next s.mem = some (pure head, mem)) :
      Runs s (.popAll owner c) (s.popAll owner mem head) .idle
  /-- What the owners of batches do with them. -/
  | other {s s' : Shared} (h : Acts s .idle s' .idle) : Runs s .idle s' .idle

/-- No batch is in use and the stacks are empty, at any generation. -/
@[simp] def start {T P : Type} (mem : RpfMem) (idle : P) : Threads T Shared P :=
  ⟨⟨mem, fun _ => false, [], fun _ => [], fun _ => [], fun _ => []⟩, fun _ => idle⟩

/-! ## The steps are those of the code -/

section code

/-- `rpf_push` before the swap, with `n` more passes. -/
def codePushLinked (n owner batch old : ℕ) : Prog RpfMem Unit := do
  bugOn (batch = 0 ∨ batch > rpfOffMask)
  let ok ← casHead owner old (rpfEncode (rpfNextGeneration old) batch)
  if ok then pure () else rpfPush n owner batch

/-- Before the store to the link. -/
def codePushLoaded (n owner batch old : ℕ) : Prog RpfMem Unit := do
  store (·.setNext batch (rpfDecode old))
  codePushLinked n owner batch old

/-- `rpf_pop_all` before the swap. -/
def codePopLoaded (n owner old : ℕ) : Prog RpfMem ℕ := do
  let ok ← casHead owner old (rpfEmptied old)
  if ok then pure (rpfDecode old) else rpfPopAll n owner

theorem rpfPush_succ : rpfPush (n + 1) owner batch = (do
    let old ← read (·.head owner)
    codePushLoaded n owner batch old) := by
  rw [rpfPush, loop, bind_assoc]
  refine congrArg _ (funext fun old => ?_)
  rw [codePushLoaded, bind_assoc]
  refine congrArg _ (funext fun _ => ?_)
  rw [codePushLinked, bind_assoc]
  refine congrArg _ (funext fun _ => ?_)
  rw [bind_assoc]
  refine congrArg _ (funext fun ok => ?_)
  cases ok <;> rfl

theorem rpfPopAll_succ : rpfPopAll (n + 1) owner = (do
    let old ← read (·.head owner)
    if rpfDecode old = 0 then pure 0 else codePopLoaded n owner old) := by
  rw [rpfPopAll, loop, bind_assoc]
  refine congrArg _ (funext fun old => ?_)
  split
  · rfl
  · rw [codePopLoaded, bind_assoc]
    refine congrArg _ (funext fun ok => ?_)
    cases ok <;> rfl

/-- The points of `rpf_push` before it returns. -/
inductive AtPush (owner batch : ℕ) : Phase → Prog RpfMem Unit → Prop
  | push {n : ℕ} : AtPush owner batch (.push owner batch) (rpfPush n owner batch)
  | loaded {n old : ℕ} :
      AtPush owner batch (.pushLoaded owner batch old) (codePushLoaded n owner batch old)
  | linked {n old : ℕ} :
      AtPush owner batch (.pushLinked owner batch old) (codePushLinked n owner batch old)

/-- The points of `rpf_pop_all` before it returns. -/
inductive AtPopAll (owner : ℕ) : Phase → Prog RpfMem ℕ → Prop
  | popAll {n : ℕ} : AtPopAll owner (.popAll owner) (rpfPopAll n owner)
  | loaded {n old : ℕ} : AtPopAll owner (.popLoaded owner old) (codePopLoaded n owner old)

theorem AtPush.ne_pure (h : AtPush owner batch p c) : c ≠ pure () := by
  intro heq
  cases h with
  | @push n => cases n <;> cases heq
  | loaded => cases heq
  | linked =>
    rw [codePushLinked, bugOn] at heq
    split at heq <;> cases heq

theorem AtPopAll.ne_pure (h : AtPopAll owner p c) (head : ℕ) : c ≠ pure head := by
  intro heq
  cases h with
  | @popAll n => cases n <;> cases heq
  | loaded => cases heq

/-- Every step of `rpf_push` is one from point to point, the last one back to its caller. -/
theorem acts_of_push (h : AtPush owner batch p c) (hnext : c.next s.mem = some (c', m)) :
    c' = pure () ∧ Acts s p (s.push owner batch m) .idle ∨
      ∃ p', Acts s p { s with mem := m } p' ∧ AtPush owner batch p' c' := by
  cases h with
  | @push n =>
    cases n with
    | zero => simp [rpfPush, loop] at hnext
    | succ n =>
      rw [rpfPush_succ] at hnext
      obtain ⟨rfl, rfl⟩ := of_next_read_bind hnext
      exact .inr ⟨_, .pushLoad, .loaded⟩
  | @loaded n old =>
    obtain ⟨rfl, rfl⟩ := of_next_store_bind hnext
    exact .inr ⟨_, .pushLink, .linked⟩
  | @linked n old =>
    by_cases hoff : batch = 0 ∨ batch > rpfOffMask
    · rw [codePushLinked, bugOn, if_pos hoff] at hnext
      simp [bug, Bind.bind, Prog.bind] at hnext
    · have hcode : codePushLinked n owner batch old =
          (casHead owner old (rpfEncode (rpfNextGeneration old) batch) >>= fun ok =>
            if ok then pure () else rpfPush n owner batch) := by
        rw [codePushLinked, bugOn, if_neg hoff]
        rfl
      rw [hcode] at hnext
      obtain ⟨heq, rfl, rfl⟩ | ⟨hne, rfl, rfl⟩ := of_next_cas_bind hnext
      · exact .inl ⟨rfl, .pushCas hoff heq⟩
      · exact .inr ⟨_, .pushRetry hoff hne, .push (n := n)⟩

/-- Every step of `rpf_pop_all` is one from point to point; the last one returns the head
that it has taken. -/
theorem acts_of_popAll (h : AtPopAll owner p c) (hnext : c.next s.mem = some (c', m)) :
    (∃ head, c' = pure head ∧ Acts s p (s.popAll owner m head) .idle) ∨
      ∃ p', Acts s p { s with mem := m } p' ∧ AtPopAll owner p' c' := by
  cases h with
  | @popAll n =>
    cases n with
    | zero => simp [rpfPopAll, loop] at hnext
    | succ n =>
      rw [rpfPopAll_succ] at hnext
      obtain ⟨rfl, rfl⟩ := of_next_read_bind hnext
      by_cases hnull : rpfDecode (s.mem.head owner) = 0
      · exact .inl ⟨0, if_pos hnull, .popNull hnull⟩
      · exact .inr ⟨_, .popLoad hnull, by rw [if_neg hnull]; exact .loaded⟩
  | @loaded n old =>
    obtain ⟨heq, rfl, rfl⟩ | ⟨hne, rfl, rfl⟩ := of_next_cas_bind hnext
    · exact .inl ⟨_, rfl, .popCas heq⟩
    · exact .inr ⟨_, .popRetry hne, .popAll (n := n)⟩

/-- The point that a thread has reached. -/
inductive At : Phase → Code → Prop
  | idle : At .idle .idle
  | push (h : AtPush owner batch p c) : At p (.push owner batch c)
  | popAll (h : AtPopAll owner p c) : At p (.popAll owner c)

/-- The code goes from point to point. -/
theorem acts_of_runs (h : At p c) (hruns : Runs s c s' c') : ∃ p', Acts s p s' p' ∧ At p' c' := by
  cases hruns with
  | callPush hmem =>
    cases h
    exact ⟨_, .callPush hmem, .push .push⟩
  | pushStep hnext hc =>
    cases h with
    | push h =>
      obtain ⟨hpure, -⟩ | ⟨p', hacts, hp'⟩ := acts_of_push h hnext
      · exact absurd hpure hc
      · exact ⟨p', hacts, .push hp'⟩
  | pushReturn hnext =>
    cases h with
    | push h =>
      obtain ⟨-, hacts⟩ | ⟨p', -, hp'⟩ := acts_of_push h hnext
      · exact ⟨_, hacts, .idle⟩
      · exact absurd rfl hp'.ne_pure
  | callPopAll =>
    cases h
    exact ⟨_, .callPopAll, .popAll .popAll⟩
  | popStep hnext hc =>
    cases h with
    | popAll h =>
      obtain ⟨head, hpure, -⟩ | ⟨p', hacts, hp'⟩ := acts_of_popAll h hnext
      · exact absurd hpure (hc head)
      · exact ⟨p', hacts, .popAll hp'⟩
  | popReturn hnext =>
    cases h with
    | popAll h =>
      obtain ⟨head, hpure, hacts⟩ | ⟨p', -, hp'⟩ := acts_of_popAll h hnext
      · obtain rfl := ret.inj hpure
        exact ⟨_, hacts, .idle⟩
      · exact absurd rfl (hp'.ne_pure _)
  | other hacts =>
    cases h
    exact ⟨_, hacts, .idle⟩

end code

/-! ## The stack of each owner -/

/-- Who has a batch. -/
inductive Owner (T : Type) where
  | stack (owner : ℕ)
  | client
  | thread (i : T)
  | outside

/-- The stacks of the memory are those of the account, and `own` gives every batch its
place. -/
structure Held {T : Type} (w : Threads T Shared Phase) (own : ℕ → Owner T) : Prop where
  chain : ∀ o, Chain w.mem.mem.next 0 (rpfDecode (w.mem.mem.head o)) (w.mem.stack o)
  nodup : w.mem.owned.Nodup
  stack : ∀ o, Lists own (.stack o) (w.mem.stack o)
  owned : Lists own .client w.mem.owned
  thread : ∀ i x, (w.pc i).batch? = some x ↔ own x = .thread i
  live : ∀ x, w.mem.live x = false ↔ own x = .outside
  /-- A batch that is about to be pushed is linked to what the head named. -/
  link : ∀ i o b old, w.pc i = .pushLinked o b old → w.mem.mem.next b = rpfDecode old
  account : ∀ o, (w.mem.pushed o).Perm (w.mem.stack o ++ (w.mem.popped o).flatMap Popped.batches)
  popped : ∀ o, ∀ e ∈ w.mem.popped o, Chain e.links 0 e.head e.batches

open Phase

section steps

variable {T : Type} [DecidableEq T] {w : Threads T Shared Phase} {own own' : ℕ → Owner T}

section

variable (h : Held w own)
include h

/-- A step of thread `i` leaves the batches of the other threads alone. -/
theorem Held.move (hchain : ∀ o, Chain s'.mem.next 0 (rpfDecode (s'.mem.head o)) (s'.stack o))
    (hnodup : s'.owned.Nodup) (hstack : ∀ o, Lists own' (.stack o) (s'.stack o))
    (howned : Lists own' .client s'.owned)
    (hself : ∀ x, p'.batch? = some x ↔ own' x = .thread i)
    (hother : ∀ x j, j ≠ i → (own' x = .thread j ↔ own x = .thread j))
    (hlive : ∀ x, s'.live x = false ↔ own' x = .outside)
    (hlink : ∀ o b old, p' = .pushLinked o b old → s'.mem.next b = rpfDecode old)
    (hlinks : ∀ x j, j ≠ i → own x = .thread j → s'.mem.next x = w.mem.mem.next x)
    (haccount : ∀ o, (s'.pushed o).Perm (s'.stack o ++ (s'.popped o).flatMap Popped.batches))
    (hpopped : ∀ o, ∀ e ∈ s'.popped o, Chain e.links 0 e.head e.batches) :
    Held (w.move i s' p') own' := by
  have hthread := h.thread
  refine ⟨hchain, hnodup, hstack, howned, by grind, hlive, fun j o b old hj => ?_, haccount,
    hpopped⟩
  by_cases hji : j = i
  · subst hji
    rw [w.move_pc_self] at hj
    exact hlink o b old hj
  · rw [w.move_pc_of_ne hji] at hj
    have hb : own b = .thread j := (h.thread j b).mp (by simp [hj])
    rw [w.move_mem, hlinks b j hji hb]
    exact h.link j o b old hj

theorem Held.look (hbatch : p'.batch? = (w.pc i).batch?)
    (hlink : ∀ o b old, p' ≠ .pushLinked o b old) : Held (w.move i w.mem p') own := by
  refine h.move h.chain h.nodup h.stack h.owned (fun x => ?_) (fun _ _ _ => Iff.rfl) h.live
    (fun o b old hp => absurd hp (hlink o b old)) (fun _ _ _ _ => rfl) h.account h.popped
  rw [hbatch]
  exact h.thread i x

/-- The link of a batch that is on no stack can be anything. -/
theorem Held.setNext (hstack : ∀ o, own batch ≠ .stack o)
    (hthread : ∀ j, own batch = .thread j → j = i) (hbatch : p'.batch? = (w.pc i).batch?)
    (hlink : ∀ o b old, p' = .pushLinked o b old → b = batch ∧ off = rpfDecode old) :
    Held (w.move i { w.mem with mem := w.mem.mem.setNext batch off } p') own := by
  refine h.move (fun o => (h.chain o).update ((h.stack o).notMem (hstack o)) off) h.nodup h.stack
    h.owned (fun x => ?_) (fun _ _ _ => Iff.rfl) h.live (fun o b old hp => ?_)
    (fun x j hj hx => ?_) h.account h.popped
  · rw [hbatch]
    exact h.thread i x
  · obtain ⟨rfl, rfl⟩ := hlink o b old hp
    simp
  · have hne : x ≠ batch := fun heq => hj (hthread j (heq ▸ hx))
    simp [hne]

omit [DecidableEq T] in
theorem Held.ne_thread (hpc : (w.pc i).batch? = none) (x : ℕ) : own x ≠ .thread i := fun hx => by
  rw [← h.thread i x, hpc] at hx
  simp at hx

/-- A batch that a thread gives up, or takes up, when it does not push. -/
theorem Held.setOwned {x : ℕ} {owned : List ℕ} {live : ℕ → Bool}
    (hpc : (w.pc i).batch? = none) (hx : ∀ o, own x ≠ .stack o) (hx' : ∀ j, own x ≠ .thread j)
    (hp : ∀ o, p ≠ .stack o) (hp' : ∀ j, j ≠ i → p ≠ .thread j)
    (hself : ∀ y, p'.batch? = some y ↔ y = x ∧ p = .thread i)
    (hlink : ∀ o b old, p' ≠ .pushLinked o b old)
    (hnodup : owned.Nodup) (howned : Lists (update own x p) .client owned)
    (hlive : ∀ y, live y = false ↔ update own x p y = .outside) :
    Held (w.move i { w.mem with live, owned } p') (update own x p) := by
  refine h.move h.chain hnodup (fun o => (h.stack o).update (hx o) (hp o)) howned (fun y => ?_)
    (fun y j hj => update_eq_iff (hx' j) (hp' j hj) y) hlive
    (fun o b old hp'' => absurd hp'' (hlink o b old)) (fun _ _ _ _ => rfl) h.account h.popped
  have hy := h.ne_thread hpc y
  grind

theorem Held.pushCas
    (hpc : w.pc i = .pushLinked owner batch old) (hoff : ¬ (batch = 0 ∨ batch > rpfOffMask))
    (hhead : w.mem.mem.head owner = old) :
    Held (w.move i (w.mem.push owner batch
      (w.mem.mem.setHead owner (rpfEncode (rpfNextGeneration old) batch))) .idle)
      (update own batch (.stack owner)) := by
  have hown : own batch = .thread i := (h.thread i batch).mp (by simp [hpc])
  simp only [not_or, Nat.not_lt] at hoff
  refine h.move (fun o => ?_) h.nodup (fun o => ?_) (h.owned.update (by simp [hown]) (by simp))
    (fun x => ?_) (fun x j hj => update_eq_iff (by simp [hown, Ne.symm hj]) (by simp) x)
    (fun x => ?_) (by simp) (fun _ _ _ _ => rfl) (fun o => ?_) h.popped
  · by_cases ho : o = owner
    · subst ho
      simp only [Shared.push, setHead_head, setHead_next, update_self,
        rpfDecode_rpfEncode hoff.2]
      refine ⟨rfl, hoff.1, ?_⟩
      rw [h.link i o batch old hpc, ← hhead]
      exact h.chain o
    · simp only [Shared.push, setHead_head, setHead_next, update_of_ne ho]
      exact h.chain o
  · by_cases ho : o = owner
    · subst ho
      simp only [Shared.push, update_self]
      exact (h.stack o).cons batch
    · simp only [Shared.push, update_of_ne ho]
      exact (h.stack o).update (by simp [hown]) (by simpa using Ne.symm ho)
  · by_cases hx : x = batch
    · simp [hx]
    · rw [update_of_ne hx, ← h.thread i x, hpc]
      simpa using Ne.symm hx
  · rw [update_eq_iff (by simp [hown]) (by simp)]
    exact h.live x
  · by_cases ho : o = owner
    · subst ho
      simp only [Shared.push, update_self, List.cons_append]
      exact (h.account o).cons batch
    · simp only [Shared.push, update_of_ne ho]
      exact h.account o

/-- The batches of a stack go to the thread that takes them, with the head of their chain. -/
theorem Held.popAll (hpc : (w.pc i).batch? = none) (hnext : mem.next = w.mem.mem.next)
    (hnull : rpfDecode (mem.head owner) = 0)
    (hother : ∀ o, o ≠ owner → mem.head o = w.mem.mem.head o) :
    ∃ own', Held (w.move i (w.mem.popAll owner mem (rpfDecode (w.mem.mem.head owner))) .idle)
      own' := by
  have hlists := h.stack owner
  have hself := h.ne_thread hpc
  refine ⟨fun x => if x ∈ w.mem.stack owner then .client else own x, h.move (fun o => ?_) ?_
    (fun o x => ?_) (fun x => ?_) (fun x => ?_) (fun x j _ => ?_) (fun x => ?_) (by simp)
    (fun x _ _ _ => congrFun hnext x) (fun o => ?_) fun o e he => ?_⟩
  · by_cases ho : o = owner
    · subst ho
      simp [hnull]
    · simp only [Shared.popAll, hnext, hother o ho, update_of_ne ho]
      exact h.chain o
  · have hapart := fun x hx => hlists.disjoint h.owned (x := x) (by simp) hx
    exact List.nodup_append.mpr ⟨(h.chain owner).nodup, h.nodup,
      fun x hx y hy hxy => hapart x hx (hxy ▸ hy)⟩
  · by_cases ho : o = owner
    · subst ho
      by_cases hx : x ∈ w.mem.stack o
      · simp [hx]
      · simpa [hx] using fun hown => hx (hlists.mem hown)
    · by_cases hx : x ∈ w.mem.stack owner
      · have hown := hlists.own_eq hx
        simp only [Shared.popAll, update_of_ne ho, hx, if_true, h.stack o x, hown]
        simpa using Ne.symm ho
      · simp only [Shared.popAll, update_of_ne ho, hx, if_false, h.stack o x]
  · by_cases hx : x ∈ w.mem.stack owner
    · simp [hx]
    · simp [hx, h.owned x]
  · by_cases hx : x ∈ w.mem.stack owner
    · simp [hx, Phase.batch?]
    · simpa [hx, Phase.batch?] using hself x
  · by_cases hx : x ∈ w.mem.stack owner
    · simp [hx, hlists.own_eq hx]
    · simp [hx]
  · show w.mem.live x = false ↔ _
    rw [h.live x]
    by_cases hx : x ∈ w.mem.stack owner
    · simp [hx, hlists.own_eq hx]
    · simp [hx]
  · by_cases ho : o = owner
    · subst ho
      simpa using h.account o
    · simp only [Shared.popAll, update_of_ne ho]
      exact h.account o
  · by_cases ho : o = owner
    · subst ho
      simp only [Shared.popAll, update_self, List.mem_cons] at he
      obtain rfl | he := he
      · rw [hnext]
        exact h.chain o
      · exact h.popped o e he
    · simp only [Shared.popAll, update_of_ne ho] at he
      exact h.popped o e he

theorem Held.step (hacts : Acts w.mem (w.pc i) s' p') : ∃ own', Held (w.move i s' p') own' := by
  generalize hpc : w.pc i = p at hacts
  cases hacts with
  | @callPush owner batch hmem =>
    have hown := h.owned.own_eq hmem
    refine ⟨_, h.setOwned (p := .thread i) (by simp [hpc]) (by simp [hown])
      (by simp [hown]) (by simp) (fun j hj => by simpa using Ne.symm hj)
      (by simp [eq_comm]) (by simp)
      (h.nodup.erase batch) (h.owned.erase h.nodup (by simp)) fun y => ?_⟩
    rw [update_eq_iff (by simp [hown]) (by simp)]
    exact h.live y
  | pushLoad | pushRetry | callPopAll | popLoad | popRetry =>
    exact ⟨own, h.look (by simp [hpc]) (by simp)⟩
  | popNull hnull =>
    rw [← hnull]
    exact h.popAll (by simp [hpc]) rfl hnull fun _ _ => rfl
  | @pushLink owner batch old =>
    have hown : own batch = .thread i := (h.thread i batch).mp (by simp [hpc])
    refine ⟨own, h.setNext (by simp [hown]) (fun j hj => ?_) (by simp [hpc]) fun o b old' hp => ?_⟩
    · rw [hown] at hj
      simpa using hj.symm
    · obtain ⟨rfl, rfl, rfl⟩ : owner = o ∧ batch = b ∧ old = old' := by simpa using hp
      exact ⟨rfl, rfl⟩
  | pushCas hoff hhead => exact ⟨_, h.pushCas hpc hoff hhead⟩
  | @popCas owner old hhead =>
    subst hhead
    refine h.popAll (by simp [hpc]) rfl ?_ fun o ho => by simp [ho]
    simp [rpfDecode_rpfEmptied]
  | @use batch off hmem =>
    have hown := h.owned.own_eq hmem
    exact ⟨own, h.setNext (by simp [hown]) (fun j hj => by simp [hown] at hj) (by simp [hpc])
      (by simp)⟩
  | @kmalloc batch hfree =>
    have hown := (h.live batch).mp hfree
    refine ⟨_, h.setOwned (p := .client) (by simp [hpc]) (by simp [hown])
      (by simp [hown]) (by simp) (by simp) (by simp) (by simp) ?_
      (h.owned.cons batch) fun y => ?_⟩
    · exact List.nodup_cons.mpr ⟨h.owned.notMem (by simp [hown]), h.nodup⟩
    · have hlive := h.live y
      grind
  | @kfree batch hmem =>
    have hown := h.owned.own_eq hmem
    refine ⟨_, h.setOwned (p := .outside) (by simp [hpc]) (by simp [hown])
      (by simp [hown]) (by simp) (by simp) (by simp) (by simp)
      (h.nodup.erase batch) (h.owned.erase h.nodup (by simp)) fun y => ?_⟩
    have hlive := h.live y
    grind

end

end steps

/-- For each owner the memory holds an acyclic chain of exactly the batches that were
pushed and not yet popped; every push was taken by one pop or is on the stack; and what a
pop returned began the chain of the batches that it took. -/
structure StacksRight (s : Shared) : Prop where
  chain : ∀ o, Chain s.mem.next 0 (rpfDecode (s.mem.head o)) (s.stack o)
  acyclic : ∀ o, (s.stack o).Nodup
  account : ∀ o, (s.pushed o).Perm (s.stack o ++ (s.popped o).flatMap Popped.batches)
  popped : ∀ o, ∀ e ∈ s.popped o, Chain e.links 0 e.head e.batches

theorem held_of_run {T : Type} [DecidableEq T] {mem : RpfMem}
    (hempty : ∀ o, rpfDecode (mem.head o) = 0) {w : Threads T Shared Phase}
    (hrun : Relation.ReflTransGen (Threads.Step Acts) (start mem .idle) w) :
    ∃ own, Held w own := by
  induction hrun with
  | refl =>
    refine ⟨fun _ => .outside, hempty, List.nodup_nil, fun o x => ?_, fun x => ?_, fun i x => ?_,
      fun x => ?_, by simp, fun o => .refl _, by simp⟩
    · simp
    · simp
    · simp
    · simp
  | tail _ hstep ih =>
    obtain ⟨own, h⟩ := ih
    obtain ⟨hacts⟩ := hstep
    exact h.step hacts

/-- Any number of machines run `rpfPush` and `rpfPopAll`: the stacks are right at all times. -/
theorem remote_page_stacks_right {T : Type} [DecidableEq T] {mem : RpfMem}
    (hempty : ∀ o, rpfDecode (mem.head o) = 0) {w : Threads T Shared Code}
    (hrun : Relation.ReflTransGen (Threads.Step Runs) (start mem .idle) w) :
    StacksRight w.mem := by
  obtain ⟨w', hrun', hmem, -⟩ := Threads.exists_run_of_sim At (w := start mem .idle) hrun rfl
    (fun _ => .idle) fun _ _ _ _ _ => acts_of_runs
  obtain ⟨own, h⟩ := held_of_run hempty hrun'
  rw [← hmem]
  exact ⟨h.chain, fun o => (h.chain o).nodup, h.account, h.popped⟩

/-- A machine pushes a batch for machine `1`, which has found its stack empty while the push
was under way and takes the batch then. -/
theorem remote_page_stacks_right_push_and_pop : ∃ w : Threads Bool Shared Code,
    (w.mem.popped 1).map (fun e => (e.head, e.batches)) = [(64, [64]), (0, [])] ∧
      w.mem.pushed 1 = [64] ∧ StacksRight w.mem := by
  have hempty : ∀ o, rpfDecode ((⟨fun _ => 0, fun _ => 0⟩ : RpfMem).head o) = 0 := fun _ => by
    show rpfDecode 0 = 0
    decide
  have hkmalloc : Relation.ReflTransGen (Threads.Step Runs)
      (start ⟨fun _ => 0, fun _ => 0⟩ .idle) _ :=
    .single (.intro (i := false) (.other (@Acts.kmalloc _ 64 rfl)))
  have hpush := hkmalloc.tail (.intro (i := false) (@Runs.callPush _ 1 64 1 (.head _)))
  have hload := hpush.tail (.intro (i := false) (.pushStep rfl nofun))
  have hlink := hload.tail (.intro (i := false) (.pushStep rfl nofun))
  -- machine `true` finds the stack empty
  have hpop := hlink.tail (.intro (i := true) (@Runs.callPopAll _ 1 1))
  have hnull := hpop.tail (.intro (i := true) (.popReturn rfl))
  have hswap := hnull.tail (.intro (i := false) (.pushReturn rfl))
  have hpop' := hswap.tail (.intro (i := true) (@Runs.callPopAll _ 1 1))
  have hload' := hpop'.tail (.intro (i := true) (.popStep rfl nofun))
  have htake := hload'.tail (.intro (i := true) (.popReturn rfl))
  exact ⟨_, rfl, rfl, remote_page_stacks_right hempty htake⟩

end Starfish.RemotePage
