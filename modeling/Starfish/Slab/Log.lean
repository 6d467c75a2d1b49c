import Starfish.Interleave
import Starfish.Slab.Runs

/-!
# Starfish.Slab.Log

Slab calls of many CPUs at the same time, and the log records they share.  A
pool is locked by its CPU and order, but there is one log record for a CPU, and
a free uses the record of the CPU that owns the slab, whichever CPU executes
it.

Every call has the same shape: some code that ends with the choice of a slab,
`slab_log_begin`, the stores that the record describes, `slab_log_end`, and some
code after it.  A `Phase` is how far a call has come, and what it has written
into its record.
-/

namespace Starfish.Slab

open Relation

open Function (update update_eq_self update_idem update_of_ne update_self)
open Prog

attribute [local simp] Prog.bind

/-! ## The shape of the calls -/

/-- The logged part of a call: the pool whose CPU gives the record, the slab and
the operation that are recorded, the code up to `slab_log_end` and the code
after it. -/
structure Section where
  key : PoolKey
  op : SlabOp
  slab : ℕ
  inside : Prog SlabMem Unit
  after : Prog SlabMem Unit

/-- The rest of a call from `slab_log_begin` on, if it comes to that. -/
@[simp] def Section.code : Option Section → Prog SlabMem Unit
  | none => pure ()
  | some w => do
    slabLogBegin w.key.machine w.key.cpu w.slab w.op
    w.inside
    slabLogEnd w.key.machine w.key.cpu
    w.after

/-- The calls: `alloc_in_cxl_slab_impl` on a CPU, with what the page allocator
has to give, and `free_in_cxl_slab_local` on a machine. -/
inductive Call where
  | alloc (pages : Option ℕ) (mid cpu order : ℕ)
  | free (mid addr : ℕ)

/-- The code of a call. -/
def Call.code : Call → Prog SlabMem Unit
  | alloc pages mid cpu order => do
    let _ ← allocInCxlSlabImpl pages mid cpu order
    pure ()
  | free mid addr => freeInCxlSlabLocal mid addr

/-- The stores of an allocation that its record describes. -/
def takeInside (k : PoolKey) (slab freeList : ℕ) : Prog SlabMem Unit := do
  let nextSlot ← read (·.nextFree freeList)
  store fun m => m.setHeader slab { m.header slab with freeListHead := nextSlot }
  store fun m => m.setHeader slab
    { m.header slab with
      currentFreeCnt := ((m.header slab).currentFreeCnt + (2 ^ 16 - 1)) % 2 ^ 16 }
  let cnt ← read fun m => (m.header slab).currentFreeCnt
  when (cnt = 0) do
    chooseNewCurrentSlab k
    onLinks (listAppend (.slab slab) (.fullList k))

/-- An allocation from `slab`, up to its record. -/
def takeBefore (k : PoolKey) (slab : ℕ) : Prog SlabMem (Option Section) := do
  let freeList ← read fun m => (m.header slab).freeListHead
  bugOn (freeList = 0)
  pure (some ⟨k, .alloc, slab, takeInside k slab freeList, unlock k⟩)

/-- The stores of a free that its record describes. -/
def putInside (slab addr : ℕ) : Prog SlabMem Unit := do
  store fun m => m.setNextFree addr (m.header slab).freeListHead
  store fun m => m.setHeader slab { m.header slab with freeListHead := addr }
  store fun m => m.setHeader slab
    { m.header slab with currentFreeCnt := ((m.header slab).currentFreeCnt + 1) % 2 ^ 16 }

/-- The logged part of a free. -/
def putSection (mid : ℕ) (k : PoolKey) (slab addr : ℕ) : Section where
  key := k
  op := .free
  slab := slab
  inside := putInside slab addr
  after := do
    tryReturnSlabToBuddy mid slab k.order
    unlock k

/-- A call up to its record. -/
def Call.before : Call → Prog SlabMem (Option Section)
  | alloc pages mid cpu order => do
    bugOn (cpu ≥ platCpuNum)
    let k : PoolKey := ⟨mid, cpu, order⟩
    lock k
    let currentSlab ← read (·.currentSlab k)
    if currentSlab = 0 then do
      let newSlab ← initSlabCache pages mid order cpu
      if newSlab = 0 then do
        unlock k
        pure none
      else do
        store (·.setCurrentSlab k newSlab)
        takeBefore k newSlab
    else
      takeBefore k currentSlab
  | free mid addr => do
    let slab ← read (·.pageSlab (addr / pageSize))
    let k ← read (·.poolOf mid slab)
    bugOn (k.cpu ≥ platCpuNum)
    lock k
    tryInsertFullSlabToPartial mid slab
    pure (some (putSection mid k slab addr))

theorem takeSlot_eq (k : PoolKey) (slab : ℕ) :
    (do let _ ← takeSlot k slab; pure ()) = takeBefore k slab >>= Section.code := by
  simp [takeSlot, takeBefore, takeInside, bind_assoc]

/-- A call is its part before the record followed by the logged part. -/
theorem Call.code_eq (c : Call) : c.code = c.before >>= Section.code := by
  cases c with
  | alloc pages mid cpu order =>
    simp only [code, before, allocInCxlSlabImpl, bind_assoc]
    congr 1
    funext _
    congr 1
    funext _
    congr 1
    funext currentSlab
    by_cases hcur : currentSlab = 0
    · simp only [hcur, if_true, bind_assoc]
      congr 1
      funext newSlab
      by_cases hnew : newSlab = 0
      · simp [hnew]
      · simp [hnew, ← takeSlot_eq]
    · simp [hcur, ← takeSlot_eq]
  | free mid addr =>
    simp [code, before, freeInCxlSlabLocal, putSlot, putSection, putInside, bind_assoc]

/-! ## Phases -/

/-- How far a call has come: before its record, with some of the four stores of
`slab_log_begin` done, between that and `slab_log_end`, or behind it.  `head`
and `cnt` are what it has put into the record. -/
inductive Phase where
  | before (c : Prog SlabMem (Option Section))
  | slabStored (w : Section)
  | headStored (w : Section) (head : ℕ)
  | cntStored (w : Section) (head cnt : ℕ)
  | inside (w : Section) (head cnt : ℕ) (c : Prog SlabMem Unit)
  | after (c : Prog SlabMem Unit)

/-- A store to the record of a logged part. -/
def SlabMem.setLogOf (m : SlabMem) (w : Section) (f : SlabCpuLog → SlabCpuLog) : SlabMem :=
  m.setCpuLog w.key.machine w.key.cpu (f (m.cpuLogs w.key.machine w.key.cpu))

namespace Section

/-- The call from `slab_log_end` on. -/
def close (w : Section) : Prog SlabMem Unit := do
  slabLogEnd w.key.machine w.key.cpu
  w.after

/-- The call from the last store of `slab_log_begin` on. -/
def storeOp (w : Section) : Prog SlabMem Unit := do
  store fun m => m.setLogOf w fun log => { log with op := w.op }
  w.inside
  w.close

/-- The call from the third store of `slab_log_begin` on. -/
def storeCnt (w : Section) : Prog SlabMem Unit := do
  store fun m => m.setLogOf w fun log => { log with oldFreeCnt := (m.header w.slab).currentFreeCnt }
  w.storeOp

/-- The call from the second store of `slab_log_begin` on. -/
def storeHead (w : Section) : Prog SlabMem Unit := do
  store fun m => m.setLogOf w fun log => { log with oldFreeHead := (m.header w.slab).freeListHead }
  w.storeCnt

end Section

namespace Phase

/-- The code that is left of a call. -/
def code : Phase → Prog SlabMem Unit
  | before c => c >>= Section.code
  | slabStored w => w.storeHead
  | headStored w _ => w.storeCnt
  | cntStored w _ _ => w.storeOp
  | inside w _ _ c => c >>= fun _ => w.close
  | after c => c

/-- One step of a call. -/
@[simp] def next : Phase → SlabMem → Option (Phase × SlabMem)
  | before (.ret (some w)), m =>
    some (slabStored w, m.setLogOf w fun log => { log with slabAddr := w.slab })
  | before c, m => (c.next m).map fun q => (before q.1, q.2)
  | slabStored w, m =>
    some (headStored w (m.header w.slab).freeListHead,
      m.setLogOf w fun log => { log with oldFreeHead := (m.header w.slab).freeListHead })
  | headStored w head, m =>
    some (cntStored w head (m.header w.slab).currentFreeCnt,
      m.setLogOf w fun log => { log with oldFreeCnt := (m.header w.slab).currentFreeCnt })
  | cntStored w head cnt, m =>
    some (inside w head cnt w.inside, m.setLogOf w fun log => { log with op := w.op })
  | inside w _ _ (.ret ()), m => some (after w.after, m.setLogOf w fun log => { log with op := .none })
  | inside w head cnt c, m => (c.next m).map fun q => (inside w head cnt q.1, q.2)
  | after c, m => (c.next m).map fun q => (after q.1, q.2)

/-- Phases are only names for the steps of the code: a call in some phase takes
the steps that its code takes. -/
theorem next_code (p : Phase) (m : SlabMem) :
    p.code.next m = (p.next m).map fun q => (q.1.code, q.2) := by
  cases p with
  | before c =>
    cases c with
    | ret o =>
      cases o with
      | none => rfl
      | some w => rfl
    | halt => rfl
    | get k => rfl
    | act ready f k =>
      by_cases hr : ready m = true
      · simp [code, Bind.bind, Prog.next, hr]
      · simp [code, Bind.bind, Prog.next, hr]
  | slabStored w => rfl
  | headStored w head => rfl
  | cntStored w head cnt => rfl
  | inside w head cnt c =>
    cases c with
    | ret a => rfl
    | halt => rfl
    | get k => rfl
    | act ready f k =>
      by_cases hr : ready m = true
      · simp [code, Bind.bind, Prog.next, hr]
      · simp [code, Bind.bind, Prog.next, hr]
  | after c => simp [code, Function.comp_def]

/-- The log record that a call is using: the one it has begun and not ended. -/
@[simp] def record : Phase → Option (ℕ × ℕ)
  | slabStored w | headStored w _ | cntStored w _ _ | inside w _ _ _ => some (w.key.machine, w.key.cpu)
  | _ => none

/-- The log record that the next step begins. -/
def begins : Phase → Option (ℕ × ℕ)
  | before (.ret (some w)) => some (w.key.machine, w.key.cpu)
  | _ => none

theorem record_ne_of_begins (p : Phase) (h : p.begins = some r) : p.record ≠ some r := by
  cases p with
  | before c => simp
  | _ => simp [begins] at h

/-- The call is between `slab_log_begin` and `slab_log_end`. -/
def Inside : Phase → Prop
  | inside _ _ _ _ => True
  | _ => False

/-- The next step is `slab_log_end`. -/
def Ends : Phase → Prop
  | inside _ _ _ (.ret _) => True
  | _ => False

/-- The call has its own log record: the record that it began names its slab and
operation and holds what the call has put into it. -/
def Recorded (m : SlabMem) : Phase → Prop
  | inside w head cnt _ => m.cpuLogs w.key.machine w.key.cpu = ⟨w.op, cnt, w.slab, head⟩
  | _ => False

end Phase

/-! ## Calls at the same time -/

/-- The memory without locks and log records, which is what the calls are there
to change. -/
def SameData (m t : SlabMem) : Prop :=
  t.header = m.header ∧ t.links = m.links ∧ t.nextFree = m.nextFree ∧ t.pageSlab = m.pageSlab ∧
    t.currentSlab = m.currentSlab ∧ t.taken = m.taken

/-- A call that is being executed, and whether its effects are partly stored:
it has changed the data, and has not come to `slab_log_end` since. -/
structure Activity where
  phase : Phase
  partly : Prop

/-- The memory and the calls, any number of them. -/
structure Kernel where
  mem : SlabMem
  call : ℕ → Activity

namespace Kernel

/-- The calls are about to start. -/
@[simp] def start (m : SlabMem) (calls : ℕ → Call) : Kernel where
  mem := m
  call := fun i => ⟨.before (calls i).before, False⟩

/-- Call `i` takes a step. -/
inductive Step (i : ℕ) : Kernel → Kernel → Prop
  | mk {s : Kernel} {p : Phase} {m : SlabMem} (h : (s.call i).phase.next s.mem = some (p, m)) :
    Step i s ⟨m, update s.call i
      ⟨p, ((s.call i).partly ∨ ¬ SameData s.mem m) ∧ ¬ (s.call i).phase.Ends⟩⟩

/-- Call `i` does not begin a log record that another call is using. -/
def Exclusive (i : ℕ) (s : Kernel) : Prop :=
  ∀ r, (s.call i).phase.begins = some r → ∀ j, (s.call j).phase.record ≠ some r

end Kernel

/-- What a call finds until it begins its record: the pool of an allocation has a current slab,
and the slab of an object that is freed is not full. -/
def Call.Ready (m : SlabMem) : Call → Prop
  | alloc _ mid cpu order => m.currentSlab ⟨mid, cpu, order⟩ ≠ 0
  | free _ addr => (m.header (m.pageSlab (addr / pageSize))).currentFreeCnt ≠ 0

/-- What a call finds behind its record: the slab of an object that is freed is not left free. -/
def Call.Leaving (m : SlabMem) : Call → Prop
  | alloc _ _ _ _ => True
  | free _ addr => (m.header (m.pageSlab (addr / pageSize))).currentFreeCnt ≠
      (m.header (m.pageSlab (addr / pageSize))).totalFreeCnt

/-- The condition on a call and the memory before its next step. -/
def Call.Careful (c : Call) (m : SlabMem) : Phase → Prop
  | .before _ => c.Ready m
  | .after _ => c.Leaving m
  | _ => True

/-- The steps of calls that share no record and need no store outside of it. -/
def Kernel.CarefulStep (calls : ℕ → Call) (s t : Kernel) : Prop :=
  ∃ i, Kernel.Step i s t ∧ Kernel.Exclusive i s ∧ (calls i).Careful s.mem (s.call i).phase

/-! ## Careful calls touch nothing but locks outside their records -/

/-- What the stores that a record describes leave alone. -/
def KeepsPages (m t : SlabMem) : Prop := t.cpuLogs = m.cpuLogs ∧ t.pageSlab = m.pageSlab

section inside

theorem within_onLinks {α : Type} {c : Prog (Links SlabNode) α} :
    (onLinks c).Within KeepsPages fun _ => True := within_zoom fun _ _ => ⟨rfl, rfl⟩

theorem within_listEntry {n : SlabNode} : (listEntry n).Within KeepsPages fun _ => True := by
  cases n <;> trivial

theorem within_chooseNewCurrentSlab : (chooseNewCurrentSlab k).Within KeepsPages fun _ => True := by
  refine within_read_bind fun L => within_ite ?_ ?_
  · exact within_store (fun _ => ⟨rfl, rfl⟩) trivial
  · exact within_seq within_listEntry fun _ =>
      within_store_bind (fun _ => ⟨rfl, rfl⟩) within_onLinks

theorem within_takeInside : (takeInside k slab freeList).Within KeepsPages fun _ => True := by
  refine within_read_bind fun _ => within_store_bind (fun _ => ⟨rfl, rfl⟩)
    (within_store_bind (fun _ => ⟨rfl, rfl⟩) (within_read_bind fun _ => within_when ?_ trivial))
  exact within_seq within_chooseNewCurrentSlab fun _ => within_onLinks

theorem within_putInside : (putInside slab addr).Within KeepsPages fun _ => True :=
  within_store_bind (fun _ => ⟨rfl, rfl⟩) (within_store_bind (fun _ => ⟨rfl, rfl⟩)
    (within_store (fun _ => ⟨rfl, rfl⟩) trivial))

end inside

/-- Neither the data nor the log records change. -/
def OnlyLocks (m t : SlabMem) : Prop := SameData m t ∧ t.cpuLogs = m.cpuLogs

theorem onlyLocks_refl (m : SlabMem) : OnlyLocks m m := ⟨⟨rfl, rfl, rfl, rfl, rfl, rfl⟩, rfl⟩

/-- The code changes only locks, if `P` holds whenever it reads, and returns what `Q` allows. -/
def Sparing {α : Type} (P : SlabMem → Prop) (Q : α → Prop) : Prog SlabMem α → Prop
  | .ret a => Q a
  | .halt => True
  | .get k => ∀ m, P m → Sparing P Q (k m)
  | .act _ f k => ∀ m, OnlyLocks m (f m) ∧ Sparing P Q (k m)

section sparing

variable {α : Type} {P : SlabMem → Prop} {Q : α → Prop} {c c' : Prog SlabMem α} {m m' : SlabMem}
  {pg : ℕ → ℕ}

theorem Sparing.next (h : Sparing P Q c) (hm : P m) (hn : c.next m = some (c', m')) :
    Sparing P Q c' ∧ OnlyLocks m m' := by
  cases c with
  | ret | halt => simp at hn
  | get k =>
    obtain ⟨rfl, rfl⟩ : k m = c' ∧ m = m' := by simpa using hn
    exact ⟨h m hm, onlyLocks_refl m⟩
  | act ready f k =>
    by_cases hr : ready m = true
    · obtain ⟨rfl, rfl⟩ : k m = c' ∧ f m = m' := by simpa [hr] using hn
      exact ⟨(h m).2, (h m).1⟩
    · simp [hr] at hn

theorem sparing_read_bind {f : SlabMem → β} {g : β → Prog SlabMem α}
    (h : ∀ m, P m → Sparing P Q (g (f m))) : Sparing P Q (read f >>= g) := h

theorem sparing_bugOn_bind {p : Prop} [Decidable p] {g : Unit → Prog SlabMem α}
    (h : Sparing P Q (g ())) : Sparing P Q (bugOn p >>= g) := by
  by_cases hp : p
  · simp [bugOn, hp, bug, Bind.bind, Sparing]
  · simpa [bugOn, hp, Bind.bind] using h

theorem sparing_lock_bind {g : Unit → Prog SlabMem α} (h : Sparing P Q (g ())) :
    Sparing P Q (lock k >>= g) := fun _ => ⟨⟨⟨rfl, rfl, rfl, rfl, rfl, rfl⟩, rfl⟩, h⟩

theorem sparing_unlock {Q : Unit → Prop} (h : Q ()) : Sparing P Q (unlock k) :=
  fun _ => ⟨⟨⟨rfl, rfl, rfl, rfl, rfl, rfl⟩, rfl⟩, h⟩

/-- The logged part of the call `c` leaves the pages of the slabs alone, and what is left behind
it changes only locks. -/
def Section.Spares (pg : ℕ → ℕ) (c : Call) (w : Section) : Prop :=
  w.inside.Within KeepsPages (fun _ => True) ∧
    Sparing (fun m => m.pageSlab = pg ∧ c.Leaving m) (fun _ => True) w.after

/-- A careful call changes only locks outside its record. -/
theorem Call.sparing_before (c : Call) (pg : ℕ → ℕ) :
    Sparing (fun m => m.pageSlab = pg ∧ c.Ready m) (fun o => ∀ w ∈ o, w.Spares pg c) c.before := by
  cases c with
  | alloc pages mid cpu order =>
    refine sparing_bugOn_bind (sparing_lock_bind (sparing_read_bind fun m hm => ?_))
    rw [if_neg hm.2]
    refine sparing_read_bind fun m _ => sparing_bugOn_bind ?_
    rintro _ ⟨⟩
    exact ⟨within_takeInside, sparing_unlock trivial⟩
  | free mid addr =>
    refine sparing_read_bind fun m hm => sparing_read_bind fun _ _ => sparing_bugOn_bind
      (sparing_lock_bind ?_)
    rw [tryInsertFullSlabToPartial, bind_assoc]
    refine sparing_read_bind fun m' hm' => ?_
    obtain ⟨rfl, -⟩ := hm
    have hcnt : (m'.header (m.pageSlab (addr / pageSize))).currentFreeCnt ≠ 0 := by
      rw [← hm'.1]
      exact hm'.2
    rw [when, if_neg hcnt]
    rintro _ ⟨⟩
    refine ⟨within_putInside, ?_⟩
    simp only [putSection, tryReturnSlabToBuddy, bind_assoc]
    refine sparing_read_bind fun _ _ => sparing_bugOn_bind (sparing_read_bind fun t ht => ?_)
    have hstays : (t.header (m.pageSlab (addr / pageSize))).currentFreeCnt ≠
        (t.header (m.pageSlab (addr / pageSize))).totalFreeCnt := by
      rw [← ht.1]
      exact ht.2
    rw [when, if_neg hstays]
    exact sparing_unlock trivial

end sparing

/-! ## Records that nobody else begins -/

namespace Phase

variable {p p' : Phase} {m m' : SlabMem} {r : ℕ × ℕ}

/-- What is left of call `c` changes only locks outside the record. -/
def Spares (pg : ℕ → ℕ) (c : Call) : Phase → Prop
  | before p => Sparing (fun m => m.pageSlab = pg ∧ c.Ready m) (fun o => ∀ w ∈ o, w.Spares pg c) p
  | slabStored w | headStored w _ | cntStored w _ _ => w.Spares pg c
  | inside w _ _ p => p.Within KeepsPages (fun _ => True) ∧ w.Spares pg c
  | after p => Sparing (fun m => m.pageSlab = pg ∧ c.Leaving m) (fun _ => True) p

/-- The record holds what the call has put into it so far. -/
@[simp] def Filled (m : SlabMem) : Phase → Prop
  | before _ | after _ => True
  | slabStored w => (m.cpuLogs w.key.machine w.key.cpu).slabAddr = w.slab
  | headStored w head =>
    (m.cpuLogs w.key.machine w.key.cpu).slabAddr = w.slab ∧
      (m.cpuLogs w.key.machine w.key.cpu).oldFreeHead = head
  | cntStored w head cnt =>
    (m.cpuLogs w.key.machine w.key.cpu).slabAddr = w.slab ∧
      (m.cpuLogs w.key.machine w.key.cpu).oldFreeHead = head ∧
      (m.cpuLogs w.key.machine w.key.cpu).oldFreeCnt = cnt
  | inside w head cnt _ => m.cpuLogs w.key.machine w.key.cpu = ⟨w.op, cnt, w.slab, head⟩

/-- Only the record that is in use matters. -/
theorem Filled.congr (h : p.Filled m)
    (hlog : ∀ r, p.record = some r → m'.cpuLogs r.1 r.2 = m.cpuLogs r.1 r.2) : p.Filled m' := by
  cases p with
  | before c => trivial
  | slabStored | headStored | cntStored | inside => simpa only [Filled, hlog _ rfl] using h
  | after c => trivial

@[simp] theorem setLogOf_self (w : Section) (f : SlabCpuLog → SlabCpuLog) :
    (m.setLogOf w f).cpuLogs w.key.machine w.key.cpu = f (m.cpuLogs w.key.machine w.key.cpu) :=
  SlabMem.setCpuLog_self _ _ _ _

theorem setLogOf_of_ne (f : SlabCpuLog → SlabCpuLog)
    (h : (w.key.machine, w.key.cpu) ≠ r) : (m.setLogOf w f).cpuLogs r.1 r.2 = m.cpuLogs r.1 r.2 :=
  m.setCpuLog_of_ne _ fun he => h (Prod.ext he.1.symm he.2.symm)

theorem next_of_map {α : Type} {c : Prog SlabMem α} {F : Prog SlabMem α → Phase}
    (h : (c.next m).map (fun q => (F q.1, q.2)) = some (p', m')) :
    ∃ c', c.next m = some (c', m') ∧ p' = F c' := by
  obtain ⟨q, hq, he⟩ := Option.map_eq_some_iff.mp h
  obtain ⟨rfl, rfl⟩ : F q.1 = p' ∧ q.2 = m' := by simpa using he
  exact ⟨q.1, hq, rfl⟩

/-- A step before the record: a step of the code, or the first store of
`slab_log_begin`. -/
theorem before_next (h : (before c).next m = some (p', m')) :
    (∃ w, c = .ret (some w) ∧ p' = slabStored w ∧
      m' = m.setLogOf w fun log => { log with slabAddr := w.slab }) ∨
    ∃ c', c.next m = some (c', m') ∧ p' = before c' := by
  cases c with
  | ret o =>
    cases o with
    | none => exact .inr (next_of_map h)
    | some w =>
      obtain ⟨rfl, rfl⟩ : slabStored w = p' ∧ _ = m' := by simpa using h
      exact .inl ⟨w, rfl, rfl, rfl⟩
  | halt | get | act => exact .inr (next_of_map h)

/-- A step between `slab_log_begin` and `slab_log_end`, or the latter. -/
theorem inside_next (h : (inside w head cnt c).next m = some (p', m')) :
    (c = .ret () ∧ p' = after w.after ∧ m' = m.setLogOf w fun log => { log with op := .none }) ∨
    ∃ c', c.next m = some (c', m') ∧ p' = inside w head cnt c' := by
  cases c with
  | ret a =>
    obtain ⟨rfl, rfl⟩ : after w.after = p' ∧ _ = m' := by simpa using h
    exact .inl ⟨rfl, rfl, rfl⟩
  | halt | get | act => exact .inr (next_of_map h)

/-- What a step of a careful call does.  It fills the record further, touches no other record, and
the record it uses afterwards is the one it used before or the one it begins; and it changes the
data only between `slab_log_begin` and `slab_log_end`. -/
theorem next_spec {call : Call} {pg : ℕ → ℕ} (h : p.Spares pg call) (hf : p.Filled m)
    (hm : m.pageSlab = pg) (hcareful : call.Careful m p) (hn : p.next m = some (p', m')) :
    p'.Spares pg call ∧ p'.Filled m' ∧ m'.pageSlab = pg ∧ (SameData m m' ∨ p.Inside) ∧
      (∀ r, p.record ≠ some r → p.begins ≠ some r → m'.cpuLogs r.1 r.2 = m.cpuLogs r.1 r.2) ∧
      ∀ r, p'.record = some r → p.record = some r ∨ p.begins = some r := by
  have hsame (w : Section) (f : SlabCpuLog → SlabCpuLog) : SameData m (m.setLogOf w f) :=
    ⟨rfl, rfl, rfl, rfl, rfl, rfl⟩
  cases p with
  | before c =>
    obtain ⟨w, rfl, rfl, rfl⟩ | ⟨c', hc, rfl⟩ := before_next hn
    · refine ⟨h w rfl, ?_, hm, .inl (hsame _ _), fun r _ hr => setLogOf_of_ne _ fun he =>
        hr (congrArg some he), fun r hr => .inr hr⟩
      simp
    · obtain ⟨h', hdata, hlog⟩ := Sparing.next h ⟨hm, hcareful⟩ hc
      exact ⟨h', trivial, hdata.2.2.2.1.trans hm, .inl hdata, fun r _ _ => by rw [hlog],
        fun r hr => by simp at hr⟩
  | slabStored w =>
    obtain ⟨rfl, rfl⟩ : headStored w _ = p' ∧ _ = m' := by simpa using hn
    refine ⟨h, ?_, hm, .inl (hsame _ _), fun r hr _ => setLogOf_of_ne _ fun he =>
      hr (congrArg some he), fun r hr => .inl hr⟩
    simpa using hf
  | headStored w head =>
    obtain ⟨rfl, rfl⟩ : cntStored w head _ = p' ∧ _ = m' := by simpa using hn
    refine ⟨h, ?_, hm, .inl (hsame _ _), fun r hr _ => setLogOf_of_ne _ fun he =>
      hr (congrArg some he), fun r hr => .inl hr⟩
    simpa using hf
  | cntStored w head cnt =>
    obtain ⟨rfl, rfl⟩ : inside w head cnt w.inside = p' ∧ _ = m' := by simpa using hn
    refine ⟨⟨h.1, h⟩, ?_, hm, .inl (hsame _ _), fun r hr _ => setLogOf_of_ne _ fun he =>
      hr (congrArg some he), fun r hr => .inl hr⟩
    obtain ⟨hslab, hhead, hcnt⟩ := hf
    simp [hslab, hhead, hcnt]
  | inside w head cnt c =>
    obtain ⟨rfl, rfl, rfl⟩ | ⟨c', hc, rfl⟩ := inside_next hn
    · exact ⟨h.2.2, trivial, hm, .inr trivial, fun r hr _ => setLogOf_of_ne _ fun he =>
        hr (congrArg some he), fun r hr => by simp at hr⟩
    · obtain ⟨h', hstep⟩ := h.1.next hc
      obtain ⟨hlog, hpages⟩ : KeepsPages m m' := hstep.elim (fun he => he ▸ ⟨rfl, rfl⟩) id
      refine ⟨⟨h', h.2⟩, ?_, hpages.trans hm, .inr trivial, fun r _ _ => by rw [hlog],
        fun r hr => .inl hr⟩
      simpa only [Filled, hlog] using hf
  | after c =>
    obtain ⟨c', hc, rfl⟩ := next_of_map hn
    obtain ⟨h', hdata, hlog⟩ := Sparing.next h ⟨hm, hcareful⟩ hc
    exact ⟨h', trivial, hdata.2.2.2.1.trans hm, .inl hdata, fun r _ _ => by rw [hlog],
      fun r hr => by simp at hr⟩

/-- A call leaves its logged part by `slab_log_end` only. -/
theorem Inside.next (h : p.Inside) (he : ¬ p.Ends) (hn : p.next m = some (p', m')) : p'.Inside := by
  cases p with
  | inside w head cnt c =>
    obtain ⟨rfl, -, -⟩ | ⟨c', -, rfl⟩ := inside_next hn
    · exact absurd trivial he
    · trivial
  | _ => exact absurd h id

end Phase

namespace Kernel

variable {s t : Kernel} {i : ℕ} {calls : ℕ → Call} {pg : ℕ → ℕ}

/-- The calls have records of their own, and change the data under these only. -/
structure Ok (calls : ℕ → Call) (pg : ℕ → ℕ) (s : Kernel) : Prop where
  pages : s.mem.pageSlab = pg
  each : ∀ i, (s.call i).phase.Spares pg (calls i) ∧ (s.call i).phase.Filled s.mem ∧
    ((s.call i).partly → (s.call i).phase.Inside)
  apart : ∀ i j r, (s.call i).phase.record = some r → (s.call j).phase.record = some r → i = j

theorem ok_start (m : SlabMem) (calls : ℕ → Call) : (start m calls).Ok calls m.pageSlab where
  pages := rfl
  each := fun i => ⟨(calls i).sparing_before m.pageSlab, trivial, fun h => absurd h id⟩
  apart := fun _ _ _ h => by simp [start, Phase.record] at h

theorem Ok.step (h : s.Ok calls pg) (hstep : CarefulStep calls s t) : t.Ok calls pg := by
  obtain ⟨i, ⟨hn⟩, hex, hcareful⟩ := hstep
  rename_i p m
  obtain ⟨hspares, hfilled, hpartly⟩ := h.each i
  obtain ⟨hspares', hfilled', hpages, hlogged, hlog, hrecord⟩ :=
    Phase.next_spec hspares hfilled h.pages hcareful hn
  -- what the other calls are at does not change
  have hother {j : ℕ} (hj : j ≠ i) (a : Activity) : update s.call i a j = s.call j :=
    update_of_ne hj _ _
  have hkeep (j : ℕ) (hj : j ≠ i) (r : ℕ × ℕ) (hr : (s.call j).phase.record = some r) :
      (s.call i).phase.record ≠ some r ∧ (s.call i).phase.begins ≠ some r :=
    ⟨fun hi => hj (h.apart j i r hr hi), fun hi => hex r hi j hr⟩
  refine ⟨hpages, fun j => ?_, fun j k r hjr hkr => ?_⟩
  · by_cases hj : j = i
    · subst hj
      simp only [update_self]
      refine ⟨hspares', hfilled', fun ⟨hchanged, hends⟩ => ?_⟩
      exact (hchanged.elim hpartly hlogged.resolve_left).next hends hn
    · simp only [hother hj]
      obtain ⟨hspares, hfilled, hpartly⟩ := h.each j
      exact ⟨hspares, hfilled.congr fun r hr => hlog r (hkeep j hj r hr).1 (hkeep j hj r hr).2,
        hpartly⟩
  · have hnew (j : ℕ) (hj : j ≠ i) (r : ℕ × ℕ) (hr : (s.call j).phase.record = some r) :
        p.record ≠ some r := by
      intro hp
      cases hrecord r hp with
      | inl hi => exact (hkeep j hj r hr).1 hi
      | inr hi => exact (hkeep j hj r hr).2 hi
    by_cases hj : j = i
    · by_cases hk : k = i
      · rw [hj, hk]
      · subst hj
        simp only [update_self, hother hk] at hjr hkr
        exact absurd hjr (hnew k hk r hkr)
    · by_cases hk : k = i
      · subst hk
        simp only [update_self, hother hj] at hjr hkr
        exact absurd hkr (hnew j hj r hjr)
      · simp only [hother hj, hother hk] at hjr hkr
        exact h.apart j k r hjr hkr

theorem Ok.run (h : s.Ok calls pg) (hrun : ReflTransGen (CarefulStep calls) s t) :
    t.Ok calls pg := by
  induction hrun with
  | refl => exact h
  | tail _ hstep ih => exact ih.step hstep

theorem recorded_of_filled {p : Phase} (h : p.Inside) (hf : p.Filled m) : p.Recorded m := by
  cases p with
  | inside w head cnt c => exact hf
  | _ => exact absurd h id

end Kernel

/-- In every run of any calls, from any memory, in which no call begins a log
record that another call is using, the pools of the allocations have a current slab, and
the slabs of the objects that are freed are neither full nor left free: every call whose
effects are partly stored has its own log record. -/
theorem partly_stored_calls_recorded (m : SlabMem) (calls : ℕ → Call) (s : Kernel)
    (hrun : ReflTransGen (Kernel.CarefulStep calls) (Kernel.start m calls) s) (i : ℕ)
    (hi : (s.call i).partly) : (s.call i).phase.Recorded s.mem := by
  obtain ⟨-, hfilled, hpartly⟩ := ((Kernel.ok_start m calls).run hrun).each i
  exact Kernel.recorded_of_filled (hpartly hi) hfilled

/-! ## Two frees that share a record -/

section shared

variable {a : ℕ} {m : SlabMem} {k : PoolKey} {s : Kernel} {i : ℕ}

/-- Any call takes a step. -/
def Kernel.AnyStep (s t : Kernel) : Prop := ∃ i, Kernel.Step i s t

/-- Call `i`, which is `c`, takes a careful step. -/
def Kernel.SoloStep (c : Call) (i : ℕ) (s t : Kernel) : Prop :=
  Kernel.Step i s t ∧ c.Careful s.mem (s.call i).phase

/-- Call `i`, which is `c` and executed alone, comes to the phase `p` with the memory `t`. -/
def Kernel.Gets (c : Call) (s : Kernel) (i : ℕ) (p : Phase) (t : SlabMem) : Prop :=
  ∃ x, ReflTransGen (Kernel.SoloStep c i) s ⟨t, update s.call i ⟨p, x⟩⟩

namespace Kernel.Gets

variable {call : Call} {p p' : Phase} {t t' : SlabMem}

theorem start (hi : (s.call i).phase = p) : Gets call s i p s.mem := by
  subst hi
  refine ⟨(s.call i).partly, ?_⟩
  rw [update_eq_self]

section

variable (h : Gets call s i p t) (hn : p.next t = some (p', t')) (hcareful : call.Careful t p)
include h hn hcareful

theorem step : ∃ x, (¬ SameData t t' → ¬ p.Ends → x) ∧ ReflTransGen (Kernel.SoloStep call i) s
      ⟨t', update s.call i ⟨p', x⟩⟩ := by
  obtain ⟨x, hrun⟩ := h
  have hstep : Kernel.Step i ⟨t, update s.call i ⟨p, x⟩⟩
      ⟨t', update (update s.call i ⟨p, x⟩) i ⟨p', (x ∨ ¬ SameData t t') ∧ ¬ p.Ends⟩⟩ := by
    have hmk := @Kernel.Step.mk i ⟨t, update s.call i ⟨p, x⟩⟩ p' t' (by simpa using hn)
    simpa using hmk
  rw [update_idem] at hstep
  refine ⟨_, fun hd he => ⟨.inr hd, he⟩, hrun.tail ⟨hstep, ?_⟩⟩
  simpa using hcareful

theorem next : Gets call s i p' t' := by
  obtain ⟨x, -, hrun⟩ := h.step hn hcareful
  exact ⟨x, hrun⟩

end

/-- A call that does not change the data before its record comes to it. -/
theorem before (h : wp c Q (SameData m) t) (hready : ∀ t, SameData m t → call.Ready t)
    (hsame : SameData m t) (hi : Gets call s i (.before c) t) :
    ∃ o t', Q o t' ∧ SameData m t' ∧ Gets call s i (.before (.ret o)) t' := by
  induction c generalizing t with
  | ret o => exact ⟨o, t, wp_ret.mp h, hsame, hi⟩
  | halt => exact absurd (wp_bug.mp h) id
  | get k ih => exact ih t h hsame (hi.next rfl (hready t hsame))
  | act ready f k ih =>
    obtain ⟨hr, hsame', hk⟩ := wp_act.mp h
    exact ih t hk hsame' (hi.next (by simp [Phase.next, Prog.next, hr]) (hready t hsame))

/-- `slab_log_begin`, executed alone. -/
theorem begin (h : Gets call s i (.before (.ret (some w))) t) (hready : call.Ready t) :
    Gets call s i
      (.inside w (t.header w.slab).freeListHead (t.header w.slab).currentFreeCnt w.inside)
      (t.setCpuLog w.key.machine w.key.cpu ⟨w.op, (t.header w.slab).currentFreeCnt, w.slab,
        (t.header w.slab).freeListHead⟩) := by
  have h4 := (((h.next rfl hready).next rfl trivial).next rfl trivial).next rfl trivial
  simpa [SlabMem.setLogOf] using h4

end Kernel.Gets

/-- A free of an object of a slab with free slots, up to its record. -/
theorem wp_free_before (hslab : m.pageSlab (a / pageSize) = slab)
    (hk : m.poolOf mid slab = k) (hcpu : k.cpu < platCpuNum) (hlock : m.locks k = false)
    (hcnt : (m.header slab).currentFreeCnt ≠ 0) :
    wp (Call.free mid a).before
      (fun o t => t = m.setLock k true ∧ o = some (putSection mid k slab a)) (SameData m) m := by
  simp only [Call.before, tryInsertFullSlabToPartial, wp_bind, wp_read, wp_bugOn, hslab, hk,
    wp_lock hlock, wp_when, wp_pure]
  exact ⟨by omega, ⟨rfl, rfl, rfl, rfl, rfl, rfl⟩, fun h0 => absurd h0 hcnt,
    fun _ => ⟨trivial, trivial⟩⟩

/-- The first two stores of a free behind `slab_log_begin`. -/
theorem putInside_next (w : Section) (slab a head cnt : ℕ) :
    ∃ c c', ¬ (Phase.inside w head cnt c).Ends ∧
      (∀ t, (Phase.inside w head cnt (putInside slab a)).next t =
        some (.inside w head cnt c, t.setNextFree a (t.header slab).freeListHead)) ∧
      ∀ t, (Phase.inside w head cnt c).next t =
        some (.inside w head cnt c', t.setHeader slab { t.header slab with freeListHead := a }) :=
  ⟨_, _, id, fun _ => rfl, fun _ => rfl⟩

/-- The object `a` of a slab that is not full. -/
structure Freeable (m : SlabMem) (k : PoolKey) (slab a : ℕ) : Prop where
  page : m.pageSlab (a / pageSize) = slab
  owner : m.owner slab = k
  cpu : k.cpu < platCpuNum
  cnt : (m.header slab).currentFreeCnt ≠ 0
  head : (m.header slab).freeListHead ≠ a

theorem Freeable.ready (h : Freeable m k slab a) (mid : ℕ) (hsame : SameData m t) :
    (Call.free mid a).Ready t := by
  obtain ⟨hheader, -, -, hpages, -, -⟩ := hsame
  rw [Call.Ready, hheader, hpages, h.page]
  exact h.cnt

theorem Freeable.poolOf (h : Freeable m k slab a) : m.poolOf k.machine slab = k := by
  rw [← h.owner]
  rfl

/-- A free, executed alone up to the store of the new free list head. -/
theorem Freeable.run_first (ha : Freeable m k slab a) (hlock : m.locks k = false)
    (hm : s.mem = m) (hi : (s.call i).phase = .before (Call.free k.machine a).before) :
    ∃ head cnt c x t, x ∧ (∀ y, y ≠ slab → t.header y = m.header y) ∧ t.pageSlab = m.pageSlab ∧
      t.locks = update m.locks k true ∧ ReflTransGen (Kernel.SoloStep (.free k.machine a) i) s
        ⟨t, update s.call i ⟨.inside (putSection k.machine k slab a) head cnt c, x⟩⟩ := by
  subst hm
  have hchanged (m' : SlabMem) (hm' : m'.header = s.mem.header) :
      ¬ SameData m' (m'.setHeader slab { m'.header slab with freeListHead := a }) := by
    intro hsame
    have hhead := congrArg (fun hdr => (hdr slab).freeListHead) hsame.1
    exact ha.head (by simpa [hm'] using hhead.symm)
  have hstart : Kernel.Gets (.free k.machine a) s i _ s.mem := .start hi
  obtain ⟨_, _, ⟨rfl, rfl⟩, hsame, hbefore⟩ := Kernel.Gets.before
    (wp_free_before ha.page ha.poolOf ha.cpu hlock ha.cnt) (fun _ => ha.ready k.machine)
    ⟨rfl, rfl, rfl, rfl, rfl, rfl⟩ hstart
  obtain ⟨c, c', hends, hlink, hhead⟩ := putInside_next (putSection k.machine k slab a) slab a
    (s.mem.header slab).freeListHead (s.mem.header slab).currentFreeCnt
  have hlinked := (hbefore.begin (ha.ready k.machine hsame)).next (hlink _) trivial
  obtain ⟨x, hx, hrun⟩ := hlinked.step (hhead _) trivial
  refine ⟨_, _, c', x, _, hx (hchanged _ rfl) hends, fun y hy => ?_, ?_, ?_, hrun⟩
  · exact update_of_ne hy _ _
  · rfl
  · rfl

/-- Objects of two pools of one CPU are freed at the same time: the second call
overwrites the log record of the first one, whose effects are partly stored. -/
theorem Freeable.overwritten (ha : Freeable m k sa a)
    (hb : Freeable m j sb b) (hmid : j.machine = k.machine) (hcpu : j.cpu = k.cpu) (hne : j ≠ k)
    (hlk : m.locks k = false) (hlj : m.locks j = false) (h0 : f 0 = .free k.machine a)
    (h1 : f 1 = .free j.machine b) :
    ∃ s, ReflTransGen Kernel.AnyStep (Kernel.start m f) s ∧
      (s.call 0).partly ∧ ¬ (s.call 0).phase.Recorded s.mem := by
  have hslabs : sb ≠ sa := fun he => hne (by rw [← hb.owner, he, ha.owner])
  obtain ⟨head, cnt, c, x, t, hx, hheader, hpage, hlocks, hrun⟩ := ha.run_first (i := 0)
    (s := Kernel.start m f) hlk rfl (by simp [h0])
  -- the second call, up to the first store of its `slab_log_begin`
  have hlock : t.locks j = false := by rw [hlocks, update_of_ne hne, hlj]
  have hb' : Freeable t j sb b := by
    refine ⟨hpage ▸ hb.page, ?_, hb.cpu, hheader sb hslabs ▸ hb.cnt, hheader sb hslabs ▸ hb.head⟩
    rw [← hb.owner]
    simp only [SlabMem.owner, hheader sb hslabs]
  obtain ⟨_, _, ⟨rfl, rfl⟩, hsame, hbefore⟩ := Kernel.Gets.before (i := 1) (s := ⟨t, update
    (Kernel.start m f).call 0 ⟨.inside (putSection k.machine k sa a) head cnt c, x⟩⟩)
    (wp_free_before hb'.page hb'.poolOf hb.cpu hlock hb'.cnt) (fun _ => hb'.ready j.machine)
    ⟨rfl, rfl, rfl, rfl, rfl, rfl⟩ (Kernel.Gets.start (by simp [h1]))
  obtain ⟨x2, hrun2⟩ := hbefore.next rfl (hb'.ready j.machine hsame)
  have hany {c : Call} {i : ℕ} {s s' : Kernel} (h : ReflTransGen (Kernel.SoloStep c i) s s') :
      ReflTransGen Kernel.AnyStep s s' :=
    h.lift id fun _ _ hstep => ⟨i, hstep.1⟩
  refine ⟨_, (hany hrun).trans (hany hrun2), hx, fun hrec => ?_⟩
  have hlog := congrArg SlabCpuLog.slabAddr hrec
  simp [putSection, SlabMem.setLogOf, ← hmid, ← hcpu, hslabs] at hlog

/-- A call that is alone shares no record. -/
theorem Kernel.careful_of_solo (h : ∀ j ≠ i, (s.call j).phase.record = none)
    (hrun : ReflTransGen (Kernel.SoloStep (calls i) i) s t) :
    ReflTransGen (Kernel.CarefulStep calls) s t := by
  induction hrun using ReflTransGen.head_induction_on with
  | refl => exact .refl
  | head hstep hrest ih =>
    rename_i s s'
    obtain ⟨hstep, hcareful⟩ := hstep
    have hex : Kernel.Exclusive i s := by
      intro r hr j
      by_cases hj : j = i
      · subst hj
        exact fun hrec => absurd hrec ((s.call j).phase.record_ne_of_begins hr)
      · rw [h j hj]
        exact Option.some_ne_none r |>.symm
    refine .head ⟨i, hstep, hex, hcareful⟩ (ih fun j hj => ?_)
    obtain ⟨-⟩ := hstep
    simpa only [update_of_ne hj] using h j hj

theorem Inv.freeable (h : Inv M m on fr live) (hk : ValidPool M k) (ha : a ∈ live)
    (hka : m.Holds k a) (hlen : live.length < slotCount k.order) : ∃ s, Freeable m k s a := by
  obtain ⟨s, hs, hin, rfl⟩ := hka
  have hst := h.stocked
  have hcount := (hst.slots s hs).length_eq
  rw [List.length_append, length_slotsOf] at hcount
  have hfilter : (live.filter (InSlab s ·)).length ≤ live.length := List.length_filter_le _ _
  have hpos : 0 < (fr s).length := by
    have horder : (m.owner s).order = (m.header s).order := rfl
    rw [horder] at hlen
    omega
  refine ⟨s, hst.page_eq hs hin, rfl, hk.2.1, by rw [hst.cnt s hs]; omega, fun he => ?_⟩
  obtain ⟨x, xs, hfr⟩ := List.exists_cons_of_ne_nil (List.ne_nil_of_length_pos hpos)
  have hchain := hst.chain s hs
  rw [hfr] at hchain
  obtain ⟨rfl, -, -⟩ := hchain
  exact hst.free_not_live hs (hfr ▸ List.mem_cons_self) (he ▸ ha)

end shared

/-- CPU 0 of a machine allocates 32 and 64 bytes. -/
theorem reachable_two_objects : ∃ m a b, Reachable 1 m [b, a] ∧
    m.Holds ⟨0, 0, slabOrder 32⟩ a ∧ m.Holds ⟨0, 0, slabOrder 64⟩ b := by
  obtain ⟨m, hm, htaken⟩ := reachable_booted 1
  have hpages : PagesOK m (some 0x200000) := pagesOK_of_nil htaken (by decide) (by decide)
  obtain ⟨a, t, -, ht, ha, htaken', -⟩ := hm.alloc_pages (show 0 < 1 by decide)
    (show 0 < platCpuNum by decide) (show 32 ≤ orderToSize slabMaxOrder by decide) hpages
  have hpages' : PagesOK t (some 0x400000) := by
    rintro _ ⟨⟩
    refine ⟨by decide, by decide, fun s hs => ?_⟩
    rw [htaken] at htaken'
    cases htaken' with
    | inl h => simp [h] at hs
    | inr h =>
      obtain rfl : s = 0x200000 := by simpa [h] using hs
      exact .inr (by decide)
  obtain ⟨b, t', -, ht', hb, -, hkeep⟩ := ht.alloc_pages (show 0 < 1 by decide)
    (show 0 < platCpuNum by decide) (show 64 ≤ orderToSize slabMaxOrder by decide) hpages'
  exact ⟨t', a, b, ht', hkeep _ a (by decide) ha, hb⟩

/-- Two objects of CPU 0, of 32 and 64 bytes, are freed at the same time, and
the log record of the first free is overwritten while its effects are partly
stored. -/
theorem record_overwritten_by_other_order :
    ∃ m a b calls s, Reachable 1 m [b, a] ∧ OwnedBy m a 0 ∧ OwnedBy m b 0 ∧
      calls 0 = .free 0 a ∧ calls 1 = .free 0 b ∧
      ReflTransGen Kernel.AnyStep (Kernel.start m calls) s ∧
      (s.call 0).partly ∧ ¬ (s.call 0).phase.Recorded s.mem := by
  obtain ⟨m, a, b, hm, ha, hb⟩ := reachable_two_objects
  obtain ⟨hfree, on, fr, hinv⟩ := hm.inv
  have hva : ValidPool 1 ⟨0, 0, slabOrder 32⟩ := ⟨by decide, by decide, by decide, by decide⟩
  have hvb : ValidPool 1 ⟨0, 0, slabOrder 64⟩ := ⟨by decide, by decide, by decide, by decide⟩
  obtain ⟨sa, hfa⟩ := hinv.freeable hva (by simp) ha (show 2 < slotCount _ by decide)
  obtain ⟨sb, hfb⟩ := hinv.freeable hvb (by simp) hb (show 2 < slotCount _ by decide)
  obtain ⟨s, hrun, hpartly, hrec⟩ := hfa.overwritten hfb (f := fun i =>
    if i = 0 then .free 0 a else if i = 1 then .free 0 b else .alloc none 0 0 slabMinOrder)
    rfl rfl (by decide) (hfree _ hva) (hfree _ hvb) rfl rfl
  refine ⟨m, a, b, _, s, hm, ?_, ?_, rfl, rfl, hrun, hpartly, hrec⟩
  · rw [OwnedBy, hfa.page]
    exact congrArg PoolKey.machine hfa.owner
  · rw [OwnedBy, hfb.page]
    exact congrArg PoolKey.machine hfb.owner

/-- A free of the object of 32 bytes, alone up to its second store behind
`slab_log_begin`. -/
theorem partly_stored_free_recorded : ∃ m a b s,
    Reachable 1 m [b, a] ∧
    ReflTransGen (Kernel.CarefulStep fun _ => .free 0 a) (Kernel.start m fun _ => .free 0 a) s ∧
    (s.call 0).partly ∧ (s.call 0).phase.Recorded s.mem := by
  obtain ⟨m, a, b, hm, ha, -⟩ := reachable_two_objects
  obtain ⟨hfree, on, fr, hinv⟩ := hm.inv
  have hva : ValidPool 1 ⟨0, 0, slabOrder 32⟩ := ⟨by decide, by decide, by decide, by decide⟩
  obtain ⟨sa, hfa⟩ := hinv.freeable hva (by simp) ha (show 2 < slotCount _ by decide)
  obtain ⟨head, cnt, c, x, t, hx, -, -, -, hsolo⟩ := hfa.run_first (i := 0)
    (s := Kernel.start m fun _ => .free 0 a) (hfree _ hva) rfl rfl
  have hrun : ReflTransGen (Kernel.CarefulStep fun _ => .free 0 a) (Kernel.start m fun _ => .free 0 a) _ :=
    Kernel.careful_of_solo (fun _ _ => rfl) hsolo
  exact ⟨m, a, b, _, hm, hrun, hx, partly_stored_calls_recorded m _ _ hrun 0 hx⟩

end Starfish.Slab
