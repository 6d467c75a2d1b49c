import Mathlib.Data.Int.Notation
import Mathlib.Data.Nat.Notation
import Mathlib.Logic.Function.Basic
import Mathlib.Logic.Relation

/-!
# Starfish.Tlb.Remote

`flush_tlb_on_remote_machine` (`kernel/arch/x86_64/mm/tlb.c`) and the handler of its message
(`kernel/drivers/pci/ivshmem.c`).

Every machine has one message slot.  A sender is to write its request into the slot of the target
and to wait until the target writes an answer into the slot of the sender.  But the sender takes
its own number from `CUR_MACHINE_ID`, and this macro stands for the variable `machine_id`, which
the parameter of the same name hides: `Call.myId` is the target.  The only caller,
`flush_tlbs_all_machines`, asks other machines only, and takes the result 0 for an answer.

* Any number of threads call at the same time.  `msi_rpc_lock` lets one of them at a time go on,
  and each access to a slot under its `msg_lock` is one step; a sender may give up at any time
  while it waits.
* Any number of CPUs of a machine handle messages; `mach` says which machine a CPU is of.
* The slots also carry messages of other types, and machines also flush for other reasons: these
  steps may come at any time.
-/

namespace Starfish.Tlb

open Function Relation

/-! ## The protocol -/

/-- `msg_type`: `MSI_MSG_TYPE_TLB_FLUSH` and the others. -/
inductive MsgType where
  | none
  | tlbFlush
  | other
deriving DecidableEq, Repr

/-- `dsm_meta->msi_test_msg[i]`, without the arguments of a message: the handler does not use
them. -/
structure Slot where
  msgFrom : Option ℕ
  msgType : MsgType
  replyReceived : Bool
  replyFrom : Option ℕ

/-- Where a call of `flush_tlb_on_remote_machine` is. -/
inductive Phase where
  | called
  /-- It has `msi_rpc_lock`. -/
  | locked
  /-- The request is in the target's slot. -/
  | posted
  /-- The own slot is cleared; the call polls it. -/
  | waiting
  /-- The poll found the answer of the target. -/
  | acked
  | gaveUp
deriving DecidableEq, Repr

/-- A call on the machine `own`.  `since` is not in memory: it says how often the target had
flushed when the request was posted. -/
structure Call where
  own : ℕ
  machineId : ℕ
  since : Option ℕ
  phase : Phase

/-- `my_id = CUR_MACHINE_ID`, that is, `(machine_id)`. -/
def Call.myId (c : Call) : ℕ := c.machineId

/-- Where a CPU is in `ivshmem_handle_tlb_flush_msg`: it has read the message of a sender, flushed,
or answered. -/
inductive Handler where
  | idle
  | received (sender : ℕ)
  | flushed (sender : ℕ)
  | replied (sender : ℕ)

/-- `dsmMeta` says that `dsm_meta` is not NULL. -/
structure State (T H : Type) where
  dsmMeta : Bool
  slot : ℕ → Slot
  rpcLock : Bool
  call : T → Option Call
  handler : H → Handler
  /-- How often a machine has flushed its TLBs. -/
  flushes : ℕ → ℕ

def etimedout : ℤ := 110

variable {T H : Type}

section Steps

variable [DecidableEq T] [DecidableEq H]

namespace State

variable (s : State T H)

def setSlot (m : ℕ) (x : Slot) : State T H := { s with slot := update s.slot m x }

def setCall (t : T) (c : Option Call) : State T H := { s with call := update s.call t c }

def setHandler (h : H) (x : Handler) : State T H := { s with handler := update s.handler h x }

/-- `reply_received = 0; reply_from = 0xFFFFFFFF`. -/
def clearReply (m : ℕ) : State T H :=
  s.setSlot m { s.slot m with replyReceived := false, replyFrom := none }

/-- `flush_tlb_all` of one machine. -/
def flush (m : ℕ) : State T H := { s with flushes := update s.flushes m (s.flushes m + 1) }

end State

/-- The test at the start: there is nobody to ask. -/
def Skips (machines : ℕ) (s : State T H) (c : Call) : Prop :=
  s.dsmMeta = false ∨ machines ≤ c.machineId ∨ c.machineId = c.myId

/-- One step of a sender, of a handler or of the rest of the system.  A step may be the return of
a call, with its result. -/
inductive Acts (machines : ℕ) (mach : H → ℕ) :
    State T H → Option (Call × ℤ) → State T H → Prop where
  | call {s} (t : T) (own machineId : ℕ) (h : s.call t = none) :
      Acts machines mach s none (s.setCall t (some ⟨own, machineId, none, .called⟩))
  | skip {s} (t : T) (c : Call) (h : s.call t = some c) (hp : c.phase = .called)
      (hskip : Skips machines s c) : Acts machines mach s (some (c, 0)) (s.setCall t none)
  | lock {s} (t : T) (c : Call) (h : s.call t = some c) (hp : c.phase = .called)
      (hskip : ¬ Skips machines s c) (hlock : s.rpcLock = false) :
      Acts machines mach s none
        { s.setCall t (some { c with phase := .locked }) with rpcLock := true }
  | post {s} (t : T) (c : Call) (h : s.call t = some c) (hp : c.phase = .locked) :
      Acts machines mach s none ((s.setSlot c.machineId ⟨some c.myId, .tlbFlush, false, none⟩).setCall t
        (some { c with phase := .posted, since := some (s.flushes c.machineId) }))
  | clearOwn {s} (t : T) (c : Call) (h : s.call t = some c) (hp : c.phase = .posted) :
      Acts machines mach s none
        ((s.clearReply c.myId).setCall t (some { c with phase := .waiting }))
  | acknowledge {s} (t : T) (c : Call) (h : s.call t = some c) (hp : c.phase = .waiting)
      (hr : (s.slot c.myId).replyReceived = true)
      (hf : (s.slot c.myId).replyFrom = some c.machineId) :
      Acts machines mach s none (s.setCall t (some { c with phase := .acked }))
  | giveUp {s} (t : T) (c : Call) (h : s.call t = some c) (hp : c.phase = .waiting) :
      Acts machines mach s none (s.setCall t (some { c with phase := .gaveUp }))
  | unlock {s} (t : T) (c : Call) (h : s.call t = some c)
      (hp : c.phase = .acked ∨ c.phase = .gaveUp) :
      Acts machines mach s (some (c, if c.phase = .acked then 0 else -etimedout))
        { (s.clearReply c.myId).setCall t none with rpcLock := false }
  | receive {s} (h : H) (a : ℕ) (hi : s.handler h = .idle) (ha : a < machines) (hne : a ≠ mach h)
      (hm : (s.slot (mach h)).msgFrom = some a) (ht : (s.slot (mach h)).msgType = .tlbFlush)
      (hr : (s.slot (mach h)).replyReceived = false) :
      Acts machines mach s none (s.setHandler h (.received a))
  | flush {s} (h : H) (a : ℕ) (hi : s.handler h = .received a) :
      Acts machines mach s none ((s.flush (mach h)).setHandler h (.flushed a))
  | reply {s} (h : H) (a : ℕ) (hi : s.handler h = .flushed a) :
      Acts machines mach s none ((s.setSlot a
        { s.slot a with replyReceived := true, replyFrom := some (mach h) }).setHandler h (.replied a))
  | clearMsg {s} (h : H) (a : ℕ) (hi : s.handler h = .replied a) :
      Acts machines mach s none ((s.setSlot (mach h) { s.slot (mach h) with
        replyReceived := true, msgFrom := none, msgType := .none }).setHandler h .idle)
  -- messages of other types, their answers, and flushes for other reasons
  | otherMsg {s} (m : ℕ) (x : Slot) (hx : x.msgType ≠ .tlbFlush) :
      Acts machines mach s none (s.setSlot m x)
  | otherFlush {s} (m : ℕ) : Acts machines mach s none (s.flush m)

def Step (machines : ℕ) (mach : H → ℕ) (s s' : State T H) : Prop := ∃ l, Acts machines mach s l s'

end Steps

/-- No call is under way, and the slots are cleared. -/
def State.start (dsmMeta : Bool) : State T H :=
  ⟨dsmMeta, fun _ => ⟨none, .none, false, none⟩, false, fun _ => none, fun _ => .idle, fun _ => 0⟩

/-! ## What a result of 0 should mean -/

/-- The target is another machine of the cluster. -/
def Remote (machines : ℕ) (s : State T H) (c : Call) : Prop :=
  s.dsmMeta = true ∧ c.machineId < machines ∧ c.machineId ≠ c.own

/-- The call has posted its request, and its target has flushed since. -/
def Served (s : State T H) (c : Call) : Prop :=
  ∃ n, c.since = some n ∧ n < s.flushes c.machineId

/-- A request for a flush that its target has yet to process. -/
def Slot.Pending (x : Slot) : Prop := x.msgType = .tlbFlush ∧ x.replyReceived = false

/-! ## Every run -/

theorem skips (machines : ℕ) (s : State T H) (c : Call) : Skips machines s c := .inr (.inr rfl)

/-- No call gets beyond its test, so no slot has a request and no handler has work. -/
structure Silent (s : State T H) : Prop where
  call : ∀ t c, s.call t = some c → c.phase = .called ∧ c.since = none
  slot : ∀ m, (s.slot m).msgType ≠ .tlbFlush
  handler : ∀ h, s.handler h = .idle

variable {machines : ℕ} {mach : H → ℕ} {s s' : State T H}

theorem silent_start (dsmMeta : Bool) : Silent (.start dsmMeta : State T H) where
  call _ _ h := by cases h
  slot _ := by simp [State.start]
  handler _ := rfl

theorem Silent.setCall [DecidableEq T] (hs : Silent s) (t : T)
    (hc : ∀ c, x = some c → c.phase = .called ∧ c.since = none) : Silent (s.setCall t x) where
  call u d hd := by
    by_cases hu : u = t
    · subst hu
      exact hc d (by simpa [State.setCall] using hd)
    · exact hs.call u d (by simpa [State.setCall, hu] using hd)
  slot := hs.slot
  handler := hs.handler

variable [DecidableEq T] [DecidableEq H]

theorem Silent.acts (hs : Silent s) (h : Acts machines mach s l s') : Silent s' := by
  cases h with
  | call t own machineId h =>
    refine hs.setCall t fun c hc => ?_
    cases hc
    exact ⟨rfl, rfl⟩
  | skip t c h hp hskip => exact hs.setCall t fun c hc => by cases hc
  | lock t c h hp hskip => exact absurd (skips machines s c) hskip
  | post t c h hp | clearOwn t c h hp | acknowledge t c h hp | giveUp t c h hp =>
    simp [(hs.call t c h).1] at hp
  | unlock t c h hp => simp [(hs.call t c h).1] at hp
  | receive h a hi ha hne hm ht => exact absurd ht (hs.slot _)
  | flush h a hi | reply h a hi | clearMsg h a hi => simp [hs.handler h] at hi
  | otherMsg m x hx =>
    refine ⟨hs.call, fun k => ?_, hs.handler⟩
    by_cases hk : k = m
    · simpa [State.setSlot, hk] using hx
    · simpa [State.setSlot, hk] using hs.slot k
  | otherFlush m => exact ⟨hs.call, hs.slot, hs.handler⟩

theorem silent_of_run (hrun : ReflTransGen (Step machines mach) (.start dsmMeta) s) : Silent s := by
  induction hrun with
  | refl => exact silent_start dsmMeta
  | tail _ hstep ih =>
    obtain ⟨l, hacts⟩ := hstep
    exact ih.acts hacts

/-- The call `flush_tlb_on_remote_machine(vmspace, 1, 0, 4096)` of thread 0 on machine 0. -/
def calledByZero : State ℕ ℕ := (State.start true).setCall 0 (some ⟨0, 1, none, .called⟩)

theorem run_calledByZero : ReflTransGen (Step 2 id) (.start true) calledByZero :=
  .single ⟨none, .call 0 0 1 rfl⟩

end Starfish.Tlb
