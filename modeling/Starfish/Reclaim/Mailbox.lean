import Mathlib.Data.Int.Notation
import Mathlib.Data.List.Nodup
import Starfish.Interleave

/-!
# Starfish.Reclaim.Mailbox

The control mailbox of the CXL reclaim: `send_control_batch` on one side,
`ivshmem_process_cxl_control_messages` and `ivshmem_handle_cxl_demote_batch_msg` on the
other.  Any number of threads send and any number look for messages, on any machines.

A request is a batch under an id of its own.  The sender holds the lock of the cluster
from before it posts the batch until it has an answer or has taken the batch back, and it
cannot take back a batch that the target has claimed.  So only one request is under way at
a time, and `Stage` says how far it is.
-/

namespace Starfish.Mailbox

open Threads List Option Prod

/-! ## The mailbox -/

def eagain : ℤ := 11

def einval : ℤ := 22

def etimedout : ℤ := 110

/-- `CXL_DEMOTE_MAX_BATCH`. -/
def maxBatch : ℕ := 64

/-- No machine: what `sender` holds when there is no message. -/
def noSender : ℕ := 0xFFFFFFFF

/-- `struct cxl_demote_batch_op`. -/
structure BatchOp where
  srcPa : ℕ
  dstPa : ℕ
  faultVa : ℕ
  vmspacePtr : ℕ
  txnId : ℕ
  deriving DecidableEq, Repr

/-- What a request asks for.  `count` is the number of operations. -/
structure Batch where
  kind : ℕ
  phase : ℕ
  ops : List BatchOp
  deriving DecidableEq, Repr

/-- `CXL_CONTROL_TXN_DEMOTE` and `CXL_CONTROL_TXN_AGING`. -/
def Batch.Known (b : Batch) : Prop := b.kind = 0 ∨ b.kind = 1

/-- A count that the handler accepts. -/
def Batch.Sized (b : Batch) : Prop := ¬ (b.ops.length = 0 ∨ b.ops.length > maxBatch)

/-- `pending`: 0, 1 and 2. -/
inductive Pending where
  | free
  | posted
  | claimed
  deriving DecidableEq, Repr

/-- The part of `cxl_control[mid]` that is under its lock. -/
structure Slot where
  locked : Bool
  pending : Pending
  sender : ℕ
  rpcId : ℕ
  batch : Batch

/-- The answer in `cxl_control[mid]`, which the sender reads without the lock. -/
structure Reply where
  result : ℤ
  replyRpcId : ℕ

/-- How `send_control_batch` ended. -/
inductive Outcome where
  | answered (result : ℤ)
  | cancelled
  | again
  deriving DecidableEq, Repr

/-- What `send_control_batch` returns. -/
@[simp] def Outcome.value : Outcome → ℤ
  | answered result => result
  | cancelled => -etimedout
  | again => -eagain

/-- The shared memory, and the account of the requests by their ids: what was posted, what
a target has executed, the results of the targets, and what the senders returned.  `calls`
counts the calls of `send_control_batch`. -/
structure Shared where
  slot : ℕ → Slot
  reply : ℕ → Reply
  rpcLock : Bool
  nextRpcId : ℕ
  calls : ℕ
  sent : List (ℕ × Batch)
  executed : List (ℕ × Batch)
  produced : List (ℕ × ℤ)
  returned : List (ℕ × Outcome)

namespace Shared

variable (s : Shared)

@[simp] def setSlot (mid : ℕ) (v : Slot) : Shared := { s with slot := Function.update s.slot mid v }

@[simp] def setReply (mid : ℕ) (v : Reply) : Shared := { s with reply := Function.update s.reply mid v }

@[grind =]
theorem setSlot_slot (mid : ℕ) (v : Slot) (u : ℕ) :
    (s.setSlot mid v).slot u = if u = mid then v else s.slot u := Function.update_apply ..

@[grind =]
theorem setReply_slot (mid : ℕ) (v : Reply) (u : ℕ) : (s.setReply mid v).slot u = s.slot u := rfl

/-- The id of a new request. -/
def nextId : ℕ := (s.nextRpcId + 1) % 2 ^ 64

/-- A request has a result. -/
def produce (id : ℕ) (result : ℤ) : Shared := { s with produced := (id, result) :: s.produced }

/-- `send_control_batch` returns. -/
@[simp] def finish (id : ℕ) (o : Outcome) : Shared := { s with returned := (id, o) :: s.returned }

end Shared

/-! ## Steps -/

/-- Where a thread is.  `my` is its machine. -/
inductive Phase where
  | idle
  /-- `send_control_batch` with its id, before it has the lock of the cluster. -/
  | called (my target id : ℕ) (batch : Batch)
  /-- It has the lock. -/
  | admitted (my target id : ℕ) (batch : Batch)
  /-- It has cleared the id of the answer. -/
  | cleared (my target id : ℕ) (batch : Batch)
  /-- It has posted the batch and looks for the answer. -/
  | polling (my target id : ℕ)
  /-- The time is up. -/
  | expired (my target id : ℕ)
  /-- It could not cancel and waits for the answer. -/
  | draining (my target id : ℕ)
  /-- It has seen its id. -/
  | answered (my target id : ℕ)
  /-- `ivshmem_process_cxl_control_messages` has seen a message. -/
  | noticed (my : ℕ)
  /-- `ivshmem_handle_cxl_demote_batch_msg` for the message it has claimed. -/
  | claimed (my sender id : ℕ)
  /-- It has copied the batch. -/
  | fetched (my sender id : ℕ) (batch : Batch)
  /-- It has the result. -/
  | replying (my sender id : ℕ) (result : ℤ)
  /-- It has the lock of the slot, and the slot is free again. -/
  | closing (my sender id : ℕ) (result : ℤ)
  /-- It has stored the result. -/
  | storing (my sender id : ℕ) (result : ℤ)

/-- The slot holds the request. -/
def Slot.Holds (v : Slot) (pending : Pending) (sender id : ℕ) : Prop :=
  v.pending = pending ∧ v.sender = sender ∧ v.rpcId = id

instance (v : Slot) (pending : Pending) (sender id : ℕ) : Decidable (v.Holds pending sender id) :=
  inferInstanceAs (Decidable (_ ∧ _))

/-- A message that a target takes. -/
def Slot.Takes (v : Slot) (machines my : ℕ) : Prop :=
  v.pending = .posted ∧ v.sender < machines ∧ v.sender ≠ my

/-- What a thread can do.  What happens between `lock` and `unlock` of a slot is one step,
except for the answer, which others see while it is written. -/
inductive Acts (machines : ℕ) : Shared → Phase → Shared → Phase → Prop
  | call {s : Shared} {my target : ℕ} {batch : Batch} :
      Acts machines s .idle { s with nextRpcId := s.nextId, calls := s.calls + 1 }
        (.called my target s.nextId batch)
  | admissionExpired {s : Shared} {my target id : ℕ} {batch : Batch} (h : s.rpcLock = true) :
      Acts machines s (.called my target id batch) (s.finish id .again) .idle
  | accept {s : Shared} {my target id : ℕ} {batch : Batch} (h : s.rpcLock = false) :
      Acts machines s (.called my target id batch) { s with rpcLock := true }
        (.admitted my target id batch)
  | clear {s : Shared} {my target id : ℕ} {batch : Batch} :
      Acts machines s (.admitted my target id batch)
        (s.setReply my { s.reply my with replyRpcId := 0 }) (.cleared my target id batch)
  | busy {s : Shared} {my target id : ℕ} {batch : Batch} (hlock : (s.slot target).locked = false)
      (h : (s.slot target).pending ≠ .free) :
      Acts machines s (.cleared my target id batch)
        ({ s with rpcLock := false }.finish id .again) .idle
  | post {s : Shared} {my target id : ℕ} {batch : Batch} (hlock : (s.slot target).locked = false)
      (h : (s.slot target).pending = .free) :
      Acts machines s (.cleared my target id batch)
        ({ s with sent := (id, batch) :: s.sent }.setSlot target ⟨false, .posted, my, id, batch⟩)
        (.polling my target id)
  | poll {s : Shared} {my target id : ℕ} (h : (s.reply my).replyRpcId ≠ id) :
      Acts machines s (.polling my target id) s (.polling my target id)
  | pollAnswer {s : Shared} {my target id : ℕ} (h : (s.reply my).replyRpcId = id) :
      Acts machines s (.polling my target id) s (.answered my target id)
  | expire {s : Shared} {my target id : ℕ} (h : (s.reply my).replyRpcId ≠ id) :
      Acts machines s (.polling my target id) s (.expired my target id)
  | cancel {s : Shared} {my target id : ℕ} (hlock : (s.slot target).locked = false)
      (h : (s.slot target).Holds .posted my id) :
      Acts machines s (.expired my target id)
        (({ s with rpcLock := false }.setSlot target
          { s.slot target with pending := .free, sender := noSender }).finish id .cancelled) .idle
  | cancelNot {s : Shared} {my target id : ℕ} (hlock : (s.slot target).locked = false)
      (h : ¬ (s.slot target).Holds .posted my id) :
      Acts machines s (.expired my target id) s (.draining my target id)
  | drain {s : Shared} {my target id : ℕ} (h : (s.reply my).replyRpcId ≠ id) :
      Acts machines s (.draining my target id) s (.draining my target id)
  | drainAnswer {s : Shared} {my target id : ℕ} (h : (s.reply my).replyRpcId = id) :
      Acts machines s (.draining my target id) s (.answered my target id)
  | answer {s : Shared} {my target id : ℕ} :
      Acts machines s (.answered my target id)
        ({ s with rpcLock := false }.finish id (.answered (s.reply my).result)) .idle
  | notice {s : Shared} {my : ℕ} (h : (s.slot my).pending = .posted) :
      Acts machines s .idle s (.noticed my)
  | claim {s : Shared} {my : ℕ} (hlock : (s.slot my).locked = false)
      (h : (s.slot my).Takes machines my) :
      Acts machines s (.noticed my) (s.setSlot my { s.slot my with pending := .claimed })
        (.claimed my (s.slot my).sender (s.slot my).rpcId)
  | claimNot {s : Shared} {my : ℕ} (hlock : (s.slot my).locked = false)
      (h : ¬ (s.slot my).Takes machines my) :
      Acts machines s (.noticed my) s .idle
  | fetchNot {s : Shared} {my sender id : ℕ} (hlock : (s.slot my).locked = false)
      (h : ¬ (s.slot my).Holds .claimed sender id) :
      Acts machines s (.claimed my sender id) s .idle
  | fetchBad {s : Shared} {my sender id : ℕ} (hlock : (s.slot my).locked = false)
      (h : (s.slot my).Holds .claimed sender id) (hsize : ¬ (s.slot my).batch.Sized) :
      Acts machines s (.claimed my sender id) (s.produce id (-einval))
        (.replying my sender id (-einval))
  | fetch {s : Shared} {my sender id : ℕ} (hlock : (s.slot my).locked = false)
      (h : (s.slot my).Holds .claimed sender id) (hsize : (s.slot my).batch.Sized) :
      Acts machines s (.claimed my sender id) s (.fetched my sender id (s.slot my).batch)
  /-- `dsm_cxl_handle_batch` or `dsm_cxl_handle_aging_batch`, with any result. -/
  | execute {s : Shared} {my sender id : ℕ} {batch : Batch} (result : ℤ) (h : batch.Known) :
      Acts machines s (.fetched my sender id batch)
        ({ s with executed := (id, batch) :: s.executed }.produce id result)
        (.replying my sender id result)
  | executeNot {s : Shared} {my sender id : ℕ} {batch : Batch} (h : ¬ batch.Known) :
      Acts machines s (.fetched my sender id batch) (s.produce id (-einval))
        (.replying my sender id (-einval))
  | close {s : Shared} {my sender id : ℕ} {result : ℤ} (hlock : (s.slot my).locked = false)
      (h : (s.slot my).Holds .claimed sender id) :
      Acts machines s (.replying my sender id result)
        (s.setSlot my { s.slot my with locked := true, pending := .free, sender := noSender })
        (.closing my sender id result)
  | closeNot {s : Shared} {my sender id : ℕ} {result : ℤ} (hlock : (s.slot my).locked = false)
      (h : ¬ (s.slot my).Holds .claimed sender id) :
      Acts machines s (.replying my sender id result) s .idle
  | storeResult {s : Shared} {my sender id : ℕ} {result : ℤ} :
      Acts machines s (.closing my sender id result)
        (s.setReply sender { s.reply sender with result })
        (.storing my sender id result)
  | storeReply {s : Shared} {my sender id : ℕ} {result : ℤ} :
      Acts machines s (.storing my sender id result)
        ((s.setReply sender { s.reply sender with replyRpcId := id }).setSlot my
          { s.slot my with locked := false }) .idle

/-- The mailbox that `dsm_cxl_reclaim_init` sets up. -/
def init : Shared where
  slot _ := ⟨false, .free, noSender, 0, ⟨0, 0, []⟩⟩
  reply _ := ⟨0, 0⟩
  rpcLock := false
  nextRpcId := 1
  calls := 0
  sent := []
  executed := []
  produced := []
  returned := []

@[simp] def start {T : Type} : Threads T Shared Phase := ⟨init, fun _ => .idle⟩

/-- The requests are served right. -/
structure Served (s : Shared) : Prop where
  /-- A request that was cancelled is not executed. -/
  cancelled : ∀ id, (id, .cancelled) ∈ s.returned → id ∉ s.executed.map Prod.fst
  /-- No request is executed twice. -/
  once : (s.executed.map Prod.fst).Nodup
  /-- A request that was reported successful is executed. -/
  successful : ∀ id o, (id, o) ∈ s.returned → o.value = 0 → (s.executed.map Prod.fst).count id = 1
  /-- What is executed is what was sent under this id. -/
  sent : ∀ x ∈ s.executed, x ∈ s.sent
  /-- A sender returns the result of its own request, and there is only one. -/
  own : ∀ id r, (id, .answered r) ∈ s.returned →
    (id, r) ∈ s.produced ∧ ∀ r', (id, r') ∈ s.produced → r' = r

/-! ## Ids -/

/-- The id of a request that is not posted yet. -/
@[simp] def Phase.fresh? : Phase → Option ℕ
  | called _ _ id _ => some id
  | admitted _ _ id _ => some id
  | cleared _ _ id _ => some id
  | _ => none

/-- The requests that are not posted yet have ids that nothing else has. -/
structure Fresh {T : Type} (w : Threads T Shared Phase) : Prop where
  counter : w.mem.nextRpcId = w.mem.calls + 1
  sent : ∀ x ∈ w.mem.sent, x.1 ≤ w.mem.nextRpcId
  bound : ∀ k id, (w.pc k).fresh? = some id → 2 ≤ id ∧ id ≤ w.mem.nextRpcId
  unsent : ∀ k id, (w.pc k).fresh? = some id → id ∉ w.mem.sent.map Prod.fst
  apart : ∀ k l id, (w.pc k).fresh? = some id → (w.pc l).fresh? = some id → k = l

open Phase

section ids

variable {T : Type} [DecidableEq T] {w : Threads T Shared Phase} {i : T} {s' : Shared}
  {p' : Phase} {machines : ℕ}

/-- A step that keeps the id of its thread, or gives it up. -/
theorem Fresh.move (h : Fresh w) (hnext : s'.nextRpcId = w.mem.nextRpcId)
    (hcalls : s'.calls = w.mem.calls)
    (hsent : s'.sent = w.mem.sent ∨ p'.fresh? = none ∧
      ∃ id b, (w.pc i).fresh? = some id ∧ s'.sent = (id, b) :: w.mem.sent)
    (hfresh : ∀ id, p'.fresh? = some id → (w.pc i).fresh? = some id) : Fresh (w.move i s' p') := by
  have hold : ∀ k id, ((w.move i s' p').pc k).fresh? = some id → (w.pc k).fresh? = some id := by
    intro k id hk
    by_cases hki : k = i
    · subst hki
      rw [w.move_pc_self] at hk
      exact hfresh id hk
    · rwa [w.move_pc_of_ne hki] at hk
  refine ⟨?_, fun x hx => ?_, fun k id hk => ?_, fun k id hk => ?_, fun k l id hk hl => ?_⟩
  · rw [w.move_mem, hnext, hcalls]
    exact h.counter
  · rw [w.move_mem] at hx ⊢
    rw [hnext]
    rcases hsent with hsent | ⟨-, id, b, hid, hsent⟩
    · exact h.sent x (hsent ▸ hx)
    · rw [hsent, mem_cons] at hx
      obtain rfl | hx := hx
      · exact (h.bound i id hid).2
      · exact h.sent x hx
  · rw [w.move_mem, hnext]
    exact h.bound k id (hold k id hk)
  · rw [w.move_mem]
    rcases hsent with hsent | ⟨hnone, id', b, hid, hsent⟩
    · rw [hsent]
      exact h.unsent k id (hold k id hk)
    · rw [hsent, map_cons, mem_cons, not_or]
      refine ⟨fun heq => ?_, h.unsent k id (hold k id hk)⟩
      obtain rfl : k = i := h.apart k i id (hold k id hk) (heq ▸ hid)
      rw [w.move_pc_self, hnone] at hk
      simp at hk
  · exact h.apart k l id (hold k id hk) (hold l id hl)

theorem Fresh.call (h : Fresh w) (hcalls : w.mem.calls + 1 < 2 ^ 64 - 1) :
    Fresh (w.move i { w.mem with nextRpcId := w.mem.nextId, calls := w.mem.calls + 1 }
      (.called my target w.mem.nextId batch)) := by
  have hnext : w.mem.nextId = w.mem.nextRpcId + 1 := by
    have := h.counter
    exact Nat.mod_eq_of_lt (by omega)
  have hother : ∀ k id, k ≠ i → (w.pc k).fresh? = some id → id ≠ w.mem.nextId := by
    intro k id _ hk heq
    have := (h.bound k id hk).2
    omega
  refine ⟨?_, fun x hx => ?_, fun k id hk => ?_, fun k id hk => ?_, fun k l id hk hl => ?_⟩
  · simp [hnext, h.counter]
  · have := h.sent x hx
    simp only [move_mem, hnext]
    omega
  · by_cases hki : k = i
    · subst hki
      simp only [move_pc_self, fresh?, some.injEq] at hk
      simp only [move_mem]
      have := h.counter
      omega
    · rw [w.move_pc_of_ne hki] at hk
      have := h.bound k id hk
      simp only [move_mem]
      omega
  · simp only [move_mem]
    by_cases hki : k = i
    · subst hki
      simp only [move_pc_self, fresh?, some.injEq] at hk
      intro hmem
      obtain ⟨x, hx, rfl⟩ := mem_map.mp hmem
      have := h.sent x hx
      omega
    · rw [w.move_pc_of_ne hki] at hk
      exact h.unsent k id hk
  · by_cases hki : k = i <;> by_cases hli : l = i
    · rw [hki, hli]
    · subst hki
      rw [w.move_pc_self] at hk
      rw [w.move_pc_of_ne hli] at hl
      exact absurd (some.inj hk).symm (hother l id hli hl)
    · subst hli
      rw [w.move_pc_self] at hl
      rw [w.move_pc_of_ne hki] at hk
      exact absurd (some.inj hl).symm (hother k id hki hk)
    · rw [w.move_pc_of_ne hki] at hk
      rw [w.move_pc_of_ne hli] at hl
      exact h.apart k l id hk hl

theorem Fresh.step (h : Fresh w) (hacts : Acts machines w.mem (w.pc i) s' p')
    (hcalls : s'.calls < 2 ^ 64 - 1) : Fresh (w.move i s' p') := by
  generalize hpc : w.pc i = p at hacts
  cases hacts with
  | call => exact h.call hcalls
  | post hlock hfree =>
    exact h.move rfl rfl (.inr ⟨rfl, _, _, by rw [hpc]; rfl, rfl⟩) (by simp)
  | accept | clear => exact h.move rfl rfl (.inl rfl) (by simp [hpc])
  | _ => exact h.move rfl rfl (.inl rfl) (by simp)

end ids

/-! ## The request that is under way -/

/-- The thread has the lock of the cluster. -/
@[simp] def Phase.sends : Phase → Bool
  | admitted .. | cleared .. | polling .. | expired .. | draining .. | answered .. => true
  | _ => false

/-- The thread has claimed a message. -/
def Phase.handles : Phase → Bool
  | claimed .. | fetched .. | replying .. | closing .. | storing .. => true
  | _ => false

/-- Machine, target and id of a sender that is about to post. -/
def Phase.opens : Phase → Option (ℕ × ℕ × ℕ)
  | admitted my target id _ => some (my, target, id)
  | cleared my target id _ => some (my, target, id)
  | _ => none

/-- Machine, target and id of a sender that has posted. -/
@[simp] def Phase.waits : Phase → Option (ℕ × ℕ × ℕ)
  | polling my target id => some (my, target, id)
  | expired my target id => some (my, target, id)
  | draining my target id => some (my, target, id)
  | _ => none

/-- Machine, sender and id of a target that has claimed. -/
def Phase.serves : Phase → Option (ℕ × ℕ × ℕ)
  | claimed my sender id => some (my, sender, id)
  | fetched my sender id _ => some (my, sender, id)
  | replying my sender id _ => some (my, sender, id)
  | _ => none

section

variable {p : Phase} {x : ℕ × ℕ × ℕ}

theorem Phase.of_opens (h : p.opens = some x) :
    p.sends = true ∧ p.waits = none ∧ ∀ my target id, p ≠ .answered my target id := by
  cases p <;> simp_all [opens]

theorem Phase.of_waits (h : p.waits = some x) : p.sends = true ∧ p.handles = false ∧
    p.opens = none ∧ ∀ my target id, p ≠ .answered my target id := by
  cases p <;> simp_all [opens, handles]

theorem Phase.of_serves (h : p.serves = some x) : p.sends = false ∧ p.handles = true ∧
    ∀ my sender id r, p ≠ .closing my sender id r ∧ p ≠ .storing my sender id r := by
  cases p <;> simp_all [handles, serves]

end

/-- How far the request is whose sender has the lock of the cluster. -/
inductive Stage (T : Type) where
  | quiet
  /-- Not posted yet. -/
  | opened (i : T) (my target id : ℕ)
  | posted (i : T) (my target id : ℕ)
  /-- Claimed by `j`. -/
  | taken (i j : T) (my target id : ℕ)
  /-- `j` is writing the answer. -/
  | closed (i j : T) (my target id : ℕ) (result : ℤ)
  | answered (i : T) (my target id : ℕ)

namespace Stage

variable {T : Type}

@[simp] def sender? : Stage T → Option T
  | quiet => none
  | opened i .. => some i
  | posted i .. => some i
  | taken i .. => some i
  | closed i .. => some i
  | answered i .. => some i

@[simp] def handler? : Stage T → Option T
  | taken _ j .. => some j
  | closed _ j .. => some j
  | _ => none

/-- Which slot is in use, and how. -/
@[simp] def pending : Stage T → ℕ → Pending
  | posted _ _ target _, u => if u = target then .posted else .free
  | taken _ _ _ target _, u => if u = target then .claimed else .free
  | _, _ => .free

/-- The slot whose lock is held. -/
@[simp] def locked : Stage T → ℕ → Bool
  | closed _ _ _ target _ _, u => u = target
  | _, _ => false

end Stage

/-- The account of the requests. -/
structure Account (s : Shared) : Prop where
  executed : ∀ x ∈ s.executed, x ∈ s.sent ∧ x.1 ∈ s.produced.map Prod.fst
  once : (s.executed.map Prod.fst).Nodup
  produced : (s.produced.map Prod.fst).Nodup
  sent : ∀ x ∈ s.produced, x.1 ∈ s.sent.map Prod.fst
  successful : ∀ id, (id, 0) ∈ s.produced → id ∈ s.executed.map Prod.fst
  cancelled : ∀ id, (id, .cancelled) ∈ s.returned →
    id ∈ s.sent.map Prod.fst ∧ id ∉ s.executed.map Prod.fst
  answered : ∀ id r, (id, .answered r) ∈ s.returned → (id, r) ∈ s.produced

theorem Account.congr (h : Account s) (hsent : s'.sent = s.sent)
    (hexecuted : s'.executed = s.executed) (hproduced : s'.produced = s.produced)
    (hreturned : s'.returned = s.returned) : Account s' := by
  obtain ⟨h1, h2, h3, h4, h5, h6, h7⟩ := h
  constructor <;> simp only [hsent, hexecuted, hproduced, hreturned] <;> assumption

/-- The request has no answer and was not taken back. -/
structure UnderWay (s : Shared) (my id : ℕ) : Prop where
  unanswered : (s.reply my).replyRpcId ≠ id
  cancelled : (id, Outcome.cancelled) ∉ s.returned

/-- The slot has the request. -/
structure Carries (s : Shared) (my target id : ℕ) : Prop where
  sender : (s.slot target).sender = my
  rpcId : (s.slot target).rpcId = id
  batch : (id, (s.slot target).batch) ∈ s.sent

/-- Where the target is with its work. -/
def Serving (s : Shared) (id : ℕ) : Phase → Prop
  | .fetched _ _ _ batch => id ∉ s.produced.map Prod.fst ∧ (id, batch) ∈ s.sent
  | .replying _ _ _ result => (id, result) ∈ s.produced
  | _ => id ∉ s.produced.map Prod.fst

/-- Sender, target and memory agree on the stage. -/
def Stage.Here {T : Type} (w : Threads T Shared Phase) : Stage T → Prop
  | .quiet => True
  | .opened i my target id => (w.pc i).opens = some (my, target, id) ∧
      ∀ b, w.pc i = .cleared my target id b → (w.mem.reply my).replyRpcId = 0
  | .posted i my target id => (w.pc i).waits = some (my, target, id) ∧ UnderWay w.mem my id ∧
      Carries w.mem my target id ∧ id ∉ w.mem.produced.map Prod.fst
  | .taken i j my target id => (w.pc i).waits = some (my, target, id) ∧ UnderWay w.mem my id ∧
      Carries w.mem my target id ∧ (w.pc j).serves = some (target, my, id) ∧
      Serving w.mem id (w.pc j)
  | .closed i j my target id result => (w.pc i).waits = some (my, target, id) ∧
      UnderWay w.mem my id ∧ (id, result) ∈ w.mem.produced ∧
      (w.pc j = .closing target my id result ∨
        w.pc j = .storing target my id result ∧ (w.mem.reply my).result = result)
  | .answered i my target id =>
    ((w.pc i).waits = some (my, target, id) ∨ w.pc i = .answered my target id) ∧
    (w.mem.reply my).replyRpcId = id ∧ (id, (w.mem.reply my).result) ∈ w.mem.produced

structure Held {T : Type} (w : Threads T Shared Phase) (st : Stage T) : Prop where
  lock : w.mem.rpcLock = st.sender?.isSome
  sender : ∀ k, (w.pc k).sends = true ↔ st.sender? = some k
  handler : ∀ k, (w.pc k).handles = true ↔ st.handler? = some k
  pending : ∀ u, (w.mem.slot u).pending = st.pending u
  locked : ∀ u, (w.mem.slot u).locked = st.locked u
  here : st.Here w
  account : Account w.mem

open Stage Shared

section steps

variable {T : Type} {w : Threads T Shared Phase} {st st' : Stage T} {i : T}
  {s s' : Shared} {p' : Phase} {machines my target sender id : ℕ} {batch : Batch} {result : ℤ}

theorem UnderWay.congr (h : UnderWay s my id) (hreply : s'.reply = s.reply)
    (hreturned : ∀ id, (id, Outcome.cancelled) ∈ s'.returned → (id, .cancelled) ∈ s.returned) :
    UnderWay s' my id where
  unanswered := hreply ▸ h.unanswered
  cancelled hmem := h.cancelled (hreturned id hmem)

theorem Carries.congr (h : Carries s my target id) (hslot : s'.slot = s.slot)
    (hsent : s'.sent = s.sent) : Carries s' my target id where
  sender := hslot ▸ h.sender
  rpcId := hslot ▸ h.rpcId
  batch := by
    rw [hslot, hsent]
    exact h.batch

theorem Serving.congr (h : Serving s id p) (hsent : s'.sent = s.sent)
    (hproduced : s'.produced = s.produced) : Serving s' id p := by
  unfold Serving at h ⊢
  rwa [hsent, hproduced]

/-- A result without execution. -/
theorem Account.refuse (h : Account s) (hnot : id ∉ s.produced.map fst)
    (hsent : id ∈ s.sent.map fst) : Account (s.produce id (-einval)) := by
  obtain ⟨hexecuted, honce, hproduced, hsent', hsuccess, hcancelled, hanswered⟩ := h
  constructor <;> grind [produce, einval]

theorem Account.execute (h : Account s) (hnot : id ∉ s.produced.map fst)
    (hsent : (id, batch) ∈ s.sent) (hcancelled : (id, Outcome.cancelled) ∉ s.returned) :
    Account ({ s with executed := (id, batch) :: s.executed }.produce id result) where
  executed x hx := by
    obtain rfl | hx := mem_cons.mp hx
    · exact ⟨hsent, mem_cons_self⟩
    · exact ⟨(h.executed x hx).1, mem_cons_of_mem _ (h.executed x hx).2⟩
  once := by
    refine nodup_cons.mpr ⟨fun hmem => ?_, h.once⟩
    obtain ⟨x, hx, rfl⟩ := mem_map.mp hmem
    exact hnot (h.executed x hx).2
  produced := nodup_cons.mpr ⟨hnot, h.produced⟩
  sent x hx := by
    obtain rfl | hx := mem_cons.mp hx
    · exact mem_map.mpr ⟨_, hsent, rfl⟩
    · exact h.sent x hx
  successful y hy := by
    obtain heq | hy := mem_cons.mp hy
    · obtain ⟨rfl, -⟩ := mk.inj heq
      exact mem_cons_self
    · exact mem_cons_of_mem _ (h.successful y hy)
  cancelled y hy := by
    refine ⟨(h.cancelled y hy).1, fun hmem => ?_⟩
    obtain rfl | hmem := mem_cons.mp hmem
    · exact hcancelled hy
    · exact (h.cancelled y hy).2 hmem
  answered y r hy := mem_cons_of_mem _ (h.answered y r hy)

theorem Account.again (h : Account s) : Account (s.finish id .again) where
  executed := h.executed
  once := h.once
  produced := h.produced
  sent := h.sent
  successful := h.successful
  cancelled y hy := h.cancelled y (by simpa using hy)
  answered y r hy := h.answered y r (by simpa using hy)

section

variable (h : Held w st)
include h

theorem Held.ne_sender (hi : (w.pc i).sends = false)
    (hk : st.sender? = some k) : k ≠ i := fun heq => by
  rw [← h.sender k, heq, hi] at hk
  simp at hk

theorem Held.ne_handler (hi : (w.pc i).handles = false)
    (hk : st.handler? = some k) : k ≠ i := fun heq => by
  rw [← h.handler k, heq, hi] at hk
  simp at hk

attribute [local simp] sender?

theorem Held.opened_of (hi : (w.pc i).opens = some (my, target, id)) :
    st = .opened i my target id := by
  have hsends := h.sender i
  have hhere := h.here
  have := of_opens hi
  cases st <;> simp only [Stage.Here, sender?] at hhere hsends <;> grind

theorem Held.answered_of (hi : (w.pc i).waits = some (my, target, id))
    (hid : (w.mem.reply my).replyRpcId = id) : st = .answered i my target id := by
  have hsends := h.sender i
  have hhere := h.here
  -- before that, the answer has another id
  have hnot {my id} (hunder : UnderWay w.mem my id) := hunder.unanswered
  have := of_waits hi
  cases st <;> simp only [Stage.Here, sender?] at hhere hsends <;> grind

theorem Held.quiet_of (hlock : w.mem.rpcLock = false) : st = .quiet := by
  rw [h.lock] at hlock
  cases st <;> simp at hlock ⊢

theorem Held.posted_of (hposted : (w.mem.slot target).pending = .posted) :
    ∃ k my id, st = .posted k my target id := by
  rw [h.pending] at hposted
  cases st with
  | posted k my target' id =>
    by_cases heq : target = target'
    · exact ⟨k, my, id, by rw [heq]⟩
    · simp [Stage.pending, heq] at hposted
  | taken k j my target' id =>
    by_cases heq : target = target' <;> simp [Stage.pending, heq] at hposted
  | quiet => simp [Stage.pending] at hposted
  | opened => simp [Stage.pending] at hposted
  | closed => simp [Stage.pending] at hposted
  | answered => simp [Stage.pending] at hposted

/-- No slot is in use while the sender has not posted. -/
theorem Held.not_busy (hpc : w.pc i = .cleared my target id batch) :
    (w.mem.slot target).pending = .free := by
  obtain rfl := h.opened_of (by rw [hpc]; rfl)
  exact h.pending target

theorem Held.taken_of (hi : (w.pc i).serves = some (target, my, id)) :
    ∃ k, st = .taken k i my target id := by
  have hhandler := h.handler i
  have hhere := h.here
  have := of_serves hi
  cases st <;> simp only [Stage.Here, handler?] at hhere hhandler <;> grind

/-- The slot of a target that has claimed a message still has it. -/
theorem Held.holds_of (hi : (w.pc i).serves = some (target, my, id)) :
    (w.mem.slot target).Holds .claimed my id := by
  obtain ⟨k, rfl⟩ := h.taken_of hi
  obtain ⟨-, -, hcarries, -, -⟩ := h.here
  refine ⟨?_, hcarries.sender, hcarries.rpcId⟩
  rw [h.pending]
  simp

theorem Held.closed_of
    (hi : w.pc i = .closing target my id result ∨ w.pc i = .storing target my id result) :
    ∃ k, st = .closed k i my target id result := by
  have hhandler := h.handler i
  have hhere := h.here
  cases st <;> simp only [Stage.Here, handler?] at hhere hhandler <;> grind [handles, serves]

variable [DecidableEq T]

/-- A step of thread `i` leaves the roles of the other threads alone. -/
theorem Held.move (hlock : s'.rpcLock = st'.sender?.isSome)
    (hsender : p'.sends = true ↔ st'.sender? = some i)
    (hsender' : ∀ k, k ≠ i → (st.sender? = some k ↔ st'.sender? = some k))
    (hhandler : p'.handles = true ↔ st'.handler? = some i)
    (hhandler' : ∀ k, k ≠ i → (st.handler? = some k ↔ st'.handler? = some k))
    (hpending : ∀ u, (s'.slot u).pending = st'.pending u)
    (hlocked : ∀ u, (s'.slot u).locked = st'.locked u)
    (hhere : st'.Here (w.move i s' p')) (haccount : Account s') : Held (w.move i s' p') st' where
  lock := hlock
  sender k := by grind [h.sender k]
  handler k := by grind [h.handler k]
  pending := hpending
  locked := hlocked
  here := hhere
  account := haccount

theorem Held.stay (hsends : p'.sends = (w.pc i).sends)
    (hhandles : p'.handles = (w.pc i).handles) (hlock : s'.rpcLock = w.mem.rpcLock)
    (hslot : s'.slot = w.mem.slot) (hhere : st.Here (w.move i s' p')) (haccount : Account s') :
    Held (w.move i s' p') st := by
  refine h.move (hlock.trans h.lock) ?_ (fun _ _ => Iff.rfl) ?_ (fun _ _ => Iff.rfl)
    (fun u => ?_) (fun u => ?_) hhere haccount
  · rw [hsends]
    exact h.sender i
  · rw [hhandles]
    exact h.handler i
  · rw [hslot]
    exact h.pending u
  · rw [hslot]
    exact h.locked u

/-- A thread that neither sends nor serves does not disturb the request. -/
theorem Held.aside (hi : (w.pc i).sends = false) (hi' : (w.pc i).handles = false)
    (hp : p'.sends = false) (hp' : p'.handles = false) (hlock : s'.rpcLock = w.mem.rpcLock)
    (hslot : s'.slot = w.mem.slot) (hreply : s'.reply = w.mem.reply)
    (hsent : s'.sent = w.mem.sent) (hproduced : s'.produced = w.mem.produced)
    (hreturned : ∀ id, (id, Outcome.cancelled) ∈ s'.returned → (id, .cancelled) ∈ w.mem.returned)
    (haccount : Account s') : Held (w.move i s' p') st := by
  refine h.stay (hp.trans hi.symm) (hp'.trans hi'.symm) hlock hslot ?_ haccount
  have hhere := h.here
  cases st with
  | quiet => trivial
  | opened k my target id =>
    obtain ⟨hopens, hclear⟩ := hhere
    have hk : k ≠ i := h.ne_sender hi rfl
    refine ⟨by rwa [w.move_pc_of_ne hk], fun b hb => ?_⟩
    rw [w.move_pc_of_ne hk] at hb
    rw [w.move_mem, hreply]
    exact hclear b hb
  | posted k my target id =>
    obtain ⟨hwaits, hunder, hcarries, hnot⟩ := hhere
    have hk : k ≠ i := h.ne_sender hi rfl
    exact ⟨by rwa [w.move_pc_of_ne hk], hunder.congr hreply hreturned,
      hcarries.congr hslot hsent, by rwa [w.move_mem, hproduced]⟩
  | taken k j my target id =>
    obtain ⟨hwaits, hunder, hcarries, hserves, hserving⟩ := hhere
    have hk : k ≠ i := h.ne_sender hi rfl
    have hj : j ≠ i := h.ne_handler hi' rfl
    refine ⟨by rwa [w.move_pc_of_ne hk], hunder.congr hreply hreturned,
      hcarries.congr hslot hsent, by rwa [w.move_pc_of_ne hj], ?_⟩
    rw [w.move_pc_of_ne hj]
    exact hserving.congr hsent hproduced
  | closed k j my target id result =>
    obtain ⟨hwaits, hunder, hmem, hpc⟩ := hhere
    have hk : k ≠ i := h.ne_sender hi rfl
    have hj : j ≠ i := h.ne_handler hi' rfl
    refine ⟨by rwa [w.move_pc_of_ne hk], hunder.congr hreply hreturned,
      by rwa [w.move_mem, hproduced], ?_⟩
    rwa [w.move_pc_of_ne hj, w.move_mem, hreply]
  | answered k my target id =>
    obtain ⟨hwaits, hid, hmem⟩ := hhere
    have hk : k ≠ i := h.ne_sender hi rfl
    refine ⟨by rwa [w.move_pc_of_ne hk], ?_, ?_⟩
    · rwa [w.move_mem, hreply]
    · rwa [w.move_mem, hreply, hproduced]

theorem Held.wait (hi : (w.pc i).waits = some x)
    (hp : p'.waits = some x) : Held (w.move i w.mem p') st := by
  obtain ⟨hsends, hnot, hopens, hans⟩ := of_waits hi
  obtain ⟨hsends', hnot', -, -⟩ := of_waits hp
  refine h.stay (hsends'.trans hsends.symm) (hnot'.trans hnot.symm) rfl rfl ?_ h.account
  have hsender := (h.sender i).mp hsends
  have hhere := h.here
  cases st with
  | quiet => trivial
  | opened k my target id =>
    obtain rfl : k = i := some.inj hsender
    obtain ⟨hopens, -⟩ := hhere
    cases hpc : w.pc k <;> simp [hpc, opens] at hopens hi
  | posted k my target id =>
    obtain rfl : k = i := some.inj hsender
    obtain ⟨hwaits, hrest⟩ := hhere
    exact ⟨by rw [w.move_pc_self, hp, ← hi, hwaits], hrest⟩
  | taken k j my target id =>
    obtain rfl : k = i := some.inj hsender
    obtain ⟨hwaits, hunder, hcarries, hserves, hserving⟩ := hhere
    have hj : j ≠ k := h.ne_handler hnot rfl
    refine ⟨by rw [w.move_pc_self, hp, ← hi, hwaits], hunder, hcarries, ?_, ?_⟩
    · rwa [w.move_pc_of_ne hj]
    · rwa [w.move_pc_of_ne hj]
  | closed k j my target id result =>
    obtain rfl : k = i := some.inj hsender
    obtain ⟨hwaits, hunder, hmem, hpc⟩ := hhere
    have hj : j ≠ k := h.ne_handler hnot rfl
    refine ⟨by rw [w.move_pc_self, hp, ← hi, hwaits], hunder, hmem, ?_⟩
    rwa [w.move_pc_of_ne hj]
  | answered k my target id =>
    obtain rfl : k = i := some.inj hsender
    obtain ⟨hwaits, hrest⟩ := hhere
    refine ⟨.inl ?_, hrest⟩
    rw [w.move_pc_self, hp]
    rcases hwaits with hwaits | hpc
    · rw [← hi, hwaits]
    · simp [hpc] at hi

/-! ### Senders -/

theorem Held.accept (hlock : w.mem.rpcLock = false) :
    Held (w.move i { w.mem with rpcLock := true } (.admitted my target id batch))
      (.opened i my target id) := by
  obtain rfl := h.quiet_of hlock
  refine h.move rfl (by simp) (fun k hk => ?_) (by simp [handles]) (fun _ _ => by simp) h.pending
    h.locked ⟨by rw [w.move_pc_self]; rfl, fun b hb => ?_⟩ ?_
  · simp [hk.symm]
  · simp at hb
  · exact h.account.congr rfl rfl rfl rfl

theorem Held.clear (hpc : w.pc i = .admitted my target id batch) :
    Held (w.move i (w.mem.setReply my { w.mem.reply my with replyRpcId := 0 })
      (.cleared my target id batch)) st := by
  obtain rfl := h.opened_of (by rw [hpc]; rfl)
  refine h.stay (by rw [hpc]; rfl) (by rw [hpc]; rfl) rfl rfl
    ⟨by rw [w.move_pc_self]; rfl, fun _ _ => by simp⟩ ?_
  exact h.account.congr rfl rfl rfl rfl

theorem Held.post (hf : Fresh w) (hpc : w.pc i = .cleared my target id batch) :
    Held (w.move i ({ w.mem with sent := (id, batch) :: w.mem.sent }.setSlot target
      ⟨false, .posted, my, id, batch⟩) (.polling my target id)) (.posted i my target id) := by
  obtain rfl := h.opened_of (by rw [hpc]; rfl)
  have hfresh : (w.pc i).fresh? = some id := by
    rw [hpc]
    rfl
  have hunsent := hf.unsent i id hfresh
  have hzero : (w.mem.reply my).replyRpcId = 0 := h.here.2 batch hpc
  refine h.move h.lock (by simp) (fun _ _ => Iff.rfl)
    (by simp [handles, Stage.handler?]) (fun _ _ => Iff.rfl) (fun u => ?_) (fun u => ?_)
    ⟨by rw [w.move_pc_self]; rfl, ⟨?_, fun hmem => ?_⟩, ⟨?_, ?_, ?_⟩, fun hmem => ?_⟩ ?_
  · by_cases hu : u = target
    · simp [Shared.setSlot, Stage.pending, hu]
    · simpa [Shared.setSlot, Stage.pending, hu] using h.pending u
  · by_cases hu : u = target
    · simp [Shared.setSlot, Stage.locked, hu]
    · simpa [Shared.setSlot, Stage.locked, hu] using h.locked u
  · have := (hf.bound i id hfresh).1
    change (w.mem.reply my).replyRpcId ≠ id
    omega
  · exact hunsent (h.account.cancelled id hmem).1
  · simp [Shared.setSlot]
  · simp [Shared.setSlot]
  · simp [Shared.setSlot]
  · obtain ⟨x, hx, rfl⟩ := mem_map.mp hmem
    exact hunsent (h.account.sent x hx)
  · have hmap : ∀ y, y ∈ w.mem.sent.map fst → y ∈ ((id, batch) :: w.mem.sent).map fst :=
      fun y hy => mem_cons_of_mem _ hy
    exact ⟨fun x hx => ⟨mem_cons_of_mem _ (h.account.executed x hx).1,
        (h.account.executed x hx).2⟩, h.account.once, h.account.produced,
      fun x hx => hmap _ (h.account.sent x hx), h.account.successful,
      fun y hy => ⟨hmap _ (h.account.cancelled y hy).1, (h.account.cancelled y hy).2⟩,
      h.account.answered⟩

theorem Held.seen (hi : (w.pc i).waits = some (my, target, id))
    (hid : (w.mem.reply my).replyRpcId = id) :
    Held (w.move i w.mem (.answered my target id)) st := by
  obtain rfl := h.answered_of hi hid
  have hsends : (w.pc i).sends = true ∧ (w.pc i).handles = false := by
    cases hpc : w.pc i <;> simp [hpc] at hi <;> exact ⟨rfl, rfl⟩
  exact h.stay hsends.1.symm hsends.2.symm rfl rfl ⟨.inr (w.move_pc_self ..), h.here.2⟩ h.account

theorem Held.cancel (hpc : w.pc i = .expired my target id)
    (hholds : (w.mem.slot target).Holds .posted my id) :
    Held (w.move i (({ w.mem with rpcLock := false }.setSlot target
      { w.mem.slot target with pending := .free, sender := noSender }).finish id .cancelled) .idle)
      .quiet := by
  obtain ⟨k, my', id', rfl⟩ := h.posted_of hholds.1
  have hk : k = i := some.inj ((h.sender i).mp (by rw [hpc]; rfl))
  subst hk
  obtain ⟨hwaits, hunder, hcarries, hnot⟩ := h.here
  obtain ⟨rfl, rfl⟩ : my = my' ∧ id = id' := by
    simpa [hpc] using hwaits
  refine h.move rfl (by simp) (fun j hj => ?_)
    (by simp [handles, Stage.handler?]) (fun _ _ => Iff.rfl) (fun u => ?_) (fun u => ?_)
    trivial ?_
  · simp [hj.symm]
  · by_cases hu : u = target
    · simp [hu]
    · simpa [hu] using h.pending u
  · by_cases hu : u = target
    · simpa [hu] using h.locked target
    · simpa [hu] using h.locked u
  · refine ⟨h.account.executed, h.account.once, h.account.produced, h.account.sent,
      h.account.successful, fun y hy => ?_, fun y r hy => ?_⟩
    · obtain heq | hy := mem_cons.mp hy
      · obtain ⟨rfl, -⟩ := mk.inj heq
        refine ⟨mem_map.mpr ⟨_, hcarries.batch, rfl⟩, fun hmem => ?_⟩
        obtain ⟨x, hx, rfl⟩ := mem_map.mp hmem
        exact hnot (h.account.executed x hx).2
      · exact h.account.cancelled y hy
    · obtain heq | hy := mem_cons.mp hy
      · simp at heq
      · exact h.account.answered y r hy

theorem Held.answer (hpc : w.pc i = .answered my target id) :
    Held (w.move i ({ w.mem with rpcLock := false }.finish id
      (.answered (w.mem.reply my).result)) .idle) .quiet := by
  have hst : st = .answered i my target id := by
    have hsends := h.sender i
    have hhere := h.here
    rw [hpc] at hsends
    cases st <;> simp only [Stage.Here, sender?] at hhere hsends <;> grind [sends, opens, waits]
  subst hst
  obtain ⟨-, -, hmem⟩ := h.here
  refine h.move rfl (by simp) (fun j hj => ?_)
    (by simp [handles]) (fun _ _ => Iff.rfl) h.pending h.locked trivial ?_
  · simp [hj.symm]
  · obtain ⟨hexecuted, honce, hproduced, hsent, hsuccess, hcancelled, hanswered⟩ := h.account
    constructor <;> grind [finish]

/-! ### Targets -/

theorem Held.claim (hpc : w.pc i = .noticed target)
    (hposted : (w.mem.slot target).pending = .posted) :
    ∃ st', Held (w.move i (w.mem.setSlot target { w.mem.slot target with pending := .claimed })
      (.claimed target (w.mem.slot target).sender (w.mem.slot target).rpcId)) st' := by
  obtain ⟨k, my, id, rfl⟩ := h.posted_of hposted
  obtain ⟨hwaits, hunder, hcarries, hnot⟩ := h.here
  have hk : k ≠ i := h.ne_sender (by rw [hpc]; rfl) rfl
  rw [hcarries.sender, hcarries.rpcId]
  refine ⟨.taken k i my target id, h.move h.lock ?_ (fun _ _ => Iff.rfl)
    (by simp [handles]) (fun j hj => ?_) (fun u => ?_) (fun u => ?_)
    ⟨by rwa [w.move_pc_of_ne hk], ⟨hunder.unanswered, hunder.cancelled⟩, ⟨?_, ?_, ?_⟩,
      by rw [w.move_pc_self]; rfl, by rw [w.move_pc_self]; exact hnot⟩
    (h.account.congr rfl rfl rfl rfl)⟩
  · simpa using hk
  · simp [Stage.handler?, hj.symm]
  · grind [h.pending u, Stage.pending]
  · grind [h.locked u, Stage.locked]
  · simp [hcarries.sender]
  · simp [hcarries.rpcId]
  · simpa using hcarries.batch

theorem Held.serve (hi : (w.pc i).serves = some (target, my, id))
    (hp : p'.serves = some (target, my, id)) (hlock : s'.rpcLock = w.mem.rpcLock)
    (hslot : s'.slot = w.mem.slot) (hreply : s'.reply = w.mem.reply)
    (hsent : s'.sent = w.mem.sent) (hreturned : s'.returned = w.mem.returned)
    (hserving : Serving w.mem id (w.pc i) → Carries w.mem my target id → Serving s' id p')
    (haccount : Serving w.mem id (w.pc i) → UnderWay w.mem my id → Carries w.mem my target id →
      Account s') : Held (w.move i s' p') st := by
  have hroles : ∀ {p : Phase}, p.serves = some (target, my, id) →
      p.sends = false ∧ p.handles = true := by
    intro p hserves
    cases p <;> simp_all [serves, handles]
  obtain ⟨k, rfl⟩ := h.taken_of hi
  obtain ⟨hwaits, hunder, hcarries, -, hold⟩ := h.here
  have hk : k ≠ i := h.ne_sender (hroles hi).1 rfl
  refine h.stay ((hroles hp).1.trans (hroles hi).1.symm) ((hroles hp).2.trans (hroles hi).2.symm)
    hlock hslot ⟨by rwa [w.move_pc_of_ne hk],
      hunder.congr hreply (fun y hy => by rwa [w.move_mem, hreturned] at hy),
      hcarries.congr hslot hsent, by rwa [w.move_pc_self], ?_⟩ (haccount hold hunder hcarries)
  rw [w.move_pc_self]
  exact hserving hold hcarries

/-- The target frees the slot before it writes the answer. -/
theorem Held.close (hpc : w.pc i = .replying target my id result) :
    ∃ st', Held (w.move i (w.mem.setSlot target
      { w.mem.slot target with locked := true, pending := .free, sender := noSender })
      (.closing target my id result)) st' := by
  obtain ⟨k, rfl⟩ := h.taken_of (by rw [hpc]; rfl)
  obtain ⟨hwaits, hunder, hcarries, -, hserving⟩ := h.here
  have hk : k ≠ i := h.ne_sender (by rw [hpc]; rfl) rfl
  rw [hpc] at hserving
  refine ⟨.closed k i my target id result, h.move h.lock ?_ (fun _ _ => Iff.rfl)
    (by simp [handles]) (fun _ _ => Iff.rfl) (fun u => ?_) (fun u => ?_)
    ⟨by rwa [w.move_pc_of_ne hk], ⟨hunder.unanswered, hunder.cancelled⟩, hserving,
      .inl (w.move_pc_self ..)⟩ (h.account.congr rfl rfl rfl rfl)⟩
  · simpa using hk
  · grind [h.pending u, Stage.pending]
  · grind [h.locked u, Stage.locked]

theorem Held.storeResult (hpc : w.pc i = .closing target my id result) :
    Held (w.move i (w.mem.setReply my { w.mem.reply my with result })
      (.storing target my id result)) st := by
  obtain ⟨k, rfl⟩ := h.closed_of (.inl hpc)
  obtain ⟨hwaits, hunder, hmem, -⟩ := h.here
  have hk : k ≠ i := h.ne_sender (by rw [hpc]; rfl) rfl
  refine h.stay (by rw [hpc]; rfl) (by rw [hpc]; rfl) rfl rfl ⟨by rwa [w.move_pc_of_ne hk],
    ⟨?_, hunder.cancelled⟩, hmem, .inr ⟨w.move_pc_self .., ?_⟩⟩ (h.account.congr rfl rfl rfl rfl)
  · simpa using hunder.unanswered
  · simp

theorem Held.storeReply (hpc : w.pc i = .storing target my id result) :
    ∃ st', Held (w.move i ((w.mem.setReply my { w.mem.reply my with replyRpcId := id }).setSlot
      target { w.mem.slot target with locked := false }) .idle) st' := by
  obtain ⟨k, rfl⟩ := h.closed_of (.inr hpc)
  obtain ⟨hwaits, hunder, hmem, hpc' | ⟨-, hresult⟩⟩ := h.here
  · simp [hpc] at hpc'
  have hk : k ≠ i := h.ne_sender (by rw [hpc]; rfl) rfl
  refine ⟨.answered k my target id, h.move h.lock ?_ (fun _ _ => Iff.rfl)
    (by simp [handles]) (fun j hj => ?_) (fun u => ?_) (fun u => ?_)
    ⟨.inl (by rwa [w.move_pc_of_ne hk]), ?_, ?_⟩ (h.account.congr rfl rfl rfl rfl)⟩
  · simpa using hk
  · simp [Stage.handler?, hj.symm]
  · grind [h.pending u, Stage.pending]
  · grind [h.locked u, Stage.locked]
  · simp
  · simpa [hresult] using hmem

/-! ### All steps -/

theorem Held.step (hf : Fresh w) (hacts : Acts machines w.mem (w.pc i) s' p') :
    ∃ st', Held (w.move i s' p') st' := by
  generalize hpc : w.pc i = p at hacts
  have hserves {x : ℕ × ℕ × ℕ} (hp : p.serves = some x) : (w.pc i).serves = some x := hpc ▸ hp
  cases hacts with
  | call =>
    exact ⟨st, h.aside (by rw [hpc]; rfl) (by rw [hpc]; rfl) rfl rfl rfl rfl rfl rfl rfl
      (fun _ hy => hy) (h.account.congr rfl rfl rfl rfl)⟩
  | admissionExpired hlock =>
    exact ⟨st, h.aside (by rw [hpc]; rfl) (by rw [hpc]; rfl) rfl rfl rfl rfl rfl rfl rfl
      (fun _ hy => by simpa using hy) h.account.again⟩
  | accept hlock => exact ⟨_, h.accept hlock⟩
  | clear => exact ⟨st, h.clear hpc⟩
  | busy hlock hbusy => exact absurd (h.not_busy hpc) hbusy
  | post hlock hfree => exact ⟨_, h.post hf hpc⟩
  | poll | expire | cancelNot | drain => exact ⟨st, h.wait (hpc ▸ rfl) rfl⟩
  | pollAnswer hid | drainAnswer hid => exact ⟨st, h.seen (hpc ▸ rfl) hid⟩
  | cancel hlock hholds => exact ⟨_, h.cancel hpc hholds⟩
  | answer => exact ⟨_, h.answer hpc⟩
  | notice | claimNot =>
    exact ⟨st, h.aside (by rw [hpc]; rfl) (by rw [hpc]; rfl) rfl rfl rfl rfl rfl rfl rfl
      (fun _ hy => hy) h.account⟩
  | claim hlock htakes => exact h.claim hpc htakes.1
  | fetchNot hlock hholds | closeNot hlock hholds => exact absurd (h.holds_of (hserves rfl)) hholds
  | fetchBad hlock hholds hsize =>
    refine ⟨st, h.serve (hserves rfl) rfl rfl rfl rfl rfl rfl (fun _ _ => mem_cons_self)
      fun hold _ hcarries => ?_⟩
    rw [hpc] at hold
    exact h.account.refuse hold (mem_map.mpr ⟨_, hcarries.batch, rfl⟩)
  | fetch hlock hholds hsize =>
    refine ⟨st, h.serve (hserves rfl) rfl rfl rfl rfl rfl rfl (fun hold hcarries => ?_)
      fun _ _ _ => h.account⟩
    rw [hpc] at hold
    exact ⟨hold, hcarries.batch⟩
  | execute result hknown =>
    refine ⟨st, h.serve (hserves rfl) rfl rfl rfl rfl rfl rfl (fun _ _ => mem_cons_self)
      fun hold hunder _ => ?_⟩
    rw [hpc] at hold
    exact h.account.execute hold.1 hold.2 hunder.cancelled
  | executeNot hknown =>
    refine ⟨st, h.serve (hserves rfl) rfl rfl rfl rfl rfl rfl (fun _ _ => mem_cons_self)
      fun hold _ hcarries => ?_⟩
    rw [hpc] at hold
    exact h.account.refuse hold.1 (mem_map.mpr ⟨_, hcarries.batch, rfl⟩)
  | close hlock hholds => exact h.close hpc
  | storeResult => exact ⟨st, h.storeResult hpc⟩
  | storeReply => exact h.storeReply hpc

end

end steps

/-! ## All runs -/

variable {s : Shared}

theorem Account.served (h : Account s) : Served s where
  cancelled id hid := (h.cancelled id hid).2
  once := h.once
  successful id o hmem hzero := by
    refine count_eq_one_of_mem h.once ?_
    cases o with
    | answered result =>
      obtain rfl : result = 0 := hzero
      exact h.successful id (h.answered id 0 hmem)
    | cancelled => simp [etimedout] at hzero
    | again => simp [eagain] at hzero
  sent x hx := (h.executed x hx).1
  own id r hmem := by
    have hr := h.answered id r hmem
    refine ⟨hr, fun r' hr' => ?_⟩
    have hinj := inj_on_of_nodup_map h.produced hr' hr rfl
    exact (mk.inj hinj).2

theorem start_held {T : Type} : Held (start (T := T)) .quiet where
  lock := rfl
  sender k := by simp
  handler k := by simp [handles]
  pending u := rfl
  locked u := rfl
  here := trivial
  account := by constructor <;> simp [init]

theorem start_fresh {T : Type} : Fresh (start (T := T)) where
  counter := rfl
  sent x hx := by simp [init] at hx
  bound k id hk := by simp at hk
  unsent k id hk := by simp at hk
  apart k l id hk := by simp at hk

theorem Acts.calls_le (h : Acts machines s p s' p') : s.calls ≤ s'.calls := by
  cases h <;> simp [produce]

/-- As long as the ids have not wrapped around, the requests are served right. -/
theorem requests_served {T : Type} [DecidableEq T] (machines : ℕ) {w : Threads T Shared Phase}
    (hrun : Relation.ReflTransGen (Threads.Step (Acts machines)) start w)
    (hcalls : w.mem.calls < 2 ^ 64 - 1) : Served w.mem := by
  have hall : ∃ st, Held w st ∧ Fresh w := by
    induction hrun with
    | refl => exact ⟨.quiet, start_held, start_fresh⟩
    | tail _ hstep ih =>
      obtain ⟨hacts⟩ := hstep
      obtain ⟨st, hheld, hfresh⟩ := ih (Nat.lt_of_le_of_lt hacts.calls_le hcalls)
      obtain ⟨st', hheld'⟩ := hheld.step hfresh hacts
      exact ⟨st', hheld', hfresh.step hacts hcalls⟩
  obtain ⟨st, hheld, -⟩ := hall
  exact hheld.account.served

/-- A batch of one operation. -/
def oneOp : Batch := ⟨0, 0, [⟨0, 0, 0, 0, 0⟩]⟩

/-- The steps of one thread on a cluster of two machines. -/
abbrev Alone : Shared × Phase → Shared × Phase → Prop :=
  Relation.ReflTransGen fun s t => Acts 2 s.1 s.2 t.1 t.2

/-- Machine 0 has the lock of the cluster. -/
theorem alone_accept (hlock : s.rpcLock = false) :
    Alone (s, .idle) ({ s with nextRpcId := s.nextId, calls := s.calls + 1, rpcLock := true },
      .admitted 0 1 s.nextId oneOp) := by
  have hcall : Alone (s, .idle) ({ s with nextRpcId := s.nextId, calls := s.calls + 1 },
      .called 0 1 s.nextId oneOp) := .single .call
  exact hcall.tail (.accept hlock)

theorem alone_again (hlock : s.rpcLock = true) : Alone (s, .idle)
      ({ s with nextRpcId := s.nextId, calls := s.calls + 1 }.finish s.nextId .again, .idle) := by
  have hcall : Alone (s, .idle) ({ s with nextRpcId := s.nextId, calls := s.calls + 1 },
      .called 0 1 s.nextId oneOp) := .single .call
  exact hcall.tail (.admissionExpired hlock)

/-- The parts of the memory that refused calls leave alone. -/
structure Untouched (s : Shared) : Prop where
  slot : s.slot = init.slot
  reply : s.reply = init.reply
  rpcLock : s.rpcLock = true
  executed : s.executed = []

/-- Any number of calls are refused while the lock of the cluster is held. -/
theorem refused_calls (h : Untouched s) (n : ℕ) : ∃ t, Alone (s, .idle) (t, .idle) ∧
    Untouched t ∧ t.nextRpcId % 2 ^ 64 = (s.nextRpcId + n) % 2 ^ 64 := by
  induction n with
  | zero => exact ⟨s, .refl, h, rfl⟩
  | succ n ih =>
    obtain ⟨t, hrun, ht, hnext⟩ := ih
    refine ⟨_, hrun.trans (alone_again ht.rpcLock), ⟨ht.slot, ht.reply, ht.rpcLock, ht.executed⟩,
      ?_⟩
    simp only [finish, nextId]
    omega

/-- The sender that has the lock of the cluster posts its batch and takes it back. -/
theorem alone_cancel (id : ℕ) (h : Untouched s) (hid : id ≠ 0) :
    ∃ t, Alone (s, .admitted 0 1 id oneOp) (t, .idle) ∧ t.rpcLock = false ∧ t.executed = [] ∧
      t.nextRpcId = s.nextRpcId ∧ (t.slot 1).locked = false ∧ (t.slot 1).pending = .free ∧
      t.reply 0 = ⟨0, 0⟩ := by
  have hclear : Alone (s, .admitted 0 1 id oneOp)
      (s.setReply 0 { s.reply 0 with replyRpcId := 0 }, .cleared 0 1 id oneOp) := .single .clear
  have hslot : s.slot 1 = ⟨false, .free, noSender, 0, ⟨0, 0, []⟩⟩ := by
    rw [h.slot]
    rfl
  have hpost := hclear.tail (c := (_, _)) (.post (congrArg Slot.locked hslot)
    (congrArg Slot.pending hslot))
  have hexpire := hpost.tail (c := (_, .expired 0 1 id)) (.expire (by simpa using hid.symm))
  have hcancel := hexpire.tail (c := (_, _)) (.cancel (by simp) (by simp [Slot.Holds]))
  refine ⟨_, hcancel, rfl, h.executed, rfl, ?_, ?_, ?_⟩
  · simp
  · simp
  · simp [h.reply, init]

/-- A sender whose id is 0 takes the cleared answer for its own. -/
theorem alone_answer (hexecuted : s.executed = [])
    (hlocked : (s.slot 1).locked = false) (hfree : (s.slot 1).pending = .free)
    (hreply : s.reply 0 = ⟨0, 0⟩) :
    ∃ t, Alone (s, .admitted 0 1 0 oneOp) (t, .idle) ∧ t.executed = [] ∧
      (0, .answered 0) ∈ t.returned := by
  have hclear : Alone (s, .admitted 0 1 0 oneOp)
      (s.setReply 0 { s.reply 0 with replyRpcId := 0 }, .cleared 0 1 0 oneOp) := .single .clear
  have hpost := hclear.tail (c := (_, _)) (.post hlocked hfree)
  have hseen := hpost.tail (c := (_, .answered 0 1 0)) (.pollAnswer (by simp))
  have hanswer := hseen.tail (c := (_, _)) .answer
  refine ⟨_, hanswer, hexecuted, ?_⟩
  simp [hreply]

/-- When the ids have wrapped around, a request with the id 0 is reported successful before
its target has seen it. -/
theorem wrapped_id_not_served : ∃ w : Threads Bool Shared Phase,
    Relation.ReflTransGen (Threads.Step (Acts 2)) start w ∧ ¬ Served w.mem := by
  have hrun1 := run_alone (w := start) true (alone_accept (s := init) rfl)
  -- the other thread is refused until the next id is 0
  obtain ⟨s, hrefused, hs, hnext⟩ := refused_calls
    (s := { init with nextRpcId := init.nextId, calls := init.calls + 1, rpcLock := true })
    ⟨rfl, rfl, rfl, rfl⟩ (2 ^ 64 - 3)
  have hrun2 := hrun1.trans (run_alone false hrefused)
  -- the first thread gives up
  obtain ⟨t, hcancel, hlock, hexecuted, htnext, hlocked, hfree, hreply⟩ :=
    alone_cancel init.nextId hs (by decide)
  have hrun3 := hrun2.trans (run_alone true hcancel)
  have hzero : t.nextId = 0 := by
    rw [nextId, htnext, Nat.add_mod, hnext]
    rfl
  have haccept := alone_accept hlock
  rw [hzero] at haccept
  obtain ⟨u, hanswer, hnone, hmem⟩ := alone_answer
    (s := { t with nextRpcId := 0, calls := t.calls + 1, rpcLock := true }) hexecuted hlocked hfree
    hreply
  refine ⟨_, hrun3.trans (run_alone false (haccept.trans hanswer)), fun hserved => ?_⟩
  have hone := hserved.successful 0 _ hmem rfl
  simp [hnone] at hone

/-- The memory when the first request, from machine 0 to machine 1, is posted. -/
def firstPosted : Shared :=
  { init with
    slot := Function.update init.slot 1 ⟨false, .posted, 0, 2, oneOp⟩
    rpcLock := true
    nextRpcId := 2
    calls := 1
    sent := [(2, oneOp)] }

theorem alone_post : Alone (init, .idle) (firstPosted, .polling 0 1 2) := by
  have hclear := (alone_accept (s := init) rfl).tail (c := (_, _)) .clear
  have hpost := hclear.tail (c := (_, _)) (.post rfl rfl)
  have hmem : firstPosted = { firstPosted with reply := Function.update init.reply 0 ⟨0, 0⟩ } := by
    simp [firstPosted, init]
  rw [hmem]
  exact hpost

/-- The target executes the request and answers. -/
theorem alone_serve : ∃ t, Alone (firstPosted, .idle) (t, .idle) ∧ t.calls = 1 ∧
    t.reply 0 = ⟨0, 2⟩ ∧ t.executed = [(2, oneOp)] := by
  have hnotice : Alone (firstPosted, .idle) (firstPosted, .noticed 1) := .single (.notice rfl)
  have hclaim := hnotice.tail (c := (_, .claimed 1 0 2)) (.claim rfl ⟨rfl, by decide, by decide⟩)
  have hfetch := hclaim.tail (c := (_, .fetched 1 0 2 oneOp)) (.fetch rfl ⟨rfl, rfl, rfl⟩
    (show ¬ (_ ∨ _) by decide))
  have hexecute := hfetch.tail (c := (_, _)) (.execute 0 (.inl rfl))
  have hclose := hexecute.tail (c := (_, _)) (.close rfl ⟨rfl, rfl, rfl⟩)
  have hresult := hclose.tail (c := (_, _)) .storeResult
  have hreply := hresult.tail (c := (_, _)) .storeReply
  exact ⟨_, hreply, rfl, rfl, rfl⟩

/-- A request that is sent, executed and answered. -/
theorem requests_served_one : ∃ w : Threads Bool Shared Phase,
    (2, .answered 0) ∈ w.mem.returned ∧ w.mem.executed = [(2, oneOp)] ∧ Served w.mem := by
  have hrun1 := run_alone (w := start) true alone_post
  obtain ⟨t, hserve, hcalls, hreply, hexecuted⟩ := alone_serve
  have hrun2 := hrun1.trans (run_alone false hserve)
  have hseen : Alone (t, .polling 0 1 2) (t, .answered 0 1 2) :=
    .single (.pollAnswer (by rw [hreply]))
  have hanswer := hseen.tail (c := (_, _)) .answer
  have hrun3 := hrun2.trans (run_alone true hanswer)
  refine ⟨_, ?_, hexecuted, requests_served 2 hrun3 ?_⟩
  · simp [hreply]
  · simp [hcalls]

end Starfish.Mailbox
