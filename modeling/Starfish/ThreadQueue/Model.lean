import Mathlib.Data.Int.Notation
import Starfish.Prog

/-!
# Starfish.ThreadQueue.Model

The thread durable queues of `kernel/mm/shm.c`: the scheduler's shared queues and the
waiting lists of notifications.  Every queue is a linked list with a sentinel; the nodes
come from one pool in shared memory, whose free nodes are on a stack.  Nodes are known
by their offset from `dsm_meta`, and `base` is the offset of `nodes[0]`.

A `while (1)` takes a number of passes as its fuel, and so does every function with such
a loop; without fuel it spins for ever, as the code does when the pool is exhausted.
`queue_lock`, the counters that only the warning about that reads, and `node_count` are
left out.
-/

namespace Starfish.ThreadQueue

open Function Prog

def enomem : ℤ := 12

/-- `QPTR_NULL`. -/
def qptrNull : ℤ := -1

def threadDqPoolSize : ℕ := 4096

/-- `sizeof(struct thread_dq_node)`. -/
def nodeSize : ℕ := 16

/-- `enum dq_status`. -/
inductive DqStatus where
  | free
  | init
  | doing
  | done
  | consumed
  | crash
  | cancelled
deriving DecidableEq, Repr

/-- The pool with the fields of `struct thread_dq_node` by offset, the queues, and
`notif_dq_node_off` of each thread.  A thread is known by its physical address. -/
structure DqMem where
  freeList : ℤ
  next : ℤ → ℤ
  status : ℤ → DqStatus
  threadPa : ℤ → ℕ
  head : ℕ → ℤ
  tail : ℕ → ℤ
  notifDqNodeOff : ℕ → ℤ

namespace DqMem

@[simps -fullyApplied]
def setFreeList (m : DqMem) (off : ℤ) : DqMem := { m with freeList := off }

@[simps -fullyApplied]
def setNext (m : DqMem) (node off : ℤ) : DqMem :=
  { m with next := update m.next node off }

@[simps -fullyApplied]
def setStatus (m : DqMem) (node : ℤ) (v : DqStatus) : DqMem :=
  { m with status := update m.status node v }

@[simps -fullyApplied]
def setThreadPa (m : DqMem) (node : ℤ) (pa : ℕ) : DqMem :=
  { m with threadPa := update m.threadPa node pa }

@[simps -fullyApplied]
def setHead (m : DqMem) (q : ℕ) (off : ℤ) : DqMem := { m with head := update m.head q off }

@[simps -fullyApplied]
def setTail (m : DqMem) (q : ℕ) (off : ℤ) : DqMem := { m with tail := update m.tail q off }

@[simps -fullyApplied]
def setNotif (m : DqMem) (thread : ℕ) (off : ℤ) : DqMem :=
  { m with notifDqNodeOff := update m.notifDqNodeOff thread off }

end DqMem

/-! ## The pool -/

/-- `thread_ptr_to_qptr(&pool->nodes[j])` -/
def nodeOff (base : ℤ) (j : ℕ) : ℤ := base + (j * nodeSize : ℕ)

/-- `thread_dq_pool_init`.  The loop ends at `nodes[1]`. -/
def threadDqPoolInit (base : ℤ) : Prog DqMem Unit := do
  store (·.setFreeList qptrNull)
  forUpTo (threadDqPoolSize - 1) fun i => do
    let off := nodeOff base (threadDqPoolSize - 1 - i)
    store (·.setStatus off .free)
    store fun m => m.setNext off m.freeList
    store (·.setFreeList off)

/-- `compare_and_swap_32(&pool->free_list, old, new) == old` -/
def casFreeList (old new : ℤ) : Prog DqMem Bool :=
  cas DqMem.freeList (fun off m => m.setFreeList off) old new

/-- `thread_dq_alloc_node_try`. -/
def threadDqAllocNodeTry (fuel : ℕ) : Prog DqMem ℤ :=
  loop fuel do
    let head ← read (·.freeList)
    if head = qptrNull then pure (some qptrNull)
    else do
      let next ← read (·.next head)
      let ok ← casFreeList head next
      pure (if ok then some head else none)

/-- `thread_dq_alloc_node`. -/
def threadDqAllocNode (fuel : ℕ) : Prog DqMem ℤ :=
  loop fuel do
    let node ← threadDqAllocNodeTry fuel
    pure (if node = qptrNull then none else some node)

/-- `thread_dq_free_node`. -/
def threadDqFreeNode (fuel : ℕ) (node : ℤ) : Prog DqMem Unit :=
  loop fuel do
    let head ← read (·.freeList)
    store (·.setNext node head)
    let ok ← casFreeList head node
    pure (if ok then some () else none)

/-- `thread_dq_node_off_valid`. -/
def threadDqNodeOffValid (base off : ℤ) : Bool :=
  off ≠ qptrNull ∧ base ≤ off ∧ off < base + (threadDqPoolSize * nodeSize : ℕ) ∧
    (off - base) % nodeSize = 0

/-! ## The queues -/

/-- `compare_and_swap_32(&q->head, old, new) == old` -/
def casHead (q : ℕ) (old new : ℤ) : Prog DqMem Bool :=
  cas (·.head q) (fun off m => m.setHead q off) old new

/-- `compare_and_swap_32(&q->tail, old, new) == old` -/
def casTail (q : ℕ) (old new : ℤ) : Prog DqMem Bool :=
  cas (·.tail q) (fun off m => m.setTail q off) old new

/-- `compare_and_swap_32(&node->next, old, new) == old` -/
def casNext (node old new : ℤ) : Prog DqMem Bool :=
  cas (·.next node) (fun off m => m.setNext node off) old new

/-- `thread_dq_init`. -/
def threadDqInit (fuel q : ℕ) : Prog DqMem ℤ := do
  let sentinel ← threadDqAllocNode fuel
  if sentinel = qptrNull then pure (-enomem)
  else do
    store (·.setNext sentinel qptrNull)
    store (·.setStatus sentinel .consumed)
    store (·.setHead q sentinel)
    store (·.setTail q sentinel)
    pure 0

/-- The second loop of `thread_dq_deinit`, which frees at most `n` more nodes. -/
def freeNodes (base : ℤ) (fuel : ℕ) : ℕ → ℤ → Prog DqMem Unit
  | 0, _ => pure ()
  | n + 1, cur =>
    if cur = qptrNull then pure ()
    else if !threadDqNodeOffValid base cur then pure ()
    else do
      let next ← read (·.next cur)
      threadDqFreeNode fuel cur
      freeNodes base fuel n next

/-- `thread_dq_deinit`. -/
def threadDqDeinit (base : ℤ) (fuel q : ℕ) : Prog DqMem Unit := do
  let cur ← loop fuel do
    let cur ← read (·.head q)
    if !threadDqNodeOffValid base cur then pure (some none)
    else do
      let ok ← casHead q cur qptrNull
      pure (if ok then some (some cur) else none)
  match cur with
  | none => pure ()
  | some cur => do
    store (·.setTail q qptrNull)
    freeNodes base fuel threadDqPoolSize cur

/-- `thread_dq_enqueue`. -/
def threadDqEnqueue (fuel q thread : ℕ) : Prog DqMem Unit := do
  let node ← threadDqAllocNode fuel
  bugOn (node = qptrNull)
  store (·.setThreadPa node thread)
  store (·.setNext node qptrNull)
  store (·.setStatus node .init)
  store (·.setNotif thread node)
  loop fuel do
    let last ← read (·.tail q)
    let next ← read (·.next last)
    let last' ← read (·.tail q)
    if last ≠ last' then pure none
    else if next = qptrNull then do
      let ok ← casNext last qptrNull node
      if ok then do
        let _ ← casTail q last node
        pure (some ())
      else pure none
    else do
      let _ ← casTail q last next
      pure none

/-- One pass of the loop of `thread_dq_dequeue`. -/
def dequeuePass (fuel q : ℕ) : Prog DqMem (Option (Option ℕ)) := do
  let head ← read (·.head q)
  let tail ← read (·.tail q)
  let next ← read (·.next head)
  let head' ← read (·.head q)
  if head ≠ head' then pure none
  else if head = tail then
    if next = qptrNull then pure (some none)
    else do
      let _ ← casTail q tail next
      pure none
  else do
    let status ← read (·.status next)
    if status = .cancelled then do
      let ok ← casHead q head next
      when (ok = true) (threadDqFreeNode fuel head)
      pure none
    else do
      let ok ← casHead q head next
      if ok then do
        let threadPa ← read (·.threadPa next)
        threadDqFreeNode fuel head
        pure (some (some threadPa))
      else pure none

/-- `thread_dq_dequeue`; the thread, or NULL. -/
def threadDqDequeue (fuel q : ℕ) : Prog DqMem (Option ℕ) := loop fuel (dequeuePass fuel q)

/-- `thread_dq_cancel_node`. -/
def threadDqCancelNode (nodeOff : ℤ) : Prog DqMem Unit :=
  if nodeOff = qptrNull then pure ()
  else store (·.setStatus nodeOff .cancelled)

end Starfish.ThreadQueue
