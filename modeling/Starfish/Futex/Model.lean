import Mathlib.Tactic.Ring
import Mathlib.Logic.Function.Basic

/-!
# Starfish.Futex.Model

Futexes of one cap group (`kernel/ipc/futex.c`) on top of notifications
(`kernel/ipc/notification.c`).

* Every call runs under `futex_lock` from its first look at the table to its end, or until the
  caller is blocked, so a call is one function here.
* A futex waits without a timeout.  So no timer takes the `queue_lock` of a thread that waits, and
  the thread itself has released it before `futex_lock`: the `try_lock`s succeed.
* The table is one list with the last added entry first; a bucket is what `hlist_add` put there.
  An entry is known by its address `ptr`.
* A call has no result when it would use an entry that is freed, or comes to the `BUG` of
  `requeue_notific`.

The waiting list of a notification is a list, as `Starfish.ThreadQueue.Runs` proves it.  Its nodes
come from the pool that all waiting lists share, and a call that finds the pool empty spins under
`futex_lock`: `Call.takes` counts the nodes that a call takes, and `Call.runWith` has no result
when there are fewer.
-/

namespace Starfish.Futex

variable {T : Type}

/-! ## Notifications -/

structure Notific (T : Type) where
  valid : Bool
  notDelivered : ℕ
  waitingThreadsCount : ℤ
  waitingThreads : List T
deriving DecidableEq, Repr

/-- `init_notific` -/
def initNotific : Notific T := ⟨true, 0, 0, []⟩

def EFAULT : ℤ := 14
def EAGAIN : ℤ := 11
def EINVAL : ℤ := 22
def ENOMEM : ℤ := 12
def ENOSYS : ℤ := 38
def ECAPBILITY : ℤ := 200

def enqueue (n : Notific T) (t : T) : Notific T :=
  { n with waitingThreads := n.waitingThreads ++ [t],
           waitingThreadsCount := n.waitingThreadsCount + 1 }

/-- `wait_notific_internal` with `is_block`: the result, or `none` if the thread is blocked. -/
def waitNotificInternal (n : Notific T) (t : T) : Notific T × Option ℤ :=
  if ¬ n.valid then (n, some (-ECAPBILITY))
  else if 0 < n.notDelivered then ({ n with notDelivered := n.notDelivered - 1 }, some 0)
  else (enqueue n t, none)

/-- `signal_notific`: the result, and the thread that is woken. -/
def signalNotific (n : Notific T) : Notific T × ℤ × Option T :=
  if ¬ n.valid then (n, -ECAPBILITY, none)
  else if 0 < n.notDelivered ∨ n.waitingThreadsCount = 0 then
    ({ n with notDelivered := n.notDelivered + 1 }, 0, none)
  else
    match n.waitingThreads with
    | [] => (n, -EAGAIN, none)
    | t :: q =>
      ({ n with waitingThreads := q, waitingThreadsCount := n.waitingThreadsCount - 1 }, 0, some t)

/-- `requeue_notific` of two different notifications; there is no result at the `BUG`. -/
def requeueNotific (src dst : Notific T) : Option (Notific T × Notific T × ℤ) :=
  if ¬ src.valid ∨ ¬ dst.valid then some (src, dst, -ECAPBILITY)
  else if src.waitingThreadsCount = 0 then some (src, dst, 0)
  else
    match src.waitingThreads with
    | [] => some (src, dst, -EAGAIN)
    | t :: q =>
      if 0 < dst.notDelivered then none
      else some ({ src with waitingThreads := q,
                            waitingThreadsCount := src.waitingThreadsCount - 1 },
        enqueue dst t, 0)

/-! ## The table -/

/-- `struct futex_entry` -/
structure Entry (T : Type) where
  ptr : ℕ
  bucket : ℕ
  uaddr : ℕ
  waiterCount : ℤ
  notific : Notific T
deriving DecidableEq, Repr

def futexHasWaiter (e : Entry T) : Prop := 0 < e.waiterCount

instance (e : Entry T) : Decidable (futexHasWaiter e) := inferInstanceAs (Decidable (0 < _))

/-- The entries of all buckets. -/
abbrev Table (T : Type) : Type := List (Entry T)

def uaddrToKey (uaddr : ℕ) : ℕ :=
  (uaddr >>> 2 * 0x9e3779b97f4a7c15 % 2 ^ 64) >>> 32

/-- `htable_get_bucket`, of `BUCKET_SIZE` buckets. -/
def htableGetBucket (uaddr : ℕ) : ℕ := uaddrToKey uaddr % 64

def findEntry (f : Table T) (uaddr : ℕ) : Option (Entry T) :=
  f.find? fun e => e.bucket = htableGetBucket uaddr ∧ futexHasWaiter e ∧ e.uaddr = uaddr

def entryAt (f : Table T) (ptr : ℕ) : Option (Entry T) := f.find? fun e => e.ptr = ptr

def modify (f : Table T) (ptr : ℕ) (g : Entry T → Entry T) : Table T :=
  f.map fun e => if e.ptr = ptr then g e else e

def setNotific (f : Table T) (ptr : ℕ) (n : Notific T) : Table T :=
  modify f ptr fun e => { e with notific := n }

/-- `kmalloc` gives the address of the new entry, or nothing. -/
def newFutexEntry (f : Table T) (uaddr bucket : ℕ) (kmalloc : Option ℕ) :
    Option (Table T × Entry T) :=
  kmalloc.map fun ptr => (⟨ptr, bucket, uaddr, 0, initNotific⟩ :: f,
    ⟨ptr, bucket, uaddr, 0, initNotific⟩)

def freeFutexEntry (f : Table T) (ptr : ℕ) : Table T := f.filter fun e => e.ptr ≠ ptr

def checkAndFree (f : Table T) (ptr : ℕ) : Option (Table T) :=
  (entryAt f ptr).map fun e => if futexHasWaiter e then f else freeFutexEntry f ptr

def incWaiterCount (f : Table T) (ptr : ℕ) : Option (Table T) :=
  (entryAt f ptr).map fun _ => modify f ptr fun e => { e with waiterCount := e.waiterCount + 1 }

def decWaiterCount (f : Table T) (ptr : ℕ) : Option (Table T) :=
  checkAndFree (modify f ptr fun e => { e with waiterCount := e.waiterCount - 1 }) ptr

/-! ## The calls -/

/-- What a call returns; `blocked` if it does not return.  `woken` are the threads it makes ready,
in this order. -/
structure Result (T : Type) where
  table : Table T
  ret : ℤ
  blocked : Bool := false
  woken : List T := []

/-- `sys_futex_wait` from `__inc_waiter_count` on. -/
def waitOn (f : Table T) (e : Entry T) (t : T) : Option (Result T) := do
  let f ← incWaiterCount f e.ptr
  match waitNotificInternal e.notific t with
  | (n, none) => return { table := setNotific f e.ptr n, ret := 0, blocked := true }
  | (n, some r) => return { table := ← decWaiterCount (setNotific f e.ptr n) e.ptr, ret := r }

/-- `kval` is what `copy_from_user` reads at `uaddr`. -/
def sysFutexWait (f : Table T) (t : T) (uaddr : ℕ) (val : ℤ) (kval : Option ℤ)
    (kmalloc : Option ℕ) : Option (Result T) :=
  match kval with
  | none => some { table := f, ret := -EFAULT }
  | some kval =>
    if kval ≠ val then some { table := f, ret := -EAGAIN }
    else
      match findEntry f uaddr with
      | some e => waitOn f e t
      | none =>
        match newFutexEntry f uaddr (htableGetBucket uaddr) kmalloc with
        | none => some { table := f, ret := -ENOMEM }
        | some (f, e) => waitOn f e t

/-- The loop of `sys_futex_wake`, with the turns that are left. -/
def wakeLoop (ptr : ℕ) : ℕ → Table T → ℤ → List T → Option (Result T)
  | 0, f, i, woken => some { table := f, ret := i, woken := woken }
  | k + 1, f, i, woken => do
    let e ← entryAt f ptr
    let (n, r, target) := signalNotific e.notific
    if r ≠ 0 then return { table := setNotific f ptr n, ret := i, woken := woken }
    wakeLoop ptr k (← decWaiterCount (setNotific f ptr n) ptr) (i + 1) (woken ++ target.toList)

def sysFutexWake (f : Table T) (uaddr : ℕ) (val : ℤ) : Option (Result T) :=
  match findEntry f uaddr with
  | none => some { table := f, ret := 0 }
  | some e =>
    let sendCount := if e.waiterCount < val then e.waiterCount else val
    wakeLoop e.ptr sendCount.toNat f 0 []

/-- `sys_futex_requeue` from `requeue_notific` on. -/
def requeueOn (f : Table T) (e₁ e₂ : Entry T) : Option (Result T) := do
  let (src, dst, ret) ← requeueNotific e₁.notific e₂.notific
  let f := setNotific (setNotific f e₁.ptr src) e₂.ptr dst
  if ret = 0 then
    return { table := ← incWaiterCount (← decWaiterCount f e₁.ptr) e₂.ptr, ret := ret }
  else return { table := ← checkAndFree f e₂.ptr, ret := ret }

def sysFutexRequeue (f : Table T) (uaddr uaddr2 : ℕ) (nrWake nrRequeue : ℤ)
    (kmalloc : Option ℕ) : Option (Result T) :=
  if nrWake ≠ 0 ∨ nrRequeue ≠ 1 then some { table := f, ret := -ENOSYS }
  else if uaddr = uaddr2 then some { table := f, ret := -EINVAL }
  else
    match findEntry f uaddr with
    | none => some { table := f, ret := -EINVAL }
    | some e₁ =>
      match findEntry f uaddr2 with
      | some e₂ => requeueOn f e₁ e₂
      | none =>
        match newFutexEntry f uaddr2 (htableGetBucket uaddr2) kmalloc with
        | none => some { table := f, ret := -ENOMEM }
        | some (f, e₂) => requeueOn f e₁ e₂

inductive Call (T : Type) where
  | wait (t : T) (uaddr : ℕ) (val : ℤ) (kval : Option ℤ) (kmalloc : Option ℕ)
  | wake (uaddr : ℕ) (val : ℤ)
  | requeue (uaddr uaddr2 : ℕ) (nrWake nrRequeue : ℤ) (kmalloc : Option ℕ)

def Call.run (f : Table T) : Call T → Option (Result T)
  | .wait t uaddr val kval kmalloc => sysFutexWait f t uaddr val kval kmalloc
  | .wake uaddr val => sysFutexWake f uaddr val
  | .requeue uaddr uaddr2 nrWake nrRequeue kmalloc =>
    sysFutexRequeue f uaddr uaddr2 nrWake nrRequeue kmalloc

def Call.kmalloc : Call T → Option ℕ
  | .wait _ _ _ _ kmalloc | .requeue _ _ _ _ kmalloc => kmalloc
  | .wake _ _ => none

/-- `kmalloc` never gives out the memory of an entry that is in the table. -/
def Call.Fresh (f : Table T) (c : Call T) : Prop :=
  ∀ ptr, c.kmalloc = some ptr → ∀ e ∈ f, e.ptr ≠ ptr

def Step (f f' : Table T) : Prop :=
  ∃ (c : Call T) (r : Result T), c.Fresh f ∧ c.run f = some r ∧ f' = r.table

/-! ## The pool of nodes -/

/-- The nodes that `thread_dq_pool_init` makes free: all of `THREAD_DQ_POOL_SIZE` but the first. -/
def poolNodes : ℕ := 4096 - 1

/-- The nodes of the table: a sentinel for each waiting list and one node for each thread. -/
def heldNodes (f : Table T) : ℕ := (f.map fun e => 1 + e.notific.waitingThreads.length).sum

/-- The nodes that a call takes: `init_notific` one for the sentinel, and `thread_dq_enqueue` one
for the thread.  The one that `requeue_notific` takes for the thread its dequeue has given back. -/
def Call.takes (f : Table T) : Call T → ℕ
  | .wait _ uaddr val kval kmalloc =>
    if kval ≠ some val then 0
    else
      match findEntry f uaddr, kmalloc with
      | some _, _ => 1
      | none, some _ => 2
      | none, none => 0
  | .wake _ _ => 0
  | .requeue uaddr uaddr2 nrWake nrRequeue kmalloc =>
    if nrWake ≠ 0 ∨ nrRequeue ≠ 1 ∨ uaddr = uaddr2 then 0
    else
      match findEntry f uaddr, findEntry f uaddr2, kmalloc with
      | some _, none, some _ => 1
      | _, _, _ => 0

/-- A call that finds `free` nodes in the pool. -/
def Call.runWith (free : ℕ) (f : Table T) (c : Call T) : Option (Result T) :=
  if c.takes f ≤ free then c.run f else none

/-- The table, and the nodes that other waiting lists hold. -/
structure State (T : Type) where
  table : Table T
  others : ℕ

def State.free (s : State T) : ℕ := poolNodes - heldNodes s.table - s.others

/-- A call returns or blocks, or the other waiting lists have taken nodes or given some back. -/
inductive State.Step : State T → State T → Prop
  | call {s : State T} {c : Call T} {r : Result T} (hfresh : c.Fresh s.table)
      (h : c.runWith s.free s.table = some r) : Step s { s with table := r.table }
  | others {s : State T} {others : ℕ} (h : heldNodes s.table + others ≤ poolNodes) :
      Step s { s with others }

/-! ## Copies -/

/-- The loop of `futex_copy`: a new entry takes over the count, and has a notification of its own.
`kmalloc` answers for each entry. -/
def copyEntries (kmalloc : ℕ → Option ℕ) : List (Entry T) → Table T → Table T × ℤ
  | [], dst => (dst, 0)
  | e :: es, dst =>
    match newFutexEntry dst e.uaddr (htableGetBucket e.uaddr) (kmalloc e.ptr) with
    | none => (dst, -ENOMEM)
    | some (dst, x) =>
      copyEntries kmalloc es (modify dst x.ptr fun y => { y with waiterCount := e.waiterCount })

/-- The order of `for_each_in_htable_safe`. -/
def inBuckets (f : Table T) : List (Entry T) :=
  (List.range 64).flatMap fun b => f.filter fun e => e.bucket = b

/-- `futex_copy`, with the tables at their addresses. -/
def futexCopy (f : ℕ → Table T) (src dst : ℕ) (kmalloc : ℕ → Option ℕ) : (ℕ → Table T) × ℤ :=
  if src = dst then (f, 0)
  else
    let (g, r) := copyEntries kmalloc (inBuckets (f src)) []
    (Function.update f dst g, r)

end Starfish.Futex
