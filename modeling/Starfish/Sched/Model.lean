import Mathlib.Data.Nat.Notation
import Mathlib.Data.Int.Notation
import Mathlib.Logic.Function.Basic

/-!
# Starfish.Sched.Model

The run queues of the round-robin scheduler (`kernel/sched/policy_rr.c`), as one machine of the
cluster sees them: a ready list with its length for each CPU of the machine, and a shared queue
for each CPU of the cluster, through which threads come and go.

* The ready lists are linked through the threads, so a list is given by the threads on it.
  `list_del` takes a thread off the list that it is on, whichever that is.
* The shared queues are taken as `Starfish.ThreadQueue.Runs` proves them: first in, first out.
* `NO_AFF` is `none`.  An affinity is a CPU of the cluster; `cpuid`, `queue_cpuid` and the owner
  of the FPU are CPUs of a machine.
* What holds the queue locks is one step.  Other CPUs may change the exit state of a thread that
  `rr_sched_choose_thread` is looking at: that is its argument `races`.

The budget of a thread, its scheduling history and the interrupts that tell another CPU to
reschedule are left out.  Nothing here reads them.
-/

namespace Starfish.Sched

/-- `enum thread_state`. -/
inductive ThreadState where
  | init | ready | inter | toSched | running | exit | waiting | waitingIpc
deriving DecidableEq, Repr

/-- `enum thread_exit_state`. -/
inductive ExitState where
  | running | exiting | exited | migrating | stopping | stopped
deriving DecidableEq, Repr

/-- `struct thread` with its `thread_ctx`. -/
structure Thread where
  /-- `type` is `TYPE_IDLE`. -/
  idle : Bool
  /-- `dsm_type` is `DSM_TYPE_THREAD_NOTIFY_BRIDGE`; such an object is in shared memory. -/
  bridge : Bool
  state : ThreadState
  exitState : ExitState
  affinity : Option ℕ
  cpuid : Option ℕ
  queueCpuid : Option ℕ
  machineId : ℕ
  prio : ℕ
  isFpuOwner : Option ℕ
  /-- `kernel_stack_state` is `KS_FREE`. -/
  kernelStackFree : Bool
deriving DecidableEq, Repr

/-- `struct queue_meta`. -/
structure ReadyQueue (T : Type) where
  threads : List T
  queueLen : ℤ
deriving DecidableEq, Repr

structure State (T : Type) where
  thread : T → Thread
  /-- `rr_ready_queue_meta` -/
  ready : ℕ → ReadyQueue T
  /-- `rr_shared_queue` -/
  shared : ℕ → List T
  /-- `current_thread` -/
  current : ℕ → Option T

/-- The cluster, and which machine of it this is. -/
structure Cluster where
  /-- `CUR_MACHINE_ID` -/
  machineId : ℕ
  cpuRangeLow : ℕ → ℕ
  cpuRangeHigh : ℕ → ℕ
  /-- `PLAT_CPU_NUM` -/
  platCpuNum : ℕ
  clusterCpuNum : ℕ
deriving Inhabited

def einval : ℤ := -22

def maxPrio : ℕ := 255

namespace Cluster

variable (k : Cluster)

def cpuidL2g (c : ℕ) : ℕ := c + k.cpuRangeLow k.machineId

def cpuidG2l (g : ℕ) : ℕ := g - k.cpuRangeLow k.machineId

def isLocalCpu : Option ℕ → Bool
  | none => true
  | some g => k.cpuRangeLow k.machineId ≤ g && g ≤ k.cpuRangeHigh k.machineId

/-- `none` is the `BUG_ON`. -/
def cpuidL2gWithMid (lcpuid : Option ℕ) (mid : ℕ) : Option ℕ :=
  match lcpuid with
  | none => some (k.cpuRangeLow mid)
  | some c => if k.cpuRangeHigh mid < k.cpuRangeLow mid + c then none
    else some (k.cpuRangeLow mid + c)

end Cluster

variable {T : Type} [DecidableEq T]

/-! ## Lists -/

/-- `list_add(t, u)` on the list that `u` is on. -/
def insertAfter (u t : T) : List T → List T
  | [] => []
  | x :: xs => if x = u then x :: t :: xs else x :: insertAfter u t xs

namespace State

def setThread (s : State T) (t : T) (x : Thread) : State T :=
  { s with thread := Function.update s.thread t x }

def setReady (s : State T) (c : ℕ) (q : ReadyQueue T) : State T :=
  { s with ready := Function.update s.ready c q }

def setShared (s : State T) (g : ℕ) (ts : List T) : State T :=
  { s with shared := Function.update s.shared g ts }

def setState (s : State T) (t : T) (st : ThreadState) : State T :=
  s.setThread t { s.thread t with state := st }

def setExitState (s : State T) (t : T) (e : ExitState) : State T :=
  s.setThread t { s.thread t with exitState := e }

def mapLists (s : State T) (f : List T → List T) : State T :=
  { s with ready := fun c => { s.ready c with threads := f (s.ready c).threads } }

def listDel (s : State T) (t : T) : State T := s.mapLists fun ts => ts.erase t

def listAddHead (s : State T) (t : T) (c : ℕ) : State T :=
  s.setReady c { s.ready c with threads := t :: (s.ready c).threads }

def listAddAfter (s : State T) (t u : T) : State T := s.mapLists (insertAfter u t)

/-- `list_append` and `queue_len++`. -/
def listAppend (s : State T) (t : T) (c : ℕ) : State T :=
  s.setReady c ⟨(s.ready c).threads ++ [t], (s.ready c).queueLen + 1⟩

/-- `thread_dq_enqueue(&rr_shared_queue[g], t)` -/
def enqueueShared (s : State T) (t : T) (g : ℕ) : State T := s.setShared g (s.shared g ++ [t])

end State

/-! ## The queues without their locks -/

variable (k : Cluster)

/-- `__rr_sched_enqueue` -/
def rrSchedEnqueueNoLock (s : State T) (t : T) (cpuid : ℕ) : Option (State T × ℤ) :=
  if k.isLocalCpu (s.thread t).affinity = false then none
  else if (s.thread t).state = .ready then some (s, einval)
  else
    let x := { s.thread t with cpuid := some cpuid, state := .ready, queueCpuid := some cpuid }
    some ((s.setThread t x).listAppend t cpuid, 0)

/-- `__rr_sched_dequeue` -/
def rrSchedDequeueNoLock (s : State T) (t : T) : State T × ℤ :=
  match (s.thread t).state with
  | .running | .waiting | .waitingIpc => (s, einval)
  | _ =>
    match (s.thread t).queueCpuid with
    | none => (s, 0)
    | some c =>
      let s := s.listDel t
      let s := s.setReady c { s.ready c with queueLen := (s.ready c).queueLen - 1 }
      (s.setThread t { s.thread t with queueCpuid := none }, 0)

/-! ## Enqueue -/

/-- `get_cpubind`, on CPU `me`, with the FPU saved lazily.  `affinity == local_cpuid` compares a
CPU of the cluster with one of the machine, as the code does. -/
def getCpubind (s : State T) (me : ℕ) (t : T) : State T × Option ℕ :=
  let x := s.thread t
  if k.isLocalCpu x.affinity = false then (s, x.affinity)
  else match x.isFpuOwner with
    | none => (s, x.affinity)
    | some owner =>
      if owner = me then
        if x.affinity = some me ∨ x.affinity = none then (s, some (k.cpuidL2g me))
        -- `save_and_release_fpu`
        else (s.setThread t { x with isFpuOwner := none }, x.affinity)
      else (s, some (k.cpuidL2g owner))

/-- `rr_sched_choose_cpu`: both thresholds are 0. -/
def rrSchedChooseCpu (s : State T) (me : ℕ) : ℕ :=
  let len := fun i => (s.ready i).queueLen
  if len me ≤ 0 then k.cpuidL2g me
  else
    let start := (me + 1) % k.platCpuNum
    let best := (List.range k.platCpuNum).foldl (fun best j =>
      let i := (start + j) % k.platCpuNum
      if i = me then best
      else if len i < best.2 then (i, len i)
      else best) (me, len me)
    k.cpuidL2g best.1

/-- `__get_bridge_thread_gcpuid` -/
def getBridgeThreadGcpuid (x : Thread) : Option ℕ :=
  match x.cpuid with
  | none => some x.machineId
  | some c => k.cpuidL2gWithMid (some c) x.machineId

/-- Where `rr_sched_enqueue` sends the thread. -/
def enqueueGcpuid (s : State T) (me : ℕ) (t : T) : Option (State T × ℕ) :=
  if (s.thread t).bridge then (getBridgeThreadGcpuid k (s.thread t)).map fun g => (s, g)
  else
    match getCpubind k s me t with
    | (s, none) => some (s, rrSchedChooseCpu k s me)
    | (s, some g) => some (s, g)

/-- The threads that an enqueue does not put in a queue: the idle threads, and those that are
asked to exit or to stop. -/
def leftOut (s : State T) (t : T) : Option (State T) :=
  if (s.thread t).idle then some s
  else match (s.thread t).exitState with
    | .exiting => some (s.setExitState t .exited)
    | .stopping => some (s.setExitState t .stopped)
    | _ => none

def rrSchedEnqueue (s : State T) (me : ℕ) (t : T) : Option (State T × ℤ) :=
  match leftOut s t with
  | some s => some (s, 0)
  | none => do
    let (s, gcpuid) ← enqueueGcpuid k s me t
    if maxPrio < (s.thread t).prio then some (s, einval)
    else if k.clusterCpuNum ≤ gcpuid then some (s, einval)
    else if k.isLocalCpu (some gcpuid) = false then some (s.enqueueShared t gcpuid, 0)
    else rrSchedEnqueueNoLock k s t (k.cpuidG2l gcpuid)

def rrSchedEnqueueToAffinity (s : State T) (me : ℕ) (t : T) : Option (State T × ℤ) :=
  match leftOut s t with
  | some s => some (s, 0)
  | none =>
    match getCpubind k s me t with
    | (s, none) =>
      if (s.thread t).machineId ≠ k.machineId then do
        let gcpuid ← k.cpuidL2gWithMid (s.thread t).cpuid (s.thread t).machineId
        some ((s.setState t .ready).enqueueShared t gcpuid, 0)
      else rrSchedEnqueue k s me t
    | (s, some aff) =>
      if k.isLocalCpu (some aff) then rrSchedEnqueue k s me t
      else some ((s.setState t .ready).enqueueShared t aff, 0)

def rrSchedMigrateToRemote (s : State T) (t : T) : Option (State T × ℤ) :=
  match (s.thread t).affinity with
  | none => none
  | some g =>
    if k.isLocalCpu (some g) then none
    else some ((s.setThread t { s.thread t with isFpuOwner := none }).enqueueShared t g, 0)

/-! ## Dequeue and choose -/

def rrSchedDequeue (s : State T) (t : T) : Option (State T × ℤ) :=
  if (s.thread t).idle then none
  else match (s.thread t).queueCpuid with
    | none => some (s, 0)
    | some _ =>
      let (s, ret) := rrSchedDequeueNoLock s t
      some (s.setState t .inter, ret)

/-- `find_runnable_thread`, over the rest of the list. -/
def findRunnableThread (cur : Option T) : List T → State T → State T × Option T
  | [], s => (s, none)
  | t :: ts, s =>
    match (s.thread t).exitState with
    | .running =>
      if (s.thread t).kernelStackFree ∨ cur = some t then (s, some t)
      else findRunnableThread cur ts s
    | .exiting =>
      let s := (rrSchedDequeueNoLock s t).1
      findRunnableThread cur ts ((s.setState t .exit).setExitState t .exited)
    | .stopping =>
      let s := (rrSchedDequeueNoLock s t).1
      findRunnableThread cur ts (s.setExitState t .stopped)
    | _ => findRunnableThread cur ts s

/-- How a round of `rr_sched_choose_thread` ends: `goto again`, or with a thread, where `none` is
the idle thread of the CPU. -/
inductive Round (T : Type) where
  | again
  | done (t : Option T)

/-- One round of `rr_sched_choose_thread`.  The thread that was found has been seen with
`TE_RUNNING`; `race` is the exit state that another CPU gives it until it is checked again. -/
def chooseRound (s : State T) (me : ℕ) (race : Option ExitState) : Option (State T × Round T) :=
  match findRunnableThread (s.current me) (s.ready me).threads s with
  | (s, none) => some (s, .done none)
  | (s, some t) =>
    let (s, ret) := rrSchedDequeueNoLock s t
    if ret ≠ 0 then none
    else
      let s := s.setExitState t (race.getD (s.thread t).exitState)
      match (s.thread t).exitState with
      | .exiting => some ((s.setState t .exit).setExitState t .exited, .again)
      | .stopping => some ((s.setState t .toSched).setExitState t .stopped, .again)
      | _ => some (s.setState t .toSched, .done (some t))

/-- Each of the `races` is for one round.  A round without one ends the call. -/
def rrSchedChooseThread (me : ℕ) : List ExitState → State T → Option (State T × Option T)
  | [], s =>
    match chooseRound s me none with
    | some (s, .done t) => some (s, t)
    | _ => none
  | race :: races, s =>
    match chooseRound s me (some race) with
    | some (s, .done t) => some (s, t)
    | some (s, .again) => rrSchedChooseThread me races s
    | none => none

/-! ## The shared queue of this CPU -/

/-- The CPU of this machine that a drained thread is for. -/
def drainCpu (s : State T) (me : ℕ) (t : T) : ℕ :=
  match (s.thread t).affinity with
  | none => me
  | some g => k.cpuidG2l g

/-- The thread that was appended goes behind `urgentTail`: the head of the list at first, then the
thread that was drained before. -/
def urgentInsert (s : State T) (t : T) (lcpuid : ℕ) (urgentTail : Option T) : State T :=
  match urgentTail with
  | none => (s.listDel t).listAddHead t lcpuid
  | some u => (s.listDel t).listAddAfter t u

/-- One round of the loop of `rr_sched_migrate_from_shared_queue_internal`. -/
def migrateOne (s : State T) (me : ℕ) (urgent : Bool) (urgentTail : Option T) (t : T) :
    Option (State T × Option T × ℤ) := do
  let lcpuid := drainCpu k s me t
  let s := s.setThread t { s.thread t with
    exitState := .running, state := .running, machineId := k.machineId, kernelStackFree := true }
  let (s, ret) ← rrSchedEnqueueNoLock k s t lcpuid
  if ret = 0 ∧ urgent then some (urgentInsert s t lcpuid urgentTail, some t, ret)
  else some (s, urgentTail, ret)

def migrateLoop (me : ℕ) (urgent : Bool) :
    List T → Option T → ℤ → State T → Option (State T × ℤ)
  | [], _, ret, s => some (s, ret)
  | t :: ts, urgentTail, _, s => do
    let (s, urgentTail, ret) ←
      migrateOne k (s.setShared (k.cpuidL2g me) ts) me urgent urgentTail t
    migrateLoop me urgent ts urgentTail ret s

def rrSchedMigrateFromSharedQueueInternal (s : State T) (me : ℕ) (urgent : Bool) :
    Option (State T × ℤ) :=
  migrateLoop k me urgent (s.shared (k.cpuidL2g me)) none 0 s

/-! ## Runs -/

/-- What the kernel of this machine asks of the scheduler. -/
inductive Call (T : Type) where
  | enqueue (me : ℕ) (t : T)
  | enqueueToAffinity (me : ℕ) (t : T)
  | migrateToRemote (t : T)
  | dequeue (t : T)
  | chooseThread (me : ℕ) (races : List ExitState)
  | drain (me : ℕ) (urgent : Bool)

/-- The state after the call, unless it runs into a `BUG_ON`. -/
def Call.run (s : State T) : Call T → Option (State T)
  | .enqueue me t => (rrSchedEnqueue k s me t).map Prod.fst
  | .enqueueToAffinity me t => (rrSchedEnqueueToAffinity k s me t).map Prod.fst
  | .migrateToRemote t => (rrSchedMigrateToRemote k s t).map Prod.fst
  | .dequeue t => (rrSchedDequeue s t).map Prod.fst
  | .chooseThread me races => (rrSchedChooseThread me races s).map Prod.fst
  | .drain me urgent => (rrSchedMigrateFromSharedQueueInternal k s me urgent).map Prod.fst

/-- The queues stay as they are.  The threads may change, but the scheduler alone writes
`queue_cpuid`, and it alone writes the state of a thread that has one. -/
structure SameQueues (s s' : State T) : Prop where
  ready : s'.ready = s.ready
  shared : s'.shared = s.shared
  queueCpuid : ∀ t, (s'.thread t).queueCpuid = (s.thread t).queueCpuid
  state : ∀ t, (s.thread t).queueCpuid ≠ none → (s'.thread t).state = (s.thread t).state

/-- One step: a call, the rest of the kernel, or another machine, which appends to any shared
queue and takes the first thread of one that is not of this machine. -/
inductive Step : State T → State T → Prop where
  | call {s s' : State T} (c : Call T) (h : c.run k s = some s') : Step s s'
  | outside {s s' : State T} (h : SameQueues s s') : Step s s'
  | publish {s : State T} (t : T) (g : ℕ) : Step s (s.enqueueShared t g)
  | takenElsewhere {s : State T} {t : T} {ts : List T} (g : ℕ)
      (hg : k.isLocalCpu (some g) = false) (h : s.shared g = t :: ts) : Step s (s.setShared g ts)

/-- No thread is in a queue. -/
def start (thread : T → Thread) : State T where
  thread := fun t => { thread t with queueCpuid := none }
  ready := fun _ => ⟨[], 0⟩
  shared := fun _ => []
  current := fun _ => none

end Starfish.Sched
