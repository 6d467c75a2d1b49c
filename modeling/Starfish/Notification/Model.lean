import Mathlib.Data.Int.Notation
import Starfish.Interleave

/-!
# Starfish.Notification.Model

Notifications (`kernel/ipc/notification.c`): threads wait for a notification, with or without a
timeout, until they are signalled, moved to another notification or timed out.

* Everything that `wait_notific_internal`, `signal_notific` and `requeue_notific` do under
  `notifc_lock` is one step.  `handle_timer_irq` is several: it takes the `sleep_list_lock` of its
  CPU and the `queue_lock` of a thread, and its callback has read which notification the thread
  waits for before it takes `notifc_lock`.
* A `try_lock` succeeds only if the lock is free, and it may always fail.
* The waiting lists are taken as `Starfish.ThreadQueue.Runs` proves them: a node leaves the queue
  when it is dequeued, and a cancelled one is skipped.  A node that comes into a queue is in no
  other.

What the scheduler does with a thread that is woken, the migration of threads and the recycling
of notifications are not part of this model; a notification stays valid or invalid.
-/

namespace Starfish.Notification

/-! ## The state -/

/-- `thread_ctx->state`: `TS_RUNNING`, `TS_WAITING`, `TS_TO_SCHED`. -/
inductive ThreadState where
  | running | waiting | toSched
deriving DecidableEq, Repr

/-- `struct thread_dq_node`, as long as it is in a queue. -/
structure Entry (T ν : Type) where
  node : ν
  thread : T
  cancelled : Bool
deriving DecidableEq, Repr

/-- `struct thread`, as far as notifications are concerned. -/
structure Waiter (N ν C : Type) where
  state : ThreadState
  /-- `notif_dq_node_off` -/
  nodeOff : Option ν
  /-- `sleep_state.pending_notific` -/
  pending : Option N
  /-- `sleep_state.cb` is `notific_timer_cb`, and not NULL. -/
  cb : Bool
  sleepCpu : Option C
  /-- It is on the sleep list of `sleepCpu`. -/
  asleep : Bool
  /-- `sleep_state.queue_lock`, while a timer interrupt holds it: on which CPU. -/
  queueLock : Option C
  /-- The notification that it waits for.  The code does not record this. -/
  waitsOn : Option N

/-- `struct notification`. -/
structure Notific (T ν : Type) where
  valid : Bool
  notDelivered : ℕ
  waitingThreadsCount : ℤ
  waitingThreads : List (Entry T ν)

structure Shared (N T ν C : Type) where
  notific : N → Notific T ν
  thread : T → Waiter N ν C
  /-- `sleep_list_lock`, held by the timer interrupt of the CPU. -/
  sleepListLock : C → Bool

/-- Where a CPU is. -/
inductive Phase (N T : Type) where
  | idle
  /-- In `handle_timer_irq`, between two threads. -/
  | timer
  /-- `t` is off the sleep list, and its `queue_lock` is taken. -/
  | expired (t : T)
  /-- In `notific_timer_cb`, before `notifc_lock`. -/
  | calling (t : T) (n : N)
  /-- The callback has returned. -/
  | called (t : T)
  /-- A `BUG_ON` of the timer interrupt fired. -/
  | bug
  /-- The `BUG` of `requeue_notific`. -/
  | halted

/-- What a system call returns: 0, `-EAGAIN`, `-ECAPBILITY`. -/
inductive Ret where
  | ok | again | capability
deriving DecidableEq, Repr

/-- What is seen of a step. -/
inductive Label where
  | silent
  | ret (r : Ret)
  /-- `signal_notific` returns `-EAGAIN` after it has taken a thread off the queue. -/
  | lost
deriving DecidableEq, Repr

/-! ## The sections -/

variable {N T ν C : Type} [DecidableEq N] [DecidableEq T] [DecidableEq ν] [DecidableEq C]

/-- `thread_dq_dequeue`: the first entry that is not cancelled, and what is left of the queue. -/
def dequeue (q : List (Entry T ν)) : Option (Entry T ν × List (Entry T ν)) :=
  match q.dropWhile (·.cancelled) with
  | [] => none
  | e :: q => some (e, q)

namespace Shared

variable (s : Shared N T ν C)

@[simp] def setNotific (n : N) (x : Notific T ν) : Shared N T ν C :=
  { s with notific := Function.update s.notific n x }

@[simp] def setThread (t : T) (x : Waiter N ν C) : Shared N T ν C :=
  { s with thread := Function.update s.thread t x }

/-- The node is in no queue. -/
def Free (x : ν) : Prop := ∀ n, ∀ e ∈ (s.notific n).waitingThreads, e.node ≠ x

/-- `thread_dq_enqueue`, with the node `x`. -/
def enqueue (n : N) (t : T) (x : ν) : Shared N T ν C :=
  (s.setNotific n { s.notific n with
    waitingThreads := (s.notific n).waitingThreads ++ [⟨x, t, false⟩] }).setThread t
      { s.thread t with nodeOff := some x }

/-- `thread_dq_cancel_node`. -/
def cancelNode (x : Option ν) : Shared N T ν C :=
  match x with
  | none => s
  | some x =>
    { s with notific := fun n => { s.notific n with
      waitingThreads := (s.notific n).waitingThreads.map fun e =>
        if e.node = x then { e with cancelled := true } else e } }

/-- `waiting_threads_count += d`. -/
def addCount (n : N) (d : ℤ) : Shared N T ν C :=
  s.setNotific n { s.notific n with
    waitingThreadsCount := (s.notific n).waitingThreadsCount + d }

/-- What is left in the queue after a dequeue. -/
def setQueue (n : N) (q : List (Entry T ν)) : Shared N T ν C :=
  s.setNotific n { s.notific n with waitingThreads := q }

def setNotDelivered (n : N) (k : ℕ) : Shared N T ν C :=
  s.setNotific n { s.notific n with notDelivered := k }

/-- The blocking part of `wait_notific_internal`, on CPU `c`. -/
def block (c : C) (n : N) (t : T) (x : ν) (timeout : Bool) : Shared N T ν C :=
  let s := (s.enqueue n t x).addCount n 1
  let w := { s.thread t with state := .waiting, waitsOn := some n }
  s.setThread t
    (if timeout then { w with pending := some n, cb := true, sleepCpu := some c, asleep := true }
      else w)

/-- `try_dequeue_sleeper`, where it succeeds. -/
def dequeueSleeper (t : T) : Shared N T ν C :=
  if (s.thread t).cb then s.setThread t { s.thread t with cb := false, asleep := false } else s

/-- The last part of `signal_notific`. -/
def wake (t : T) : Shared N T ν C :=
  s.setThread t { s.thread t with nodeOff := none, state := .toSched, waitsOn := none }

/-- The last part of `requeue_notific`. -/
def requeueTo (dst : N) (t : T) (x : ν) : Shared N T ν C :=
  let s := (s.setThread t { s.thread t with pending := some dst, waitsOn := some dst }).enqueue dst t x
  s.addCount dst 1

/-- `notific_timer_cb` after `notifc_lock`, unless its `BUG_ON` fires. -/
def timeOut (t : T) (n : N) : Shared N T ν C :=
  let s := (s.cancelNode (s.thread t).nodeOff).addCount n (-1)
  s.setThread t { s.thread t with nodeOff := none, state := .toSched, waitsOn := none }

end Shared

/-! ## The steps -/

/-- The steps of CPU `c`. -/
inductive Acts (c : C) : Shared N T ν C → Phase N T → Label → Shared N T ν C → Phase N T → Prop
  /-- A thread that was woken runs again. -/
  | run {s t} (hstate : (s.thread t).state = .toSched) :
      Acts c s .idle .silent (s.setThread t { s.thread t with state := .running }) .idle
  -- `wait_notific_internal`
  | waitInvalid {s n} (hvalid : (s.notific n).valid = false) :
      Acts c s .idle (.ret .capability) s .idle
  | waitDelivered {s n} (hvalid : (s.notific n).valid = true)
      (hcount : (s.notific n).notDelivered ≠ 0) :
      Acts c s .idle (.ret .ok) (s.setNotDelivered n ((s.notific n).notDelivered - 1)) .idle
  | waitAgain {s n} (hvalid : (s.notific n).valid = true)
      (hcount : (s.notific n).notDelivered = 0) : Acts c s .idle (.ret .again) s .idle
  | waitBlock {s n t x} (timeout : Bool) (hvalid : (s.notific n).valid = true)
      (hcount : (s.notific n).notDelivered = 0) (hstate : (s.thread t).state = .running)
      (hlock : (s.thread t).queueLock = none) (hnode : s.Free x)
      (hsleep : timeout = true → s.sleepListLock c = false) :
      Acts c s .idle .silent (s.block c n t x timeout) .idle
  -- `signal_notific`
  | signalInvalid {s n} (hvalid : (s.notific n).valid = false) :
      Acts c s .idle (.ret .capability) s .idle
  | signalDelivered {s n} (hvalid : (s.notific n).valid = true)
      (hcount : (s.notific n).notDelivered ≠ 0 ∨ (s.notific n).waitingThreadsCount = 0) :
      Acts c s .idle (.ret .ok) (s.setNotDelivered n ((s.notific n).notDelivered + 1)) .idle
  | signalEmpty {s n} (hvalid : (s.notific n).valid = true)
      (hcount : (s.notific n).notDelivered = 0 ∧ (s.notific n).waitingThreadsCount ≠ 0)
      (hq : dequeue (s.notific n).waitingThreads = none) :
      Acts c s .idle (.ret .again) (s.setQueue n []) .idle
  | signalNoLock {s n e q} (hvalid : (s.notific n).valid = true)
      (hcount : (s.notific n).notDelivered = 0 ∧ (s.notific n).waitingThreadsCount ≠ 0)
      (hq : dequeue (s.notific n).waitingThreads = some (e, q)) :
      Acts c s .idle .lost ((s.setQueue n q).addCount n (-1)) .idle
  | signalNoSleeper {s n e q} (hvalid : (s.notific n).valid = true)
      (hcount : (s.notific n).notDelivered = 0 ∧ (s.notific n).waitingThreadsCount ≠ 0)
      (hq : dequeue (s.notific n).waitingThreads = some (e, q))
      (hlock : (s.thread e.thread).queueLock = none) (hcb : (s.thread e.thread).cb = true) :
      Acts c s .idle .lost ((s.setQueue n q).addCount n (-1)) .idle
  | signal {s n e q} (hvalid : (s.notific n).valid = true)
      (hcount : (s.notific n).notDelivered = 0 ∧ (s.notific n).waitingThreadsCount ≠ 0)
      (hq : dequeue (s.notific n).waitingThreads = some (e, q))
      (hlock : (s.thread e.thread).queueLock = none)
      (hsleep : (s.thread e.thread).cb = true →
        ∀ c', (s.thread e.thread).sleepCpu = some c' → s.sleepListLock c' = false) :
      Acts c s .idle (.ret .ok)
        ((((s.setQueue n q).addCount n (-1)).dequeueSleeper e.thread).wake e.thread) .idle
  -- `requeue_notific`
  | requeueSame {s} : Acts c s .idle (.ret .ok) s .idle
  | requeueInvalid {s src dst}
      (hvalid : (s.notific src).valid = false ∨ (s.notific dst).valid = false) :
      Acts c s .idle (.ret .capability) s .idle
  | requeueNone {s src} (hcount : (s.notific src).waitingThreadsCount = 0) :
      Acts c s .idle (.ret .ok) s .idle
  | requeueEmpty {s src dst} (hne : src ≠ dst)
      (hvalid : (s.notific src).valid = true ∧ (s.notific dst).valid = true)
      (hcount : (s.notific src).waitingThreadsCount ≠ 0)
      (hq : dequeue (s.notific src).waitingThreads = none) :
      Acts c s .idle (.ret .again) (s.setQueue src []) .idle
  | requeueNoLock {s src dst e q x} (hne : src ≠ dst)
      (hvalid : (s.notific src).valid = true ∧ (s.notific dst).valid = true)
      (hcount : (s.notific src).waitingThreadsCount ≠ 0)
      (hq : dequeue (s.notific src).waitingThreads = some (e, q))
      (hnode : (s.setQueue src q).Free x) :
      Acts c s .idle (.ret .again)
        ((((s.setQueue src q).addCount src (-1)).enqueue src e.thread x).addCount src 1) .idle
  /-- The kernel stops, and what it has stored so far does not matter. -/
  | requeueBug {s src dst e q} (hne : src ≠ dst)
      (hvalid : (s.notific src).valid = true ∧ (s.notific dst).valid = true)
      (hcount : (s.notific src).waitingThreadsCount ≠ 0)
      (hq : dequeue (s.notific src).waitingThreads = some (e, q))
      (hlock : (s.thread e.thread).queueLock = none) (hdst : (s.notific dst).notDelivered ≠ 0) :
      Acts c s .idle .silent s .halted
  | requeue {s src dst e q x} (hne : src ≠ dst)
      (hvalid : (s.notific src).valid = true ∧ (s.notific dst).valid = true)
      (hcount : (s.notific src).waitingThreadsCount ≠ 0)
      (hq : dequeue (s.notific src).waitingThreads = some (e, q))
      (hlock : (s.thread e.thread).queueLock = none) (hdst : (s.notific dst).notDelivered = 0)
      (hnode : (s.setQueue src q).Free x) :
      Acts c s .idle (.ret .ok)
        (((s.setQueue src q).addCount src (-1)).requeueTo dst e.thread x) .idle
  -- `handle_timer_irq`
  | timerBegin {s} (hlock : s.sleepListLock c = false) :
      Acts c s .idle .silent { s with sleepListLock := Function.update s.sleepListLock c true }
        .timer
  | expire {s t} (hcpu : (s.thread t).sleepCpu = some c) (hasleep : (s.thread t).asleep = true)
      (hlock : (s.thread t).queueLock = none) (hcb : (s.thread t).cb = true) :
      Acts c s .timer .silent
        (s.setThread t { s.thread t with queueLock := some c, asleep := false }) (.expired t)
  | expireBug {s t} (hcpu : (s.thread t).sleepCpu = some c) (hasleep : (s.thread t).asleep = true)
      (hlock : (s.thread t).queueLock = none) (hcb : (s.thread t).cb = false) :
      Acts c s .timer .silent s .bug
  | callback {s t n} (hpending : (s.thread t).pending = some n) :
      Acts c s (.expired t) .silent (s.setThread t { s.thread t with pending := none })
        (.calling t n)
  /-- `notifc` is NULL. -/
  | callbackFault {s t} (hpending : (s.thread t).pending = none) :
      Acts c s (.expired t) .silent s .bug
  | cbInvalid {s t n} (hvalid : (s.notific n).valid = false) :
      Acts c s (.calling t n) .silent s (.called t)
  | cbAwake {s t n} (hvalid : (s.notific n).valid = true)
      (hstate : (s.thread t).state ≠ .waiting) : Acts c s (.calling t n) .silent s (.called t)
  | cbBug {s t n} (hvalid : (s.notific n).valid = true) (hstate : (s.thread t).state = .waiting)
      (hcount : (s.notific n).waitingThreadsCount ≤ 0) : Acts c s (.calling t n) .silent s .bug
  | cbTimeOut {s t n} (hvalid : (s.notific n).valid = true)
      (hstate : (s.thread t).state = .waiting)
      (hcount : 0 < (s.notific n).waitingThreadsCount) :
      Acts c s (.calling t n) .silent (s.timeOut t n) (.called t)
  | called {s t} :
      Acts c s (.called t) .silent
        (s.setThread t { s.thread t with cb := false, queueLock := none }) .timer
  | timerEnd {s} :
      Acts c s .timer .silent { s with sleepListLock := Function.update s.sleepListLock c false }
        .idle

/-- The notifications and the CPUs. -/
abbrev World (N T ν C : Type) : Type := Threads C (Shared N T ν C) (Phase N T)

/-- One CPU does one step. -/
inductive Step : World N T ν C → Label → World N T ν C → Prop
  | act {w : World N T ν C} {c : C} {l : Label} {s : Shared N T ν C} {p : Phase N T}
      (h : Acts c w.mem (w.pc c) l s p) : Step w l (w.move c s p)

/-- Every thread runs, and no one waits. -/
def start (valid : N → Bool) : World N T ν C where
  mem :=
    { notific := fun n => ⟨valid n, 0, 0, []⟩
      thread := fun _ => ⟨.running, none, none, false, none, false, none, none⟩
      sleepListLock := fun _ => false }
  pc := fun _ => .idle

end Starfish.Notification
