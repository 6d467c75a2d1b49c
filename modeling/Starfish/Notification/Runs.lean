import Starfish.Notification.Model
import Starfish.Places

/-!
# Starfish.Notification.Runs

The waiting lists against the threads that wait, over whole runs.

A thread waits for one notification, and `Queues` says that the entries of a waiting list which
are not cancelled are the threads that wait for it.  `signal_notific` breaks this when it cannot
get the locks of the thread that it has taken off the list: it returns `-EAGAIN`, and the thread
waits for ever, or until its timeout finds a count that is too low.  In every run without such a
step the lists and the counts are right.
-/

namespace Starfish.Notification

open List Phase Shared Notific Threads Function

variable {N T ν C : Type}

attribute [local simp] Shared.cancelNode sub_eq_add_neg Shared.enqueue dequeueSleeper enqueue
  dequeue setQueue addCount Shared.addCount start

/-! ## The waiting lists -/

/-- The entries that are not cancelled. -/
def live (q : List (Entry T ν)) : List (Entry T ν) := q.filter fun e => !e.cancelled

/-- The threads on a waiting list. -/
@[simp] def Notific.waiters (x : Notific T ν) : List T := (live x.waitingThreads).map Entry.thread

variable {e : Entry T ν}

theorem live_eq_of_dequeue (h : dequeue q = some (e, q')) : live q = e :: live q' := by
  induction q with
  | nil => simp at h
  | cons x q ih =>
    cases hx : x.cancelled with
    | true =>
      have hq : dequeue q = some (e, q') := by simpa [hx] using h
      simpa [live, hx] using ih hq
    | false =>
      obtain ⟨rfl, rfl⟩ : x = e ∧ q = q' := by simpa [hx] using h
      simp [live, hx]

theorem live_eq_nil_of_dequeue (h : dequeue q = none) : live q = [] := by
  induction q with
  | nil => rfl
  | cons x q ih =>
    cases hx : x.cancelled with
    | true =>
      have hq : dequeue q = none := by simpa [hx] using h
      simpa [live, hx] using ih hq
    | false => simp [hx] at h

theorem mem_of_mem_live (h : e ∈ live q) : e ∈ q :=
  mem_of_mem_filter h

/-- The lists against what each thread waits for and which node it is known by. -/
structure Queues (nf : N → Notific T ν) (waits : T → Option N) (off : T → Option ν) : Prop where
  lists : ∀ n, Lists waits (some n) (nf n).waiters
  nodup : ∀ n, (nf n).waiters.Nodup
  counted : ∀ n, (nf n).waitingThreadsCount = (nf n).waiters.length
  nodes : ∀ n, ∀ e ∈ live (nf n).waitingThreads, off e.thread = some e.node
  /-- No two threads are known by the same node. -/
  apart : ∀ t t', waits t ≠ none → waits t' ≠ none → off t = off t' → t = t'
  valid : ∀ t n, waits t = some n → (nf n).valid = true

namespace Queues

variable {nf : N → Notific T ν} {waits : T → Option N} {off : T → Option ν}

variable {nf' : N → Notific T ν}

section

variable (h : Queues nf waits off)
include h

/-- Only how many signals are not delivered changes. -/
theorem congr (hq : ∀ n, (nf' n).waitingThreads = (nf n).waitingThreads)
    (hcount : ∀ n, (nf' n).waitingThreadsCount = (nf n).waitingThreadsCount)
    (hvalid : ∀ n, (nf' n).valid = (nf n).valid) : Queues nf' waits off where
  lists n := by rw [waiters, hq]; exact h.lists n
  nodup n := by rw [waiters, hq]; exact h.nodup n
  counted n := by rw [hcount, waiters, hq]; exact h.counted n
  nodes n := by rw [hq]; exact h.nodes n
  apart := h.apart
  valid t n ht := by rw [hvalid]; exact h.valid t n ht

/-- A thread that waits is known by the node of its entry. -/
theorem exists_entry (ht : waits t = some n) :
    ∃ e ∈ live (nf n).waitingThreads, e.thread = t ∧ off t = some e.node := by
  obtain ⟨e, he, hthread⟩ := mem_map.mp ((h.lists n).mem ht)
  refine ⟨e, he, hthread, ?_⟩
  rw [← hthread]
  exact h.nodes n e he

/-- `thread_dq_dequeue` takes a thread that waits. -/
theorem on_of_dequeue
    (hq : dequeue (nf n).waitingThreads = some (e, q)) : waits e.thread = some n := by
  refine (h.lists n).own_eq ?_
  rw [waiters, live_eq_of_dequeue hq]
  simp

theorem count_of_dequeue (hq : dequeue (nf n).waitingThreads = none) :
    (nf n).waitingThreadsCount = 0 := by
  rw [h.counted n, waiters, live_eq_nil_of_dequeue hq]
  rfl

end

variable [DecidableEq N] [DecidableEq T]

/-- A thread that did not wait comes to the end of a list, with a node that is in none. -/
theorem put (h : Queues nf waits off) (ht : waits t = none)
    (hx : ∀ n, ∀ e ∈ (nf n).waitingThreads, e.node ≠ x) (hvalid : (nf n).valid = true) :
    Queues
      (update nf n { nf n with
        waitingThreads := (nf n).waitingThreads ++ [⟨x, t, false⟩]
        waitingThreadsCount := (nf n).waitingThreadsCount + 1 })
      (update waits t (some n)) (update off t (some x)) := by
  set y : Notific T ν := { nf n with
    waitingThreads := (nf n).waitingThreads ++ [⟨x, t, false⟩]
    waitingThreadsCount := (nf n).waitingThreadsCount + 1 } with hy
  have hlive : live y.waitingThreads = live (nf n).waitingThreads ++ [⟨x, t, false⟩] := by
    simp [hy, live]
  have hwaiters : y.waiters = (nf n).waiters ++ [t] := by simp [hlive]
  have hnot : ∀ m, t ∉ (nf m).waiters := fun m => (h.lists m).notMem (by simp [ht])
  have hthread : ∀ m, ∀ e ∈ live (nf m).waitingThreads, e.thread ≠ t := by
    intro m e he heq
    exact hnot m (heq ▸ mem_map_of_mem he)
  have hoff : ∀ t', waits t' ≠ none → off t' ≠ some x := by
    intro t' ht' heq
    obtain ⟨m, hm⟩ := Option.ne_none_iff_exists'.mp ht'
    obtain ⟨e, he, -, hnode⟩ := h.exists_entry hm
    exact hx m e (mem_of_mem_live he) (Option.some.inj (hnode.symm.trans heq))
  have hnodes := h.nodes
  have hapart := h.apart
  have hval := h.valid
  refine ⟨fun m => ?_, fun m => ?_, fun m => ?_, by grind, by grind, by grind⟩
  · by_cases hm : m = n
    · subst hm
      rw [update_self, hwaiters]
      exact (h.lists m).concat t
    · rw [update_of_ne hm]
      exact (h.lists m).update (by simp [ht]) (by simpa using Ne.symm hm)
  · by_cases hm : m = n
    · subst hm
      rw [update_self, hwaiters, ← concat_eq_append]
      exact (h.nodup m).concat (hnot m)
    · rw [update_of_ne hm]
      exact h.nodup m
  · have hcounted := h.counted m
    grind

theorem remove (h : Queues nf waits off) (ht : waits t = some n)
    (hlive : ∀ m, live (nf' m).waitingThreads =
      (live (nf m).waitingThreads).filter fun e => decide (e.thread ≠ t))
    (hcount : ∀ m, (nf' m).waitingThreadsCount =
      (nf m).waitingThreadsCount - if m = n then 1 else 0)
    (hvalid : ∀ m, (nf' m).valid = (nf m).valid) (y : Option ν) :
    Queues nf' (update waits t none) (update off t y) := by
  have hwaiters : ∀ m, (nf' m).waiters = (nf m).waiters.erase t := by
    intro m
    rw [(h.nodup m).erase_eq_filter, waiters, hlive, waiters, filter_map]
    congr 1
    refine filter_congr fun e _ => ?_
    by_cases he : e.thread = t <;> simp [he]
  have hnodes := h.nodes
  have hapart := h.apart
  have hval := h.valid
  refine ⟨fun m => ?_, fun m => ?_, fun m => ?_, by grind, by grind, by grind⟩
  · rw [hwaiters]
    exact (h.lists m).erase (h.nodup m) (by simp)
  · rw [hwaiters]
    exact (h.nodup m).erase t
  · rw [hcount, hwaiters, h.counted m]
    by_cases hm : m = n
    · subst hm
      have hmem := (h.lists m).mem ht
      have hpos := length_pos_of_mem hmem
      rw [if_pos rfl, length_erase_of_mem hmem]
      omega
    · rw [if_neg hm, erase_of_not_mem ((h.lists m).notMem (by simpa [ht] using Ne.symm hm))]
      omega

theorem take (h : Queues nf waits off)
    (hq : dequeue (nf n).waitingThreads = some (e, q)) (z : Option ν) :
    Queues
      (update nf n { nf n with
        waitingThreads := q
        waitingThreadsCount := (nf n).waitingThreadsCount + -1 })
      (update waits e.thread none) (update off e.thread z) := by
  have hon := h.on_of_dequeue hq
  refine h.remove hon (fun m => ?_) (fun m => ?_) (fun m => ?_) z
  rotate_left
  · by_cases hm : m = n <;> simp [hm]
  · by_cases hm : m = n <;> simp [hm]
  have hnd := h.nodup n
  rw [waiters, live_eq_of_dequeue hq, map_cons, nodup_cons] at hnd
  have hthread : ∀ e' ∈ live (nf m).waitingThreads, waits e'.thread = some m := fun e' he' =>
    (h.lists m).own_eq (mem_map_of_mem he')
  by_cases hm : m = n
  · subst hm
    rw [update_self, live_eq_of_dequeue hq, filter_cons_of_neg (by simp), eq_comm,
      filter_eq_self]
    intro e' he'
    exact decide_eq_true fun heq => hnd.1 (heq ▸ mem_map_of_mem he')
  · rw [update_of_ne hm, eq_comm, filter_eq_self]
    grind

theorem cancel [DecidableEq ν] (h : Queues nf waits off) (ht : waits t = some n) (hx : off t = some x)
    (hq : ∀ m, (nf' m).waitingThreads = (nf m).waitingThreads.map fun e =>
      if e.node = x then { e with cancelled := true } else e)
    (hcount : ∀ m, (nf' m).waitingThreadsCount =
      (nf m).waitingThreadsCount - if m = n then 1 else 0)
    (hvalid : ∀ m, (nf' m).valid = (nf m).valid) (y : Option ν) :
    Queues nf' (update waits t none) (update off t y) := by
  refine h.remove ht (fun m => ?_) hcount hvalid y
  -- the live entry with this node is the one of the thread
  have hnode : ∀ e ∈ live (nf m).waitingThreads, e.node = x ↔ e.thread = t := by
    intro e he
    have hoff := h.nodes m e he
    have hon : waits e.thread = some m := (h.lists m).own_eq (List.mem_map_of_mem he)
    constructor
    · intro hex
      exact h.apart _ _ (by simp [hon]) (by simp [ht]) (by rw [hoff, hx, hex])
    · intro het
      rw [het, hx] at hoff
      exact (Option.some.inj hoff).symm
  rw [hq]
  generalize (nf m).waitingThreads = q at hnode
  induction q with
  | nil => rfl
  | cons e q ih =>
    cases hc : e.cancelled with
    | true =>
      have hcons : live (e :: q) = live q := by simp [live, hc]
      rw [hcons] at hnode ⊢
      rw [← ih hnode]
      by_cases hex : e.node = x <;> simp [live, hex, hc]
    | false =>
      have hcons : live (e :: q) = e :: live q := by simp [live, hc]
      rw [hcons] at hnode ⊢
      have htail := ih fun e' he' => hnode e' (List.mem_cons_of_mem _ he')
      have hhead := hnode e (List.mem_cons_self ..)
      by_cases hex : e.node = x
      · rw [List.filter_cons_of_neg (by simpa using hhead.mp hex), ← htail]
        simp [live, hex]
      · rw [List.filter_cons_of_pos (by simpa [hhead] using hex), ← htail]
        simp [live, hex, hc]

end Queues

/-! ## The threads -/

/-- What is true of a thread. -/
structure Waiter.Fit (x : Waiter N ν C) : Prop where
  waiting : x.state = .waiting ↔ x.waitsOn ≠ none
  asleep : x.asleep = true → x.cb = true ∧ x.queueLock = none ∧ x.waitsOn ≠ none ∧ x.pending = x.waitsOn
  cb : x.cb = true → x.queueLock = none → x.asleep = true

/-- Whose `queue_lock` a CPU holds. -/
def Phase.holds : Phase N T → Option T
  | .expired t => some t
  | .calling t _ => some t
  | .called t => some t
  | _ => none

/-- What a CPU relies on. -/
def Phase.Fit (p : Phase N T) (th : T → Waiter N ν C) : Prop :=
  match p with
  | .expired t => (th t).waitsOn ≠ none ∧ (th t).pending = (th t).waitsOn
  | .calling t n => (th t).waitsOn = some n
  | .bug => False
  | _ => True

/-- The lists are those of the threads that wait, and the locks are those of the timers. -/
structure Inv (w : World N T ν C) : Prop where
  queues : Queues w.mem.notific (fun t => (w.mem.thread t).waitsOn) fun t => (w.mem.thread t).nodeOff
  threads : ∀ t, (w.mem.thread t).Fit
  locks : ∀ t c, (w.mem.thread t).queueLock = some c ↔ (w.pc c).holds = some t
  phases : ∀ c, (w.pc c).Fit w.mem.thread

theorem inv_start (valid : N → Bool) : Inv (start valid : World N T ν C) where
  queues :=
    { lists := fun n t => by simp [live]
      nodup := fun n => by simp [live]
      counted := fun n => by simp [live]
      nodes := fun n e he => by simp [live] at he
      apart := fun t t' ht => by simp at ht
      valid := fun t n ht => by simp at ht }
  threads t := ⟨by simp, by simp, by simp⟩
  locks t c := by simp [holds]
  phases c := trivial

namespace Inv

variable [DecidableEq T] [DecidableEq C] {w : World N T ν C} {c : C} {s : Shared N T ν C}
  {p : Phase N T} {t : T} {x : Waiter N ν C}

section

variable (h : Inv w) (hth : s.thread = update w.mem.thread t x) (hx : x.Fit) (hp : p.Fit s.thread)
  (hlock : ∀ c', c' ≠ c → (x.queueLock = some c' ↔ (w.mem.thread t).queueLock = some c'))
  (hself : x.queueLock = some c ↔ p.holds = some t)
  (hholds : ∀ t', t' ≠ t → (p.holds = some t' ↔ (w.pc c).holds = some t'))
include h hth hx hp hlock hself hholds

/-- A step of CPU `c` that changes one thread. -/
theorem move (hq : Queues s.notific (update (fun t => (w.mem.thread t).waitsOn) t x.waitsOn)
      (update (fun t => (w.mem.thread t).nodeOff) t x.nodeOff))
    (hothers : ∀ c', c' ≠ c → (w.mem.thread t).queueLock = some c' →
      x.waitsOn = (w.mem.thread t).waitsOn ∧ x.pending = (w.mem.thread t).pending) :
    Inv (w.move c s p) := by
  have hat (t' : T) : s.thread t' = if t' = t then x else w.mem.thread t' := by
    rw [hth, update_apply]
  have hthreads := h.threads
  have hlocks := h.locks
  refine ⟨?_, by grind, by grind, fun c' => ?_⟩
  · have hon : (fun t' => (s.thread t').waitsOn) =
        update (fun t => (w.mem.thread t).waitsOn) t x.waitsOn := by
      rw [hth]
      exact comp_update Waiter.waitsOn ..
    have hoff : (fun t' => (s.thread t').nodeOff) =
        update (fun t => (w.mem.thread t).nodeOff) t x.nodeOff := by
      rw [hth]
      exact comp_update Waiter.nodeOff ..
    rw [move_mem, hon, hoff]
    exact hq
  · rw [move_mem]
    by_cases hc : c' = c
    · rw [hc, move_pc_self]
      exact hp
    · -- the thread whose lock CPU `c'` holds has kept what CPU `c'` relies on
      have hfit := h.phases c'
      have hheld (t' : T) := (h.locks t' c').mpr
      rw [move_pc_of_ne w hc]
      cases hph : w.pc c' <;> simp only [hph, Phase.Fit, holds] at hfit hheld ⊢ <;> grind

/-- A step that has to do neither with the lists nor with what a thread waits for. -/
theorem quiet (hnf : s.notific = w.mem.notific) (hon : x.waitsOn = (w.mem.thread t).waitsOn)
    (hoff : x.nodeOff = (w.mem.thread t).nodeOff)
    (hothers : ∀ c', c' ≠ c → (w.mem.thread t).queueLock = some c' →
      x.pending = (w.mem.thread t).pending) : Inv (w.move c s p) := by
  refine h.move hth hx hp hlock hself hholds ?_ fun c' hc hc' => ⟨hon, hothers c' hc hc'⟩
  rw [hnf, hon, hoff, update_eq_self, update_eq_self]
  exact h.queues

end

omit [DecidableEq T] in
theorem stay (h : Inv w) (hth : s.thread = w.mem.thread)
    (hq : Queues s.notific (fun t => (w.mem.thread t).waitsOn) fun t => (w.mem.thread t).nodeOff)
    (hp : p.Fit s.thread) (hholds : p.holds = (w.pc c).holds) : Inv (w.move c s p) := by
  have hthreads := h.threads
  have hlocks := h.locks
  have hphases := h.phases
  rw [← hth] at hthreads hlocks hphases hq
  constructor <;> grind

variable [DecidableEq N]

theorem block (h : Inv w) (hpc : w.pc c = .idle) (timeout : Bool)
    (hvalid : (w.mem.notific n).valid = true) (hstate : (w.mem.thread t).state = .running)
    (hlock : (w.mem.thread t).queueLock = none) (hnode : w.mem.Free y) :
    Inv (w.move c (w.mem.block c n t y timeout) .idle) := by
  have hon : (w.mem.thread t).waitsOn = none := by
    by_contra hne
    simpa [hstate] using (h.threads t).waiting.mpr hne
  have hcb : (w.mem.thread t).cb = false := by
    by_contra hcb
    have hasleep := (h.threads t).cb (by simpa using hcb) hlock
    exact ((h.threads t).asleep hasleep).2.2.1 hon
  have hasleep : (w.mem.thread t).asleep = false := by
    by_contra hasleep
    exact ((h.threads t).asleep (by simpa using hasleep)).2.2.1 hon
  refine h.move (t := t) (x := if timeout then
      { w.mem.thread t with
        nodeOff := some y, state := .waiting, waitsOn := some n, pending := some n, cb := true
        sleepCpu := some c, asleep := true }
    else { w.mem.thread t with nodeOff := some y, state := .waiting, waitsOn := some n }) ?_ ?_
    trivial ?_ ?_ (fun _ _ => by rw [hpc]) ?_ ?_
  · cases timeout <;> simp [Shared.block]
  · cases timeout <;> constructor <;> simp [hlock, hcb, hasleep]
  · intro c' _
    cases timeout <;> simp
  · cases timeout <;> simp [hlock, holds]
  · have hput := h.queues.put (n := n) (x := y) hon hnode hvalid
    cases timeout <;> simpa [Shared.block] using hput
  · intro c' _ hc'
    simp [hlock] at hc'

theorem signal (h : Inv w) (hpc : w.pc c = .idle)
    (hq : dequeue (w.mem.notific n).waitingThreads = some (e, q))
    (hlock : (w.mem.thread e.thread).queueLock = none) :
    Inv (w.move c ((((w.mem.setQueue n q).addCount n (-1)).dequeueSleeper e.thread).wake e.thread)
      .idle) := by
  have hfit := h.threads e.thread
  refine h.move (t := e.thread) (x := { w.mem.thread e.thread with
    cb := false, asleep := false, nodeOff := none, state := .toSched, waitsOn := none }) ?_ ?_
    trivial ?_ ?_ (fun _ _ => by rw [hpc]) ?_ ?_
  · cases hcb : (w.mem.thread e.thread).cb with
    | true =>
      simp [wake, hcb]
    | false =>
      have hasleep : (w.mem.thread e.thread).asleep = false := by
        by_contra hasleep
        simpa [hcb] using (hfit.asleep (by simpa using hasleep)).1
      simp [wake, hcb, hasleep]
  · constructor <;> simp
  · simp
  · simp [hlock, holds]
  · have htake := h.queues.take hq none
    cases hcb : (w.mem.thread e.thread).cb <;>
      simpa [wake, hcb] using htake
  · intro c' _ hc'
    simp [hlock] at hc'

omit [DecidableEq T] [DecidableEq C] in
theorem free_update (h : (s.setQueue n q).Free y) (hz : z.waitingThreads = q) (m : N) :
    ∀ e ∈ (update s.notific n z m).waitingThreads, e.node ≠ y := by
  have hm := h m
  by_cases hmn : m = n
  · subst hmn
    simpa [hz] using hm
  · simpa [hmn] using hm

theorem requeueNoLock (h : Inv w) (hpc : w.pc c = .idle)
    (hq : dequeue (w.mem.notific n).waitingThreads = some (e, q))
    (hnode : (w.mem.setQueue n q).Free y) :
    Inv (w.move c ((((w.mem.setQueue n q).addCount n (-1)).enqueue n e.thread y).addCount n 1)
      .idle) := by
  have hon := h.queues.on_of_dequeue hq
  have hfit := h.threads e.thread
  refine h.move (t := e.thread) (x := { w.mem.thread e.thread with nodeOff := some y }) ?_ ?_
    trivial (fun _ _ => Iff.rfl) ?_ (fun _ _ => by rw [hpc]) ?_ (fun _ _ _ => ⟨rfl, rfl⟩)
  · simp
  · exact ⟨hfit.waiting, hfit.asleep, hfit.cb⟩
  · have hl := h.locks e.thread c
    rw [hpc] at hl
    exact hl
  · have htake := h.queues.take hq none
    have hput := htake.put (n := n) (t := e.thread) (x := y) (by simp)
      (free_update hnode rfl)
      (by simpa using h.queues.valid _ _ hon)
    have hself : update (fun t => (w.mem.thread t).waitsOn) e.thread (some n) =
        fun t => (w.mem.thread t).waitsOn := by
      rw [← hon]
      exact update_eq_self ..
    simpa [hself] using hput

theorem requeue (h : Inv w)
    (hpc : w.pc c = .idle) (hne : n ≠ dst) (hvalid : (w.mem.notific dst).valid = true)
    (hq : dequeue (w.mem.notific n).waitingThreads = some (e, q))
    (hlock : (w.mem.thread e.thread).queueLock = none) (hnode : (w.mem.setQueue n q).Free y) :
    Inv (w.move c (((w.mem.setQueue n q).addCount n (-1)).requeueTo dst e.thread y) .idle) := by
  have hon := h.queues.on_of_dequeue hq
  have hfit := h.threads e.thread
  refine h.move (t := e.thread) (x := { w.mem.thread e.thread with
    pending := some dst, waitsOn := some dst, nodeOff := some y }) ?_ ?_
    trivial (fun _ _ => Iff.rfl) ?_ (fun _ _ => by rw [hpc]) ?_ ?_
  · simp [requeueTo]
  · refine ⟨?_, fun hasleep => ?_, hfit.cb⟩
    · simpa [hon] using hfit.waiting
    · obtain ⟨hcb, hql, -, -⟩ := hfit.asleep hasleep
      exact ⟨hcb, hql, by simp, rfl⟩
  · simp [hlock, holds]
  · have htake := h.queues.take hq none
    have hput := htake.put (n := dst) (t := e.thread) (x := y) (by simp)
      (free_update hnode rfl)
      (by simpa [Ne.symm hne] using hvalid)
    simpa [requeueTo, Ne.symm hne] using hput
  · intro c' _ hc'
    simp [hlock] at hc'

theorem timeOut [DecidableEq ν] (h : Inv w) (hpc : w.pc c = .calling t n) :
    Inv (w.move c (w.mem.timeOut t n) (.called t)) := by
  have hon : (w.mem.thread t).waitsOn = some n := by
    have hfit := h.phases c
    rwa [hpc] at hfit
  have hlock : (w.mem.thread t).queueLock = some c := (h.locks t c).mpr (by rw [hpc]; rfl)
  have hfit := h.threads t
  have hasleep : (w.mem.thread t).asleep = false := by
    by_contra hasleep
    simpa [hlock] using (hfit.asleep (by simpa using hasleep)).2.1
  obtain ⟨e, -, -, hoff⟩ := h.queues.exists_entry hon
  refine h.move (t := t) (x := { w.mem.thread t with
    nodeOff := none, state := .toSched, waitsOn := none }) ?_ ?_ trivial (fun _ _ => Iff.rfl)
    ?_ (fun t' ht' => ?_) ?_ ?_
  · simp [Shared.timeOut, hoff]
  · constructor <;> simp [hasleep, hlock]
  · simp [hlock, holds]
  · simp [hpc, holds]
  · refine h.queues.cancel hon hoff (fun m => ?_) (fun m => ?_)
      (fun m => ?_) none
    all_goals
      by_cases hm : m = n <;>
        simp [Shared.timeOut, hoff, hm]
  · intro c' hc hc'
    rw [hlock] at hc'
    exact absurd (Option.some.inj hc').symm hc

theorem step [DecidableEq ν] (h : Inv w) (hstep : Step w l w') (hl : l ≠ .lost) : Inv w' := by
  cases hstep with
  | @act c _ s p ha =>
  generalize hpc : w.pc c = p0 at ha
  cases ha with
  | waitInvalid | waitAgain | signalInvalid | requeueSame | requeueInvalid | requeueNone =>
    exact h.stay rfl h.queues trivial (by rw [hpc])
  | requeueBug => exact h.stay rfl h.queues trivial (by rw [hpc]; rfl)
  | @run t hstate =>
    have hfit := h.threads t
    refine h.quiet (t := t) rfl ?_ trivial (fun _ _ => Iff.rfl) ?_
      (fun _ _ => by rw [hpc]) rfl rfl rfl (fun _ _ _ => rfl)
    · refine ⟨?_, hfit.asleep, hfit.cb⟩
      have hno := hfit.waiting
      simpa [hstate] using hno
    · have hlocks := h.locks t c
      rwa [hpc] at hlocks
  | waitDelivered | signalDelivered =>
    refine h.stay rfl (h.queues.congr (fun m => ?_) (fun m => ?_) fun m => ?_) trivial
      (by rw [hpc])
    all_goals
      simp only [setNotDelivered, setNotific, update_apply]
      split <;> simp_all
  | waitBlock timeout hvalid hcount hstate hlock hnode hsleep =>
    exact h.block hpc timeout hvalid hstate hlock hnode
  | signalEmpty hvalid hcount hq => exact absurd (h.queues.count_of_dequeue hq) hcount.2
  | signalNoLock => exact absurd rfl hl
  | signalNoSleeper => exact absurd rfl hl
  | signal hvalid hcount hq hlock hsleep => exact h.signal hpc hq hlock
  | requeueEmpty hne hvalid hcount hq => exact absurd (h.queues.count_of_dequeue hq) hcount
  | requeueNoLock hne hvalid hcount hq hnode => exact h.requeueNoLock hpc hq hnode
  | requeue hne hvalid hcount hq hlock hdst hnode =>
    exact h.requeue hpc hne hvalid.2 hq hlock hnode
  | timerBegin => exact h.stay rfl h.queues trivial (by rw [hpc]; rfl)
  | timerEnd => exact h.stay rfl h.queues trivial (by rw [hpc]; rfl)
  | @expire t hcpu hasleep hlock hcb =>
    have hfit := h.threads t
    obtain ⟨-, -, hon, hpending⟩ := hfit.asleep hasleep
    refine h.quiet (t := t) rfl ?_ ?_ (fun c' hc => ?_) ?_ (fun t' ht' => ?_) rfl rfl rfl
      (fun _ _ _ => rfl)
    · refine ⟨hfit.waiting, ?_, ?_⟩ <;> simp
    · simpa [Phase.Fit] using ⟨hon, hpending⟩
    · simpa [hlock] using Ne.symm hc
    · simp [holds]
    · simpa [hpc, holds] using Ne.symm ht'
  | @expireBug t hcpu hasleep hlock hcb =>
    simpa [hcb] using ((h.threads t).asleep hasleep).1
  | @callback t n hpending =>
    have hp := h.phases c
    rw [hpc] at hp
    have hlock : (w.mem.thread t).queueLock = some c := (h.locks t c).mpr (by rw [hpc]; rfl)
    have hfit := h.threads t
    refine h.quiet (t := t) rfl ⟨hfit.waiting, fun hasleep => ?_, hfit.cb⟩ ?_
      (fun _ _ => Iff.rfl) ?_ (fun t' ht' => ?_) rfl rfl rfl (fun c' hc hc' => ?_)
    · simpa [hlock] using (hfit.asleep hasleep).2.1
    · simpa [Phase.Fit] using hp.2.symm.trans hpending
    · simp [hlock, holds]
    · simp [hpc, holds]
    · rw [hlock] at hc'
      exact absurd (Option.some.inj hc').symm hc
  | @callbackFault t hpending =>
    have hp := h.phases c
    rw [hpc] at hp
    exact absurd (hp.2.symm.trans hpending) hp.1
  | @cbInvalid t n hvalid => exact h.stay rfl h.queues trivial (by rw [hpc]; rfl)
  | @cbAwake t n hvalid hstate => exact h.stay rfl h.queues trivial (by rw [hpc]; rfl)
  | @cbBug t n hvalid hstate hcount =>
    have hp : (w.mem.thread t).waitsOn = some n := by
      have hfit := h.phases c
      rwa [hpc] at hfit
    have hpos := length_pos_of_mem ((h.queues.lists n).mem hp)
    rw [h.queues.counted n] at hcount
    omega
  | cbTimeOut => exact h.timeOut hpc
  | @called t =>
    have hlock : (w.mem.thread t).queueLock = some c := (h.locks t c).mpr (by rw [hpc]; rfl)
    have hfit := h.threads t
    refine h.quiet (t := t) rfl ⟨hfit.waiting, fun hasleep => ?_, ?_⟩ trivial
      (fun c' hc => ?_) ?_ (fun t' ht' => ?_) rfl rfl rfl (fun _ _ _ => rfl)
    · simpa [hlock] using (hfit.asleep hasleep).2.1
    · simp
    · simpa [hlock] using Ne.symm hc
    · simp [holds]
    · simpa [hpc, holds] using Ne.symm ht'

end Inv

/-! ## Whole runs -/

section runs

/-- A step that does not lose a thread: a `signal_notific` that has taken a thread off the list
gets the locks of the thread and of its sleep list. -/
def CarefulStep [DecidableEq N] [DecidableEq T] [DecidableEq ν] [DecidableEq C]
    (w w' : World N T ν C) : Prop := ∃ l, l ≠ .lost ∧ Step w l w'

variable [DecidableEq N] [DecidableEq T]

/-- The waiting lists and the counts are those of the threads that wait. -/
structure Right (s : Shared N T ν C) : Prop where
  /-- The count is that of the entries that are not cancelled. -/
  counted : ∀ n, (s.notific n).waitingThreadsCount =
    (s.notific n).waitingThreads.countP fun e => !e.cancelled
  /-- A thread that waits for a notification is on its list once, and on no other. -/
  once : ∀ t n, (s.notific n).waiters.count t =
    if (s.thread t).state = .waiting ∧ (s.thread t).waitsOn = some n then 1 else 0
  /-- A thread that waits waits for a notification. -/
  blocked : ∀ t, (s.thread t).state = .waiting → (s.thread t).waitsOn ≠ none

/-- The same threads wait for the same notifications, and all counts are the same. -/
structure SameWaiters (s s' : Shared N T ν C) : Prop where
  state : ∀ t, (s'.thread t).state = (s.thread t).state
  waitsOn : ∀ t, (s'.thread t).waitsOn = (s.thread t).waitsOn
  waiters : ∀ n, (s'.notific n).waiters.Perm (s.notific n).waiters
  count : ∀ n, (s'.notific n).waitingThreadsCount = (s.notific n).waitingThreadsCount
  notDelivered : ∀ n, (s'.notific n).notDelivered = (s.notific n).notDelivered

omit [DecidableEq N] [DecidableEq T] in
theorem SameWaiters.refl (s : Shared N T ν C) : SameWaiters s s :=
  ⟨fun _ => rfl, fun _ => rfl, fun _ => .refl _, fun _ => rfl, fun _ => rfl⟩

theorem Inv.right {w : World N T ν C} (h : Inv w) : Right w.mem where
  counted n := by
    rw [h.queues.counted n, waiters, length_map, live, countP_eq_length_filter]
  once t n := by
    have hmem : t ∈ (w.mem.notific n).waiters ↔ (w.mem.thread t).state = .waiting ∧
        (w.mem.thread t).waitsOn = some n := by
      rw [h.queues.lists n t, (h.threads t).waiting]
      exact ⟨fun ht => ⟨by simp [ht], ht⟩, fun ht => ht.2⟩
    by_cases ht : t ∈ (w.mem.notific n).waiters
    · rw [count_eq_one_of_mem (h.queues.nodup n) ht, if_pos (hmem.mp ht)]
    · rw [count_eq_zero_of_not_mem ht, if_neg fun hno => ht (hmem.mpr hno)]
  blocked t ht := (h.threads t).waiting.mp ht

variable [DecidableEq ν] [DecidableEq C]

/-- A call that returns `-EAGAIN` and has not lost a thread. -/
theorem Inv.sameWaiters {w w' : World N T ν C} (h : Inv w) (hstep : Step w (.ret .again) w') :
    SameWaiters w.mem w'.mem := by
  cases hstep with
  | @act c _ s p ha =>
  generalize w.pc c = p0 at ha
  cases ha with
  | waitAgain => exact .refl _
  | signalEmpty hvalid hcount hq => exact absurd (h.queues.count_of_dequeue hq) hcount.2
  | requeueEmpty hne hvalid hcount hq => exact absurd (h.queues.count_of_dequeue hq) hcount
  | @requeueNoLock src dst e q x hne hvalid hcount hq hnode =>
    have hthread (t : T) : ((((w.mem.setQueue src q).addCount src (-1)).enqueue src e.thread
        x).addCount src 1).thread t =
        update w.mem.thread e.thread
          { w.mem.thread e.thread with nodeOff := some x } t := by
      simp
    have hnotific (n : N) : ((((w.mem.setQueue src q).addCount src (-1)).enqueue src e.thread
        x).addCount src 1).notific n =
        update w.mem.notific src
          { w.mem.notific src with waitingThreads := q ++ [⟨x, e.thread, false⟩] } n := by
      simp
    refine ⟨by grind, by grind, fun n => ?_, by grind, by grind⟩
    · rw [move_mem, hnotific]
      by_cases hn : n = src
      · -- the thread goes from the front of the list to its end
        subst hn
        have hnew : live (q ++ [⟨x, e.thread, false⟩]) = live q ++ [⟨x, e.thread, false⟩] := by
          simp [live]
        rw [update_self, waiters, waiters, live_eq_of_dequeue hq, hnew,
          map_append, map_cons]
        exact perm_append_comm
      · rw [update_of_ne hn]

theorem Inv.run {w w' : World N T ν C} (h : Inv w)
    (hrun : Relation.ReflTransGen CarefulStep w w') : Inv w' := by
  induction hrun with
  | refl => exact h
  | tail _ hstep ih =>
    obtain ⟨l, hl, hstep⟩ := hstep
    exact ih.step hstep hl

/-- In every run in which no signal loses a thread, the waiting lists and the counts are right, a
call that returns `-EAGAIN` has changed nothing, and the timeout finds what it counts down. -/
theorem waiting_lists_right_in_careful_runs (valid : N → Bool) {w : World N T ν C}
    (hrun : Relation.ReflTransGen CarefulStep (start valid) w) :
    Right w.mem ∧ (∀ c, w.pc c ≠ .bug) ∧
      ∀ w', Step w (.ret .again) w' → SameWaiters w.mem w'.mem := by
  have h := (inv_start valid).run hrun
  refine ⟨h.right, fun c hc => ?_, fun w' hstep => h.sameWaiters hstep⟩
  have hfit := h.phases c
  rw [hc] at hfit
  exact hfit

end runs

/-! ## A signal that comes while a timeout is under way -/

section late

/-- The thread waits, with a timeout. -/
def waitingMem : Shared Unit Unit Unit Bool :=
  (start fun _ => true : World Unit Unit Unit Bool).mem.block false () () () true

theorem step_waiting : Step (start fun _ => true : World Unit Unit Unit Bool) .silent
    ((start fun _ => true).move false waitingMem .idle) :=
  .act (.waitBlock true rfl rfl rfl rfl (fun _ _ he => by simp at he) fun _ => rfl)

/-- A thread waits, and a signal of another CPU wakes it. -/
theorem waiting_lists_right_after_signal : ∃ w : World Unit Unit Unit Bool,
    (w.mem.thread ()).state = .toSched ∧ Right w.mem ∧ (∀ c, w.pc c ≠ .bug) ∧
      ∀ w', Step w (.ret .again) w' → SameWaiters w.mem w'.mem :=
  ⟨_, rfl, waiting_lists_right_in_careful_runs (fun _ => true)
    (.tail (.single ⟨.silent, by decide, step_waiting⟩) ⟨.ret .ok, by decide,
      .act (c := false) (.signal (n := ()) rfl ⟨rfl, by decide⟩ rfl rfl fun _ _ _ => rfl)⟩)⟩

/-- A timer interrupt has taken the lock of the thread when the signal comes.  The signal takes
the thread off the list, cannot get its lock and returns `-EAGAIN`.  The callback of the timer
then finds a count of zero. -/
theorem lost_signal_fires_bug : ∃ w : World Unit Unit Unit Bool,
    Relation.ReflTransGen (fun w w' => ∃ l, Step w l w') (start fun _ => true) w ∧
      w.pc false = .bug := by
  have hwait : Relation.ReflTransGen (fun w w' => ∃ l, Step w l w') _ _ := .single ⟨_, step_waiting⟩
  have htimer := hwait.tail ⟨_, .act (c := false) (.timerBegin rfl)⟩
  have hexpire := htimer.tail ⟨_, .act (c := false) (.expire (t := ()) rfl rfl rfl rfl)⟩
  have hsignal := hexpire.tail ⟨_, .act (c := true)
    (.signalNoLock (n := ()) rfl ⟨rfl, by decide⟩ rfl)⟩
  have hcall := hsignal.tail ⟨_, .act (c := false) (.callback (t := ()) rfl)⟩
  exact ⟨_, hcall.tail ⟨_, .act (c := false) (.cbBug rfl rfl (by decide))⟩, rfl⟩

end late

end Starfish.Notification
