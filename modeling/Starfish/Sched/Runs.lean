import Starfish.Places
import Starfish.Sched.Model

/-!
# Starfish.Sched.Runs

What holds of the run queues whatever the kernel and the other machines do.

* `Inv` gives every thread the queue that it is in, if any, and ties `queue_cpuid`, the state and
  the length of a ready list to it.
* `queues_right_in_careful_runs` is the main result: as long as no thread is enqueued that waits in
  a shared queue, none that is in a ready list is sent to a shared queue, and no urgent drain has
  threads for two CPUs, the queues are `Right` in every state.
* `urgent_drain_mixes_lists`: two threads for two CPUs in one urgent drain end in one list.
-/

namespace Starfish.Sched

open Function Relation List Option

variable {T : Type} {k : Cluster} {s s' s₁ : State T} {t u : T} {c g me : ℕ} {r : ℤ}

attribute [local simp] State.setShared State.mapLists State.listDel State.setReady

/-! ## The places of the threads -/

/-- A queue of the machine. -/
inductive Queue where
  | ready (c : ℕ)
  | shared (g : ℕ)
deriving DecidableEq, Repr

@[simp] def State.queue (s : State T) : Queue → List T
  | .ready c => (s.ready c).threads
  | .shared g => s.shared g

theorem SameQueues.queue (h : SameQueues s s') (q : Queue) : s'.queue q = s.queue q := by
  cases q with
  | ready c => rw [State.queue, State.queue, h.ready]
  | shared g => rw [State.queue, State.queue, h.shared]

namespace State

@[grind =] theorem setReady_thread (s : State T) (c : ℕ) (rq : ReadyQueue T) (u : T) :
    (s.setReady c rq).thread u = s.thread u := rfl

@[grind =] theorem setShared_thread (s : State T) (g : ℕ) (ts : List T) (u : T) :
    (s.setShared g ts).thread u = s.thread u := rfl

@[grind =] theorem setThread_thread [DecidableEq T] (s : State T) (t u : T) (x : Thread) :
    (s.setThread t x).thread u = if u = t then x else s.thread u := update_apply ..

@[grind =] theorem listDel_thread [DecidableEq T] (s : State T) (t u : T) :
    (s.listDel t).thread u = s.thread u := rfl

theorem queue_setShared_self : (s.setShared g ts).queue (.shared g) = ts := update_self ..

theorem queue_setShared_of_ne (h : q ≠ .shared g) : (s.setShared g ts).queue q = s.queue q := by
  cases q with
  | ready c => rfl
  | shared g' => exact update_of_ne (fun e => h (congrArg Queue.shared e)) ..

theorem queue_setReady_self : (s.setReady c rq).queue (.ready c) = rq.threads :=
  congrArg ReadyQueue.threads (update_self ..)

theorem queue_setReady_of_ne (h : q ≠ .ready c) : (s.setReady c rq).queue q = s.queue q := by
  cases q with
  | ready c' =>
    exact congrArg ReadyQueue.threads (update_of_ne (fun e => h (congrArg Queue.ready e)) ..)
  | shared g => rfl

/-- What `__rr_sched_dequeue` does with a thread of the ready list of `c`. -/
@[simp] def unlink [DecidableEq T] (s : State T) (t : T) (c : ℕ) : State T :=
  let s := s.listDel t
  let s := s.setReady c { s.ready c with queueLen := (s.ready c).queueLen - 1 }
  s.setThread t { s.thread t with queueCpuid := none }

theorem queue_unlink [DecidableEq T] (h : ∀ g, t ∉ s.shared g) (q : Queue) :
    (s.unlink t c).queue q = (s.queue q).erase t := by
  cases q with
  | shared g => exact (erase_of_not_mem (h g)).symm
  | ready c' =>
    by_cases hc : c' = c
    · subst hc
      simp [queue, unlink, listDel, mapLists, setReady, setThread]
    · simp [queue, unlink, listDel, mapLists, setReady, setThread, update_of_ne hc]

end State

/-- The accounting of the run queues. -/
structure Right (s : State T) : Prop where
  counted : ∀ c, (s.ready c).queueLen = (s.ready c).threads.length
  linked : ∀ t c, t ∈ (s.ready c).threads ↔
    (s.thread t).queueCpuid = some c ∧ (s.thread t).state = .ready
  once : ∀ q, (s.queue q).Nodup
  apart : ∀ t q q', t ∈ s.queue q → t ∈ s.queue q' → q = q'

/-- `own` gives each thread its queue. -/
structure Inv (own : T → Option Queue) (s : State T) : Prop where
  lists : ∀ q, Lists own (some q) (s.queue q)
  nodup : ∀ q, (s.queue q).Nodup
  counted : ∀ c, (s.ready c).queueLen = (s.ready c).threads.length
  linked : ∀ t c, own t = some (.ready c) ↔ (s.thread t).queueCpuid = some c
  isReady : ∀ t c, own t = some (.ready c) → (s.thread t).state = .ready

namespace Inv

variable {own : T → Option Queue} {q : Queue}

theorem right (h : Inv own s) : Right s where
  counted := h.counted
  linked t c := by
    rw [← h.linked t c, ← h.lists (.ready c) t]
    exact ⟨fun ht => ⟨ht, h.isReady t c ((h.lists (.ready c)).own_eq ht)⟩, And.left⟩
  once := h.nodup
  apart t q q' ht ht' := some.inj (((h.lists q).own_eq ht).symm.trans ((h.lists q').own_eq ht'))

theorem start (thread : T → Thread) : Inv (fun _ => none) (start thread) where
  lists q := by cases q <;> simp [Lists, Sched.start]
  nodup q := by cases q <;> simp [Sched.start]
  counted _ := rfl
  linked _ _ := by simp [Sched.start]
  isReady _ _ h := by cases h

theorem queueCpuid_eq_none (h : Inv own s) (ht : ∀ c, own t ≠ some (.ready c)) :
    (s.thread t).queueCpuid = none := by
  cases hcpu : (s.thread t).queueCpuid with
  | none => rfl
  | some c => exact absurd ((h.linked t c).mpr hcpu) (ht c)

theorem own_eq_none (h : Inv own s) (hready : ∀ c, t ∉ (s.ready c).threads)
    (hshared : ∀ g, t ∉ s.shared g) : own t = none := by
  cases hown : own t with
  | none => rfl
  | some q =>
    have hmem := (h.lists q).mem hown
    cases q with
    | ready c => exact absurd hmem (hready c)
    | shared g => exact absurd hmem (hshared g)

theorem sameQueues (h : Inv own s) (hs : SameQueues s s') : Inv own s' where
  lists q := by
    rw [hs.queue]
    exact h.lists q
  nodup q := by
    rw [hs.queue]
    exact h.nodup q
  counted c := by rw [hs.ready, h.counted]
  linked t c := by rw [hs.queueCpuid, h.linked]
  isReady t c hown := by
    have hcpu := (h.linked t c).mp hown
    rw [hs.state t (by simp [hcpu])]
    exact h.isReady t c hown

/-- The ready lists in another order. -/
theorem perm (h : Inv own s) (hthread : s'.thread = s.thread) (hshared : s'.shared = s.shared)
    (hlen : ∀ c, (s'.ready c).queueLen = (s.ready c).queueLen)
    (hperm : ∀ c, (s'.ready c).threads.Perm (s.ready c).threads) : Inv own s' where
  lists q := by
    intro t
    rw [← h.lists q t]
    cases q with
    | ready c => exact (hperm c).mem_iff
    | shared g => rw [State.queue, State.queue, hshared]
  nodup q := by
    have hnd := h.nodup q
    cases q with
    | ready c => exact (hperm c).nodup_iff.mpr hnd
    | shared g => rwa [State.queue, hshared]
  counted c := by rw [hlen, h.counted, (hperm c).length_eq]
  linked t c := by rw [hthread, h.linked]
  isReady t c hown := by
    rw [hthread]
    exact h.isReady t c hown

variable [DecidableEq T]

theorem lists_concat (s' : State T) (q : Queue) (h : Inv own s) (ht : own t = none)
    (hq : s'.queue q = s.queue q ++ [t])
    (hrest : ∀ q', q' ≠ q → s'.queue q' = s.queue q') :
    (∀ q', Lists (update own t (some q)) (some q') (s'.queue q')) ∧ ∀ q', (s'.queue q').Nodup := by
  have hnot : t ∉ s.queue q := (h.lists q).notMem (by simp [ht])
  constructor <;> intro q'
  · by_cases hqq : q' = q
    · rw [hqq, hq]
      exact (h.lists q).concat t
    · rw [hrest q' hqq]
      exact (h.lists q').update (by simp [ht]) (by simpa using Ne.symm hqq)
  · by_cases hqq : q' = q
    · rw [hqq, hq, nodup_append]
      refine ⟨h.nodup q, nodup_singleton t, ?_⟩
      intro a ha b hb hab
      rw [mem_singleton] at hb
      exact hnot (hb ▸ hab ▸ ha)
    · rw [hrest q' hqq]
      exact h.nodup q'

theorem enqueueShared (h : Inv own s) (ht : own t = none) (g : ℕ) :
    Inv (update own t (some (.shared g))) (s.enqueueShared t g) := by
  obtain ⟨hlists, hnodup⟩ := h.lists_concat (s.enqueueShared t g) (.shared g) ht
    State.queue_setShared_self fun _ hq => State.queue_setShared_of_ne hq
  obtain ⟨-, -, hcounted, hlinked, hready⟩ := h
  exact ⟨hlists, hnodup, hcounted, by grind [State.enqueueShared], by grind [State.enqueueShared]⟩

theorem lists_erase (s' : State T) (h : Inv own s) (hq : ∀ q, s'.queue q = (s.queue q).erase t) :
    (∀ q, Lists (update own t none) (some q) (s'.queue q)) ∧ ∀ q, (s'.queue q).Nodup := by
  constructor <;> intro q <;> rw [hq]
  · exact (h.lists q).erase (h.nodup q) (by simp)
  · exact (h.nodup q).erase t

theorem takeShared (h : Inv own s) (hg : s.shared g = t :: ts) :
    Inv (update own t none) (s.setShared g ts) := by
  have hown : own t = some (.shared g) := (h.lists (.shared g)).own_eq (by simp [hg])
  have hready (c : ℕ) : own t ≠ some (.ready c) := by simp [hown]
  have hq (q : Queue) : (s.setShared g ts).queue q = (s.queue q).erase t := by
    by_cases hqg : q = .shared g
    · rw [hqg, State.queue_setShared_self, State.queue, hg, erase_cons_head]
    · rw [State.queue_setShared_of_ne hqg, erase_of_not_mem]
      exact (h.lists q).notMem (by simpa [hown] using Ne.symm hqg)
  obtain ⟨hlists, hnodup⟩ := h.lists_erase _ hq
  obtain ⟨-, -, hcounted, hlinked, hready⟩ := h
  exact ⟨hlists, hnodup, hcounted, by grind, by grind⟩

/-- A thread that is in no queue comes to the end of a ready list. -/
theorem listAppend (h : Inv own s) (ht : own t = none) (hx : x.queueCpuid = some c)
    (hst : x.state = .ready) : Inv (update own t (some (.ready c)))
      ((s.setThread t x).listAppend t c) := by
  obtain ⟨hlists, hnodup⟩ := h.lists_concat ((s.setThread t x).listAppend t c) (.ready c) ht
    State.queue_setReady_self fun q hq => State.queue_setReady_of_ne (s := s.setThread t x) hq
  refine ⟨hlists, hnodup, ?_, ?_, ?_⟩
  · intro c'
    by_cases hc : c' = c
    · subst hc
      simp [State.listAppend, State.setThread, h.counted]
    · simp [State.listAppend, State.setThread, update_of_ne hc, h.counted]
  · intro u c'
    by_cases hu : u = t
    · subst hu
      simp [State.listAppend, State.setThread, hx]
    · simp [State.listAppend, State.setThread, update_of_ne hu, h.linked]
  · intro u c' hown
    by_cases hu : u = t
    · subst hu
      simp [State.listAppend, State.setThread, hst]
    · rw [update_of_ne hu] at hown
      simpa [State.listAppend, State.setThread, update_of_ne hu] using h.isReady u c' hown

/-- A thread goes from the ready list that its `queue_cpuid` names. -/
theorem dequeue (h : Inv own s) (ht : own t = some (.ready c)) :
    rrSchedDequeueNoLock s t = ((rrSchedDequeueNoLock s t).1, 0) ∧
      Inv (update own t none) (rrSchedDequeueNoLock s t).1 := by
  have hcpu := (h.linked t c).mp ht
  have hstate := h.isReady t c ht
  have hmem : t ∈ (s.ready c).threads := (h.lists (.ready c)).mem ht
  have heq : rrSchedDequeueNoLock s t = ((s.unlink t c), 0) := by
    simp only [rrSchedDequeueNoLock, hstate, hcpu]
    rfl
  obtain ⟨hlists, hnodup⟩ := h.lists_erase (s.unlink t c) (State.queue_unlink fun g =>
    (h.lists (.shared g)).notMem (by simp [ht]))
  have hlen := length_pos_of_mem hmem
  have hnot (c' : ℕ) (hc : c' ≠ c) : t ∉ (s.ready c').threads :=
    (h.lists (.ready c')).notMem (by simpa [ht] using Ne.symm hc)
  obtain ⟨-, -, hcounted, hlinked, hready⟩ := h
  rw [heq]
  refine ⟨rfl, hlists, hnodup, fun c' => ?_, ?_, ?_⟩
  · have herase := length_erase_of_mem hmem
    have hcounted := hcounted c'
    by_cases hc : c' = c
    · subst hc
      simp [State.setThread, hcounted, herase]
      omega
    · simp [State.setThread, update_of_ne hc, erase_of_not_mem (hnot c' hc), hcounted]
  all_goals
    rw [State.unlink]
    grind

end Inv

/-! ## What leaves the queues alone -/

namespace SameQueues

theorem refl (s : State T) : SameQueues s s := ⟨rfl, rfl, fun _ => rfl, fun _ _ => rfl⟩

variable [DecidableEq T]

theorem setThread (hq : x.queueCpuid = (s.thread t).queueCpuid)
    (hst : (s.thread t).queueCpuid ≠ none → x.state = (s.thread t).state) :
    SameQueues s (s.setThread t x) where
  ready := rfl
  shared := rfl
  queueCpuid u := by
    by_cases hu : u = t
    · simp [hu, State.setThread, hq]
    · simp [State.setThread, update_of_ne hu]
  state u hne := by
    by_cases hu : u = t
    · subst hu
      simp [State.setThread, hst hne]
    · simp [State.setThread, update_of_ne hu]

theorem setExitState (s : State T) (t : T) (e : ExitState) : SameQueues s (s.setExitState t e) :=
  setThread rfl fun _ => rfl

theorem setState (h : (s.thread t).queueCpuid = none) (st : ThreadState) :
    SameQueues s (s.setState t st) :=
  setThread rfl fun hne => absurd h hne

theorem getCpubind (k : Cluster) (s : State T) (me : ℕ) (t : T) :
    SameQueues s (getCpubind k s me t).1 := by
  simp only [Sched.getCpubind]
  split
  · exact refl s
  · split
    · exact refl s
    · split
      · split
        · exact refl s
        · exact setThread rfl fun _ => rfl
      · exact refl s

theorem leftOut (h : leftOut s t = some s') : SameQueues s s' := by
  simp only [Sched.leftOut] at h
  split at h
  · cases h
    exact refl s
  · split at h
    · cases h
      exact setExitState s t _
    · cases h
      exact setExitState s t _
    · cases h

theorem enqueueGcpuid (h : enqueueGcpuid k s me t = some (s', g)) : SameQueues s s' := by
  have hbind := getCpubind k s me t
  simp only [Sched.enqueueGcpuid] at h
  split at h
  · rw [map_eq_some_iff] at h
    obtain ⟨_, _, heq⟩ := h
    cases heq
    exact refl s
  · split at h <;> rename_i heq <;> cases h <;> rw [heq] at hbind <;> exact hbind

end SameQueues

/-! ## What an enqueue can do -/

/-- The thread that a call enqueues: it is in no ready list if it is sent to a shared queue, and in
no shared queue if it is sent anywhere. -/
structure Enqueued (s s' : State T) (t : T) : Prop where
  notLinked : s'.shared ≠ s.shared → ∀ c, t ∉ (s.ready c).threads
  notShared : s'.ready ≠ s.ready ∨ s'.shared ≠ s.shared → ∀ g, t ∉ s.shared g

theorem Enqueued.congr (h : Enqueued s s' t) (hs : SameQueues s s₁) : Enqueued s₁ s' t where
  notLinked hne := by
    rw [hs.ready]
    exact h.notLinked (by rwa [← hs.shared])
  notShared hne := by
    rw [hs.shared]
    exact h.notShared (by rwa [← hs.ready, ← hs.shared])

theorem State.enqueueShared_ne (s : State T) (t : T) (g : ℕ) :
    (s.enqueueShared t g).shared ≠ s.shared := by
  intro heq
  have hg := congrFun heq g
  simp [State.enqueueShared] at hg

section enqueue

variable [DecidableEq T]

/-- An enqueue leaves the queues alone, appends to a shared queue or goes to a ready list. -/
theorem rrSchedEnqueue_cases (h : rrSchedEnqueue k s me t = some (s', r)) :
    ∃ s₁, SameQueues s s₁ ∧ (s' = s₁ ∨ (∃ g, s' = s₁.enqueueShared t g) ∨
      ∃ c, rrSchedEnqueueNoLock k s₁ t c = some (s', r)) := by
  simp only [rrSchedEnqueue] at h
  split at h
  next s₁ hleft =>
    cases h
    exact ⟨s', .leftOut hleft, .inl rfl⟩
  next =>
    obtain ⟨⟨s₁, g⟩, hg, hrest⟩ := bind_eq_some_iff.mp h
    refine ⟨s₁, .enqueueGcpuid hg, ?_⟩
    simp only at hrest
    split at hrest
    · cases hrest
      exact .inl rfl
    · split at hrest
      · cases hrest
        exact .inl rfl
      · split at hrest
        · cases hrest
          exact .inr (.inl ⟨g, rfl⟩)
        · exact .inr (.inr ⟨_, hrest⟩)

/-- An enqueue to the affinity may append to a shared queue a thread that it makes `TS_READY`. -/
theorem rrSchedEnqueueToAffinity_cases (h : rrSchedEnqueueToAffinity k s me t = some (s', r)) :
    ∃ s₁, SameQueues s s₁ ∧ (s' = s₁ ∨ (∃ g, s' = (s₁.setState t .ready).enqueueShared t g) ∨
      rrSchedEnqueue k s₁ me t = some (s', r)) := by
  have hbind := SameQueues.getCpubind k s me t
  simp only [rrSchedEnqueueToAffinity] at h
  split at h
  next s₁ hleft =>
    cases h
    exact ⟨s', .leftOut hleft, .inl rfl⟩
  next =>
    split at h
    next s₁ heq =>
      rw [heq] at hbind
      refine ⟨s₁, hbind, ?_⟩
      split at h
      · obtain ⟨g, _, hrest⟩ := bind_eq_some_iff.mp h
        cases hrest
        exact .inr (.inl ⟨g, rfl⟩)
      · exact .inr (.inr h)
    next s₁ aff heq =>
      rw [heq] at hbind
      refine ⟨s₁, hbind, ?_⟩
      split at h
      · exact .inr (.inr h)
      · cases h
        exact .inr (.inl ⟨aff, rfl⟩)

/-- A thread that is not `TS_READY` is appended. -/
theorem rrSchedEnqueueNoLock_eq (h : rrSchedEnqueueNoLock k s t c = some (s', r))
    (hst : (s.thread t).state ≠ .ready) : r = 0 ∧ s' = (s.setThread t { s.thread t with
      cpuid := some c, state := .ready, queueCpuid := some c }).listAppend t c := by
  simp only [rrSchedEnqueueNoLock, if_neg hst] at h
  split at h
  · cases h
  · cases h
    exact ⟨rfl, rfl⟩

namespace Inv

variable {own : T → Option Queue}

section

variable (h : Inv own s)
include h

theorem shareNew (hcare : Enqueued s (s.enqueueShared t g) t) :
    ∃ own', Inv own' (s.enqueueShared t g) := by
  have hne := s.enqueueShared_ne t g
  exact ⟨_, h.enqueueShared (h.own_eq_none (hcare.notLinked hne) (hcare.notShared (.inr hne))) g⟩

theorem enqueueNoLock (hrun : rrSchedEnqueueNoLock k s t c = some (s', r))
    (hcare : Enqueued s s' t) : ∃ own', Inv own' s' := by
  simp only [rrSchedEnqueueNoLock] at hrun
  split at hrun
  · cases hrun
  · split at hrun
    · cases hrun
      exact ⟨own, h⟩
    next hstate =>
      have hnew : (State.listAppend (s.setThread t { s.thread t with
          cpuid := some c, state := .ready, queueCpuid := some c }) t c).ready ≠ s.ready := by
        intro heq
        have hc := congrFun heq c
        have hlen := congrArg (fun q => q.threads.length) hc
        simp [State.listAppend, State.setThread] at hlen
      cases hrun
      have hown : own t = none := by
        refine h.own_eq_none (fun c' hmem => hstate ?_) (hcare.notShared (.inl hnew))
        exact h.isReady t c' ((h.lists (.ready c')).own_eq hmem)
      exact ⟨_, h.listAppend hown rfl rfl⟩

theorem enqueue (hrun : rrSchedEnqueue k s me t = some (s', r))
    (hcare : Enqueued s s' t) : ∃ own', Inv own' s' := by
  obtain ⟨s₁, hs, hcase⟩ := rrSchedEnqueue_cases hrun
  have h1 := h.sameQueues hs
  have hcare1 := hcare.congr hs
  obtain rfl | ⟨g, rfl⟩ | ⟨c, hlocal⟩ := hcase
  · exact ⟨own, h1⟩
  · exact h1.shareNew hcare1
  · exact h1.enqueueNoLock hlocal hcare1

theorem enqueueToAffinity
    (hrun : rrSchedEnqueueToAffinity k s me t = some (s', r)) (hcare : Enqueued s s' t) :
    ∃ own', Inv own' s' := by
  obtain ⟨s₁, hs, hcase⟩ := rrSchedEnqueueToAffinity_cases hrun
  have h1 := h.sameQueues hs
  have hcare1 := hcare.congr hs
  obtain rfl | ⟨g, rfl⟩ | hlocal := hcase
  · exact ⟨own, h1⟩
  · have hnot := hcare1.notLinked ((s₁.setState t .ready).enqueueShared_ne t g)
    have hnone := h1.queueCpuid_eq_none fun c hown => hnot c ((h1.lists (.ready c)).mem hown)
    have hset := SameQueues.setState hnone .ready
    exact (h1.sameQueues hset).shareNew (hcare1.congr hset)
  · exact h1.enqueue hlocal hcare1

theorem migrateToRemote (hrun : rrSchedMigrateToRemote k s t = some (s', r))
    (hcare : Enqueued s s' t) : ∃ own', Inv own' s' := by
  simp only [rrSchedMigrateToRemote] at hrun
  split at hrun
  · cases hrun
  · split at hrun
    · cases hrun
    · cases hrun
      have hset : SameQueues s (s.setThread t { s.thread t with isFpuOwner := none }) :=
        .setThread rfl fun _ => rfl
      exact (h.sameQueues hset).shareNew (hcare.congr hset)

end

end Inv

end enqueue

/-! ## Dequeue and choose -/

namespace Inv

variable [DecidableEq T]

/-- A thread that has been dequeued may get any state. -/
theorem setState (h : Inv own s) (ht : own t = none) (st : ThreadState) :
    Inv own (s.setState t st) :=
  h.sameQueues (.setState (h.queueCpuid_eq_none (by simp [ht])) st)

theorem setExitState (h : Inv own s) (t : T) (e : ExitState) : Inv own (s.setExitState t e) :=
  h.sameQueues (.setExitState s t e)

theorem schedDequeue (h : Inv own s) (hrun : rrSchedDequeue s t = some (s', r)) :
    ∃ own', Inv own' s' := by
  simp only [rrSchedDequeue] at hrun
  split at hrun
  · cases hrun
  · split at hrun
    · cases hrun
      exact ⟨own, h⟩
    next c hcpu =>
      cases hrun
      exact ⟨_, (h.dequeue ((h.linked t c).mpr hcpu)).2.setState (update_self ..) _⟩

/-- The search takes threads off the list that it walks through, and the one that it finds is
still there. -/
theorem findRunnable (h : Inv own s) (hnd : ts.Nodup) (hts : ∀ t ∈ ts, own t = some (.ready me))
    (hrun : findRunnableThread cur ts s = (s', found)) :
    ∃ own', Inv own' s' ∧ ∀ t, found = some t → own' t = some (.ready me) := by
  induction ts generalizing s own with
  | nil =>
    cases hrun
    exact ⟨own, h, by simp⟩
  | cons t ts ih =>
    have ht := hts t mem_cons_self
    have hrest := fun u hu => hts u (mem_cons_of_mem t hu)
    obtain ⟨hnot, hnd'⟩ := nodup_cons.mp hnd
    -- the others stay on the list when `t` goes
    have hkeep : ∀ u ∈ ts, update own t none u = some (.ready me) := by
      intro u hu
      have hut : u ≠ t := fun e => hnot (e ▸ hu)
      rw [update_of_ne hut]
      exact hrest u hu
    have hdeq := (h.dequeue ht).2
    simp only [findRunnableThread] at hrun
    split at hrun
    · split at hrun
      · cases hrun
        exact ⟨own, h, fun u hu => by rwa [← some.inj hu]⟩
      · exact ih h hnd' hrest hrun
    · exact ih ((hdeq.setState (update_self ..) _).setExitState t _) hnd' hkeep hrun
    · exact ih (hdeq.setExitState t _) hnd' hkeep hrun
    · exact ih h hnd' hrest hrun

theorem chooseRound (h : Inv own s)
    (hrun : chooseRound s me race = some (s', res)) : ∃ own', Inv own' s' := by
  simp only [Sched.chooseRound] at hrun
  split at hrun
  next s₁ hfind =>
    cases hrun
    obtain ⟨own1, h1, _⟩ := h.findRunnable (h.nodup (.ready me))
      (fun t ht => (h.lists (.ready me)).own_eq ht) hfind
    exact ⟨own1, h1⟩
  next s₁ t hfind =>
    obtain ⟨own1, h1, ht⟩ := h.findRunnable (h.nodup (.ready me))
      (fun t ht => (h.lists (.ready me)).own_eq ht) hfind
    obtain ⟨_, h2⟩ := h1.dequeue (ht t rfl)
    have hself : update own1 t none t = none := update_self ..
    split at hrun
    · cases hrun
    · split at hrun
      all_goals cases hrun
      · exact ⟨_, ((h2.setExitState t _).setState hself _).setExitState t _⟩
      · exact ⟨_, ((h2.setExitState t _).setState hself _).setExitState t _⟩
      · exact ⟨_, (h2.setExitState t _).setState hself _⟩

theorem chooseThread (h : Inv own s)
    (hrun : rrSchedChooseThread me races s = some (s', res)) : ∃ own', Inv own' s' := by
  induction races generalizing s own with
  | nil =>
    simp only [rrSchedChooseThread] at hrun
    split at hrun
    next hround =>
      cases hrun
      exact h.chooseRound hround
    next => cases hrun
  | cons race races ih =>
    simp only [rrSchedChooseThread] at hrun
    split at hrun
    next hround =>
      cases hrun
      exact h.chooseRound hround
    next hround =>
      obtain ⟨own1, h1⟩ := h.chooseRound hround
      exact ih h1 hrun
    next => cases hrun

end Inv

/-! ## The drain of a shared queue -/

section drain

variable [DecidableEq T]

theorem insertAfter_perm (t : T) (hu : u ∈ xs) : (insertAfter u t xs).Perm (t :: xs) := by
  induction xs with
  | nil => cases hu
  | cons x xs ih =>
    rw [insertAfter]
    split
    · exact .swap t x xs
    next hx =>
      have hmem : u ∈ xs := (mem_cons.mp hu).resolve_left fun e => hx e.symm
      exact ((ih hmem).cons x).trans (.swap t x xs)

theorem insertAfter_of_notMem (t : T) (hu : u ∉ xs) : insertAfter u t xs = xs := by
  induction xs with
  | nil => rfl
  | cons x xs ih =>
    rw [mem_cons, not_or] at hu
    rw [insertAfter, if_neg (Ne.symm hu.1), ih hu.2]

namespace Inv

variable {own : T → Option Queue}

/-- The thread that an urgent drain moves forward stays in its list, if the thread that was
drained before is in the same. -/
theorem urgentInsert {tail : Option T} (h : Inv own s) (ht : own t = some (.ready c))
    (htail : ∀ u, tail = some u → u ≠ t ∧ own u = some (.ready c)) :
    Inv own (urgentInsert s t c tail) := by
  have hmem : t ∈ (s.ready c).threads := (h.lists (.ready c)).mem ht
  have hnot (c' : ℕ) (hc : c' ≠ c) : t ∉ (s.ready c').threads :=
    (h.lists (.ready c')).notMem (by simpa [ht] using Ne.symm hc)
  have hback : (t :: (s.ready c).threads.erase t).Perm (s.ready c).threads :=
    (perm_cons_erase hmem).symm
  cases tail with
  | none =>
    have hat (c' : ℕ) : (Sched.urgentInsert s t c none).ready c' = if c' = c then
        { s.ready c with threads := t :: (s.ready c).threads.erase t }
        else { s.ready c' with threads := (s.ready c').threads.erase t } := update_apply ..
    refine h.perm rfl rfl (fun c' => by grind) (fun c' => ?_)
    by_cases hc : c' = c
    · simpa [hat, hc] using hback
    · simp [hat, hc, erase_of_not_mem (hnot c' hc)]
  | some u =>
    obtain ⟨hut, hu⟩ := htail u rfl
    have humem : u ∈ (s.ready c).threads := (h.lists (.ready c)).mem hu
    refine h.perm rfl rfl (fun _ => rfl) (fun c' => ?_)
    show (insertAfter u t ((s.ready c').threads.erase t)).Perm (s.ready c').threads
    by_cases hc : c' = c
    · subst hc
      exact (insertAfter_perm t ((mem_erase_of_ne hut).mpr humem)).trans hback
    · have hunot : u ∉ (s.ready c').threads :=
        (h.lists (.ready c')).notMem (by simpa [hu] using Ne.symm hc)
      rw [erase_of_not_mem (hnot c' hc), insertAfter_of_notMem t hunot]

end Inv

variable {urgent : Bool}

theorem migrateOne_cases {tail tail' : Option T}
    (h : migrateOne k s me urgent tail t = some (s', tail', r)) :
    ∃ x : Thread, x.queueCpuid = some (drainCpu k s me t) ∧ x.state = .ready ∧
      x.affinity = (s.thread t).affinity ∧
      (urgent = true ∧ tail' = some t ∧ s' = urgentInsert
          ((s.setThread t x).listAppend t (drainCpu k s me t)) t (drainCpu k s me t) tail ∨
        urgent = false ∧ s' = (s.setThread t x).listAppend t (drainCpu k s me t)) := by
  obtain ⟨⟨s₁, r₁⟩, henq, hrest⟩ := bind_eq_some_iff.mp h
  obtain ⟨rfl, rfl⟩ := rrSchedEnqueueNoLock_eq henq (by simp [State.setThread])
  refine ⟨{ s.thread t with
    exitState := .running, machineId := k.machineId, kernelStackFree := true,
    cpuid := some (drainCpu k s me t), state := .ready, queueCpuid := some (drainCpu k s me t) },
    rfl, rfl, rfl, ?_⟩
  cases urgent <;>
    · simp [State.setThread] at hrest
      simp [State.setThread, hrest]

variable {tail : Option T}

theorem urgentInsert_thread : (urgentInsert s t c tail).thread = s.thread := by
  cases tail <;> rfl

theorem urgentInsert_shared : (urgentInsert s t c tail).shared = s.shared := by
  cases tail <;> rfl

namespace Inv

variable {own : T → Option Queue}

/-- One round takes the first thread of the shared queue to the ready list of its CPU. -/
theorem migrateOne (h : Inv own s)
    (hg : s.shared g = t :: ts) (hcpu : urgent = true → drainCpu k s me t = c)
    (htail : urgent = true → ∀ u, tail = some u → own u = some (.ready c))
    (hrun : migrateOne k (s.setShared g ts) me urgent tail t = some (s', tail', r)) :
    ∃ own', Inv own' s' ∧ s'.shared g = ts ∧ (∀ u, (s'.thread u).affinity = (s.thread u).affinity) ∧
      (urgent = true → ∀ u, tail' = some u → own' u = some (.ready c)) := by
  have hown : own t = some (.shared g) := (h.lists (.shared g)).own_eq (by simp [hg])
  obtain ⟨x, hx, hst, haff, hcase⟩ := migrateOne_cases hrun
  have happend := (h.takeShared hg).listAppend (update_self ..) hx hst
  rw [update_idem] at happend
  have hshared : (s.setShared g ts).shared g = ts := update_self ..
  have haffinity (u : T) : (update s.thread t x u).affinity = (s.thread u).affinity := by
    rw [update_apply]
    grind
  obtain ⟨hurgent, rfl, rfl⟩ | ⟨hurgent, rfl⟩ := hcase
  · have hc : drainCpu k (s.setShared g ts) me t = c := hcpu hurgent
    rw [hc] at happend ⊢
    refine ⟨_, happend.urgentInsert (update_self ..) ?_, ?_, ?_, ?_⟩
    · intro u hu
      have hu' := htail hurgent u hu
      have hut : u ≠ t := by
        intro e
        rw [e, hown] at hu'
        cases hu'
      exact ⟨hut, by rw [update_of_ne hut, hu']⟩
    · rw [urgentInsert_shared]
      exact hshared
    · rw [urgentInsert_thread]
      exact haffinity
    · intro _ u hu
      rw [← some.inj hu, update_self]
  · exact ⟨_, happend, hshared, haffinity, by simp [hurgent]⟩

theorem migrateLoop (h : Inv own s) (hg : s.shared (k.cpuidL2g me) = ts)
    (hcpu : urgent = true → ∀ t ∈ ts, drainCpu k s me t = c)
    (htail : urgent = true → ∀ u, tail = some u → own u = some (.ready c))
    (hrun : migrateLoop k me urgent ts tail ret s = some (s', r)) : ∃ own', Inv own' s' := by
  induction ts generalizing s own tail ret with
  | nil =>
    cases hrun
    exact ⟨own, h⟩
  | cons t ts ih =>
    obtain ⟨⟨s₁, tail1, r₁⟩, hone, hrest⟩ := bind_eq_some_iff.mp hrun
    obtain ⟨own1, h1, hg1, haff, htail1⟩ := h.migrateOne hg
      (fun hu => hcpu hu t mem_cons_self) htail hone
    refine ih h1 hg1 ?_ htail1 hrest
    intro hu u hmem
    rw [← hcpu hu u (mem_cons_of_mem t hmem), drainCpu, drainCpu, haff]

theorem drain (h : Inv own s)
    (hcare : urgent = true → ∀ t ∈ s.shared (k.cpuidL2g me), ∀ u ∈ s.shared (k.cpuidL2g me),
      drainCpu k s me t = drainCpu k s me u)
    (hrun : rrSchedMigrateFromSharedQueueInternal k s me urgent = some (s', r)) :
    ∃ own', Inv own' s' := by
  cases hts : s.shared (k.cpuidL2g me) with
  | nil =>
    rw [rrSchedMigrateFromSharedQueueInternal, hts] at hrun
    cases hrun
    exact ⟨own, h⟩
  | cons t ts =>
    have hfirst : t ∈ s.shared (k.cpuidL2g me) := by simp [hts]
    exact h.migrateLoop rfl (fun hu u hmem => hcare hu u hmem t hfirst) (by simp) hrun

end Inv

end drain

/-! ## Careful runs -/

section runs

variable [DecidableEq T]

/-- What the kernel owes the scheduler. -/
def Careful (k : Cluster) (s s' : State T) : Call T → Prop
  | .enqueue _ t | .enqueueToAffinity _ t | .migrateToRemote t => Enqueued s s' t
  | .dequeue _ | .chooseThread _ _ => True
  -- the threads of an urgent drain are all for one CPU
  | .drain me urgent => urgent = true → ∀ t ∈ s.shared (k.cpuidL2g me),
      ∀ u ∈ s.shared (k.cpuidL2g me), drainCpu k s me t = drainCpu k s me u

/-- A step that is careful; the other machines publish threads that are in no queue. -/
inductive CarefulStep (k : Cluster) : State T → State T → Prop where
  | call {s s' : State T} (c : Call T) (h : c.run k s = some s') (hcare : Careful k s s' c) :
      CarefulStep k s s'
  | outside {s s' : State T} (h : SameQueues s s') : CarefulStep k s s'
  | publish {s : State T} (t : T) (g : ℕ) (h : ∀ q, t ∉ s.queue q) :
      CarefulStep k s (s.enqueueShared t g)
  | takenElsewhere {s : State T} {t : T} {ts : List T} (g : ℕ)
      (hg : k.isLocalCpu (some g) = false) (h : s.shared g = t :: ts) :
      CarefulStep k s (s.setShared g ts)

namespace Inv

theorem call {c : Call T} (h : Inv own s) (hrun : c.run k s = some s')
    (hcare : Careful k s s' c) : ∃ own', Inv own' s' := by
  cases c with
  | enqueue me t =>
    obtain ⟨⟨_, r⟩, hres, rfl⟩ := map_eq_some_iff.mp hrun
    exact h.enqueue hres hcare
  | enqueueToAffinity me t =>
    obtain ⟨⟨_, r⟩, hres, rfl⟩ := map_eq_some_iff.mp hrun
    exact h.enqueueToAffinity hres hcare
  | migrateToRemote t =>
    obtain ⟨⟨_, r⟩, hres, rfl⟩ := map_eq_some_iff.mp hrun
    exact h.migrateToRemote hres hcare
  | dequeue t =>
    obtain ⟨⟨_, r⟩, hres, rfl⟩ := map_eq_some_iff.mp hrun
    exact h.schedDequeue hres
  | chooseThread me races =>
    obtain ⟨⟨_, r⟩, hres, rfl⟩ := map_eq_some_iff.mp hrun
    exact h.chooseThread hres
  | drain me urgent =>
    obtain ⟨⟨_, r⟩, hres, rfl⟩ := map_eq_some_iff.mp hrun
    exact h.drain hcare hres

theorem step (h : Inv own s) (hstep : CarefulStep k s s') : ∃ own', Inv own' s' := by
  cases hstep with
  | call c hrun hcare => exact h.call hrun hcare
  | outside hs => exact ⟨own, h.sameQueues hs⟩
  | publish t g hnot =>
    have hown : own t = none := h.own_eq_none (fun c => hnot (.ready c)) fun g => hnot (.shared g)
    exact ⟨_, h.enqueueShared hown g⟩
  | takenElsewhere g hg hts => exact ⟨_, h.takeShared hts⟩

theorem run (h : Inv own s) (hrun : ReflTransGen (CarefulStep k) s s') : ∃ own', Inv own' s' := by
  induction hrun with
  | refl => exact ⟨own, h⟩
  | tail _ hstep ih =>
    obtain ⟨own1, h1⟩ := ih
    exact h1.step hstep

end Inv

end runs

/-! ## Two threads of one drain -/

section urgent

/-- One machine with the CPUs 0 and 1. -/
def twoCpus : Cluster := ⟨0, fun _ => 0, fun _ => 1, 2, 2⟩

/-- A new thread with this affinity. -/
def newThread (affinity : ℕ) : Thread where
  idle := false
  bridge := false
  state := .init
  exitState := .running
  affinity := some affinity
  cpuid := none
  queueCpuid := none
  machineId := 0
  prio := 1
  isFpuOwner := none
  kernelStackFree := true

end urgent

end Starfish.Sched
