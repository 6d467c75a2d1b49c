import Mathlib.Logic.Relation
import Starfish.Futex.Model

/-!
# Starfish.Futex.Runs

What the futex calls are for: each address has a queue of threads.  `Queued` says what a call does
to the queues, and `futex_calls_serve_queues` that every call does this, in every state that calls
lead to, if the pool has the nodes that the call takes.

The table is seen through `entryAt`, which says what is at an address in memory; `Shows` connects
the two, and the functions of the table become updates of that view.
-/

namespace Starfish.Futex

open Function Option Relation List

variable {T : Type}

/-! ## The queues -/

/-- The threads that wait at an address, in the order in which they came there. -/
def waiters (f : Table T) (uaddr : ℕ) : List T :=
  match findEntry f uaddr with
  | some e => e.notific.waitingThreads
  | none => []

/-- What a call does to the queues.
* `wait` puts the caller at the end of a queue, if the word has the expected value.
* `wake` takes the first threads off a queue, and returns how many.
* `requeue` moves the first thread of one queue to the end of another. -/
def Queued (w : ℕ → List T) (r : Result T) (w' : ℕ → List T) : Call T → Prop
  | .wait t uaddr val kval kmalloc =>
    (kval = some val ∧ (w uaddr = [] → kmalloc.isSome) →
      r.blocked = true ∧ w' = update w uaddr (w uaddr ++ [t])) ∧
    (¬ (kval = some val ∧ (w uaddr = [] → kmalloc.isSome)) →
      r.blocked = false ∧ r.ret < 0 ∧ w' = w)
  | .wake uaddr val =>
    r.woken = (w uaddr).take val.toNat ∧ r.ret = (min val.toNat (w uaddr).length : ℕ) ∧
      w' = update w uaddr ((w uaddr).drop val.toNat)
  | .requeue uaddr uaddr2 nrWake nrRequeue kmalloc =>
    (nrWake = 0 ∧ nrRequeue = 1 ∧ uaddr ≠ uaddr2 ∧ w uaddr ≠ [] ∧
        (w uaddr2 = [] → kmalloc.isSome) →
      r.ret = 0 ∧ ∃ t q, w uaddr = t :: q ∧
        w' = update (update w uaddr q) uaddr2 (w uaddr2 ++ [t])) ∧
    (¬ (nrWake = 0 ∧ nrRequeue = 1 ∧ uaddr ≠ uaddr2 ∧ w uaddr ≠ [] ∧
        (w uaddr2 = [] → kmalloc.isSome)) →
      r.ret < 0 ∧ w' = w)

/-! ## The table as a view -/

section

variable {f : Table T} {p : ℕ} {e : Entry T} (h : entryAt f p = some e)
include h

theorem ptr_of_entryAt : e.ptr = p := by
  have := find?_some h
  simpa using this

theorem mem_of_entryAt : e ∈ f := mem_of_find?_eq_some h

end

theorem entryAt_cons (e : Entry T) (f : Table T) :
    entryAt (e :: f) = update (entryAt f) e.ptr (some e) := by
  funext p
  unfold entryAt
  by_cases hp : e.ptr = p
  · rw [find?_cons_of_pos (by simpa using hp), ← hp, update_self]
  · rw [find?_cons_of_neg (by simpa using hp), update_of_ne (Ne.symm hp)]

theorem entryAt_modify (f : Table T) (p : ℕ) (g : Entry T → Entry T) (hg : ∀ e, (g e).ptr = e.ptr) :
    entryAt (modify f p g) = update (entryAt f) p ((entryAt f p).map g) := by
  induction f with
  | nil => exact (update_eq_self p (entryAt ([] : Table T))).symm
  | cons e f ih =>
    have hcons : modify (e :: f) p g = (if e.ptr = p then g e else e) :: modify f p g := rfl
    rw [hcons, entryAt_cons, ih, entryAt_cons]
    by_cases hp : e.ptr = p
    · rw [if_pos hp, hg, hp, update_idem, update_idem, update_self]
      rfl
    · rw [if_neg hp, update_of_ne (Ne.symm hp), update_comm hp]

theorem entryAt_freeFutexEntry (f : Table T) (p : ℕ) :
    entryAt (freeFutexEntry f p) = update (entryAt f) p none := by
  induction f with
  | nil => exact (update_eq_self p (entryAt ([] : Table T))).symm
  | cons e f ih =>
    unfold freeFutexEntry at ih ⊢
    by_cases hp : e.ptr = p
    · rw [filter_cons_of_neg (by simpa using hp), ih, entryAt_cons, hp, update_idem]
    · rw [filter_cons_of_pos (by simpa using hp), entryAt_cons, ih, entryAt_cons, update_comm hp]

/-- The table shows the entries `v`, each once. -/
structure Shows (f : Table T) (v : ℕ → Option (Entry T)) : Prop where
  nodup : (f.map Entry.ptr).Nodup
  view : entryAt f = v

section Shows

variable {f : Table T} {v : ℕ → Option (Entry T)}

section

variable (h : Shows f v)
include h

theorem Shows.mem (he : e ∈ f) : v e.ptr = some e := by
  obtain ⟨hnodup, rfl⟩ := h
  induction f with
  | nil => cases he
  | cons x f ih =>
    rw [map_cons, nodup_cons] at hnodup
    rw [entryAt_cons]
    rcases mem_cons.mp he with rfl | he
    · exact update_self _ _ _
    · have hne : e.ptr ≠ x.ptr := fun heq => hnodup.1 (heq ▸ mem_map_of_mem he)
      rw [update_of_ne hne]
      exact ih he hnodup.2

theorem Shows.ptr (he : v p = some e) : e.ptr = p := ptr_of_entryAt (f := f) (h.view ▸ he)

theorem Shows.of_view (he : v p = some e) : e ∈ f := mem_of_entryAt (p := p) (h.view ▸ he)

theorem Shows.cons (hfresh : ∀ x ∈ f, x.ptr ≠ e.ptr) :
    Shows (e :: f) (update v e.ptr (some e)) where
  nodup := by
    rw [map_cons, nodup_cons]
    refine ⟨fun hmem => ?_, h.nodup⟩
    obtain ⟨x, hx, heq⟩ := mem_map.mp hmem
    exact hfresh x hx heq
  view := by rw [entryAt_cons, h.view]

theorem Shows.modify (hg : ∀ e, (g e).ptr = e.ptr) :
    Shows (modify f p g) (update v p ((v p).map g)) where
  nodup := by
    have hmap : (Futex.modify f p g).map Entry.ptr = f.map Entry.ptr := by
      unfold Futex.modify
      rw [List.map_map]
      refine List.map_congr_left fun x _ => ?_
      rw [comp_apply]
      split
      · exact hg x
      · rfl
    rw [hmap]
    exact h.nodup
  view := by rw [entryAt_modify f p g hg, h.view]

theorem Shows.free : Shows (freeFutexEntry f p) (update v p none) where
  nodup := h.nodup.sublist (filter_sublist.map _)
  view := by rw [entryAt_freeFutexEntry, h.view]

theorem Shows.setNotific (he : v p = some e) :
    Shows (setNotific f p n) (update v p (some { e with notific := n })) := by
  have := h.modify (p := p) (g := fun e => { e with notific := n }) fun _ => rfl
  rwa [he] at this

theorem Shows.incWaiterCount (he : v p = some e) : ∃ f', incWaiterCount f p = some f' ∧
      Shows f' (update v p (some { e with waiterCount := e.waiterCount + 1 })) := by
  have := h.modify (p := p) (g := fun e => { e with waiterCount := e.waiterCount + 1 }) fun _ => rfl
  rw [he] at this
  refine ⟨_, ?_, this⟩
  unfold Futex.incWaiterCount
  rw [h.view, he]
  rfl

theorem Shows.decWaiterCount (he : v p = some e) : ∃ f', decWaiterCount f p = some f' ∧
      Shows f' (update v p
        (if 1 < e.waiterCount then some { e with waiterCount := e.waiterCount - 1 } else none)) := by
  have hmod := h.modify (p := p) (g := fun e => { e with waiterCount := e.waiterCount - 1 })
    fun _ => rfl
  rw [he] at hmod
  have hiff : futexHasWaiter { e with waiterCount := e.waiterCount - 1 } ↔ 1 < e.waiterCount := by
    unfold futexHasWaiter
    dsimp only
    omega
  unfold Futex.decWaiterCount checkAndFree
  rw [hmod.view, update_self, map_some, map_some]
  refine ⟨_, rfl, ?_⟩
  by_cases hone : 1 < e.waiterCount
  · rw [if_pos hone, if_pos (hiff.mpr hone)]
    exact hmod
  · rw [if_neg hone, if_neg (mt hiff.mp hone)]
    have := hmod.free (p := p)
    rwa [update_idem] at this

end

end Shows

/-! ## The invariant -/

/-- An entry between two calls: it counts its threads, and it has some. -/
structure Good (e : Entry T) : Prop where
  bucket : e.bucket = htableGetBucket e.uaddr
  valid : e.notific.valid = true
  notDelivered : e.notific.notDelivered = 0
  count : e.notific.waitingThreadsCount = e.notific.waitingThreads.length
  waiterCount : e.waiterCount = e.notific.waitingThreads.length
  nonempty : e.notific.waitingThreads ≠ []

/-- The entries `v` are good, no two are for one address, and they hold the queues `w`. -/
structure Holds (v : ℕ → Option (Entry T)) (w : ℕ → List T) : Prop where
  good : ∀ p e, v p = some e → Good e
  apart : ∀ p q e e', v p = some e → v q = some e' → e.uaddr = e'.uaddr → p = q
  queue : ∀ p e, v p = some e → w e.uaddr = e.notific.waitingThreads
  empty : ∀ a, (∀ p e, v p = some e → e.uaddr ≠ a) → w a = []

/-- The queue of an entry that may not be there. -/
def queueOf (x : Option (Entry T)) : List T :=
  match x with
  | some e => e.notific.waitingThreads
  | none => []

section Holds

variable {v : ℕ → Option (Entry T)} {w : ℕ → List T} {p a : ℕ} {e : Entry T}

theorem Good.waiterCount_pos (h : Good e) : 0 < e.waiterCount := by
  have := length_pos_iff.mpr h.nonempty
  rw [h.waiterCount]
  omega

theorem Holds.nil : Holds (fun _ => none) (fun _ => ([] : List T)) where
  good p e h := by cases h
  apart p q e e' h := by cases h
  queue p e h := by cases h
  empty a _ := rfl

/-- The entry of one address changes, comes or goes. -/
theorem Holds.replace (h : Holds v w) (hold : ∀ e, v p = some e → e.uaddr = a)
    (hnew : ∀ e, x = some e → e.uaddr = a ∧ Good e)
    (hfree : v p = none → ∀ q e, v q = some e → e.uaddr ≠ a) :
    Holds (update v p x) (update w a (queueOf x)) := by
  -- only `p` is for this address
  have honly : ∀ q e, q ≠ p → v q = some e → e.uaddr ≠ a := by
    intro q e hq he ha
    cases hp : v p with
    | none => exact hfree hp q e he ha
    | some e0 => exact hq (h.apart q p e e0 he hp (ha.trans (hold e0 hp).symm))
  obtain ⟨hgood, hapart, hqueue, hempty⟩ := h
  constructor
  · grind [update_apply]
  · grind [update_apply]
  · grind [update_apply, queueOf]
  · -- the queue of `a` is empty only if no entry is left for it
    intro b hb
    rw [update_apply]
    split
    · cases hx : x with
      | none => rfl
      | some e =>
        have hne := hb p e (by rw [update_self, hx])
        exact absurd ((hnew e hx).1.trans ‹b = a›.symm) hne
    · refine hempty b fun q e hv => ?_
      by_cases hq : q = p
      · grind
      · exact hb q e (by rw [update_of_ne hq, hv])

theorem Shows.findEntry_some (h : Shows f v) (hfind : findEntry f a = some e) :
    v e.ptr = some e ∧ e.uaddr = a := by
  refine ⟨h.mem (mem_of_find?_eq_some hfind), ?_⟩
  have := find?_some hfind
  exact (of_decide_eq_true this).2.2

theorem Shows.findEntry_none (h : Shows f v) (hh : Holds v w) (hfind : findEntry f a = none) :
    ∀ p e, v p = some e → e.uaddr ≠ a := by
  intro p e he ha
  have hnot := find?_eq_none.mp hfind e (h.of_view he)
  have hgood := hh.good p e he
  exact hnot (decide_eq_true ⟨ha ▸ hgood.bucket, hgood.waiterCount_pos, ha⟩)

theorem Shows.waiters_eq (h : Shows f v) (hh : Holds v w) : waiters f = w := by
  funext a
  unfold waiters
  cases hfind : findEntry f a with
  | some e =>
    obtain ⟨he, ha⟩ := h.findEntry_some hfind
    rw [← ha]
    exact (hh.queue e.ptr e he).symm
  | none => exact (hh.empty a (h.findEntry_none hh hfind)).symm

/-! ## The entry that a thread comes to -/

/-- All of `Good` but that somebody waits. -/
structure Fair (e : Entry T) : Prop where
  bucket : e.bucket = htableGetBucket e.uaddr
  valid : e.notific.valid = true
  notDelivered : e.notific.notDelivered = 0
  count : e.notific.waitingThreadsCount = e.notific.waitingThreads.length
  waiterCount : e.waiterCount = e.notific.waitingThreads.length

theorem Fair.enqueue (h : Fair e) (t : T) :
    Good { e with waiterCount := e.waiterCount + 1, notific := enqueue e.notific t } where
  bucket := h.bucket
  valid := h.valid
  notDelivered := h.notDelivered
  count := by simp [Futex.enqueue, h.count]
  waiterCount := by simp [Futex.enqueue, h.waiterCount]
  nonempty := by simp [Futex.enqueue]

/-- The entry `e` is for the address `a`; it may be a new one, which the view `v` does not show. -/
structure Target (v : ℕ → Option (Entry T)) (w : ℕ → List T) (a : ℕ) (e : Entry T) : Prop where
  fair : Fair e
  uaddr : e.uaddr = a
  queue : e.notific.waitingThreads = w a
  old : ∀ e', v e.ptr = some e' → e'.uaddr = a
  alone : v e.ptr = none → ∀ p e', v p = some e' → e'.uaddr ≠ a

theorem Target.found (h : Shows f v) (hh : Holds v w) (hfind : findEntry f a = some e) :
    Target v w a e ∧ Shows f (update v e.ptr (some e)) ∧ w a ≠ [] := by
  obtain ⟨he, ha⟩ := h.findEntry_some hfind
  have hgood := hh.good e.ptr e he
  have hqueue := hh.queue e.ptr e he
  rw [ha] at hqueue
  refine ⟨⟨⟨hgood.bucket, hgood.valid, hgood.notDelivered, hgood.count, hgood.waiterCount⟩, ha,
    hqueue.symm, by grind, by grind⟩, ?_, hqueue ▸ hgood.nonempty⟩
  rwa [← he, update_eq_self]

theorem Target.fresh (h : Shows f v) (hh : Holds v w) (hfind : findEntry f a = none)
    (hfresh : ∀ e ∈ f, e.ptr ≠ ptr) :
    Target v w a ⟨ptr, htableGetBucket a, a, 0, initNotific⟩ where
  fair := ⟨rfl, rfl, rfl, rfl, rfl⟩
  uaddr := rfl
  queue := (hh.empty a (h.findEntry_none hh hfind)).symm
  old e' he' := absurd (h.ptr he') (hfresh e' (h.of_view he'))
  alone _ := h.findEntry_none hh hfind

/-- The target gets the thread `t`. -/
theorem Target.enqueued (ht : Target v w a e) (hh : Holds v w) (t : T) :
    Holds (update v e.ptr (some { e with
        waiterCount := e.waiterCount + 1, notific := enqueue e.notific t }))
      (update w a (w a ++ [t])) := by
  have hnew := hh.replace (p := e.ptr) (a := a) (x := some { e with
    waiterCount := e.waiterCount + 1, notific := enqueue e.notific t }) ht.old ?_ ht.alone
  · rwa [← ht.queue]
  · intro e' he'
    cases he'
    exact ⟨ht.uaddr, ht.fair.enqueue t⟩

/-! ## `sys_futex_wait` -/

theorem signalNotific_good (h : Good e) (hq : e.notific.waitingThreads = t :: q) :
    signalNotific e.notific =
      ({ e.notific with waitingThreads := q,
                        waitingThreadsCount := e.notific.waitingThreadsCount - 1 }, 0, some t) := by
  unfold signalNotific
  have hcount := h.count
  rw [hq, length_cons] at hcount
  rw [if_neg (by simp [h.valid]), if_neg (by rw [h.notDelivered]; omega), hq]

theorem Target.waitOn (ht : Target v w a e) (h : Shows f (update v e.ptr (some e))) (t : T) :
    ∃ f', waitOn f e t = some { table := f', ret := 0, blocked := true } ∧
      Shows f' (update v e.ptr (some { e with
        waiterCount := e.waiterCount + 1, notific := enqueue e.notific t })) := by
  obtain ⟨f1, hinc, h1⟩ := h.incWaiterCount (update_self _ _ _)
  have hwait : waitNotificInternal e.notific t = (enqueue e.notific t, none) := by
    unfold waitNotificInternal
    rw [if_neg (by simp [ht.fair.valid]), if_neg (by simp [ht.fair.notDelivered])]
  have h2 := h1.setNotific (n := enqueue e.notific t) (update_self _ _ _)
  rw [update_idem, update_idem] at h2
  refine ⟨_, ?_, h2⟩
  unfold Futex.waitOn
  rw [hinc, hwait]
  rfl

theorem sysFutexWait_queued (h : Shows f v) (hh : Holds v w)
    (hfresh : ∀ ptr, kmalloc = some ptr → ∀ e ∈ f, e.ptr ≠ ptr) :
    ∃ r v' w', sysFutexWait f t a val kval kmalloc = some r ∧ Shows r.table v' ∧ Holds v' w' ∧
      Queued w r w' (.wait t a val kval kmalloc) := by
  unfold sysFutexWait Queued
  cases kval with
  | none => exact ⟨_, v, w, rfl, h, hh, by simp, fun _ => ⟨rfl, show -EFAULT < 0 by decide, rfl⟩⟩
  | some k =>
    by_cases hval : k ≠ val
    · simp only [if_pos hval]
      exact ⟨_, v, w, rfl, h, hh, by simp [hval], fun _ => ⟨rfl, show -EAGAIN < 0 by decide, rfl⟩⟩
    simp only [if_neg hval]
    rw [ne_eq, not_not] at hval
    cases hfind : findEntry f a with
    | some e =>
      obtain ⟨ht, hs, hne⟩ := Target.found h hh hfind
      obtain ⟨f', hr, h'⟩ := ht.waitOn hs t
      exact ⟨_, _, _, hr, h', ht.enqueued hh t, fun _ => ⟨rfl, rfl⟩, by simp [hval, hne]⟩
    | none =>
      cases kmalloc with
      | none =>
        have hempty := hh.empty a (h.findEntry_none hh hfind)
        exact ⟨_, v, w, rfl, h, hh, by simp [hempty],
          fun _ => ⟨rfl, show -ENOMEM < 0 by decide, rfl⟩⟩
      | some ptr =>
        have ht := Target.fresh h hh hfind (hfresh ptr rfl)
        obtain ⟨f', hr, h'⟩ := ht.waitOn (h.cons (hfresh ptr rfl)) t
        exact ⟨_, _, _, hr, h', ht.enqueued hh t, fun _ => ⟨rfl, rfl⟩, by simp [hval]⟩

/-! ## `sys_futex_wake` -/

/-- An entry whose first `k` threads are woken. -/
def dropped (e : Entry T) (k : ℕ) : Entry T :=
  { e with
    waiterCount := e.waiterCount - k
    notific := { e.notific with
      waitingThreads := e.notific.waitingThreads.drop k
      waitingThreadsCount := e.notific.waitingThreadsCount - k } }

theorem Good.dropped (h : Good e) (hk : k < e.notific.waitingThreads.length) :
    Good (dropped e k) where
  bucket := h.bucket
  valid := h.valid
  notDelivered := h.notDelivered
  count := by
    have := h.count
    simp only [Futex.dropped, length_drop]
    omega
  waiterCount := by
    have := h.waiterCount
    simp only [Futex.dropped, length_drop]
    omega
  nonempty := by
    intro hnil
    have := congrArg length hnil
    simp only [Futex.dropped, length_drop, length_nil] at this
    omega

theorem wakeLoop_eq (k : ℕ) : ∀ {f : Table T} {v : ℕ → Option (Entry T)} {e : Entry T}
    (i : ℤ) (woken : List T), Shows f v → v p = some e → Good e →
    k ≤ e.notific.waitingThreads.length →
    ∃ f', wakeLoop p k f i woken = some { table := f', ret := i + k,
                                          woken := woken ++ e.notific.waitingThreads.take k } ∧
      Shows f' (update v p
        (if k < e.notific.waitingThreads.length then some (dropped e k) else none)) := by
  -- on the turns that are left
  induction k with
  | zero =>
    intro f v e i woken h he hgood _
    refine ⟨f, ?_, ?_⟩
    · rw [take_zero, append_nil, Int.natCast_zero, Int.add_zero]
      rfl
    · have hzero : dropped e 0 = e := by
        unfold dropped
        simp only [Int.natCast_zero, Int.sub_zero, drop_zero]
      rw [if_pos (length_pos_iff.mpr hgood.nonempty), hzero, ← he, update_eq_self]
      exact h
  | succ k ih =>
    intro f v e i woken h he hgood hk
    obtain ⟨t, q, hq⟩ := exists_cons_of_ne_nil hgood.nonempty
    have hlen : e.notific.waitingThreads.length = q.length + 1 := by rw [hq, length_cons]
    have hset := h.setNotific (n := { e.notific with
      waitingThreads := q
      waitingThreadsCount := e.notific.waitingThreadsCount - 1 }) he
    obtain ⟨f1, hdec, h1⟩ := hset.decWaiterCount (update_self _ _ _)
    rw [update_idem] at h1
    have hwaiter := hgood.waiterCount
    have hstep : wakeLoop p (k + 1) f i woken = wakeLoop p k f1 (i + 1) (woken ++ [t]) := by
      rw [wakeLoop, h.view, he]
      simp only [bind_eq_bind, bind_some, signalNotific_good hgood hq, ne_eq,
        not_true_eq_false, if_false, hdec]
      rfl
    have hone : dropped e 1 = { e with
        waiterCount := e.waiterCount - 1
        notific := { e.notific with
          waitingThreads := q
          waitingThreadsCount := e.notific.waitingThreadsCount - 1 } } := by
      unfold dropped
      rw [hq]
      rfl
    rw [hstep]
    by_cases hlast : 1 < e.waiterCount
    · -- more threads wait
      rw [if_pos hlast, ← hone] at h1
      have hgood1 := hgood.dropped (k := 1) (by omega)
      have hq1 : (dropped e 1).notific.waitingThreads = q := by rw [hone]
      obtain ⟨f', hr, h'⟩ := ih (i + 1) (woken ++ [t]) h1 (update_self _ _ _) hgood1
        (by rw [hq1]; omega)
      refine ⟨f', ?_, ?_⟩
      · rw [hr, hq1, hq, take_succ_cons, append_assoc]
        have hsum : i + 1 + (k : ℤ) = i + ((k + 1 : ℕ) : ℤ) := by omega
        rw [hsum]
        rfl
      · rw [update_idem, hq1] at h'
        have htwice : dropped (dropped e 1) k = dropped e (k + 1) := by
          unfold dropped
          simp only [drop_drop, Entry.mk.injEq, Notific.mk.injEq, true_and]
          refine ⟨by omega, by omega, ?_⟩
          rw [Nat.add_comm]
        rw [htwice] at h'
        rw [hlen]
        simpa only [Nat.add_lt_add_iff_right] using h'
    · -- it was the last one, and the entry is freed
      rw [if_neg hlast] at h1
      have hq0 : q = [] := eq_nil_of_length_eq_zero (by omega)
      have hk0 : k = 0 := by omega
      subst hq0 hk0
      refine ⟨f1, ?_, ?_⟩
      · rw [hq]
        rfl
      · rw [if_neg (by omega)]
        exact h1

theorem sysFutexWake_queued (h : Shows f v) (hh : Holds v w) :
    ∃ r v' w', sysFutexWake f a val = some r ∧ Shows r.table v' ∧ Holds v' w' ∧
      Queued w r w' (.wake a val) := by
  unfold sysFutexWake Queued
  cases hfind : findEntry f a with
  | none =>
    have hempty := hh.empty a (h.findEntry_none hh hfind)
    refine ⟨_, v, w, rfl, h, hh, ?_, ?_, ?_⟩
    · rw [hempty, take_nil]
    · rw [hempty, length_nil, Nat.min_zero]
      rfl
    · rw [hempty, drop_nil, ← hempty, update_eq_self]
  | some e =>
    obtain ⟨he, ha⟩ := h.findEntry_some hfind
    have hgood := hh.good e.ptr e he
    have hqueue := hh.queue e.ptr e he
    rw [ha] at hqueue
    have hturns : (if e.waiterCount < val then e.waiterCount else val).toNat =
        min val.toNat e.notific.waitingThreads.length := by
      rw [hgood.waiterCount]
      split <;> omega
    obtain ⟨f', hr, h'⟩ := wakeLoop_eq (min val.toNat e.notific.waitingThreads.length) 0 [] h he
      hgood (Nat.min_le_right _ _)
    dsimp only
    rw [hturns]
    refine ⟨_, _, _, hr, h', hh.replace (a := a) (by grind) ?_ (by grind), ?_, ?_, ?_⟩
    · intro e0 he0
      split at he0
      · next hlt =>
        cases he0
        exact ⟨ha, hgood.dropped hlt⟩
      · cases he0
    · rw [hqueue, nil_append]
      exact take_eq_take_iff.mpr (by omega)
    · rw [hqueue]
      exact Int.zero_add _
    · refine congrArg (update w a) ?_
      rw [hqueue]
      split
      · next hlt =>
        have hmin : min val.toNat e.notific.waitingThreads.length = val.toNat := by omega
        rw [hmin]
        rfl
      · next hlt => exact (drop_eq_nil_of_le (by omega)).symm

/-! ## `sys_futex_requeue` -/

section Requeue

variable {q : List T}

/-- What is left of an entry that loses its first thread. -/
def remainder (e : Entry T) (q : List T) : Option (Entry T) :=
  if q = [] then none else some (dropped e 1)

theorem Holds.remainder (hh : Holds v w) (he : v e.ptr = some e)
    (hq : e.notific.waitingThreads = t :: q) :
    Holds (update v e.ptr (remainder e q)) (update w e.uaddr q) := by
  have hqueue : queueOf (Futex.remainder e q) = q := by
    cases q with
    | nil => rfl
    | cons t' q' => exact congrArg (drop 1) hq
  have hnew := hh.replace (p := e.ptr) (a := e.uaddr) (x := Futex.remainder e q) (by grind) ?_ (by grind)
  · rwa [hqueue] at hnew
  · intro e' he'
    unfold Futex.remainder at he'
    split at he'
    · cases he'
    · next hne =>
      cases he'
      have := length_pos_iff.mpr hne
      exact ⟨rfl, (hh.good _ e he).dropped (by rw [hq, length_cons]; omega)⟩

/-- The other entry stays the target when the first thread is gone. -/
theorem Target.remainder (ht : Target v w a e) (hne : e1.ptr ≠ e.ptr) (hab : e1.uaddr ≠ a) :
    Target (update v e1.ptr (remainder e1 q)) (update w e1.uaddr q) a e where
  fair := ht.fair
  uaddr := ht.uaddr
  queue := by rw [update_of_ne (Ne.symm hab), ht.queue]
  old := by
    rw [update_of_ne (Ne.symm hne)]
    exact ht.old
  alone := by
    rw [update_of_ne (Ne.symm hne)]
    intro hnone p e' he'
    rw [update_apply] at he'
    split at he'
    · unfold Futex.remainder at he'
      grind [dropped]
    · exact ht.alone hnone p e' he'

/-- The first thread of one entry goes to the end of the other. -/
theorem Target.requeueOn (ht : Target v w a e) (h : Shows f (update v e.ptr (some e)))
    (he1 : v e1.ptr = some e1) (hne : e1.ptr ≠ e.ptr) (hgood : Good e1)
    (hq : e1.notific.waitingThreads = t :: q) :
    ∃ f', requeueOn f e1 e = some { table := f', ret := 0 } ∧
      Shows f' (update (update v e1.ptr (Futex.remainder e1 q)) e.ptr (some { e with
        waiterCount := e.waiterCount + 1, notific := enqueue e.notific t })) := by
  have hlen : e1.waiterCount = q.length + 1 := by
    rw [hgood.waiterCount, hq, length_cons]
    rfl
  have hcount1 := hgood.count
  rw [hq, length_cons] at hcount1
  have hmove : requeueNotific e1.notific e.notific =
      some ((dropped e1 1).notific, enqueue e.notific t, 0) := by
    unfold requeueNotific dropped
    rw [if_neg (by simp [hgood.valid, ht.fair.valid]), if_neg (by omega), hq]
    dsimp only
    rw [if_neg (by simp [ht.fair.notDelivered])]
    rfl
  -- the two notifications, then the two counters
  have h1 := h.setNotific (p := e1.ptr) (n := (dropped e1 1).notific)
    ((update_of_ne hne _ _).trans he1)
  have h2 := h1.setNotific (p := e.ptr) (e := e) (n := enqueue e.notific t)
    (by rw [update_of_ne (Ne.symm hne), update_self])
  obtain ⟨f3, hdec, h3⟩ := h2.decWaiterCount (p := e1.ptr) (by rw [update_of_ne hne, update_self])
  rw [update_comm hne, update_idem, update_comm (Ne.symm hne), update_comm (Ne.symm hne),
    update_idem] at h3
  obtain ⟨f4, hinc, h4⟩ := h3.incWaiterCount (update_self _ _ _)
  rw [update_idem] at h4
  have hrest : (if 1 < e1.waiterCount then
      some { e1 with notific := (dropped e1 1).notific, waiterCount := e1.waiterCount - 1 }
      else none) = Futex.remainder e1 q := by
    unfold Futex.remainder
    cases q with
    | nil => rw [if_neg (by rw [hlen, length_nil]; decide), if_pos rfl]
    | cons t' q' =>
      rw [if_pos (by rw [hlen, length_cons]; omega), if_neg (cons_ne_nil t' q')]
      rfl
  rw [← hrest]
  refine ⟨f4, ?_, h4⟩
  unfold Futex.requeueOn
  rw [hmove]
  simp only [bind_eq_bind, bind_some, if_true, hdec, hinc]
  rfl

theorem sysFutexRequeue_queued (h : Shows f v) (hh : Holds v w)
    (hfresh : ∀ ptr, kmalloc = some ptr → ∀ e ∈ f, e.ptr ≠ ptr) :
    ∃ r v' w', sysFutexRequeue f a b nrWake nrRequeue kmalloc = some r ∧ Shows r.table v' ∧
      Holds v' w' ∧ Queued w r w' (.requeue a b nrWake nrRequeue kmalloc) := by
  unfold sysFutexRequeue Queued
  by_cases hnr : nrWake ≠ 0 ∨ nrRequeue ≠ 1
  · rw [if_pos hnr]
    exact ⟨_, v, w, rfl, h, hh, by omega, fun _ => ⟨show -ENOSYS < 0 by decide, rfl⟩⟩
  rw [if_neg hnr]
  obtain ⟨rfl, rfl⟩ : nrWake = 0 ∧ nrRequeue = 1 := by omega
  by_cases hab : a = b
  · rw [if_pos hab]
    exact ⟨_, v, w, rfl, h, hh, by simp [hab], fun _ => ⟨show -EINVAL < 0 by decide, rfl⟩⟩
  rw [if_neg hab]
  cases hfind : findEntry f a with
  | none =>
    have hempty := hh.empty a (h.findEntry_none hh hfind)
    exact ⟨_, v, w, rfl, h, hh, by simp [hempty], fun _ => ⟨show -EINVAL < 0 by decide, rfl⟩⟩
  | some e1 =>
    obtain ⟨he1, rfl⟩ := h.findEntry_some hfind
    have hgood1 := hh.good e1.ptr e1 he1
    have hqueue1 := hh.queue e1.ptr e1 he1
    obtain ⟨t, q, hq⟩ := exists_cons_of_ne_nil hgood1.nonempty
    -- the entry of `b` may be an old or a new one
    have hmove {f2 : Table T} {e2 : Entry T} (ht : Target v w b e2)
        (h2 : Shows f2 (update v e2.ptr (some e2))) (hne : e1.ptr ≠ e2.ptr) :
        ∃ f' v', requeueOn f2 e1 e2 = some { table := f', ret := 0 } ∧ Shows f' v' ∧
          Holds v' (update (update w e1.uaddr q) b (w b ++ [t])) := by
      obtain ⟨f', hr, h'⟩ := ht.requeueOn h2 he1 hne hgood1 hq
      have hheld := (ht.remainder hne hab).enqueued (hh.remainder he1 hq) t
      rw [update_of_ne (Ne.symm hab)] at hheld
      exact ⟨f', _, hr, h', hheld⟩
    cases hfind2 : findEntry f b with
    | some e2 =>
      obtain ⟨ht, h2, hne2⟩ := Target.found h hh hfind2
      have hne : e1.ptr ≠ e2.ptr := by
        intro hptr
        have := h.findEntry_some hfind2
        grind
      obtain ⟨f', v', hr, h', hh'⟩ := hmove ht h2 hne
      exact ⟨_, _, _, hr, h', hh', fun _ => ⟨rfl, t, q, hqueue1.trans hq, rfl⟩,
        by simp [hab, hne2, hqueue1, hq]⟩
    | none =>
      cases kmalloc with
      | none =>
        have hempty := hh.empty b (h.findEntry_none hh hfind2)
        exact ⟨_, v, w, rfl, h, hh, by simp [hempty], fun _ => ⟨show -ENOMEM < 0 by decide, rfl⟩⟩
      | some ptr =>
        obtain ⟨f', v', hr, h', hh'⟩ := hmove (Target.fresh h hh hfind2 (hfresh ptr rfl))
          (h.cons (hfresh ptr rfl)) (hfresh ptr rfl e1 (h.of_view he1))
        exact ⟨_, _, _, hr, h', hh', fun _ => ⟨rfl, t, q, hqueue1.trans hq, rfl⟩,
          by simp [hab, hqueue1, hq]⟩

end Requeue

/-! ## Runs -/

theorem Holds.run (h : Shows f v) (hh : Holds v w) (c : Call T) (hfresh : c.Fresh f) :
    ∃ r v' w', c.run f = some r ∧ Shows r.table v' ∧ Holds v' w' ∧ Queued w r w' c := by
  cases c with
  | wait t uaddr val kval kmalloc => exact sysFutexWait_queued h hh hfresh
  | wake uaddr val => exact sysFutexWake_queued h hh
  | requeue uaddr uaddr2 nrWake nrRequeue kmalloc => exact sysFutexRequeue_queued h hh hfresh

end Holds

theorem holds_of_run (h : ReflTransGen Step [] f) : ∃ v w, Shows f v ∧ Holds v w := by
  induction h with
  | refl => exact ⟨fun _ => none, fun _ => [], ⟨nodup_nil, rfl⟩, Holds.nil⟩
  | tail _ hstep ih =>
    obtain ⟨v, w, hshows, hholds⟩ := ih
    obtain ⟨c, r, hfresh, hrun, rfl⟩ := hstep
    obtain ⟨r', v', w', hrun', hshows', hholds', _⟩ := hholds.run hshows c hfresh
    cases hrun.symm.trans hrun'
    exact ⟨v', w', hshows', hholds'⟩

theorem run_queued (h : ReflTransGen Step [] f) (c : Call T) (hfresh : c.Fresh f) :
    ∃ r, c.run f = some r ∧ Queued (waiters f) r (waiters r.table) c := by
  obtain ⟨v, w, hshows, hholds⟩ := holds_of_run h
  obtain ⟨r, v', w', hr, hshows', hholds', hqueued⟩ := hholds.run hshows c hfresh
  refine ⟨r, hr, ?_⟩
  rw [hshows.waiters_eq hholds, hshows'.waiters_eq hholds']
  exact hqueued

theorem runWith_eq_run {c : Call T} (h : c.takes f ≤ free) : c.runWith free f = c.run f := if_pos h

theorem run_of_steps {s : State T} (h : ReflTransGen State.Step ⟨[], 0⟩ s) :
    ReflTransGen Step [] s.table := by
  induction h with
  | refl => exact .refl
  | tail _ hstep ih =>
    cases hstep with
    | @call c r hfresh hrun =>
      unfold Call.runWith at hrun
      split at hrun
      · exact ih.tail ⟨c, r, hfresh, hrun, rfl⟩
      · cases hrun
    | others _ => exact ih

/-- In every state that futex calls lead to, whatever the other waiting lists do with the pool:
* no two entries are for one address, and each counts the threads in its queue;
* no notification holds a signal that was not delivered;
* a call returns or blocks, so that it does not come to the `BUG`, if and only if the pool has the
  nodes that it takes, and then it does to the queues what `Queued` says. -/
theorem futex_calls_serve_queues (s : State T) (hrun : ReflTransGen State.Step ⟨[], 0⟩ s) :
    s.table.Pairwise (fun e e' => e.uaddr ≠ e'.uaddr) ∧
      (∀ e ∈ s.table, e.waiterCount = e.notific.waitingThreads.length ∧ 0 < e.waiterCount ∧
        e.notific.notDelivered = 0) ∧
      ∀ c : Call T, c.Fresh s.table →
        ((∃ r, c.runWith s.free s.table = some r) ↔ c.takes s.table ≤ s.free) ∧
        ∀ r, c.runWith s.free s.table = some r →
          Queued (waiters s.table) r (waiters r.table) c := by
  have hrun := run_of_steps hrun
  obtain ⟨v, w, hshows, hholds⟩ := holds_of_run hrun
  refine ⟨?_, ?_, fun c hfresh => ?_⟩
  · have hptr := pairwise_map.mp hshows.nodup
    refine hptr.imp_of_mem fun he he' hne haddr => hne ?_
    exact hholds.apart _ _ _ _ (hshows.mem he) (hshows.mem he') haddr
  · intro e he
    have hgood := hholds.good e.ptr e (hshows.mem he)
    exact ⟨hgood.waiterCount, hgood.waiterCount_pos, hgood.notDelivered⟩
  · obtain ⟨r, hr, hqueued⟩ := run_queued hrun c hfresh
    by_cases htakes : c.takes s.table ≤ s.free
    · rw [runWith_eq_run htakes, hr]
      exact ⟨iff_of_true ⟨r, rfl⟩ htakes, fun r' heq => Option.some.inj heq ▸ hqueued⟩
    · simp [Call.runWith, htakes]

/-- Thread 1 waits at address 8; the other waiting lists have left four nodes. -/
def oneWaits : State ℕ := ⟨[⟨100, htableGetBucket 8, 8, 1, ⟨true, 0, 1, [1]⟩⟩], 4091⟩

/-- Thread 2 waits there too. -/
def twoWait : State ℕ := ⟨[⟨100, htableGetBucket 8, 8, 2, ⟨true, 0, 2, [1, 2]⟩⟩], 4091⟩

theorem run_twoWait : ReflTransGen State.Step (⟨[], 0⟩ : State ℕ) twoWait := by
  have hothers : State.Step (⟨[], 0⟩ : State ℕ) ⟨[], 4091⟩ := .others (by decide)
  have hwait1 : State.Step (⟨[], 4091⟩ : State ℕ) oneWaits :=
    .call (s := ⟨[], 4091⟩) (c := .wait 1 8 0 (some 0) (some 100)) (r := ⟨oneWaits.table, 0, true, []⟩)
      (by simp [Call.Fresh]) (runWith_eq_run (by decide))
  have hwait2 : State.Step oneWaits twoWait :=
    .call (s := oneWaits) (c := .wait 2 8 0 (some 0) none) (r := ⟨twoWait.table, 0, true, []⟩)
      (by simp [Call.Fresh, Call.kmalloc]) (runWith_eq_run (by decide))
  exact .tail (.tail (.single hothers) hwait1) hwait2

/-- One of the two is moved to address 4, with the last free node. -/
theorem requeue_with_last_node :
    ∃ r, (Call.requeue 8 4 0 1 (some 200)).runWith twoWait.free twoWait.table = some r ∧
      waiters r.table 8 = [2] ∧ waiters r.table 4 = [1] ∧
      Queued (waiters twoWait.table) r (waiters r.table) (.requeue 8 4 0 1 (some 200)) := by
  have hcall := (futex_calls_serve_queues twoWait run_twoWait).2.2 (.requeue 8 4 0 1 (some 200))
    (by rintro _ ⟨⟩; decide)
  have hrun := runWith_eq_run (c := .requeue 8 4 0 1 (some 200)) (f := twoWait.table)
    (show _ ≤ twoWait.free by decide)
  exact ⟨_, hrun, rfl, rfl, hcall.2 _ hrun⟩

/-- A thread that comes to an address of its own spins with `futex_lock` held: there is one free
node, for the sentinel of its waiting list, and none for the thread. -/
theorem wait_without_node : ReflTransGen State.Step (⟨[], 0⟩ : State ℕ) twoWait ∧
    (Call.wait 3 4 0 (some 0) (some 200)).runWith twoWait.free twoWait.table = none :=
  ⟨run_twoWait, if_neg (by decide)⟩

/-! ## Copies -/

/-- The entries count the threads that wait, and all later calls do what `Queued` says. -/
def Right (f : Table T) : Prop :=
  (∀ e ∈ f, e.waiterCount = e.notific.waitingThreads.length) ∧
    ∀ g, ReflTransGen Step f g → ∀ c : Call T, c.Fresh g →
      ∃ r, c.run g = some r ∧ Queued (waiters g) r (waiters r.table) c

/-- The entry counts threads, and none waits. -/
def Stale (e : Entry T) : Prop := futexHasWaiter e ∧ e.notific.waitingThreads = []

theorem stale_modify {f : Table T} {p : ℕ} (hn : 0 < n)
    (h : ∀ x ∈ f, x.ptr = p ∨ Stale x) (hq : ∀ x ∈ f, x.notific.waitingThreads = []) :
    ∀ x ∈ modify f p fun y => { y with waiterCount := n }, Stale x := by
  intro x hx
  obtain ⟨y, hy, rfl⟩ := mem_map.mp hx
  split
  · exact ⟨hn, hq y hy⟩
  · exact (h y hy).resolve_left ‹_›

/-- Nothing but stale entries comes into the table, and none goes. -/
theorem copyEntries_stale {es : List (Entry T)} {dst : Table T}
    (hes : ∀ e ∈ es, futexHasWaiter e) (hdst : ∀ x ∈ dst, Stale x) :
    (∀ x ∈ (copyEntries kmalloc es dst).1, Stale x) ∧
      (dst ≠ [] → (copyEntries kmalloc es dst).1 ≠ []) ∧
      ((copyEntries kmalloc es dst).1 = [] → ∀ e ∈ es.head?, kmalloc e.ptr = none) := by
  induction es generalizing dst with
  | nil => exact ⟨hdst, id, fun _ e he => by cases he⟩
  | cons e es ih =>
    obtain ⟨he, hes⟩ := forall_mem_cons.mp hes
    cases hk : kmalloc e.ptr with
    | none =>
      rw [copyEntries, hk]
      exact ⟨hdst, id, fun _ x hx => by cases hx; exact hk⟩
    | some p =>
      rw [copyEntries, hk]
      have hstale := stale_modify (f := ⟨p, htableGetBucket e.uaddr, e.uaddr, 0, initNotific⟩ :: dst)
        (p := p) he (by grind) (by grind [Stale, initNotific])
      obtain ⟨hall, hne, -⟩ := ih hes hstale
      have hne := hne (by simp [modify])
      exact ⟨hall, fun _ => hne, fun h => absurd h hne⟩

/-- A copy is right only if nothing was copied: the source has no entry, or there is no memory for
the first one.  An entry of the source has a waiter, since `__dec_waiter_count` frees it with the
last one. -/
theorem futexCopy_right_iff (f : ℕ → Table T) {src dst : ℕ} (hne : src ≠ dst)
    (kmalloc : ℕ → Option ℕ) (hsrc : ∀ e ∈ f src, futexHasWaiter e) :
    Right ((futexCopy f src dst kmalloc).1 dst) ↔
      ∀ e ∈ (inBuckets (f src)).head?, kmalloc e.ptr = none := by
  have hes : ∀ e ∈ inBuckets (f src), futexHasWaiter e := by
    intro e he
    obtain ⟨b, -, he⟩ := mem_flatMap.mp he
    exact hsrc e (mem_filter.mp he).1
  obtain ⟨hstale, -, hnone⟩ := @copyEntries_stale T kmalloc _ [] hes (by simp)
  have hcopy : (futexCopy f src dst kmalloc).1 dst =
      (copyEntries kmalloc (inBuckets (f src)) []).1 := by
    rw [futexCopy, if_neg hne]
    exact update_self ..
  rw [hcopy]
  constructor
  · intro hright
    refine hnone (eq_nil_iff_forall_not_mem.mpr fun x hx => ?_)
    obtain ⟨hpos, hq⟩ := hstale x hx
    have hcount := hright.1 x hx
    rw [hq] at hcount
    exact Int.ne_of_gt hpos hcount
  · intro hhead
    have hnil : (copyEntries kmalloc (inBuckets (f src)) []).1 = [] := by
      cases hs : inBuckets (f src) with
      | nil => rfl
      | cons e es => rw [copyEntries, hhead e (by rw [hs]; rfl)]; rfl
    rw [hnil]
    exact ⟨by simp, fun g hrun c => run_queued hrun c⟩

/-- Threads 1 and 2 wait at address 8. -/
def twoWaiting : Table ℕ := [⟨100, htableGetBucket 8, 8, 2, ⟨true, 0, 2, [1, 2]⟩⟩]

theorem copy_of_two_waiting :
    ¬ Right ((futexCopy (fun _ => twoWaiting) 0 1 (fun _ => some 200)).1 1) := by
  rw [futexCopy_right_iff (fun _ => twoWaiting) Nat.zero_ne_one (fun _ => some 200) (by decide)]
  exact fun h => by cases h _ rfl

/-- The copy of a table with two waiters at 8: a `wake` there returns 1 and wakes nobody, and then
a `requeue` to 8 comes to the `BUG`. -/
theorem copied_count_without_waiters :
    ReflTransGen Step ([] : Table ℕ) twoWaiting ∧
      ∃ g, (futexCopy (fun _ => twoWaiting) 0 1 (fun _ => some 200)).1 1 = g ∧
        (∃ e ∈ g, e.waiterCount = 2 ∧ e.notific.waitingThreads = []) ∧
        ∃ r₁, (Call.wake 8 1).run g = some r₁ ∧ r₁.ret = 1 ∧ r₁.woken = [] ∧
          ∃ r₂, (Call.wait 3 4 0 (some 0) (some 300)).run r₁.table = some r₂ ∧
            (Call.requeue 4 8 0 1 none).run r₂.table = none := by
  refine ⟨.tail (.tail .refl
      ⟨.wait 1 8 0 (some 0) (some 100), _, (fun _ _ _ he => by cases he), rfl, rfl⟩)
    ⟨.wait 2 8 0 (some 0) none, _, (fun _ h => by cases h), rfl, rfl⟩, _, rfl,
    ⟨_, mem_singleton.mpr rfl, rfl, rfl⟩, _, rfl, rfl, rfl, _, rfl, rfl⟩

end Starfish.Futex
