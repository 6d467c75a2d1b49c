import Starfish.ThreadQueue.Fifo

/-!
# Starfish.ThreadQueue.Runs

Sequences of calls on any number of queues.  `Pending` is what the callers see: for each
queue the threads that were put in and neither taken out nor cancelled, oldest first,
with their nodes.  `Reach` runs the code and keeps this account beside it, and
`thread_queues_are_fifo` says that the code follows the account.
-/

namespace Starfish.ThreadQueue

open Function Prog List

/-! ## Operations -/

section specs

variable {base : ℤ} {m : DqMem} {own : ℤ → Place} {free : List ℤ} {nodes : ℕ → List ℤ}

theorem wlp_threadDqAllocNodeTry : wlp (threadDqAllocNodeTry fuel) (fun r t =>
    r = qptrNull ∧ t = m ∨ r ≠ qptrNull ∧ r = m.freeList ∧ t = m.setFreeList (m.next r)) m := by
  refine wlp_loop (I := fun t => t = m) rfl ?_
  rintro _ rfl
  rw [wlp_bind, wlp_read, wlp_ite]
  refine ⟨fun _ => wlp_pure.mpr ⟨?_, by simp⟩, fun hne => ?_⟩
  · intro r hr
    exact .inl ⟨(Option.some.inj hr).symm, rfl⟩
  · rw [wlp_bind, wlp_read, wlp_bind, casFreeList, wlp_cas]
    refine ⟨fun _ => wlp_pure.mpr ⟨?_, by simp⟩, fun hno => absurd rfl hno⟩
    intro r hr
    obtain rfl := Option.some.inj hr
    exact .inr ⟨hne, rfl, rfl⟩

/-- An allocation takes the first node of the free list. -/
theorem wp_threadDqAllocNode (hfuel : 0 < fuel) (hne : m.freeList ≠ qptrNull) :
    wp (threadDqAllocNode fuel) (fun r t => r = m.freeList ∧ t = m.setFreeList (m.next r))
      (fun _ => True) m := by
  obtain ⟨n, rfl⟩ : ∃ n, fuel = n + 1 := ⟨fuel - 1, by omega⟩
  rw [threadDqAllocNode, wp_loop_succ, wp_bind, threadDqAllocNodeTry, wp_loop_succ, wp_bind, wp_read,
    if_neg hne, wp_bind, wp_read, wp_bind, casFreeList, wp_cas]
  refine ⟨fun _ => ⟨trivial, wp_pure.mpr ⟨fun r hr => ?_, by simp⟩⟩, fun hno => absurd rfl hno⟩
  obtain rfl := Option.some.inj hr
  rw [if_neg hne]
  refine wp_pure.mpr ⟨fun r hr => ?_, by simp⟩
  obtain rfl := Option.some.inj hr
  exact ⟨rfl, rfl⟩

/-- It does not return while there is none. -/
theorem wlp_threadDqAllocNode_empty (hempty : m.freeList = qptrNull) :
    wlp (threadDqAllocNode fuel) (fun _ _ => False) m := by
  refine wlp_loop (I := fun t => t = m) rfl ?_
  rintro _ rfl
  rw [wlp_bind]
  refine wlp_mono wlp_threadDqAllocNodeTry ?_
  rintro r t (⟨rfl, rfl⟩ | ⟨hne, hr, -⟩)
  · exact wlp_pure.mpr ⟨by simp, fun _ => rfl⟩
  · exact absurd (hr.trans hempty) hne

theorem wp_threadDqFreeNode (hfuel : 0 < fuel) : wp (threadDqFreeNode fuel x)
    (fun _ t => t = (m.setNext x m.freeList).setFreeList x) (fun _ => True) m := by
  obtain ⟨n, rfl⟩ : ∃ n, fuel = n + 1 := ⟨fuel - 1, by omega⟩
  rw [threadDqFreeNode, wp_loop_succ, wp_bind, wp_read, wp_bind, wp_store]
  refine ⟨trivial, ?_⟩
  rw [wp_bind, casFreeList, wp_cas]
  exact ⟨fun _ => ⟨trivial, wp_pure.mpr ⟨fun _ _ => rfl, by simp⟩⟩, fun hno => absurd rfl hno⟩

/-- The memory after `thread_dq_init` with the node `x`. -/
def initialised (m : DqMem) (q : ℕ) (x : ℤ) : DqMem :=
  ((((m.setFreeList (m.next x)).setNext x qptrNull).setStatus x .consumed).setHead q x).setTail q x

theorem wp_threadDqInit (hfuel : 0 < fuel) (hne : m.freeList ≠ qptrNull) :
    wp (threadDqInit fuel q) (fun r t => r = 0 ∧ t = initialised m q m.freeList)
      (fun _ => True) m := by
  rw [threadDqInit, wp_bind]
  refine wp_post (wp_threadDqAllocNode hfuel hne) ?_
  rintro s t ⟨rfl, rfl⟩
  rw [if_neg hne]
  simp only [wp_bind, wp_store, wp_pure, true_and]
  rfl

theorem Rep.initialised (h : Rep base m own (s :: free) nodes) (hbase : 0 ≤ base)
    (hq : nodes q = []) :
    Rep base (initialised m q s) (update own s (.queue q)) free (update nodes q [s]) := by
  have hheld : update own s Place.held s = .held := update_self ..
  have h1 := h.pop.setNext hheld qptrNull
  have h2 : Rep base (((m.setFreeList (m.next s)).setNext s qptrNull).setStatus s .consumed)
    (update own s .held) free nodes := h1.congr rfl rfl rfl rfl
  have h3 := h2.sentinel hbase hheld hq (by simp)
  rwa [update_idem] at h3

theorem wp_threadDqEnqueue (h : Rep base m own (x :: free) nodes) (hbase : 0 ≤ base)
    (hfuel : 0 < fuel) (hq : nodes q ≠ []) :
    wp (threadDqEnqueue fuel q thread) (fun _ t =>
      Rep base t (update own x (.queue q)) free (update nodes q (nodes q ++ [x])) ∧
      t.status = update m.status x .init ∧
      t.threadPa = update m.threadPa x thread ∧ t.notifDqNodeOff thread = x) (fun _ => True) m := by
  have hx : m.freeList = x := h.stack.1
  have hne : x ≠ qptrNull := (h.isNode_of_free mem_cons_self).ne_null hbase
  rw [threadDqEnqueue, wp_bind]
  refine wp_post (wp_threadDqAllocNode hfuel (hx ▸ hne)) ?_
  rintro r t ⟨hr, rfl⟩
  obtain rfl : r = x := hr.trans hx
  obtain ⟨n, rfl⟩ : ∃ n, fuel = n + 1 := ⟨fuel - 1, by omega⟩
  have hheld : update own r Place.held r = .held := update_self ..
  obtain ⟨ns, l, hl⟩ : ∃ ns l, nodes q = ns ++ [l] := ⟨_, _, (dropLast_append_getLast hq).symm⟩
  have h1 := h.pop.setNext hheld qptrNull
  rw [wp_bind, wp_bugOn]
  refine ⟨hne, ?_⟩
  simp only [wp_bind, wp_store, true_and]
  generalize hu : DqMem.setNotif _ thread r = u
  have hrep : Rep base u (update own r .held) free nodes := by
    rw [← hu]
    exact h1.congr rfl rfl rfl rfl
  have hnext : u.next r = qptrNull := by simp [← hu]
  have htail : u.tail q = l := by
    rw [hrep.tail q hq, hl]
    simp
  have hlast : u.next l = qptrNull := by
    have hchain := hrep.queue q hq
    rw [hl] at hchain
    exact hchain.next_last
  -- the first pass returns
  rw [wp_loop_succ]
  simp only [wp_bind, wp_read, htail, hlast, ne_eq, not_true_eq_false, if_false, if_true]
  rw [casNext, wp_cas]
  refine ⟨fun _ => ⟨trivial, ?_⟩, fun hno => absurd hlast hno⟩
  rw [if_pos rfl, wp_bind, casTail, wp_cas]
  refine ⟨fun _ => ⟨trivial, wp_pure.mpr ⟨fun _ _ => ?_, by simp⟩⟩, fun hno => absurd htail hno⟩
  have h2 := hrep.append hbase hheld hl hnext
  rw [update_idem] at h2
  refine ⟨?_, ?_, ?_, ?_⟩
  · rw [hl, append_assoc]
    exact h2
  · simp [← hu]
  · simp [← hu]
  · simp [← hu]

section

variable (h : Rep base m own free nodes)
include h

/-- `thread_dq_dequeue` skips the entries that are cancelled and takes the next one. -/
theorem wp_dequeue (hbase : 0 ≤ base)
    (hfuel : 0 < fuel) (hq : nodes q = s :: es) (hn : es.length < n) :
    wp (loop n (dequeuePass fuel q)) (fun r t => ∃ own' free' ns,
      Rep base t own' free' (update nodes q ns) ∧ (∀ y, own' y = .held → own y = .held) ∧
      t.status = m.status ∧ t.threadPa = m.threadPa ∧
      match es.dropWhile fun y => m.status y = .cancelled with
      | [] => r = none ∧ ∃ y, ns = [y]
      | e :: es' => r = some (m.threadPa e) ∧ ns = e :: es') (fun _ => True) m := by
  obtain ⟨n, rfl⟩ : ∃ k, n = k + 1 := ⟨n - 1, by omega⟩
  induction es generalizing m own free nodes s n with
  | nil =>
    have hne : nodes q ≠ [] := by simp [hq]
    have hchain := h.queue q hne
    rw [hq] at hchain
    obtain ⟨hhead, -, hnext⟩ := hchain
    have htail : m.tail q = s := by simp [h.tail q hne, hq]
    rw [wp_loop_succ, dequeuePass]
    simp only [wp_bind, wp_read, hhead, htail, chain_nil.mp hnext, ne_eq, not_true_eq_false,
      if_false, if_true]
    refine wp_pure.mpr ⟨fun r hr => ?_, by simp⟩
    have hsame : update nodes q [s] = nodes := by rw [← hq, update_eq_self]
    have hrep : Rep base m own free (update nodes q [s]) := by rwa [hsame]
    exact ⟨own, free, [s], hrep, fun _ hy => hy, rfl, rfl, (Option.some.inj hr).symm, s, rfl⟩
  | cons e es ih =>
    have hne : nodes q ≠ [] := by simp [hq]
    have hchain := h.queue q hne
    rw [hq] at hchain
    have hnd := nodup_cons.mp hchain.nodup
    obtain ⟨hhead, -, hnext, -, -⟩ := hchain
    have htail : s ≠ m.tail q := by
      rw [h.tail q hne, hq]
      intro heq
      refine hnd.1 (heq ▸ ?_)
      simp only [getLastD_cons]
      exact getLastD_mem_cons
    -- the old sentinel is freed in both cases
    have hfreed : Rep base (((m.setHead q e).setNext s m.freeList).setFreeList s)
        (update own s .free) (s :: free) (update nodes q (e :: es)) := by
      have h' := (h.shift hq).push hbase (update_self ..)
      rwa [update_idem] at h'
    have hheld : ∀ y, update own s Place.free y = .held → own y = .held := by
      grind
    rw [wp_loop_succ]
    generalize hrest : loop n (dequeuePass fuel q) = rest
    rw [dequeuePass]
    simp only [wp_bind, wp_read, hhead, hnext, ne_eq, not_true_eq_false, if_false, htail]
    by_cases hstatus : m.status e = .cancelled
    · rw [if_pos hstatus, wp_bind, casHead, wp_cas]
      refine ⟨fun _ => ⟨trivial, ?_⟩, fun hno => absurd hhead hno⟩
      rw [wp_bind, wp_when]
      refine ⟨fun _ => ?_, fun hno => absurd rfl hno⟩
      refine wp_post (wp_threadDqFreeNode hfuel) ?_
      rintro - _ rfl
      refine wp_pure.mpr ⟨by simp, fun _ => ?_⟩
      obtain ⟨n, rfl⟩ : ∃ k, n = k + 1 := ⟨n - 1, by simp at hn; omega⟩
      rw [← hrest]
      refine wp_post (ih hfreed (update_self ..) n (by simpa using hn)) ?_
      rintro r t ⟨own', free', ns, hrep, hheld', hst, hpa, hmatch⟩
      rw [update_idem] at hrep
      refine ⟨own', free', ns, hrep, fun y hy => hheld y (hheld' y hy), hst, hpa, ?_⟩
      rw [dropWhile_cons_of_pos (by simpa using hstatus)]
      exact hmatch
    · rw [if_neg hstatus, wp_bind, casHead, wp_cas]
      refine ⟨fun _ => ⟨trivial, ?_⟩, fun hno => absurd hhead hno⟩
      rw [if_pos rfl, wp_bind, wp_read, wp_bind]
      refine wp_post (wp_threadDqFreeNode hfuel) ?_
      rintro - _ rfl
      refine wp_pure.mpr ⟨fun r hr => ?_, by simp⟩
      refine ⟨_, _, e :: es, hfreed, hheld, rfl, rfl, ?_⟩
      rw [dropWhile_cons_of_neg (by simpa using hstatus)]
      exact ⟨(Option.some.inj hr).symm, rfl⟩

/-- The nodes of a queue that is torn down go to the free list. -/
theorem wp_freeNodes (hbase : 0 ≤ base) (hfuel : 0 < fuel) (hchain : Chain m.next qptrNull cur ns)
    (hns : ∀ y ∈ ns, own y = .held) (hn : ns.length ≤ n) :
    wp (freeNodes base fuel n cur) (fun _ t => ∃ free',
      Rep base t (fun y => if y ∈ ns then .free else own y) free' nodes ∧
      t.status = m.status ∧ t.threadPa = m.threadPa) (fun _ => True) m := by
  induction ns generalizing m own free cur n with
  | nil =>
    have hcur : cur = qptrNull := hchain
    have hdone : wp (freeNodes base fuel n cur) (fun _ t => t = m) (fun _ => True) m := by
      cases n with
      | zero => exact wp_pure.mpr rfl
      | succ n =>
        rw [freeNodes, if_pos hcur]
        exact wp_pure.mpr rfl
    refine wp_post hdone ?_
    rintro - _ rfl
    exact ⟨free, by simpa using h, rfl, rfl⟩
  | cons y ns ih =>
    obtain ⟨n, rfl⟩ : ∃ k, n = k + 1 := ⟨n - 1, by simp at hn; omega⟩
    have hnd := nodup_cons.mp hchain.nodup
    obtain ⟨rfl, hne, hrest⟩ := hchain
    have hcur := hns cur mem_cons_self
    have hvalid := (h.isNode_of_held hcur).valid hbase
    rw [freeNodes, if_neg hne]
    simp only [hvalid, Bool.not_true, Bool.false_eq_true, if_false]
    rw [wp_bind, wp_read, wp_bind]
    refine wp_post (wp_threadDqFreeNode hfuel) ?_
    rintro - _ rfl
    have hheld : ∀ z ∈ ns, update own cur Place.free z = .held := by grind
    have hrest' := hrest.update hnd.1 m.freeList
    refine wp_post (ih (h.push hbase hcur) hrest' hheld (by simpa using hn)) ?_
    rintro - t ⟨free', hrep, hst, hpa⟩
    refine ⟨free', ?_, hst, hpa⟩
    have hown : (fun z => if z ∈ ns then Place.free else update own cur .free z) =
        fun z => if z ∈ cur :: ns then Place.free else own z := by
      grind
    rwa [hown] at hrep

/-- `thread_dq_deinit` of a queue frees all of its nodes; else it does nothing. -/
theorem wp_threadDqDeinit (hbase : 0 ≤ base) (hfuel : 0 < fuel) :
    wp (threadDqDeinit base fuel q) (fun _ t => ∃ own' free',
      Rep base t own' free' (update nodes q []) ∧ (∀ y, own' y = .held → own y = .held) ∧
      t.status = m.status ∧ t.threadPa = m.threadPa) (fun _ => True) m := by
  obtain ⟨n, rfl⟩ : ∃ n, fuel = n + 1 := ⟨fuel - 1, by omega⟩
  rw [threadDqDeinit, wp_bind, wp_loop_succ, wp_bind, wp_read]
  by_cases hq : nodes q = []
  · simp only [h.unused q hq, Bool.not_false, if_true]
    refine wp_pure.mpr ⟨fun r hr => ?_, by simp⟩
    obtain rfl := Option.some.inj hr
    have hsame : update nodes q [] = nodes := by rw [← hq, update_eq_self]
    have hrep : Rep base m own free (update nodes q []) := by rwa [hsame]
    exact wp_pure.mpr ⟨own, free, hrep, fun _ hy => hy, rfl, rfl⟩
  · have hchain := h.queue q hq
    obtain ⟨s, es, hs⟩ := exists_cons_of_ne_nil hq
    have hvalid : threadDqNodeOffValid base (m.head q) = true := by
      rw [hs] at hchain
      rw [hchain.1]
      exact (h.isNode_of_mem (q := q) (by simp [hs])).valid hbase
    simp only [hvalid, Bool.not_true, Bool.false_eq_true, if_false]
    rw [wp_bind, casHead, wp_cas]
    refine ⟨fun _ => ⟨trivial, wp_pure.mpr ⟨fun r hr => ?_, by simp⟩⟩, fun hno => absurd rfl hno⟩
    obtain rfl := Option.some.inj hr
    simp only
    rw [wp_bind, wp_store]
    refine ⟨trivial, ?_⟩
    have hlen : (nodes q).length ≤ threadDqPoolSize :=
      Nat.le_of_lt (length_lt_of_isNode hchain.nodup fun y hy => h.isNode_of_mem hy)
    have hheld : ∀ y ∈ nodes q, (if y ∈ nodes q then Place.held else own y) = .held :=
      fun y hy => if_pos hy
    refine wp_post (wp_freeNodes h.release hbase hfuel hchain hheld hlen) ?_
    rintro - t ⟨free', hrep, hst, hpa⟩
    refine ⟨_, free', hrep, fun y hy => ?_, hst, hpa⟩
    by_cases hmem : y ∈ nodes q
    · simp [hmem] at hy
    · simpa [hmem] using hy

end

/-- After `thread_dq_pool_init` all nodes but `nodes[0]` are free. -/
theorem wp_threadDqPoolInit (hbase : 0 ≤ base)
    (hunused : ∀ q, threadDqNodeOffValid base (m.head q) = false) :
    wp (threadDqPoolInit base) (fun _ t => ∃ own, Rep base t own (poolNodes base) (fun _ => []) ∧
      ∀ y, own y ≠ .held) (fun _ => True) m := by
  refine wp_post (wp_threadDqPoolInit_chain hbase) ?_
  rintro - t ⟨hhead, hchain⟩
  classical
  refine ⟨fun x => if IsNode base x then .free else .outside,
    ⟨hchain, by simp, by simp, fun q _ => hhead ▸ hunused q, fun x => ?_, fun q x => ?_,
      fun x => ?_⟩, fun y => ?_⟩
  · rw [mem_poolNodes]
    by_cases hx : IsNode base x <;> simp [hx]
  · by_cases hx : IsNode base x <;> simp [hx]
  · by_cases hx : IsNode base x <;> simp [hx]
  · by_cases hy : IsNode base y <;> simp [hy]

end specs

/-! ## The account of the callers -/

inductive Op where
  | init (q : ℕ)
  | enqueue (q thread : ℕ)
  | cancel (nodeOff : ℤ)
  | dequeue (q : ℕ)
  | deinit (q : ℕ)

/-- The code of a call; only `thread_dq_dequeue` has a result that matters. -/
def Op.code (base : ℤ) (fuel : ℕ) : Op → Prog DqMem (Option ℕ)
  | init q => do
    let _ ← threadDqInit fuel q
    pure none
  | enqueue q thread => do
    threadDqEnqueue fuel q thread
    pure none
  | cancel nodeOff => do
    threadDqCancelNode nodeOff
    pure none
  | dequeue q => threadDqDequeue fuel q
  | deinit q => do
    threadDqDeinit base fuel q
    pure none

/-- For each queue the threads that wait in it, with their nodes. -/
abbrev Pending : Type := ℕ → Option (List (ℤ × ℕ))

/-- The account after a call; `thread_dq_enqueue` leaves the offset of the node with the
thread, in the memory `m'` after the call. -/
def Op.next (m' : DqMem) (p : Pending) : Op → Pending
  | init q => update p q (some [])
  | enqueue q thread =>
    update p q ((p q).map (· ++ [(m'.notifDqNodeOff thread, thread)]))
  | cancel nodeOff => fun q => (p q).map (·.filter (·.1 ≠ nodeOff))
  | dequeue q => update p q ((p q).map List.tail)
  | deinit q => update p q none

/-- A queue is set up once before it is used, and cancelled is what has been a node. -/
def Op.Allowed (base : ℤ) (p : Pending) : Op → Prop
  | init q => p q = none
  | enqueue q _ => p q ≠ none
  | cancel nodeOff => nodeOff = qptrNull ∨ IsNode base nodeOff
  | dequeue q => p q ≠ none
  | deinit _ => True

/-- `thread_dq_init` and `thread_dq_enqueue` take a node from the free list. -/
def Op.HasNode (m : DqMem) : Op → Prop
  | init _ | enqueue _ _ => m.freeList ≠ qptrNull
  | _ => True

/-- A memory that calls can reach, with the account.  No call needs more passes through
a loop than there are nodes, unless it waits for a free node. -/
inductive Reach (base : ℤ) : DqMem → Pending → Prop
  | start {m m' : DqMem} (hunused : ∀ q, threadDqNodeOffValid base (m.head q) = false)
      (hinit : (threadDqPoolInit base).outcome m = .ok () m') : Reach base m' fun _ => none
  | step {m m' : DqMem} {p : Pending} {op : Op} {fuel : ℕ} {r : Option ℕ} (h : Reach base m p)
      (hallowed : op.Allowed base p) (hfuel : threadDqPoolSize ≤ fuel)
      (hout : (op.code base fuel).outcome m = .ok r m') : Reach base m' (op.next m' p)

/-- The threads that wait in a queue with these nodes. -/
@[simp] def pendingOf (m : DqMem) : List ℤ → Option (List (ℤ × ℕ))
  | [] => none
  | _ :: es =>
    some ((es.filter fun x => m.status x ≠ .cancelled).map fun x => (x, m.threadPa x))

/-- The account is right. -/
def Agrees (base : ℤ) (m : DqMem) (p : Pending) : Prop :=
  ∃ own free nodes, Rep base m own free nodes ∧ (∀ y, own y ≠ .held) ∧
    ∀ q, p q = pendingOf m (nodes q)

section account

variable {base : ℤ} {m m' : DqMem} {p : Pending}

theorem pendingOf_eq_none : pendingOf m ns = none ↔ ns = [] := by
  cases ns <;> simp

theorem pendingOf_congr (hstatus : ∀ x ∈ ns, m'.status x = m.status x)
    (hpa : ∀ x ∈ ns, m'.threadPa x = m.threadPa x) : pendingOf m' ns = pendingOf m ns := by
  cases ns with
  | nil => rfl
  | cons s es =>
    have hfilter : (es.filter fun x => m'.status x ≠ .cancelled) =
        es.filter fun x => m.status x ≠ .cancelled :=
      filter_congr fun x hx => by rw [hstatus x (mem_cons_of_mem s hx)]
    simp only [pendingOf]
    rw [hfilter]
    refine congrArg some (map_congr_left fun x hx => ?_)
    rw [hpa x (mem_cons_of_mem s (mem_of_mem_filter hx))]

/-- A node that was free is in no queue. -/
theorem Rep.notMem_of_free (h : Rep base m own (x :: free) nodes) (hy : y ∈ nodes q) : y ≠ x := by
  rintro rfl
  have hfree := (h.mem_free y).mp mem_cons_self
  simp [(h.mem_queue q y).mp hy] at hfree

variable {fuel q : ℕ}

section agrees

variable (h : Agrees base m p) (hbase : 0 ≤ base)
include h hbase

omit hbase in
theorem Agrees.exists_free (hne : m.freeList ≠ qptrNull) : ∃ own x free nodes,
    Rep base m own (x :: free) nodes ∧ m.freeList = x ∧ (∀ y, own y ≠ .held) ∧
      ∀ q, p q = pendingOf m (nodes q) := by
  obtain ⟨own, free, nodes, hrep, hheld, hp⟩ := h
  obtain ⟨free', rfl, -⟩ := hrep.stack.eq_cons hne
  exact ⟨own, _, free', nodes, hrep, rfl, hheld, hp⟩

theorem Agrees.wp_init (hq : p q = none) (hfuel : 0 < fuel) (hne : m.freeList ≠ qptrNull) :
    wp (threadDqInit fuel q) (fun _ t => Agrees base t (update p q (some []))) (fun _ => True) m := by
  obtain ⟨own, s, free, nodes, hrep, hs, hheld, hp⟩ := h.exists_free hne
  have hnodes : nodes q = [] := pendingOf_eq_none.mp (hp q ▸ hq)
  refine wp_post (wp_threadDqInit hfuel hne) ?_
  rintro - t ⟨-, rfl⟩
  rw [hs]
  refine ⟨_, free, _, hrep.initialised hbase hnodes, fun y => ?_, fun q' => ?_⟩
  · have hy := hheld y
    grind
  · by_cases hq' : q' = q
    · subst hq'
      simp
    · rw [update_of_ne hq', update_of_ne hq', hp q']
      have hst : (initialised m q s).status = update m.status s .consumed := rfl
      have hpa : (initialised m q s).threadPa = m.threadPa := rfl
      refine (pendingOf_congr (fun y hy => ?_) fun y _ => by rw [hpa]).symm
      rw [hst, update_of_ne (hrep.notMem_of_free hy)]

theorem Agrees.wp_enqueue (hq : p q ≠ none) (hfuel : 0 < fuel) (hne : m.freeList ≠ qptrNull) :
    wp (threadDqEnqueue fuel q thread)
      (fun _ t => Agrees base t ((Op.enqueue q thread).next t p)) (fun _ => True) m := by
  obtain ⟨own, x, free, nodes, hrep, -, hheld, hp⟩ := h.exists_free hne
  have hnodes : nodes q ≠ [] := fun hno => hq (hp q ▸ pendingOf_eq_none.mpr hno)
  refine wp_post (wp_threadDqEnqueue hrep hbase hfuel hnodes) ?_
  rintro - t ⟨hrep', hst, hpa, hnotif⟩
  have hother : ∀ {q'}, pendingOf t (nodes q') = pendingOf m (nodes q') := by
    intro q'
    refine pendingOf_congr (fun y hy => ?_) fun y hy => ?_
    · rw [hst, update_of_ne (hrep.notMem_of_free hy)]
    · rw [hpa, update_of_ne (hrep.notMem_of_free hy)]
  refine ⟨_, free, _, hrep', fun y => ?_, fun q' => ?_⟩
  · by_cases hy : y = x
    · simp [hy]
    · rw [update_of_ne hy]
      exact hheld y
  · by_cases hq' : q' = q
    · subst hq'
      rw [Op.next, update_self, update_self, hp q', ← hother, hnotif]
      obtain ⟨s, es, hs⟩ := exists_cons_of_ne_nil hnodes
      simp [hs, hst, hpa]
    · rw [Op.next, update_of_ne hq', update_of_ne hq', hp q', hother]

theorem Agrees.wp_cancel : wp (threadDqCancelNode off)
    (fun _ t => Agrees base t ((Op.cancel off).next t p)) (fun _ => True) m := by
  obtain ⟨own, free, nodes, hrep, hheld, hp⟩ := h
  rw [threadDqCancelNode, wp_ite]
  refine ⟨fun hnull => wp_pure.mpr ⟨own, free, nodes, hrep, hheld, fun q => ?_⟩, fun _ =>
    wp_store.mpr ⟨trivial, own, free, nodes, hrep.congr rfl rfl rfl rfl, hheld, fun q => ?_⟩⟩
  · -- no node has the offset `QPTR_NULL`
    simp only [Op.next, hp q]
    cases hns : nodes q with
    | nil => rfl
    | cons s es =>
      simp only [pendingOf, Option.map_some]
      refine congrArg some (filter_eq_self.mpr fun e he => ?_)
      obtain ⟨x, hx, rfl⟩ := mem_map.mp he
      have hmem : x ∈ nodes q := by
        rw [hns]
        exact mem_cons_of_mem s (mem_of_mem_filter hx)
      simpa [hnull] using (hrep.isNode_of_mem hmem).ne_null hbase
  · simp only [Op.next, hp q]
    cases hns : nodes q with
    | nil => rfl
    | cons s es =>
      simp only [pendingOf, Option.map_some, filter_map, filter_filter]
      refine congrArg some ?_
      have hpred : ∀ x, decide ((m.setStatus off .cancelled).status x ≠ .cancelled) =
          ((fun e : ℤ × ℕ => decide (e.1 ≠ off)) (x, m.threadPa x) &&
            decide (m.status x ≠ .cancelled)) := by
        intro x
        by_cases hx : x = off
        · simp [hx]
        · simp [hx]
      simp only [hpred]
      rfl

omit h hbase in
/-- What is not cancelled begins with the first entry that is not. -/
theorem filter_eq_dropWhile (es : List ℤ) : (es.filter fun x => m.status x ≠ .cancelled) =
      (es.dropWhile fun x => m.status x = .cancelled).filter fun x => m.status x ≠ .cancelled := by
  induction es with
  | nil => rfl
  | cons e es ih =>
    by_cases he : m.status e = .cancelled
    · rw [filter_cons_of_neg (by simp [he]), dropWhile_cons_of_pos (by simp [he]), ih]
    · rw [dropWhile_cons_of_neg (by simp [he])]

/-- `thread_dq_dequeue` returns the first thread of the account. -/
theorem Agrees.wp_dequeue (hq : p q = some l) (hfuel : threadDqPoolSize ≤ fuel) :
    wp (threadDqDequeue fuel q) (fun r t => r = l.head?.map Prod.snd ∧
      Agrees base t (update p q (some l.tail))) (fun _ => True) m := by
  obtain ⟨own, free, nodes, hrep, hheld, hp⟩ := h
  have hnodes : nodes q ≠ [] := by
    intro hno
    have := hp q
    simp [hq, hno] at this
  obtain ⟨s, es, hs⟩ := exists_cons_of_ne_nil hnodes
  have hl : l = (es.filter fun x => m.status x ≠ .cancelled).map fun x => (x, m.threadPa x) := by
    have := hp q
    rw [hq, hs] at this
    exact Option.some.inj this
  have hlen : es.length < fuel := by
    have hnd := (hrep.queue q hnodes).nodup
    have := length_lt_of_isNode hnd fun y hy => hrep.isNode_of_mem hy
    simp only [hs, length_cons] at this
    omega
  have hpos : 0 < fuel := by omega
  refine wp_post (ThreadQueue.wp_dequeue hrep hbase hpos hs hlen) ?_
  rintro r t ⟨own', free', ns, hrep', hheld', hst, hpa, hmatch⟩
  have hother : ∀ {ns}, pendingOf t ns = pendingOf m ns :=
    pendingOf_congr (fun y _ => by rw [hst]) fun y _ => by rw [hpa]
  have hagrees : pendingOf m ns = some l.tail → Agrees base t (update p q (some l.tail)) := by
    intro hns
    refine ⟨own', free', _, hrep', fun y hy => hheld y (hheld' y hy), fun q' => ?_⟩
    by_cases hq' : q' = q
    · subst hq'
      rw [update_self, update_self, hother, hns]
    · rw [update_of_ne hq', update_of_ne hq', hother, hp q']
  rw [filter_eq_dropWhile] at hl
  cases hdrop : es.dropWhile fun y => m.status y = .cancelled with
  | nil =>
    rw [hdrop] at hl hmatch
    obtain ⟨rfl, y, rfl⟩ := hmatch
    obtain rfl : l = [] := hl
    exact ⟨rfl, hagrees rfl⟩
  | cons e es' =>
    rw [hdrop] at hl hmatch
    obtain ⟨rfl, rfl⟩ := hmatch
    have he : ¬ m.status e = .cancelled := by
      have := head_dropWhile_not (fun y => decide (m.status y = .cancelled))
        (l := es) (by simp [hdrop])
      simpa [hdrop] using this
    rw [filter_cons_of_pos (by simpa using he), map_cons] at hl
    subst hl
    exact ⟨rfl, hagrees rfl⟩

theorem Agrees.wp_deinit (hfuel : 0 < fuel) : wp (threadDqDeinit base fuel q)
    (fun _ t => Agrees base t (update p q none)) (fun _ => True) m := by
  obtain ⟨own, free, nodes, hrep, hheld, hp⟩ := h
  refine wp_post (wp_threadDqDeinit hrep hbase hfuel) ?_
  rintro - t ⟨own', free', hrep', hheld', hst, hpa⟩
  refine ⟨own', free', _, hrep', fun y hy => hheld y (hheld' y hy), fun q' => ?_⟩
  by_cases hq' : q' = q
  · subst hq'
    simp
  · rw [update_of_ne hq', update_of_ne hq', hp q']
    exact (pendingOf_congr (fun y _ => by rw [hst]) fun y _ => by rw [hpa]).symm

/-- A call that finds a node when it needs one returns, and the account stays right. -/
theorem Agrees.wp_code {op : Op} (hallowed : op.Allowed base p)
    (hfuel : threadDqPoolSize ≤ fuel) (hnode : op.HasNode m) :
    wp (op.code base fuel) (fun _ t => Agrees base t (op.next t p)) (fun _ => True) m := by
  have hpos : 0 < fuel := Nat.lt_of_lt_of_le (by decide) hfuel
  cases op with
  | init q =>
    exact wp_bind.mpr (wp_post (h.wp_init hbase hallowed hpos hnode) fun _ _ ht => wp_pure.mpr ht)
  | enqueue q thread =>
    exact wp_bind.mpr (wp_post (h.wp_enqueue hbase hallowed hpos hnode) fun _ _ ht => wp_pure.mpr ht)
  | cancel off => exact wp_bind.mpr (wp_post (h.wp_cancel hbase) fun _ _ ht => wp_pure.mpr ht)
  | dequeue q =>
    obtain ⟨l, hl⟩ := Option.ne_none_iff_exists'.mp hallowed
    refine wp_post (h.wp_dequeue hbase hl hfuel) fun _ t ht => ?_
    rw [Op.next, hl]
    exact ht.2
  | deinit q => exact wp_bind.mpr (wp_post (h.wp_deinit hbase hpos) fun _ _ ht => wp_pure.mpr ht)

omit h hbase in
/-- One that does not spins. -/
theorem hasNode_of_outcome {op : Op} (hout : (op.code base fuel).outcome m = .ok r m') :
    op.HasNode m := by
  cases op with
  | init q =>
    intro hempty
    refine (wlp_bind.mpr (wlp_bind.mpr (wlp_mono (wlp_threadDqAllocNode_empty hempty)
      fun _ _ hno => absurd hno id)) : wlp ((Op.init q).code base fuel) (fun _ _ => False) m) r m' hout
  | enqueue q thread =>
    intro hempty
    refine (wlp_bind.mpr (wlp_bind.mpr (wlp_mono (wlp_threadDqAllocNode_empty hempty)
      fun _ _ hno => absurd hno id)) :
        wlp ((Op.enqueue q thread).code base fuel) (fun _ _ => False) m) r m' hout
  | cancel | dequeue | deinit => trivial

theorem Agrees.step {op : Op}
    (hallowed : op.Allowed base p) (hfuel : threadDqPoolSize ≤ fuel)
    (hout : (op.code base fuel).outcome m = .ok r m') : Agrees base m' (op.next m' p) :=
  wlp_of_wp (h.wp_code hbase hallowed hfuel (hasNode_of_outcome hout)) r m' hout

end agrees

theorem Reach.agrees (h : Reach base m p) (hbase : 0 ≤ base) : Agrees base m p := by
  induction h with
  | start hunused hinit =>
    obtain ⟨own, hrep, hheld⟩ := wlp_of_wp (wp_threadDqPoolInit hbase hunused) () _ hinit
    exact ⟨own, _, _, hrep, hheld, fun q => rfl⟩
  | step _ hallowed hfuel hout ih => exact ih.step hbase hallowed hfuel hout

/-- The nodes that are met from `off` on. -/
def walk (m : DqMem) (off : ℤ) : Option (List ℤ) := follow m.next qptrNull threadDqPoolSize off

/-- The queues are first in, first out: a call returns unless it waits for a node; a dequeue
returns the thread that waits for the longest time, and NULL only if none waits.  Every node
but `nodes[0]` is once in the free list or once in one queue. -/
structure Fifo (base : ℤ) (m : DqMem) (p : Pending) : Prop where
  returns : ∀ op : Op, op.Allowed base p → ∀ fuel ≥ threadDqPoolSize,
    (∃ r t, (op.code base fuel).outcome m = .ok r t) ↔ op.HasNode m
  dequeue : ∀ q l, p q = some l → ∀ fuel ≥ threadDqPoolSize,
    ∃ t, (threadDqDequeue fuel q).outcome m = .ok (l.head?.map Prod.snd) t
  place : ∃ (free : List ℤ) (nodes : ℕ → List ℤ), walk m m.freeList = some free ∧
    (∀ q, p q ≠ none → walk m (m.head q) = some (nodes q)) ∧ free.Nodup ∧
    (∀ q, p q ≠ none → (nodes q).Nodup) ∧
    ∀ x, IsNode base x →
      x ∈ free ∧ (∀ q, p q ≠ none → x ∉ nodes q) ∨ x ∉ free ∧ ∃! q, p q ≠ none ∧ x ∈ nodes q

/-- In every state that calls can reach, the queues are first in, first out. -/
theorem thread_queues_are_fifo (h : Reach base m p) (hbase : 0 ≤ base) : Fifo base m p where
  returns op hallowed fuel hfuel := by
    refine ⟨fun ⟨r, t, hout⟩ => hasNode_of_outcome hout, fun hnode => ?_⟩
    obtain ⟨r, t, hout, -⟩ := wp_outcome ((h.agrees hbase).wp_code hbase hallowed hfuel hnode)
    exact ⟨r, t, hout⟩
  dequeue q l hq fuel hfuel := by
    obtain ⟨r, t, hout, rfl, -⟩ := wp_outcome ((h.agrees hbase).wp_dequeue hbase hq hfuel)
    exact ⟨t, hout⟩
  place := by
    obtain ⟨own, free, nodes, hrep, hheld, hp⟩ := h.agrees hbase
    have hne : ∀ q, p q ≠ none → nodes q ≠ [] := fun q hq hno =>
      hq (hp q ▸ pendingOf_eq_none.mpr hno)
    have hmem : ∀ q x, x ∈ nodes q → p q ≠ none := by
      intro q x hx hno
      rw [hp q, pendingOf_eq_none] at hno
      simp [hno] at hx
    refine ⟨free, nodes, ?_, fun q hq => ?_, hrep.stack.nodup,
      fun q hq => (hrep.queue q (hne q hq)).nodup, fun x hx => ?_⟩
    · exact hrep.stack.follow_eq
        (length_lt_of_isNode hrep.stack.nodup fun x hx => hrep.isNode_of_free hx)
    · have hchain := hrep.queue q (hne q hq)
      exact hchain.follow_eq (length_lt_of_isNode hchain.nodup fun x hx => hrep.isNode_of_mem hx)
    · have hown := (hrep.isNode x).mpr hx
      cases hplace : own x with
      | free =>
        refine .inl ⟨(hrep.mem_free x).mpr hplace, fun q _ hxq => ?_⟩
        simp [(hrep.mem_queue q x).mp hxq] at hplace
      | queue q =>
        have hxq := (hrep.mem_queue q x).mpr hplace
        refine .inr ⟨fun hxf => ?_, q, ⟨hmem q x hxq, hxq⟩, fun q' hq' => ?_⟩
        · simp [(hrep.mem_free x).mp hxf] at hplace
        · rw [(hrep.mem_queue q' x).mp hq'.2] at hplace
          simpa using hplace
      | held => exact absurd hplace (hheld x)
      | outside => exact absurd hplace hown

end account

/-- Memory that is cleared. -/
def zeroMem : DqMem := ⟨0, fun _ => 0, fun _ => .free, fun _ => 0, fun _ => 0, fun _ => 0, fun _ => 0⟩

/-- Queue `0` is set up with the first node of the pool. -/
theorem reach_oneQueue : ∃ m own free, Reach 64 m (update (fun _ => none) 0 (some [])) ∧
    Rep 64 m own (nodeOff 64 2 :: nodeOff 64 3 :: free)
      (update (fun _ => []) 0 [nodeOff 64 1]) := by
  have hunused : ∀ q, threadDqNodeOffValid 64 (zeroMem.head q) = false := by
    intro q
    show threadDqNodeOffValid 64 0 = false
    decide
  obtain ⟨⟨⟩, m, hout, own, hrep, -⟩ := wp_outcome (wp_threadDqPoolInit (by decide) hunused)
  have hpool : poolNodes 64 = nodeOff 64 1 :: nodeOff 64 2 :: nodeOff 64 3 ::
    (range' 4 (threadDqPoolSize - 4)).map (nodeOff 64) := rfl
  rw [hpool] at hrep
  have hfirst : m.freeList = nodeOff 64 1 := hrep.stack.1
  have hinit : wp ((Op.init 0).code 64 threadDqPoolSize)
      (fun _ t => t = initialised m 0 (nodeOff 64 1)) (fun _ => True) m := by
    refine wp_bind.mpr (wp_post (wp_threadDqInit (by decide) (by rw [hfirst]; decide)) ?_)
    rintro - t ⟨-, rfl⟩
    exact wp_pure.mpr (by rw [hfirst])
  obtain ⟨r, m', hout', rfl⟩ := wp_outcome hinit
  have hallowed : (Op.init 0).Allowed 64 fun _ => none := rfl
  exact ⟨_, _, _, .step (.start hunused hout) hallowed le_rfl hout',
    hrep.initialised (by decide) rfl⟩

/-- Threads 7 and 8 wait in queue `0`, and 7 is cancelled: 8 comes next. -/
theorem thread_queues_are_fifo_cancelled : ∃ m p, Reach 64 m p ∧ p 0 = some [(112, 8)] ∧
    Fifo 64 m p ∧ ∃ t, (threadDqDequeue threadDqPoolSize 0).outcome m = .ok (some 8) t := by
  obtain ⟨m, own, free, hreach, hrep⟩ := reach_oneQueue
  have henqueue {m : DqMem} {own : ℤ → Place} {x : ℤ} {free : List ℤ} {nodes : ℕ → List ℤ}
      (thread : ℕ) (hrep : Rep 64 m own (x :: free) nodes) (hq : nodes 0 ≠ []) :
      wp ((Op.enqueue 0 thread).code 64 threadDqPoolSize) (fun _ t =>
        Rep 64 t (update own x (.queue 0)) free (update nodes 0 (nodes 0 ++ [x])) ∧
          t.notifDqNodeOff thread = x) (fun _ => True) m := by
    refine wp_bind.mpr (wp_post (wp_threadDqEnqueue hrep (by decide) (by decide) hq) ?_)
    rintro - t ⟨hrep', -, -, hnotif⟩
    exact wp_pure.mpr ⟨hrep', hnotif⟩
  obtain ⟨r₁, m₁, hout₁, hrep₁, hnode₁⟩ := wp_outcome (henqueue 7 hrep (by simp))
  obtain ⟨r₂, m₂, hout₂, -, hnode₂⟩ := wp_outcome (henqueue 8 hrep₁ (by simp))
  have hallowed₁ : (Op.enqueue 0 7).Allowed 64 (update (fun _ => none) 0 (some [])) := by
    simp [Op.Allowed]
  have hreach₁ := hreach.step hallowed₁ le_rfl hout₁
  have hallowed₂ : (Op.enqueue 0 8).Allowed 64
      ((Op.enqueue 0 7).next m₁ (update (fun _ => none) 0 (some []))) := by
    simp [Op.Allowed, Op.next]
  have hreach₂ := hreach₁.step hallowed₂ le_rfl hout₂
  have hcancel : wp ((Op.cancel (nodeOff 64 2)).code 64 threadDqPoolSize) (fun _ _ => True)
      (fun _ => True) m₂ := by
    have hne : nodeOff 64 2 ≠ qptrNull := by decide
    simp only [Op.code, threadDqCancelNode, if_neg hne, wp_bind, wp_store, wp_pure, and_self]
  obtain ⟨r₃, m₃, hout₃, -⟩ := wp_outcome hcancel
  have hnode : IsNode 64 (nodeOff 64 2) := ⟨2, by decide, by decide, rfl⟩
  have hallowed₃ : (Op.cancel (nodeOff 64 2)).Allowed 64
      ((Op.enqueue 0 8).next m₂ ((Op.enqueue 0 7).next m₁ (update (fun _ => none) 0 (some [])))) :=
    .inr hnode
  have hreach₃ := hreach₂.step hallowed₃ le_rfl hout₃
  have hpending : (Op.cancel (nodeOff 64 2)).next m₃ ((Op.enqueue 0 8).next m₂
      ((Op.enqueue 0 7).next m₁ (update (fun _ => none) 0 (some [])))) 0 = some [(112, 8)] := by
    simp [Op.next, hnode₁, hnode₂, nodeOff, nodeSize]
  have hfifo := thread_queues_are_fifo hreach₃ (by decide)
  exact ⟨m₃, _, hreach₃, hpending, hfifo, hfifo.dequeue 0 _ hpending threadDqPoolSize le_rfl⟩

/-- `dsm_copy_irq` sets the waiting list of an object up again without tearing it down: its
old sentinel is neither in the free list nor in the queue any more. -/
theorem reinit_leaks_node : ∃ m m' x, Reach 64 m (update (fun _ => none) 0 (some [])) ∧
    (threadDqInit threadDqPoolSize 0).outcome m = .ok 0 m' ∧ IsNode 64 x ∧
    (∃ free, walk m' m'.freeList = some free ∧ x ∉ free) ∧
    ∃ nodes, walk m' (m'.head 0) = some nodes ∧ x ∉ nodes := by
  obtain ⟨m, own, free, hreach, hrep⟩ := reach_oneQueue
  have hfirst : m.freeList = nodeOff 64 2 := hrep.stack.1
  have hinit : wp (threadDqInit threadDqPoolSize 0)
      (fun r t => r = 0 ∧ t = initialised m 0 m.freeList) (fun _ => True) m :=
    wp_threadDqInit (by decide) (by rw [hfirst]; decide)
  obtain ⟨r, m', hout, rfl, hm'⟩ := wp_outcome hinit
  -- the new queue is the one that is set up after a `thread_dq_deinit`
  have hrep' := (hrep.release (q := 0)).initialised (q := 0) (by decide) (by simp)
  have hsame : initialised ((m.setHead 0 qptrNull).setTail 0 qptrNull) 0 (nodeOff 64 2) = m' := by
    rw [hm', hfirst]
    simp [initialised, DqMem.setHead, DqMem.setTail, DqMem.setFreeList, DqMem.setNext,
      DqMem.setStatus]
  rw [hsame] at hrep'
  refine ⟨m, m', nodeOff 64 1, hreach, hout, ⟨1, by decide, by decide, rfl⟩, ⟨_,
    hrep'.stack.follow_eq (length_lt_of_isNode hrep'.stack.nodup
      fun x hx => hrep'.isNode_of_free hx), ?_⟩, [nodeOff 64 2], ?_, by decide⟩
  · rw [hrep'.mem_free]
    simp [nodeOff, nodeSize]
  · have hchain := hrep'.queue 0 (by simp)
    simp only [update_self] at hchain
    exact hchain.follow_eq (by decide)

end Starfish.ThreadQueue
