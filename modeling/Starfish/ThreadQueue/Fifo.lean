import Mathlib.Tactic.FinCases
import Starfish.SList
import Starfish.ThreadQueue.Model

/-!
# Starfish.ThreadQueue.Fifo

Where the nodes of the pool are.  `Rep` says of a memory which nodes are free and which
ones each queue has, the sentinel first; the function `own` gives every node its one
place, so that what happens to one list is no matter to the others.  The node that an
operation has in its hands is `held`.

There is one lemma for each way that a node changes its place, and each operation is a
sequence of these.
-/

namespace Starfish.ThreadQueue

open Function Prog List

/-- Where an offset is. -/
inductive Place where
  | free
  | queue (q : ℕ)
  | held
  | outside
deriving DecidableEq

/-- The offset of a node that `thread_dq_pool_init` puts on the free list. -/
def IsNode (base x : ℤ) : Prop := ∃ j, 1 ≤ j ∧ j < threadDqPoolSize ∧ x = nodeOff base j

structure Rep (base : ℤ) (m : DqMem) (own : ℤ → Place) (free : List ℤ) (nodes : ℕ → List ℤ) :
    Prop where
  stack : Chain m.next qptrNull m.freeList free
  queue : ∀ q, nodes q ≠ [] → Chain m.next qptrNull (m.head q) (nodes q)
  tail : ∀ q, nodes q ≠ [] → m.tail q = (nodes q).getLastD qptrNull
  unused : ∀ q, nodes q = [] → threadDqNodeOffValid base (m.head q) = false
  mem_free : ∀ x, x ∈ free ↔ own x = .free
  mem_queue : ∀ q x, x ∈ nodes q ↔ own x = .queue q
  isNode : ∀ x, own x ≠ .outside ↔ IsNode base x

section offsets

theorem IsNode.ne_null (h : IsNode base x) (hbase : 0 ≤ base) : x ≠ qptrNull := by
  obtain ⟨j, -, -, rfl⟩ := h
  simp only [nodeOff, qptrNull]
  omega

theorem IsNode.valid (h : IsNode base x) (hbase : 0 ≤ base) :
    threadDqNodeOffValid base x = true := by
  have hne := h.ne_null hbase
  obtain ⟨j, -, hj, rfl⟩ := h
  refine decide_eq_true ⟨hne, ?_⟩
  simp only [nodeOff, nodeSize, threadDqPoolSize] at *
  omega

/-- There are fewer nodes than the pool has entries. -/
theorem length_lt_of_isNode {xs : List ℤ} (hnd : xs.Nodup) (hxs : ∀ x ∈ xs, IsNode base x) :
    xs.length < threadDqPoolSize := by
  have hsub : xs ⊆ (range' 1 (threadDqPoolSize - 1)).map (nodeOff base) := by
    intro x hx
    obtain ⟨j, hj1, hj, rfl⟩ := hxs x hx
    refine mem_map.mpr ⟨j, ?_, rfl⟩
    simp only [mem_range'_1]
    omega
  have hlen := (hnd.subperm hsub).length_le
  rw [length_map, length_range'] at hlen
  have : threadDqPoolSize = 4096 := rfl
  omega

end offsets

namespace Rep

variable {base : ℤ} {m : DqMem} {own : ℤ → Place} {free : List ℤ} {nodes : ℕ → List ℤ}

section

variable (h : Rep base m own free nodes)
include h

theorem congr (hfree : m'.freeList = m.freeList)
    (hnext : m'.next = m.next) (hhead : m'.head = m.head) (htail : m'.tail = m.tail) :
    Rep base m' own free nodes where
  stack := by rw [hfree, hnext]; exact h.stack
  queue q hq := by rw [hnext, hhead]; exact h.queue q hq
  tail q hq := by rw [htail]; exact h.tail q hq
  unused q hq := by rw [hhead]; exact h.unused q hq
  mem_free := h.mem_free
  mem_queue := h.mem_queue
  isNode := h.isNode

theorem isNode_of_held (hx : own x = .held) : IsNode base x := (h.isNode x).mp (by simp [hx])

theorem isNode_of_mem (hx : x ∈ nodes q) : IsNode base x :=
  (h.isNode x).mp (by simp [(h.mem_queue q x).mp hx])

theorem isNode_of_free (hx : x ∈ free) : IsNode base x :=
  (h.isNode x).mp (by simp [(h.mem_free x).mp hx])

/-- The link of a node that is in no list can be anything. -/
theorem setNext (hx : own x = .held) (v : ℤ) : Rep base (m.setNext x v) own free nodes where
  stack := by
    refine h.stack.update (fun hmem => ?_) v
    simp [(h.mem_free x).mp hmem] at hx
  queue q hq := by
    refine (h.queue q hq).update (fun hmem => ?_) v
    simp [(h.mem_queue q x).mp hmem] at hx
  tail := h.tail
  unused := h.unused
  mem_free := h.mem_free
  mem_queue := h.mem_queue
  isNode := h.isNode

theorem isNode_update (hx : own x ≠ .outside)
    (hp : p ≠ .outside) (y : ℤ) : update own x p y ≠ .outside ↔ IsNode base y := by
  have hnode := h.isNode y
  grind

/-! ## Nodes that change their place -/

omit h in
theorem pop (h : Rep base m own (x :: free) nodes) :
    Rep base (m.setFreeList (m.next x)) (update own x .held) free nodes where
  stack := h.stack.2.2
  queue := h.queue
  tail := h.tail
  unused := h.unused
  mem_free y := by
    have hnd := nodup_cons.mp h.stack.nodup
    have hfree := h.mem_free y
    grind
  mem_queue q y := by
    have hx := (h.mem_free x).mp mem_cons_self
    have hqueue := h.mem_queue q y
    grind
  isNode := h.isNode_update (by simp [(h.mem_free x).mp mem_cons_self]) (by simp)

theorem push (hbase : 0 ≤ base) (hx : own x = .held) :
    Rep base ((m.setNext x m.freeList).setFreeList x) (update own x .free) (x :: free) nodes where
  stack := by
    refine h.stack.push (fun hmem => ?_) ((h.isNode_of_held hx).ne_null hbase)
    simp [(h.mem_free x).mp hmem] at hx
  queue := (h.setNext hx m.freeList).queue
  tail := h.tail
  unused := h.unused
  mem_free y := by
    have hfree := h.mem_free y
    grind
  mem_queue q y := by
    have hqueue := h.mem_queue q y
    grind
  isNode := h.isNode_update (by simp [hx]) (by simp)

/-- The nodes of one queue are replaced; `hown` says where they go. -/
theorem setQueue {own' : ℤ → Place} (hfree : Chain m'.next qptrNull m'.freeList free)
    (hqueue : ns ≠ [] → Chain m'.next qptrNull (m'.head q) ns ∧ m'.tail q = ns.getLastD qptrNull)
    (hunused : ns = [] → threadDqNodeOffValid base (m'.head q) = false)
    (hother : ∀ q', q' ≠ q → nodes q' ≠ [] → Chain m'.next qptrNull (m.head q') (nodes q'))
    (hhead : ∀ q', q' ≠ q → m'.head q' = m.head q')
    (htail : ∀ q', q' ≠ q → m'.tail q' = m.tail q')
    (hin : ∀ y, y ∈ ns ↔ own' y = .queue q)
    (hown : ∀ y p, p ≠ .queue q → p ≠ .held → (own' y = p ↔ own y = p)) :
    Rep base m' own' free (update nodes q ns) where
  stack := hfree
  queue q' hq' := by
    by_cases heq : q' = q
    · subst heq
      rw [update_self] at hq' ⊢
      exact (hqueue hq').1
    · rw [update_of_ne heq] at hq' ⊢
      rw [hhead q' heq]
      exact hother q' heq hq'
  tail q' hq' := by
    by_cases heq : q' = q
    · subst heq
      rw [update_self] at hq' ⊢
      exact (hqueue hq').2
    · rw [update_of_ne heq] at hq' ⊢
      rw [htail q' heq]
      exact h.tail q' hq'
  unused q' hq' := by
    by_cases heq : q' = q
    · subst heq
      rw [update_self] at hq'
      exact hunused hq'
    · rw [update_of_ne heq] at hq'
      rw [hhead q' heq]
      exact h.unused q' hq'
  mem_free y := by rw [h.mem_free y, hown y .free (by simp) (by simp)]
  mem_queue q' y := by
    by_cases heq : q' = q
    · subst heq
      rw [update_self]
      exact hin y
    · rw [update_of_ne heq, h.mem_queue q' y, hown y (.queue q') (by simpa using heq) (by simp)]
  isNode y := by
    rw [← h.isNode y, not_iff_not]
    exact hown y .outside (by simp) (by simp)

theorem sentinel (hbase : 0 ≤ base) (hx : own x = .held)
    (hq : nodes q = []) (hnext : m.next x = qptrNull) :
    Rep base ((m.setHead q x).setTail q x) (update own x (.queue q)) free (update nodes q [x]) := by
  refine h.setQueue h.stack (fun _ => ?_) (by simp) (fun q' _ => h.queue q') ?_ ?_ ?_ ?_
  · refine ⟨?_, by simp⟩
    simp only [DqMem.setTail_head, DqMem.setHead_head, update_self]
    exact ⟨rfl, (h.isNode_of_held hx).ne_null hbase, hnext⟩
  · exact fun q' hne => by simp [hne]
  · exact fun q' hne => by simp [hne]
  · intro y
    have hqueue := h.mem_queue q y
    grind
  · grind

theorem append (hbase : 0 ≤ base)
    (hx : own x = .held) (hq : nodes q = ns ++ [l]) (hnext : m.next x = qptrNull) :
    Rep base ((m.setNext l x).setTail q x) (update own x (.queue q)) free
      (update nodes q (ns ++ [l, x])) := by
  have hne : nodes q ≠ [] := by simp [hq]
  have hl : own l = .queue q := (h.mem_queue q l).mp (by simp [hq])
  have hnot : x ∉ nodes q := by
    rw [h.mem_queue q x, hx]
    simp
  refine h.setQueue ?_ (fun _ => ⟨?_, ?_⟩) (by simp) ?_ (fun _ _ => rfl) ?_ ?_ ?_
  · refine h.stack.update (fun hmem => ?_) x
    simp [(h.mem_free l).mp hmem] at hl
  · have hchain := h.queue q hne
    rw [hq] at hchain
    exact hchain.append (hq ▸ hnot) ((h.isNode_of_held hx).ne_null hbase) hnext
  · simp
  · intro q' hne' hq'
    refine (h.queue q' hq').update (fun hmem => ?_) x
    rw [(h.mem_queue q' l).mp hmem] at hl
    exact hne' (by simpa using hl)
  · exact fun q' hne' => by simp [hne']
  · intro y
    have hqueue := h.mem_queue q y
    grind
  · grind

theorem shift (hq : nodes q = x :: e :: es) : Rep base (m.setHead q e) (update own x .held) free
      (update nodes q (e :: es)) := by
  have hne : nodes q ≠ [] := by simp [hq]
  have hchain := h.queue q hne
  rw [hq] at hchain
  have hx : own x = .queue q := (h.mem_queue q x).mp (by simp [hq])
  have hnd := nodup_cons.mp hchain.nodup
  refine h.setQueue h.stack (fun _ => ⟨?_, ?_⟩) (by simp) (fun q' _ => h.queue q') ?_
    (fun _ _ => rfl) ?_ ?_
  · obtain ⟨rfl, -, he, hrest⟩ := hchain
    simp only [DqMem.setHead_head, update_self]
    exact ⟨rfl, hrest⟩
  · rw [DqMem.setHead_tail, h.tail q hne, hq]
    simp
  · exact fun q' hne' => by simp [hne']
  · intro y
    have hqueue := h.mem_queue q y
    grind
  · grind

theorem release : Rep base ((m.setHead q qptrNull).setTail q qptrNull)
      (fun y => if y ∈ nodes q then .held else own y) free (update nodes q []) := by
  refine h.setQueue h.stack (fun hno => absurd rfl hno) (fun _ => ?_) (fun q' _ => h.queue q')
    ?_ ?_ ?_ ?_
  · simp [threadDqNodeOffValid]
  · exact fun q' hne' => by simp [hne']
  · exact fun q' hne' => by simp [hne']
  · intro y
    split
    · simp
    · next hy => simpa [h.mem_queue q y] using hy
  · intro y p hp hp'
    split
    · next hy =>
        rw [(h.mem_queue q y).mp hy]
        exact iff_of_false hp'.symm hp.symm
    · rfl

end

end Rep

/-! ## The pool at the start -/

section poolInit

variable {base : ℤ}

theorem nodeOff_inj (h : nodeOff base i = nodeOff base j) : i = j := by
  simp only [nodeOff, nodeSize] at h
  omega

/-- The nodes of the pool but `nodes[0]`. -/
def poolNodes (base : ℤ) : List ℤ := (List.range' 1 (threadDqPoolSize - 1)).map (nodeOff base)

theorem mem_poolNodes : x ∈ poolNodes base ↔ IsNode base x := by
  simp only [poolNodes, mem_map, mem_range'_1, IsNode]
  refine exists_congr fun j => ?_
  have : threadDqPoolSize = 4096 := rfl
  exact ⟨fun h => ⟨by omega, by omega, h.2.symm⟩, fun h => ⟨by omega, h.2.2.symm⟩⟩

/-- `thread_dq_pool_init` makes the nodes a stack, the lowest one first. -/
theorem wp_threadDqPoolInit_chain (hbase : 0 ≤ base) : wp (threadDqPoolInit base) (fun _ t =>
    t.head = m.head ∧ Chain t.next qptrNull t.freeList (poolNodes base)) (fun _ => True) m := by
  rw [threadDqPoolInit, wp_bind, wp_store]
  refine ⟨trivial, ?_⟩
  have hloop := wp_forUpTo (n := threadDqPoolSize - 1) (C := fun _ => True)
    (s := m.setFreeList qptrNull)
    (f := fun i => do
      let off := nodeOff base (threadDqPoolSize - 1 - i)
      store (·.setStatus off .free)
      store fun m => m.setNext off m.freeList
      store (·.setFreeList off))
    (I := fun i t => t.head = m.head ∧ Chain t.next qptrNull t.freeList
      ((range' (threadDqPoolSize - i) i).map (nodeOff base))) ⟨rfl, rfl⟩ ?_
  · exact hloop
  · rintro i t hi ⟨hhead, hchain⟩
    simp only [wp_bind, wp_store, true_and]
    refine ⟨hhead, ?_⟩
    have hrange : range' (threadDqPoolSize - (i + 1)) (i + 1) =
        (threadDqPoolSize - 1 - i) :: range' (threadDqPoolSize - i) i := by
      rw [range'_succ]
      congr 1
      · omega
      · congr 1
        omega
    rw [hrange, map_cons]
    refine hchain.push ?_ ?_
    · intro hmem
      obtain ⟨j, hj, heq⟩ := mem_map.mp hmem
      rw [mem_range'_1] at hj
      have := nodeOff_inj heq
      omega
    · simp only [nodeOff, qptrNull]
      omega

end poolInit

end Starfish.ThreadQueue
