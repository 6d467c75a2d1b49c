import Starfish.Interleave
import Starfish.ThreadQueue.Fifo

/-!
# Starfish.ThreadQueue.FreeList

The free list of the node pool under any number of CPUs, which allocate and free nodes
at the same time.  A step is one access to shared memory: `Phase` is the point of
`thread_dq_alloc_node_try` or `thread_dq_free_node` that a CPU has reached, and
`acts_of_alloc` and `acts_of_free` say that these are the steps of the code.

A CPU that wants the first node reads its link and then swaps the head of the list from
the node to that link.  The swap compares the node only.  If the node has left the list
and come back in between, the link may be an old one; then the list is broken
(`node_handed_out_twice`).  Otherwise every node is in one place
(`nodes_exclusive_in_careful_runs`).
-/

namespace Starfish.ThreadQueue

open Relation Function Prog

attribute [local simp] Prog.next

/-! ## Steps -/

/-- Where a CPU is. -/
inductive Phase where
  | idle
  /-- Before the load of the head in `thread_dq_alloc_node_try`. -/
  | alloc
  /-- Before the load of the link of `head`. -/
  | allocHead (head : ℤ)
  /-- Before the swap of `head` for `next`. -/
  | allocNext (head next : ℤ)
  /-- Before the load of the head in `thread_dq_free_node`. -/
  | free (node : ℤ)
  /-- Before the store of `head` to the link of the node. -/
  | freeHead (node head : ℤ)
  /-- Before the swap of `head` for the node. -/
  | freeNext (node head : ℤ)

/-- The node that a CPU frees. -/
@[simp] def Phase.node? : Phase → Option ℤ
  | free node => some node
  | freeHead node _ => some node
  | freeNext node _ => some node
  | _ => none

/-- The node that a CPU wants. -/
@[simp] def Phase.head? : Phase → Option ℤ
  | allocHead head => some head
  | allocNext head _ => some head
  | _ => none

/-- The memory and the nodes that are handed out. -/
structure Shared where
  mem : DqMem
  owned : List ℤ

/-- What a CPU can do. -/
inductive Acts : Shared → Phase → Shared → Phase → Prop
  | callAlloc {s : Shared} : Acts s .idle s .alloc
  | loadNull {s : Shared} (h : s.mem.freeList = qptrNull) : Acts s .alloc s .idle
  | loadHead {s : Shared} (h : s.mem.freeList ≠ qptrNull) :
      Acts s .alloc s (.allocHead s.mem.freeList)
  | loadNext {s : Shared} {head : ℤ} :
      Acts s (.allocHead head) s (.allocNext head (s.mem.next head))
  | allocCas {s : Shared} {head next : ℤ} (h : s.mem.freeList = head) :
      Acts s (.allocNext head next) ⟨s.mem.setFreeList next, head :: s.owned⟩ .idle
  | allocRetry {s : Shared} {head next : ℤ} (h : s.mem.freeList ≠ head) :
      Acts s (.allocNext head next) s .alloc
  /-- Only a node that was handed out is freed, and it belongs to the CPU from then on. -/
  | callFree {s : Shared} {node : ℤ} (h : node ∈ s.owned) :
      Acts s .idle ⟨s.mem, s.owned.erase node⟩ (.free node)
  | freeLoad {s : Shared} {node : ℤ} : Acts s (.free node) s (.freeHead node s.mem.freeList)
  | freeLink {s : Shared} {node head : ℤ} :
      Acts s (.freeHead node head) ⟨s.mem.setNext node head, s.owned⟩ (.freeNext node head)
  | freeCas {s : Shared} {node head : ℤ} (h : s.mem.freeList = head) :
      Acts s (.freeNext node head) ⟨s.mem.setFreeList node, s.owned⟩ .idle
  | freeRetry {s : Shared} {node head : ℤ} (h : s.mem.freeList ≠ head) :
      Acts s (.freeNext node head) s (.free node)
  /-- An owner links its node into a queue. -/
  | use {s : Shared} {node off : ℤ} (h : node ∈ s.owned) :
      Acts s .idle ⟨s.mem.setNext node off, s.owned⟩ .idle

/-- The swap of an allocation puts the link in place that the node has. -/
def Fresh (s : Shared) : Phase → Prop
  | .allocNext head next => s.mem.freeList = head → s.mem.next head = next
  | _ => True

/-- A step that does not swap an old link in. -/
def CarefulActs (s : Shared) (p : Phase) (s' : Shared) (p' : Phase) : Prop :=
  Fresh s p ∧ Acts s p s' p'

/-- All CPUs are idle and the pool has just been set up. -/
@[simp] def start {T : Type} (m : DqMem) : Threads T Shared Phase := ⟨⟨m, []⟩, fun _ => .idle⟩

/-! ## The steps are those of the code -/

section code

variable {n : ℕ} {head next node : ℤ}

/-- `thread_dq_alloc_node_try` before the swap, with `n` more passes. -/
def codeAllocNext (n : ℕ) (head next : ℤ) : Prog DqMem ℤ := do
  let ok ← casFreeList head next
  if ok then pure head else threadDqAllocNodeTry n

/-- Before the load of the link. -/
def codeAllocHead (n : ℕ) (head : ℤ) : Prog DqMem ℤ := do
  let next ← read (·.next head)
  codeAllocNext n head next

/-- `thread_dq_free_node` before the swap. -/
def codeFreeNext (n : ℕ) (node head : ℤ) : Prog DqMem Unit := do
  let ok ← casFreeList head node
  if ok then pure () else threadDqFreeNode n node

/-- Before the store to the link. -/
def codeFreeHead (n : ℕ) (node head : ℤ) : Prog DqMem Unit := do
  store (·.setNext node head)
  codeFreeNext n node head

theorem threadDqAllocNodeTry_succ : threadDqAllocNodeTry (n + 1) = (do
    let head ← read (·.freeList)
    if head = qptrNull then pure qptrNull else codeAllocHead n head) := by
  rw [threadDqAllocNodeTry, loop, bind_assoc]
  refine congrArg _ (funext fun head => ?_)
  split
  · rfl
  · rw [codeAllocHead, bind_assoc]
    refine congrArg _ (funext fun next => ?_)
    rw [codeAllocNext, bind_assoc]
    refine congrArg _ (funext fun ok => ?_)
    cases ok <;> rfl

theorem threadDqFreeNode_succ : threadDqFreeNode (n + 1) node = (do
    let head ← read (·.freeList)
    codeFreeHead n node head) := by
  rw [threadDqFreeNode, loop, bind_assoc]
  refine congrArg _ (funext fun head => ?_)
  rw [codeFreeHead, bind_assoc]
  refine congrArg _ (funext fun _ => ?_)
  rw [codeFreeNext, bind_assoc]
  refine congrArg _ (funext fun ok => ?_)
  cases ok <;> rfl

/-- The point of an allocation, before it returns, that a phase stands for. -/
inductive AtAlloc : Phase → Prog DqMem ℤ → Prop
  | alloc {n : ℕ} : AtAlloc .alloc (threadDqAllocNodeTry n)
  | head {n : ℕ} {head : ℤ} : AtAlloc (.allocHead head) (codeAllocHead n head)
  | next {n : ℕ} {head next : ℤ} : AtAlloc (.allocNext head next) (codeAllocNext n head next)

/-- The point of `thread_dq_free_node` that a phase stands for. -/
inductive AtFree : Phase → Prog DqMem Unit → Prop
  | free {n : ℕ} {node : ℤ} : AtFree (.free node) (threadDqFreeNode n node)
  | head {n : ℕ} {node head : ℤ} : AtFree (.freeHead node head) (codeFreeHead n node head)
  | next {n : ℕ} {node head : ℤ} : AtFree (.freeNext node head) (codeFreeNext n node head)
  | done : AtFree .idle (pure ())

/-- Every step of the code of an allocation is one of a CPU.  The last one returns `QPTR_NULL`, or
the node that it hands out. -/
theorem acts_of_alloc (h : AtAlloc p c) (hnext : c.next m = some (c', m')) :
    c' = pure qptrNull ∧ Acts ⟨m, owned⟩ p ⟨m', owned⟩ .idle ∨
      (∃ node, c' = pure node ∧ Acts ⟨m, owned⟩ p ⟨m', node :: owned⟩ .idle) ∨
      ∃ p', Acts ⟨m, owned⟩ p ⟨m', owned⟩ p' ∧ AtAlloc p' c' := by
  cases h with
  | @alloc n =>
    cases n with
    | zero => simp [threadDqAllocNodeTry, loop] at hnext
    | succ n =>
      rw [threadDqAllocNodeTry_succ] at hnext
      obtain ⟨rfl, rfl⟩ := of_next_read_bind hnext
      by_cases hnull : m.freeList = qptrNull
      · exact .inl ⟨if_pos hnull, .loadNull hnull⟩
      · exact .inr (.inr ⟨_, .loadHead hnull, by rw [if_neg hnull]; exact .head⟩)
  | @head n head =>
    obtain ⟨rfl, rfl⟩ := of_next_read_bind hnext
    exact .inr (.inr ⟨_, .loadNext, .next⟩)
  | @next n head next =>
    obtain ⟨heq, rfl, rfl⟩ | ⟨hne, rfl, rfl⟩ := of_next_cas_bind hnext
    · exact .inr (.inl ⟨head, rfl, .allocCas heq⟩)
    · exact .inr (.inr ⟨_, .allocRetry hne, .alloc (n := n)⟩)

/-- Every step of the code of `thread_dq_free_node` is one of a CPU. -/
theorem acts_of_free (h : AtFree p c) (hnext : c.next m = some (c', m')) :
    ∃ p', Acts ⟨m, owned⟩ p ⟨m', owned⟩ p' ∧ AtFree p' c' := by
  cases h with
  | @free n node =>
    cases n with
    | zero => simp [threadDqFreeNode, loop] at hnext
    | succ n =>
      rw [threadDqFreeNode_succ] at hnext
      obtain ⟨rfl, rfl⟩ := of_next_read_bind hnext
      exact ⟨.freeHead node m.freeList, .freeLoad, .head⟩
  | @head n node head =>
    obtain ⟨rfl, rfl⟩ := of_next_store_bind hnext
    exact ⟨.freeNext node head, .freeLink, .next⟩
  | @next n node head =>
    obtain ⟨heq, rfl, rfl⟩ | ⟨hne, rfl, rfl⟩ := of_next_cas_bind hnext
    · exact ⟨.idle, .freeCas heq, .done⟩
    · exact ⟨.free node, .freeRetry hne, .free (n := n)⟩
  | done => simp [pure] at hnext

end code

/-! ## Every node is in one place -/

/-- Who has a node. -/
inductive Owner (T : Type) where
  | free
  | client
  | cpu (i : T)
  | outside

open Phase

section exclusive

variable {T : Type} {base : ℤ}

/-- `xs` is the free list, and `own` gives every node its place. -/
structure Held (base : ℤ) (w : Threads T Shared Phase) (own : ℤ → Owner T) (xs : List ℤ) :
    Prop where
  stack : Chain w.mem.mem.next qptrNull w.mem.mem.freeList xs
  nodup : w.mem.owned.Nodup
  mem_free : ∀ x, x ∈ xs ↔ own x = .free
  mem_owned : ∀ x, x ∈ w.mem.owned ↔ own x = .client
  cpu : ∀ i x, (w.pc i).node? = some x ↔ own x = .cpu i
  isNode : ∀ x, own x ≠ .outside ↔ IsNode base x
  ne_null : ∀ i head, (w.pc i).head? = some head → head ≠ qptrNull
  /-- A node that is about to be pushed is linked to the head that was read. -/
  link : ∀ i x head, w.pc i = .freeNext x head → w.mem.mem.next x = head

/-- No node has two owners, and a node without an owner is in the free list. -/
structure Exclusive (base : ℤ) (w : Threads T Shared Phase) : Prop where
  nodup : w.mem.owned.Nodup
  cpu : ∀ i x, (w.pc i).node? = some x → x ∉ w.mem.owned
  once : ∀ i j x, (w.pc i).node? = some x → (w.pc j).node? = some x → i = j
  free : ∃ xs, Chain w.mem.mem.next qptrNull w.mem.mem.freeList xs ∧
    (∀ x ∈ xs, x ∉ w.mem.owned ∧ ∀ i, (w.pc i).node? ≠ some x) ∧
    ∀ x, IsNode base x → x ∉ w.mem.owned → (∀ i, (w.pc i).node? ≠ some x) → x ∈ xs

theorem Held.exclusive {own : ℤ → Owner T} (h : Held base w own xs) : Exclusive base w where
  nodup := h.nodup
  cpu i x hx hmem := by
    rw [h.cpu i x] at hx
    rw [h.mem_owned x, hx] at hmem
    simp at hmem
  once i j x hi hj := by
    rw [h.cpu i x] at hi
    rw [h.cpu j x, hi] at hj
    simpa using hj
  free := by
    refine ⟨xs, h.stack, fun x hx => ⟨fun hmem => ?_, fun i hi => ?_⟩, fun x hx hno hcpu => ?_⟩
    · rw [h.mem_free x] at hx
      rw [h.mem_owned x, hx] at hmem
      simp at hmem
    · rw [h.mem_free x] at hx
      rw [h.cpu i x, hx] at hi
      simp at hi
    · have hown := (h.isNode x).mpr hx
      rw [h.mem_free x]
      cases hplace : own x with
      | free => rfl
      | client => exact absurd ((h.mem_owned x).mpr hplace) hno
      | cpu i => exact absurd ((h.cpu i x).mpr hplace) (hcpu i)
      | outside => exact absurd hplace hown

section steps

variable [DecidableEq T] {w : Threads T Shared Phase} {own own' : ℤ → Owner T} {xs xs' : List ℤ}

section

variable (h : Held base w own xs)
include h

/-- A step of CPU `i` leaves the nodes of the other CPUs alone. -/
theorem Held.move
    (hstack : Chain s'.mem.next qptrNull s'.mem.freeList xs') (hnodup : s'.owned.Nodup)
    (hfree : ∀ x, x ∈ xs' ↔ own' x = .free) (howned : ∀ x, x ∈ s'.owned ↔ own' x = .client)
    (hself : ∀ x, p'.node? = some x ↔ own' x = .cpu i)
    (hother : ∀ x j, j ≠ i → (own' x = .cpu j ↔ own x = .cpu j))
    (hout : ∀ x, own' x = .outside ↔ own x = .outside)
    (hnull : ∀ head, p'.head? = some head → head ≠ qptrNull)
    (hlink : ∀ x head, p' = .freeNext x head → s'.mem.next x = head)
    (hlinks : ∀ x j, j ≠ i → own x = .cpu j → s'.mem.next x = w.mem.mem.next x) :
    Held base (w.move i s' p') own' xs' := by
  obtain ⟨-, -, -, -, hcpu, hnode, hnulls, hold⟩ := h
  refine ⟨hstack, hnodup, hfree, howned, by grind, fun x => ?_, by grind, fun j x head hj => ?_⟩
  · rw [← hnode x]
    exact not_congr (hout x)
  · by_cases hji : j = i
    · subst hji
      rw [w.move_pc_self] at hj
      exact hlink x head hj
    · rw [w.move_pc_of_ne hji] at hj
      have hx : own x = .cpu j := (hcpu j x).mp (by simp [hj])
      rw [w.move_mem, hlinks x j hji hx]
      exact hold j x head hj

theorem Held.look (hnode : p'.node? = (w.pc i).node?)
    (hnull : ∀ head, p'.head? = some head → head ≠ qptrNull)
    (hlink : ∀ x head, p' ≠ .freeNext x head) : Held base (w.move i w.mem p') own xs := by
  refine h.move h.stack h.nodup h.mem_free h.mem_owned (fun x => ?_) (fun _ _ _ => Iff.rfl)
    (fun _ => Iff.rfl) hnull (fun x head hp => absurd hp (hlink x head)) fun _ _ _ _ => rfl
  rw [hnode]
  exact h.cpu i x

theorem Held.allocCas {head next : ℤ}
    (hpc : w.pc i = .allocNext head next) (hhead : w.mem.mem.freeList = head)
    (hnext : w.mem.mem.next head = next) :
    ∃ own' xs', Held base (w.move i ⟨w.mem.mem.setFreeList next, head :: w.mem.owned⟩ .idle)
      own' xs' := by
  have hne : head ≠ qptrNull := h.ne_null i head (by simp [hpc])
  obtain ⟨rest, rfl, hrest⟩ := h.stack.eq_cons (hhead ▸ hne)
  rw [hhead] at h hrest
  have hnd := List.nodup_cons.mp h.stack.nodup
  have hown : own head = .free := (h.mem_free head).mp List.mem_cons_self
  have hnot : head ∉ w.mem.owned := by
    rw [h.mem_owned, hown]
    simp
  have hcpu (x : ℤ) := h.cpu i x
  have howned := h.mem_owned
  have hfree := h.mem_free
  simp only [hpc, node?] at hcpu
  refine ⟨update own head .client, rest, h.move (hnext ▸ hrest)
    (List.nodup_cons.mpr ⟨hnot, h.nodup⟩) (fun x => ?_) (fun x => ?_) (fun x => ?_)
    (fun x j _ => ?_) (fun x => ?_) (by simp [Phase.head?]) (by simp) fun _ _ _ _ => rfl⟩
  all_goals by_cases hx : x = head
  · rw [hx, update_self]
    exact iff_of_false hnd.1 (by simp)
  · rw [update_of_ne hx, ← h.mem_free x, List.mem_cons]
    exact (or_iff_right hx).symm
  · simp [hx]
  · rw [update_of_ne hx, ← h.mem_owned x, List.mem_cons]
    exact or_iff_right hx
  · simp [hx, Phase.node?]
  · simpa [update_of_ne hx, Phase.node?] using hcpu x
  · simp [hx, hown]
  · rw [update_of_ne hx]
  · simp [hx, hown]
  · rw [update_of_ne hx]

theorem Held.callFree (hpc : w.pc i = .idle) (hmem : node ∈ w.mem.owned) :
    Held base (w.move i ⟨w.mem.mem, w.mem.owned.erase node⟩ (.free node))
      (update own node (.cpu i)) xs := by
  have hown : own node = .client := (h.mem_owned node).mp hmem
  have hcpu (x : ℤ) := h.cpu i x
  have howned := h.mem_owned
  have hfree := h.mem_free
  have hnd := h.nodup
  simp only [hpc, node?] at hcpu
  refine h.move h.stack (h.nodup.erase node) (fun x => ?_) (fun x => ?_) (fun x => ?_)
    (fun x j hj => ?_) (fun x => ?_) (by simp) (by simp) fun _ _ _ _ => rfl
  all_goals grind [node?]

/-- The link of a node that is in no list can be anything. -/
theorem Held.setNext (hfree : own node ≠ .free)
    (hcpu : ∀ j, own node = .cpu j → j = i) (hnode : p'.node? = (w.pc i).node?)
    (hnull : ∀ head, p'.head? = some head → head ≠ qptrNull)
    (hlink : ∀ x head, p' = .freeNext x head → x = node ∧ head = off) :
    Held base (w.move i ⟨w.mem.mem.setNext node off, w.mem.owned⟩ p') own xs := by
  refine h.move (h.stack.update (fun hmem => hfree ((h.mem_free node).mp hmem)) off) h.nodup
    h.mem_free h.mem_owned (fun x => ?_) (fun _ _ _ => Iff.rfl) (fun _ => Iff.rfl) hnull
    (fun x head hp => ?_) fun x j hj hx => ?_
  · rw [hnode]
    exact h.cpu i x
  · obtain ⟨rfl, rfl⟩ := hlink x head hp
    simp
  · have hne : x ≠ node := fun heq => hj (hcpu j (heq ▸ hx))
    simp [hne]

theorem Held.freeCas (hbase : 0 ≤ base)
    (hpc : w.pc i = .freeNext node head) (hhead : w.mem.mem.freeList = head) :
    Held base (w.move i ⟨w.mem.mem.setFreeList node, w.mem.owned⟩ .idle)
      (update own node .free) (node :: xs) := by
  have hown : own node = .cpu i := (h.cpu i node).mp (by simp [hpc])
  have hne : node ≠ qptrNull := ((h.isNode node).mp (by simp [hown])).ne_null hbase
  have hstack : Chain w.mem.mem.next qptrNull node (node :: xs) := by
    refine ⟨rfl, hne, ?_⟩
    rw [h.link i node head hpc, ← hhead]
    exact h.stack
  have hcpu (x : ℤ) := h.cpu i x
  have howned := h.mem_owned
  have hfree := h.mem_free
  simp only [hpc, node?] at hcpu
  refine h.move hstack h.nodup (fun x => ?_) (fun x => ?_) (fun x => ?_) (fun x j hj => ?_)
    (fun x => ?_) (by simp) (by simp) fun _ _ _ _ => rfl
  all_goals grind [node?]

/-- Every careful step keeps every node in one place. -/
theorem Held.step (hbase : 0 ≤ base) (hacts : CarefulActs w.mem (w.pc i) s' p') :
    ∃ own' xs', Held base (w.move i s' p') own' xs' := by
  obtain ⟨hfresh, hacts⟩ := hacts
  generalize hpc : w.pc i = p at hfresh hacts
  cases hacts with
  | callAlloc | loadNull | allocRetry | freeLoad | freeRetry =>
    exact ⟨own, xs, h.look (by simp [hpc]) (by simp) (by simp)⟩
  | loadHead hne =>
    exact ⟨own, xs, h.look (by simp [hpc]) (by simpa using hne) (by simp)⟩
  | @loadNext head =>
    have hne := h.ne_null i head (by simp [hpc])
    exact ⟨own, xs, h.look (by simp [hpc]) (by simpa using hne) (by simp)⟩
  | allocCas hhead => exact h.allocCas hpc hhead (hfresh hhead)
  | callFree hmem => exact ⟨_, xs, h.callFree hpc hmem⟩
  | @freeLink node head =>
    have hown : own node = .cpu i := (h.cpu i node).mp (by simp [hpc])
    refine ⟨own, xs, h.setNext (by simp [hown]) (fun j hj => ?_) (by simp [hpc])
      (by simp) fun x head' hp => ?_⟩
    · rw [hown] at hj
      simpa using hj.symm
    · simpa [eq_comm] using hp
  | freeCas hhead => exact ⟨_, _, h.freeCas hbase hpc hhead⟩
  | @use node off hmem =>
    have hown : own node = .client := (h.mem_owned node).mp hmem
    exact ⟨own, xs, h.setNext (by simp [hown]) (fun j hj => by simp [hown] at hj)
      (by simp [hpc]) (by simp) (by simp)⟩

end

end steps

/-- In every run in which no allocation swaps an old link in, no node has two owners and
no node is lost. -/
theorem nodes_exclusive_in_careful_runs [DecidableEq T] {m₀ m : DqMem} (hbase : 0 ≤ base)
    (hinit : (threadDqPoolInit base).outcome m₀ = .ok () m) {w : Threads T Shared Phase}
    (hrun : ReflTransGen (Threads.Step CarefulActs) (start m) w) : Exclusive base w := by
  have hheld : ∃ own xs, Held base w own xs := by
    induction hrun with
    | refl =>
      obtain ⟨-, hchain⟩ := wlp_of_wp (wp_threadDqPoolInit_chain hbase) () m hinit
      classical
      refine ⟨fun x => if IsNode base x then .free else .outside, poolNodes base, hchain,
        List.nodup_nil, fun x => ?_, fun x => ?_, fun i x => ?_, fun x => ?_,
        by simp, by simp⟩
      · rw [mem_poolNodes]
        by_cases hx : IsNode base x <;> simp [hx]
      · by_cases hx : IsNode base x <;> simp [hx]
      · by_cases hx : IsNode base x <;> simp [hx]
      · by_cases hx : IsNode base x <;> simp [hx]
    | tail _ hstep ih =>
      obtain ⟨own, xs, h⟩ := ih
      obtain ⟨hacts⟩ := hstep
      exact h.step hbase hacts
  obtain ⟨own, xs, h⟩ := hheld
  exact h.exclusive

end exclusive

/-! ## A run in which a node is handed out twice -/

/-- A CPU that does its steps without the others. -/
abbrev Alone : Shared × Phase → Shared × Phase → Prop :=
  ReflTransGen fun s t => CarefulActs s.1 s.2 t.1 t.2

theorem alone_alloc (hne : s.mem.freeList ≠ qptrNull) :
    Alone (s, .idle) (⟨s.mem.setFreeList (s.mem.next s.mem.freeList),
      s.mem.freeList :: s.owned⟩, .idle) := by
  have h1 : Alone (s, .idle) (s, .alloc) := .single ⟨trivial, .callAlloc⟩
  have h2 := h1.tail (c := (s, .allocHead s.mem.freeList)) ⟨trivial, .loadHead hne⟩
  have h3 := h2.tail (c := (s, .allocNext s.mem.freeList (s.mem.next s.mem.freeList)))
    ⟨trivial, .loadNext⟩
  exact h3.tail ⟨fun _ => rfl, .allocCas rfl⟩

theorem alone_free (hmem : node ∈ s.owned) :
    Alone (s, .idle) (⟨(s.mem.setNext node s.mem.freeList).setFreeList node,
      s.owned.erase node⟩, .idle) := by
  have h1 : Alone (s, .idle) (⟨s.mem, s.owned.erase node⟩, .free node) :=
    .single ⟨trivial, .callFree hmem⟩
  have h2 := h1.tail (c := (⟨s.mem, s.owned.erase node⟩, .freeHead node s.mem.freeList))
    ⟨trivial, .freeLoad⟩
  have h3 := h2.tail (c := (⟨s.mem.setNext node s.mem.freeList, s.owned.erase node⟩,
    .freeNext node s.mem.freeList)) ⟨trivial, .freeLink⟩
  exact h3.tail ⟨trivial, .freeCas rfl⟩

theorem run_alone_idle {pc : Bool → Phase} (hpc : pc i = .idle) (h : Alone (s, .idle) (s', .idle)) :
    ReflTransGen (Threads.Step CarefulActs) ⟨s, pc⟩ ⟨s', pc⟩ := by
  have hrun := Threads.run_alone (w := ⟨s, pc⟩) i (hpc ▸ h)
  rwa [Threads.move_self] at hrun

theorem run_acts {T : Type} [DecidableEq T] {w w' : Threads T Shared Phase}
    (h : ReflTransGen (Threads.Step CarefulActs) w w') :
    ReflTransGen (Threads.Step Acts) w w' := by
  refine h.lift id ?_
  rintro _ _ ⟨hacts⟩
  exact .intro hacts.2

/-- The first nodes of a pool that has just been set up. -/
theorem poolInit_first : ∃ m₀ m, (threadDqPoolInit 64).outcome m₀ = .ok () m ∧
    m.freeList = 80 ∧ m.next 80 = 96 ∧ m.next 96 = 112 := by
  have hinit := wp_threadDqPoolInit_chain
    (m := ⟨0, fun _ => 0, fun _ => .free, fun _ => 0, fun _ => 0, fun _ => 0, fun _ => 0⟩)
    (show (0 : ℤ) ≤ 64 by decide)
  obtain ⟨⟨⟩, m, hout, -, hchain⟩ := wp_outcome hinit
  have hnodes : poolNodes 64 = 80 :: 96 :: 112 :: (List.range' 4 4092).map (nodeOff 64) := rfl
  rw [hnodes] at hchain
  obtain ⟨hfst, -, hsnd, -, hthd, -, -⟩ := hchain
  exact ⟨_, m, hout, hfst, hsnd, hthd⟩

/-- CPU `false` is about to swap the first node for the second. -/
def swapping : Bool → Phase := update (fun _ => .idle) false (.allocNext 80 96)

/-- CPU `false` reads the link of the first node, and CPU `true` takes the first two nodes. -/
theorem run_swapping (hfst : m.freeList = 80) (hsnd : m.next 80 = 96) (hthd : m.next 96 = 112) :
    ReflTransGen (Threads.Step CarefulActs) (start m)
      ⟨⟨(m.setFreeList 96).setFreeList 112, [96, 80]⟩, swapping⟩ := by
  have hread : Alone (⟨m, []⟩, .idle) (⟨m, []⟩, .allocNext 80 96) := by
    have h1 : Alone (⟨m, []⟩, .idle) (⟨m, []⟩, .alloc) := .single ⟨trivial, .callAlloc⟩
    have h2 := h1.tail (c := (⟨m, []⟩, .allocHead m.freeList))
      ⟨trivial, .loadHead (by rw [hfst]; decide)⟩
    rw [hfst] at h2
    have h3 := h2.tail (c := (⟨m, []⟩, .allocNext 80 (m.next 80))) ⟨trivial, .loadNext⟩
    rwa [hsnd] at h3
  have hrun1 := Threads.run_alone (w := start m) false hread
  have hfst' : (Shared.mem ⟨m, []⟩).freeList ≠ qptrNull := by
    simp only [hfst]
    decide
  have hidle : swapping true = .idle := rfl
  have hrun2 := run_alone_idle hidle (alone_alloc hfst')
  simp only [hfst, hsnd] at hrun2
  have hrun3 := run_alone_idle hidle
    (alone_alloc (s := ⟨m.setFreeList 96, [80]⟩) (by simp [qptrNull]))
  simp only [DqMem.setFreeList_freeList, DqMem.setFreeList_next, hthd] at hrun3
  exact (hrun1.trans hrun2).trans hrun3

/-- A CPU reads the link of the first node; before its swap another one takes the first
two nodes and frees the first. -/
theorem node_handed_out_twice : ∃ m₀ m, (threadDqPoolInit 64).outcome m₀ = .ok () m ∧
    ∃ w : Threads Bool Shared Phase,
      ReflTransGen (Threads.Step Acts) (start m) w ∧ ¬ w.mem.owned.Nodup := by
  obtain ⟨m₀, m, hout, hfst, hsnd, hthd⟩ := poolInit_first
  refine ⟨m₀, m, hout, ?_⟩
  have hfree := run_alone_idle (show swapping true = .idle from rfl) (alone_free
    (s := ⟨(m.setFreeList 96).setFreeList 112, [96, 80]⟩) (show (80 : ℤ) ∈ [96, 80] by simp))
  have hpath := run_acts ((run_swapping hfst hsnd hthd).trans hfree)
  -- the first node is at the head again, and the second one is in use
  have hswap := hpath.tail (.intro (i := false) (.allocCas rfl))
  have hidle : update swapping false .idle true = .idle := rfl
  have hagain := run_alone_idle hidle (alone_alloc
    (s := ⟨((((m.setFreeList 96).setFreeList 112).setNext 80 112).setFreeList 80).setFreeList 96,
      [80, 96]⟩) (by simp [qptrNull]))
  refine ⟨_, hswap.trans (run_acts hagain), ?_⟩
  simp

/-- The swap comes before the first node is freed: it fails, and the CPU starts again. -/
theorem nodes_exclusive_failed_swap : ∃ m₀ m, (threadDqPoolInit 64).outcome m₀ = .ok () m ∧
    ∃ w : Threads Bool Shared Phase, w.mem.owned = [96] ∧ w.mem.mem.freeList = 80 ∧
      w.pc false = .alloc ∧ ReflTransGen (Threads.Step CarefulActs) (start m) w ∧
      Exclusive 64 w := by
  obtain ⟨m₀, m, hout, hfst, hsnd, hthd⟩ := poolInit_first
  have hmoved : ((m.setFreeList 96).setFreeList 112).freeList ≠ 80 := by simp
  have hretry := (run_swapping hfst hsnd hthd).tail
    (.intro (i := false) ⟨fun heq => absurd heq hmoved, .allocRetry hmoved⟩)
  have hidle : update swapping false .alloc true = .idle := rfl
  have hfree := run_alone_idle hidle (alone_free
    (s := ⟨(m.setFreeList 96).setFreeList 112, [96, 80]⟩) (show (80 : ℤ) ∈ [96, 80] by simp))
  have hrun := hretry.trans hfree
  exact ⟨m₀, m, hout, _, by simp, rfl, rfl, hrun,
    nodes_exclusive_in_careful_runs (by decide) hout hrun⟩

end Starfish.ThreadQueue
