import Starfish.VMSpace.Regions

/-!
# Starfish.VMSpace.Runs

Any sequence of the calls that add, remove or resize regions of a vmspace.  No call
checks that a range stays below `2 ^ 64` or has any address at all, so the list, the
tree and the lookup agree (`Consistent`) along those runs in which every range that is
added does (`Op.Careful`); `map_range_wraps` is a run that does not.
-/

namespace Starfish.VMSpace

open Prog Function

/-! ## Calls -/

inductive Op where
  | mapRange (va len flags pmo vmr : ℕ)
  | unmapRange (va len : ℕ)
  | unmapPmo (pmo : ℕ)
  | adjustHeap (addLen : ℕ)
  | mmapWithPmo (pmo len perm vmr : ℕ)
  | brk (addr heapStart : ℕ) (pmoCap : ℤ) (pmo vmr : ℕ)

/-- The code of a call; `adjust_heap_vmr` is called with the lock. -/
def Op.code : Op → Prog Vmspace Unit
  | mapRange va len flags pmo vmr => do
    let _ ← vmspaceMapRange va len flags pmo vmr
  | unmapRange va len => do
    let _ ← vmspaceUnmapRange va len
  | unmapPmo pmo => do
    let _ ← unmapPmoInVmspace pmo
  | adjustHeap addLen => do
    writeLock
    adjustHeapVmr addLen
    writeUnlock
  | mmapWithPmo pmo len perm vmr => do
    let _ ← vmspaceMmapWithPmo pmo len perm vmr
  | brk addr heapStart pmoCap pmo vmr => do
    let _ ← sysHandleBrk addr heapStart pmoCap pmo vmr

/-- The allocator returns memory that nobody uses, or NULL. -/
def FreshVmr (s : Vmspace) (vmr : ℕ) : Prop := vmr ≠ 0 → (s.vmr vmr).live = false

/-- What the callers and the allocator promise. -/
def Op.Allowed : Op → Vmspace → Prop
  | mapRange va len _ _ vmr, s => va < top ∧ len < top ∧ FreshVmr s vmr
  | unmapRange va len, _ => va < top ∧ len < top
  | unmapPmo _, _ => True
  | adjustHeap addLen, _ => addLen < top
  | mmapWithPmo _ len _ vmr, s => len < top ∧ FreshVmr s vmr
  | brk addr heapStart _ _ vmr, s => addr < top ∧ heapStart < top ∧ FreshVmr s vmr

/-- The heap region can be taken out and put back with `addLen` more bytes: it is in
use, it is on the list or apart from all regions, and the new range is not empty and
does not wrap around. -/
structure HeapFits (s : Vmspace) (addLen : ℕ) : Prop where
  live : (s.vmr s.heapVmr).live = true
  apart : s.heapVmr ∈ s.vmrList ∨ checkVmrIntersect s s.heapVmr = false
  pos : 0 < ((s.vmr s.heapVmr).size + addLen) % top
  inside : place (s.setList (s.vmrList.erase s.heapVmr)) (s.vmr s.heapVmr).start +
    ((s.vmr s.heapVmr).size + addLen) % top ≤ top

/-- The range that the call adds is not empty and does not wrap around. -/
def Op.Careful : Op → Vmspace → Prop
  | mapRange va len _ _ _, s => place s (roundDown va) + max len pageSize ≤ top
  | unmapRange _ _, _ => True
  | unmapPmo _, _ => True
  | adjustHeap addLen, s => HeapFits s addLen
  | mmapWithPmo _ len _ _, s => 0 < len ∧ place s s.userCurrentMmapAddr + len ≤ top
  | brk addr _ _ _ _, s =>
    let oldEnd := ((s.vmr s.heapVmr).start + (s.vmr s.heapVmr).size) % top
    addr ≠ 0 → s.heapVmr ≠ 0 → oldEnd ≤ addr → HeapFits s (addr - oldEnd)

def Step (op : Op) (s t : Vmspace) : Prop := op.code.outcome s = .ok () t

def CarefulStep (s t : Vmspace) : Prop := ∃ op : Op, op.Allowed s ∧ op.Careful s ∧ Step op s t

def AnyStep (s t : Vmspace) : Prop := ∃ op : Op, op.Allowed s ∧ Step op s t

/-- The list and the tree hold the same regions, the ranges are disjoint and do not
wrap around, and the lookup finds the region that has the address, if there is one. -/
structure Consistent (s : Vmspace) : Prop where
  same : ∀ x, x ∈ s.vmrList ↔ x ∈ s.vmrTree.toList
  disjoint : ∀ x ∈ s.vmrList, ∀ y ∈ s.vmrList, x ≠ y →
    ∀ va, (s.vmr x).Contains va → ¬ (s.vmr y).Contains va
  inside : ∀ x ∈ s.vmrList, (s.vmr x).start + (s.vmr x).size ≤ top
  lookup : ∀ va < top, ∀ x,
    findVmrForVa s va = some x ↔ x ∈ s.vmrList ∧ (s.vmr x).Contains va

theorem Regular.consistent (h : Regular s) : Consistent s where
  same _ := h.mem_tree.symm
  disjoint _ hx _ hy hne _ hxva hyva := hne (h.eq_of_contains hx hy hxva hyva)
  inside x hx := (h.proper x hx).inside
  lookup _ _ _ := h.findVmrForVa_eq

/-- The regions on the list are also in use. -/
structure Sound (s : Vmspace) : Prop extends Regular s where
  live : ∀ x ∈ s.vmrList, (s.vmr x).live = true

theorem sound_init (vmr : ℕ → Vmregion) (pmo : ℕ → Pmobject) : Sound (.init vmr pmo) where
  toRegular := regular_init vmr pmo
  live := by simp [Vmspace.init]

/-! ## One call -/

section steps

namespace Sound

theorem notMem_of_fresh (h : Sound s) (hfresh : FreshVmr s vmr) (hne : vmr ≠ 0) :
    vmr ∉ s.vmrList := by
  intro hmem
  have := h.live vmr hmem
  simp [hfresh hne] at this

theorem congr (h : Sound s) (hlist : t.vmrList = s.vmrList)
    (htree : t.vmrTree = s.vmrTree) (hvmr : ∀ x ∈ s.vmrList, t.vmr x = s.vmr x) : Sound t where
  toRegular := h.toRegular.congr hlist htree hvmr
  live x hx := by
    rw [hlist] at hx
    rw [hvmr x hx]
    exact h.live x hx

theorem setVmr (h : Sound s) (hvmr : vmr ∉ s.vmrList) (v : Vmregion) : Sound (s.setVmr vmr v) := by
  have hlist : (s.setVmr vmr v).vmrList = s.vmrList := rfl
  refine h.congr hlist rfl fun x hx => ?_
  have hne : x ≠ vmr := fun heq => hvmr (heq ▸ hx)
  exact update_of_ne hne v s.vmr

theorem setLocked (h : Sound s) (b : Bool) : Sound (s.setLocked b) := h.congr rfl rfl fun _ _ => rfl

theorem setMmapAddr (h : Sound s) (va : ℕ) : Sound (s.setMmapAddr va) :=
  h.congr rfl rfl fun _ _ => rfl

/-- A region that is added is in use. -/
theorem cons (h : Sound s) (hregular : Regular ((s.setList (vmr :: s.vmrList)).setTree tree))
    (hlive : (s.vmr vmr).live = true) : Sound ((s.setList (vmr :: s.vmrList)).setTree tree) where
  toRegular := hregular
  live x hx := by
    rcases List.mem_cons.mp hx with rfl | hx
    · exact hlive
    · exact h.live x hx

end Sound

theorem HeapFits.setLocked (h : HeapFits s addLen) (b : Bool) : HeapFits (s.setLocked b) addLen :=
  ⟨h.live, h.apart, h.pos, h.inside⟩

theorem Sound.added (h : Sound s) (hvmr : vmr ∉ s.vmrList)
    (hv : s.vmr vmr = ⟨start, size, perm, pmo, true⟩) (hpos : 0 < size)
    (hinside : place s start + size ≤ top) :
    wp (addVmrToVmspace vmr) (fun ret t => Sound t ∧ (ret < 0 → vmr ∉ t.vmrList))
      (fun _ => True) s := by
  have hw : (placed s vmr).vmr vmr = ⟨place s start, size, perm, pmo, true⟩ := by
    simp only [placed, Vmspace.setVmr_vmr, update_self, hv]
  have hsound : Sound (placed s vmr) := h.setVmr hvmr _
  refine wp_post (wp_addVmrToVmspace h.toRegular hvmr) ?_
  rintro ret t (⟨-, -, rfl⟩ | ⟨-, rfl, ht, tree, rfl⟩)
  · exact ⟨hsound, fun _ => hvmr⟩
  · refine ⟨hsound.cons (ht ?_) ?_, by simp⟩
    · rw [hw]
      exact ⟨hpos, hinside⟩
    · rw [hw]

theorem wp_delVmrFromVmspace (h : Sound s) (hvmr : vmr ∈ s.vmrList) :
    wp (delVmrFromVmspace vmr) (fun _ t => Sound t) (fun _ => True) s := by
  rw [delVmrFromVmspace, wp_bind]
  refine wp_post (wp_removeVmrFromVmspace h.toRegular hvmr) ?_
  rintro - t ⟨-, ht, tree, heq⟩
  have hsound : Sound t := by
    refine ⟨ht, fun x hx => ?_⟩
    rw [heq] at hx ⊢
    exact h.live x (List.mem_of_mem_erase hx)
  refine wp_store.mpr ⟨trivial, hsound.setVmr ?_ _⟩
  rw [heq]
  exact fun hmem => absurd hmem h.nodup.not_mem_erase

/-- What the heap call leaves behind, overlap or not. -/
theorem wlp_adjustHeapVmr (h : Sound s) (hfits : HeapFits s addLen) :
    wlp (adjustHeapVmr addLen) (fun _ t => Sound t) s := by
  by_cases hne : s.heapVmr = 0
  · rw [adjustHeapVmr, wlp_bind, wlp_read, wlp_bind, wlp_bugOn]
    exact fun hno => absurd hne hno
  · refine wlp_mono (wlp_of_wp (wp_adjustHeapVmr addLen h.toRegular hne hfits.apart)) ?_
    rintro - t ⟨w, hw, hcases⟩
    have hsound : Sound w := by
      refine ⟨hw.regular, fun x hx => ?_⟩
      rw [hw.list] at hx
      have hne : x ≠ s.heapVmr := fun heq => h.nodup.not_mem_erase (heq ▸ hx)
      rw [hw.vmr, update_of_ne hne]
      exact h.live x (List.mem_of_mem_erase hx)
    rcases hcases with ⟨-, rfl⟩ | ⟨-, ht, tree, rfl⟩
    · exact hsound
    · refine hsound.cons (ht ?_) ?_
      · rw [hw.heap, hw.vmr, update_self]
        exact ⟨hfits.pos, hfits.inside⟩
      · rw [hw.heap, hw.vmr, update_self]
        exact hfits.live

theorem wlp_vmspaceMapRange (h : Sound s) (hfresh : FreshVmr s vmr)
    (hcareful : place s (roundDown va) + max len pageSize ≤ top) :
    wlp (vmspaceMapRange va len flags pmo vmr) (fun _ t => Sound t) s := by
  rw [vmspaceMapRange, wlp_bind, wlp_read, wlp_bind, wlp_bugOn]
  intro _
  simp only
  rw [wlp_ite]
  refine ⟨fun _ => wlp_pure.mpr h, fun hne => ?_⟩
  have hnot := h.notMem_of_fresh hfresh hne
  rw [wlp_bind, wlp_store, wlp_bind, writeLock, wlp_await]
  intro _
  have hsound := (h.setVmr hnot ⟨roundDown va, if len < pageSize then pageSize else len,
    if (s.pmo pmo).type = pmoDevice then flags ||| vmrDevice
      else if (s.pmo pmo).type = pmoDataNocache then flags ||| vmrNocache
      else flags, pmo, true⟩).setLocked true
  have hpos : 0 < if len < pageSize then pageSize else len := by
    simp only [pageSize]
    split <;> omega
  have hinside : place s (roundDown va) + (if len < pageSize then pageSize else len) ≤ top := by
    split <;> omega
  rw [← place_setVmr hnot] at hinside
  have hadded := hsound.added hnot (update_self ..) hpos hinside
  rw [wlp_bind]
  refine wlp_mono (wlp_of_wp hadded) ?_
  rintro ret t ⟨ht, hfail⟩
  rw [wlp_bind, writeUnlock, wlp_store, wlp_ite]
  refine ⟨fun hneg => ?_, fun _ => wlp_pure.mpr (ht.setLocked false)⟩
  rw [wlp_bind, freeVmregion, wlp_store, wlp_pure]
  exact (ht.setLocked false).setVmr (hfail hneg) _

theorem wlp_vmspaceUnmapRange (h : Sound s) :
    wlp (vmspaceUnmapRange va len) (fun _ t => Sound t) s := by
  rw [vmspaceUnmapRange, wlp_bind, writeLock, wlp_await]
  intro _
  rw [wlp_bind, wlp_read]
  cases hfind : findVmrForVa (s.setLocked true) va with
  | none => exact wlp_pure.mpr (h.setLocked true)
  | some vmr =>
    have hmem := ((h.setLocked true).findVmrForVa_eq.mp hfind).1
    simp only
    rw [wlp_bind, wlp_read, wlp_bind, wlp_bugOn]
    intro _
    rw [wlp_bind]
    refine wlp_mono (wlp_of_wp (wp_delVmrFromVmspace (h.setLocked true) hmem)) fun _ t ht => ?_
    rw [wlp_bind, writeUnlock, wlp_store, wlp_pure]
    exact ht.setLocked false

theorem wlp_unmapPmoInVmspace (h : Sound s) :
    wlp (unmapPmoInVmspace pmo) (fun _ t => Sound t) s := by
  rw [unmapPmoInVmspace, wlp_bind, writeLock, wlp_await]
  intro _
  rw [wlp_bind, wlp_read]
  split
  · rw [wlp_bind, writeUnlock, wlp_store, wlp_pure]
    exact (h.setLocked true).setLocked false
  · next vmr hfind =>
      have hmem := List.mem_of_find?_eq_some hfind
      rw [wlp_bind]
      refine wlp_mono (wlp_of_wp (wp_delVmrFromVmspace (h.setLocked true) hmem)) fun _ t ht => ?_
      rw [wlp_bind, writeUnlock, wlp_store, wlp_pure]
      exact ht.setLocked false

theorem wlp_vmspaceMmapWithPmo (h : Sound s) (hfresh : FreshVmr s vmr)
    (hpos : 0 < len) (hinside : place s s.userCurrentMmapAddr + len ≤ top) :
    wlp (vmspaceMmapWithPmo pmo len perm vmr) (fun _ t => Sound t) s := by
  rw [vmspaceMmapWithPmo, wlp_ite]
  refine ⟨fun _ => wlp_pure.mpr h, fun hne => ?_⟩
  have hnot := h.notMem_of_fresh hfresh hne
  rw [wlp_bind, writeLock, wlp_await]
  intro _
  rw [wlp_bind, wlp_read, wlp_bind, wlp_bugOn]
  intro _
  rw [wlp_bind, wlp_store, wlp_bind, wlp_read, wlp_bind, wlp_bugOn]
  intro _
  rw [wlp_bind, wlp_store]
  have hsound := ((h.setLocked true).setMmapAddr ((s.userCurrentMmapAddr + len) % top)).setVmr
    hnot ⟨s.userCurrentMmapAddr, len, perm, pmo, true⟩
  rw [← place_setVmr hnot ⟨s.userCurrentMmapAddr, len, perm, pmo, true⟩] at hinside
  have hadded := hsound.added hnot (update_self ..) hpos hinside
  rw [wlp_bind]
  refine wlp_mono (wlp_of_wp hadded) ?_
  rintro ret t ⟨ht, hfail⟩
  rw [wlp_bind, writeUnlock, wlp_store, wlp_ite]
  refine ⟨fun hneg => ?_, fun _ => ?_⟩
  · rw [wlp_bind, freeVmregion, wlp_store, wlp_pure]
    exact (ht.setLocked false).setVmr (hfail hneg) _
  · rw [wlp_bind, wlp_read, wlp_pure]
    exact ht.setLocked false

theorem wlp_sysHandleBrk (h : Sound s)
    (hfresh : FreshVmr s vmr) (hcareful : (Op.brk addr heapStart pmoCap pmo vmr).Careful s) :
    wlp (sysHandleBrk addr heapStart pmoCap pmo vmr) (fun _ t => Sound t) s := by
  rw [sysHandleBrk, wlp_bind, writeLock, wlp_await]
  intro _
  rw [wlp_ite]
  refine ⟨fun _ => ?_, fun haddr => ?_⟩
  · -- a new heap region, which is not on the list yet
    rw [wlp_bind, wlp_bugOn]
    intro _
    rw [wlp_bind, initHeapVmr, wlp_ite]
    refine ⟨fun _ => ?_, fun hne => ?_⟩
    · rw [wlp_pure, wlp_bind, wlp_bugOn]
      exact fun hno => absurd rfl hno
    · rw [wlp_bind, wlp_store, wlp_pure, wlp_bind, wlp_bugOn]
      intro _
      rw [wlp_bind, wlp_store, wlp_bind, writeUnlock, wlp_store, wlp_pure]
      have hnot := h.notMem_of_fresh hfresh hne
      exact (h.setVmr hnot _).congr rfl rfl fun _ _ => rfl
  · rw [wlp_bind, wlp_read, wlp_ite]
    refine ⟨fun _ => ?_, fun hheap => ?_⟩
    · rw [wlp_bind, writeUnlock, wlp_store, wlp_pure]
      exact (h.setLocked true).setLocked false
    · rw [wlp_bind, wlp_read]
      simp only
      rw [wlp_ite]
      refine ⟨fun hge => ?_, fun _ => ?_⟩
      · have hfits := (hcareful haddr hheap hge).setLocked true
        rw [wlp_bind]
        refine wlp_mono (wlp_adjustHeapVmr (h.setLocked true) hfits) fun _ t ht => ?_
        rw [wlp_bind, writeUnlock, wlp_store, wlp_pure]
        exact ht.setLocked false
      · rw [wlp_bind, writeUnlock, wlp_store, wlp_pure]
        exact (h.setLocked true).setLocked false

end steps

/-! ## Runs -/

theorem CarefulStep.sound (hstep : CarefulStep s t) (h : Sound s) : Sound t := by
  obtain ⟨op, hallowed, hcareful, hout⟩ := hstep
  have hcode : wlp op.code (fun _ t => Sound t) s := by
    cases op with
    | mapRange va len flags pmo vmr =>
      exact wlp_bind.mpr (wlp_mono (wlp_vmspaceMapRange h hallowed.2.2 hcareful)
        fun _ _ ht => wlp_pure.mpr ht)
    | unmapRange va len =>
      exact wlp_bind.mpr (wlp_mono (wlp_vmspaceUnmapRange h) fun _ _ ht => wlp_pure.mpr ht)
    | unmapPmo pmo =>
      exact wlp_bind.mpr (wlp_mono (wlp_unmapPmoInVmspace h) fun _ _ ht => wlp_pure.mpr ht)
    | adjustHeap addLen =>
      rw [Op.code, wlp_bind, writeLock, wlp_await]
      intro _
      rw [wlp_bind]
      refine wlp_mono (wlp_adjustHeapVmr (h.setLocked true) (hcareful.setLocked true))
        fun _ t ht => ?_
      rw [writeUnlock, wlp_store]
      exact ht.setLocked false
    | mmapWithPmo pmo len perm vmr =>
      exact wlp_bind.mpr (wlp_mono (wlp_vmspaceMmapWithPmo h hallowed.2 hcareful.1 hcareful.2)
        fun _ _ ht => wlp_pure.mpr ht)
    | brk addr heapStart pmoCap pmo vmr =>
      exact wlp_bind.mpr (wlp_mono (wlp_sysHandleBrk h hallowed.2.2 hcareful)
        fun _ _ ht => wlp_pure.mpr ht)
  exact hcode () t hout

/-- Along every run in which the ranges that are added are not empty and do not wrap
around, the list, the tree and the lookup agree. -/
theorem regions_consistent_in_careful_runs {vmr : ℕ → Vmregion} {pmo : ℕ → Pmobject} {s : Vmspace}
    (hrun : Relation.ReflTransGen CarefulStep (.init vmr pmo) s) : Consistent s := by
  have hsound : Sound s := by
    induction hrun with
    | refl => exact sound_init vmr pmo
    | tail _ hstep ih => exact hstep.sound ih
  exact hsound.toRegular.consistent

/-- In the same runs the loop of `rb_search` ends in logarithmic time, for `find_vmr_for_va` and
for `check_vmr_intersect`. -/
theorem lookups_logarithmic_in_careful_runs {vmr : ℕ → Vmregion} {pmo : ℕ → Pmobject} {s : Vmspace}
    (hrun : Relation.ReflTransGen CarefulStep (.init vmr pmo) s) :
    let rounds := 2 * (s.vmrList.length + 1).log2
    (∀ va, s.vmrTree.searchWithin (fun x => cmpVmrAndVa va (s.vmr x)) rounds =
      some (findVmrForVa s va)) ∧
    ∀ y, s.vmrTree.searchWithin
      (fun x => cmpVmrAndRange (s.vmr y).start (vmrEnd (s.vmr y)) (s.vmr x)) rounds =
        some (intersecting s y) := by
  have hsound : Sound s := by
    induction hrun with
    | refl => exact sound_init vmr pmo
    | tail _ hstep ih => exact hstep.sound ih
  rw [hsound.perm.length_eq]
  exact ⟨fun va => hsound.wf.searchWithin_eq _, fun y => hsound.wf.searchWithin_eq _⟩

/-- A vmspace after `vmspace_init`, with no region in use. -/
def bootSpace : Vmspace := .init (fun _ => ⟨0, 0, 0, 0, false⟩) fun _ => ⟨pmoAnonym, 0⟩

/-- The state after a call. -/
def after (op : Op) (s : Vmspace) : Vmspace := (op.code.outcome s).final

theorem step_after (h : (op.code.outcome s).result? = some ()) : Step op s (after op s) :=
  Outcome.eq_ok_of_result? h

/-- Two pages at the end of the address space. -/
def wrapped : Vmspace := after (.mapRange (2 ^ 64 - 4096) 8192 vmrRead 0 1) bootSpace

/-- `vmspace_map_range` adds a range that wraps around, and the lookup does not find
its addresses. -/
theorem map_range_wraps : Relation.ReflTransGen AnyStep bootSpace wrapped ∧
    1 ∈ wrapped.vmrList ∧ top < (wrapped.vmr 1).start + (wrapped.vmr 1).size ∧
    (wrapped.vmr 1).Contains (2 ^ 64 - 1) ∧ findVmrForVa wrapped (2 ^ 64 - 1) = none := by
  refine ⟨.single ⟨.mapRange (2 ^ 64 - 4096) 8192 vmrRead 0 1, ?_, step_after ?_⟩, ?_⟩
  · simp only [Op.Allowed, FreshVmr]
    decide
  · decide +kernel
  · decide +kernel

/-- A page that is mapped. -/
def mapped : Vmspace := after (.mapRange 0x400000 4096 vmrRead 0 1) bootSpace

def withHeap : Vmspace := after (.brk 0 0x600000 0 7 2) mapped

theorem carefulStep_mapped : CarefulStep bootSpace mapped := by
  refine ⟨.mapRange 0x400000 4096 vmrRead 0 1, ?_, ?_, step_after ?_⟩
  · simp only [Op.Allowed, FreshVmr]
    decide
  · simp only [Op.Careful]
    decide +kernel
  · decide +kernel

theorem lookups_logarithmic_mapped :
    mapped.vmrTree.searchWithin (fun x => cmpVmrAndVa 0x400000 (mapped.vmr x)) 2 =
      some (findVmrForVa mapped 0x400000) :=
  (lookups_logarithmic_in_careful_runs (.single carefulStep_mapped)).1 0x400000

/-- A heap of one page beside the page. -/
theorem regions_consistent_heap : Consistent (after (.brk 0x601000 0 0 0 0) withHeap) := by
  have hheap : CarefulStep mapped withHeap := by
    refine ⟨.brk 0 0x600000 0 7 2, ?_, ?_, step_after ?_⟩
    · simp only [Op.Allowed, FreshVmr]
      decide +kernel
    · simp [Op.Careful]
    · decide +kernel
  have hgrown : CarefulStep withHeap (after (.brk 0x601000 0 0 0 0) withHeap) := by
    refine ⟨.brk 0x601000 0 0 0 0, ?_, ?_, step_after ?_⟩
    · simp only [Op.Allowed, FreshVmr]
      decide +kernel
    · intro _ _ _
      exact ⟨by decide +kernel, by decide +kernel, by decide +kernel, by decide +kernel⟩
    · decide +kernel
  exact regions_consistent_in_careful_runs (((Relation.ReflTransGen.single
    carefulStep_mapped).tail hheap).tail hgrown)

end Starfish.VMSpace
