import Mathlib.Data.List.Pairwise
import Starfish.VMSpace.Model

/-!
# Starfish.VMSpace.Regions

The regions of a vmspace as a set of disjoint ranges.  The tree is ordered by the
ranges, which is an order only while they are disjoint and not empty, so all this is
one invariant, `Regular`; a region is looked up in the tree and its neighbours are
known from the order.

`wp_addVmrToVmspace` and `wp_removeVmrFromVmspace` say what the two functions that
change the list and the tree do.
-/

namespace Starfish.VMSpace

open Prog List Function Starfish.RBTree

namespace Vmregion

/-- The addresses of a region. -/
def Contains (v : Vmregion) (va : ℕ) : Prop := v.start ≤ va ∧ va < v.start + v.size

instance (v : Vmregion) (va : ℕ) : Decidable (v.Contains va) :=
  inferInstanceAs (Decidable (_ ∧ _))

/-- The region has an address among `first`, …, `last`. -/
def Meets (v : Vmregion) (first last : ℕ) : Prop := v.start ≤ last ∧ first < v.start + v.size

/-- A region that has addresses and does not wrap around. -/
structure Proper (v : Vmregion) : Prop where
  pos : 0 < v.size
  inside : v.start + v.size ≤ top

theorem Proper.vmrEnd_eq (h : v.Proper) : vmrEnd v = v.start + v.size - 1 := by
  have := h.pos
  have := h.inside
  rw [vmrEnd, if_pos h.pos, Nat.mod_eq_of_lt (by omega)]
  omega

end Vmregion

/-- The range of `x` ends where that of `y` begins, or before. -/
def Precedes (vmr : ℕ → Vmregion) (x y : ℕ) : Prop := (vmr x).start + (vmr x).size ≤ (vmr y).start

instance (vmr : ℕ → Vmregion) : DecidableRel (Precedes vmr) := fun _ _ =>
  inferInstanceAs (Decidable (_ ≤ _))

/-- The list and the tree hold the same regions, and the ranges of these are disjoint
and in the order of the tree. -/
structure Regular (s : Vmspace) : Prop where
  wf : s.vmrTree.WF
  perm : s.vmrList.Perm s.vmrTree.toList
  sorted : s.vmrTree.toList.Pairwise (Precedes s.vmr)
  proper : ∀ x ∈ s.vmrList, (s.vmr x).Proper

theorem regular_init (vmr : ℕ → Vmregion) (pmo : ℕ → Pmobject) : Regular (.init vmr pmo) where
  wf := .nil
  perm := .refl _
  sorted := .nil
  proper := by simp [Vmspace.init]

/-! ## Lookup -/

namespace Regular

variable {s : Vmspace}

section

variable (h : Regular s)
include h

theorem mem_tree : x ∈ s.vmrTree.toList ↔ x ∈ s.vmrList := h.perm.mem_iff.symm

/-- Of two regions one is before the other. -/
theorem precedes_or (hx : x ∈ s.vmrList) (hy : y ∈ s.vmrList)
    (hne : x ≠ y) : Precedes s.vmr x y ∨ Precedes s.vmr y x := by
  have hpair : s.vmrTree.toList.Pairwise fun x y => Precedes s.vmr x y ∨ Precedes s.vmr y x :=
    h.sorted.imp .inl
  have : Std.Symm fun x y => Precedes s.vmr x y ∨ Precedes s.vmr y x := ⟨fun _ _ => Or.symm⟩
  exact hpair.forall (h.mem_tree.mpr hx) (h.mem_tree.mpr hy) hne

theorem eq_of_contains (hx : x ∈ s.vmrList) (hy : y ∈ s.vmrList)
    (hxva : (s.vmr x).Contains va) (hyva : (s.vmr y).Contains va) : x = y := by
  by_contra hne
  have := h.precedes_or hx hy hne
  simp only [Precedes, Vmregion.Contains] at *
  omega

theorem nodup : s.vmrList.Nodup := by
  refine h.perm.nodup_iff.mpr (h.sorted.imp_of_mem fun {x y} hx _ hxy => ?_)
  rintro rfl
  have := (h.proper x (h.mem_tree.mp hx)).pos
  simp only [Precedes] at hxy
  omega

theorem cmpVmrAndRange_eq (hx : x ∈ s.vmrList) :
    cmpVmrAndRange first last (s.vmr x) = .eq ↔ (s.vmr x).Meets first last := by
  have := (h.proper x hx).pos
  rw [cmpVmrAndRange, (h.proper x hx).vmrEnd_eq, Vmregion.Meets]
  split
  · simp
    omega
  · split
    · simp
      omega
    · simp
      omega

/-- The comparison with a range follows the order of the tree. -/
theorem sorted_range (first last : ℕ) :
    RBTree.Sorted (Precedes s.vmr) (fun x => cmpVmrAndRange first last (s.vmr x))
      s.vmrTree.toList where
  pairwise := h.sorted
  lt x hx y hy hxy := by grind [Precedes, cmpVmrAndRange]
  gt x hx y hy hxy := by
    have hpx := h.proper x (h.mem_tree.mp hx)
    have hpy := h.proper y (h.mem_tree.mp hy)
    have := hpx.pos
    have := hpy.pos
    simp only [Precedes, cmpVmrAndRange, hpx.vmrEnd_eq, hpy.vmrEnd_eq] at *
    grind

/-- `check_vmr_intersect` finds a region in the range, if there is one. -/
theorem checkVmrIntersect_eq : checkVmrIntersect s vmr = true ↔
      ∃ x ∈ s.vmrList, (s.vmr x).Meets (s.vmr vmr).start (vmrEnd (s.vmr vmr)) := by
  rw [checkVmrIntersect, intersecting]
  constructor
  · intro hsome
    obtain ⟨x, hx⟩ := Option.isSome_iff_exists.mp hsome
    obtain ⟨hmem, heq⟩ := mem_of_search hx
    have hmem := h.mem_tree.mp hmem
    exact ⟨x, hmem, (h.cmpVmrAndRange_eq hmem).mp heq⟩
  · rintro ⟨x, hx, hmeets⟩
    exact search_isSome (h.sorted_range _ _) (h.mem_tree.mpr hx)
      ((h.cmpVmrAndRange_eq hx).mpr hmeets)

/-- `find_vmr_for_va` finds the region that has the address. -/
theorem findVmrForVa_eq : findVmrForVa s va = some x ↔ x ∈ s.vmrList ∧ (s.vmr x).Contains va := by
  -- an address is a range of one
  have hfind : findVmrForVa s va = s.vmrTree.search fun x => cmpVmrAndRange va va (s.vmr x) := rfl
  rw [hfind]
  have hfound : ∀ {y}, s.vmrTree.search (fun x => cmpVmrAndRange va va (s.vmr x)) = some y →
      y ∈ s.vmrList ∧ (s.vmr y).Contains va := by
    intro y hy
    obtain ⟨hmem, heq⟩ := mem_of_search hy
    have hmem := h.mem_tree.mp hmem
    exact ⟨hmem, (h.cmpVmrAndRange_eq hmem).mp heq⟩
  refine ⟨hfound, fun ⟨hx, hva⟩ => ?_⟩
  have hsome := search_isSome (h.sorted_range va va) (h.mem_tree.mpr hx)
    ((h.cmpVmrAndRange_eq hx).mpr hva)
  obtain ⟨y, hy⟩ := Option.isSome_iff_exists.mp hsome
  obtain ⟨hymem, hyva⟩ := hfound hy
  rw [hy, h.eq_of_contains hymem hx hyva hva]

/-! ## Adding and removing a region -/

/-- The invariant is about the regions on the list only. -/
theorem congr (hlist : t.vmrList = s.vmrList)
    (htree : t.vmrTree = s.vmrTree) (hvmr : ∀ x ∈ s.vmrList, t.vmr x = s.vmr x) : Regular t where
  wf := htree ▸ h.wf
  perm := by rw [hlist, htree]; exact h.perm
  sorted := by
    rw [htree]
    refine h.sorted.imp_of_mem fun {x y} hx hy hxy => ?_
    rwa [Precedes, hvmr x (h.mem_tree.mp hx), hvmr y (h.mem_tree.mp hy)]
  proper x hx := by
    rw [hlist] at hx
    rw [hvmr x hx]
    exact h.proper x hx

theorem setVmr (hvmr : vmr ∉ s.vmrList) (v : Vmregion) : Regular (s.setVmr vmr v) := by
  refine h.congr rfl rfl fun x hx => ?_
  have hne : x ≠ vmr := fun heq => hvmr (heq ▸ hx)
  exact update_of_ne hne v s.vmr

end

end Regular

/-- Where `add_vmr_to_vmspace` puts a region that begins at `start`. -/
def place (s : Vmspace) (start : ℕ) : ℕ := if start = 0 then findFreeVa s else start

/-- The region with its address. -/
def placed (s : Vmspace) (vmr : ℕ) : Vmspace :=
  s.setVmr vmr { s.vmr vmr with start := place s (s.vmr vmr).start }

/-- A region that is free of overlap goes to its place in the tree. -/
theorem Regular.insert (h : Regular s) (hfree : checkVmrIntersect s vmr = false) :
    ∃ t, s.vmrTree.insert (fun x => cmpTwoVmrs (s.vmr vmr) (s.vmr x)) vmr = some t ∧
      ((s.vmr vmr).Proper → Regular ((s.setList (vmr :: s.vmrList)).setTree t)) := by
  by_cases hproper : (s.vmr vmr).Proper
  swap
  · obtain ⟨t, heq, -⟩ := insert_spec (fun x => cmpTwoVmrs (s.vmr vmr) (s.vmr x)) vmr h.wf
    exact ⟨t, heq, fun hp => absurd hp hproper⟩
  have hapart : ∀ y ∈ s.vmrTree.toList, Precedes s.vmr vmr y ∨ Precedes s.vmr y vmr := by
    intro y hy
    have hno : ¬ ∃ x ∈ s.vmrList, (s.vmr x).Meets (s.vmr vmr).start (vmrEnd (s.vmr vmr)) := by
      rw [← h.checkVmrIntersect_eq]
      simp [hfree]
    have hyno : ¬ (s.vmr y).Meets (s.vmr vmr).start (vmrEnd (s.vmr vmr)) :=
      fun hm => hno ⟨y, h.mem_tree.mp hy, hm⟩
    have := hproper.pos
    rw [Vmregion.Meets, hproper.vmrEnd_eq] at hyno
    simp only [Precedes]
    omega
  have hcmp : ∀ y, cmpTwoVmrs (s.vmr vmr) (s.vmr y) = true ↔ Precedes s.vmr vmr y := by
    intro y
    have := hproper.pos
    simp only [cmpTwoVmrs, hproper.vmrEnd_eq, decide_eq_true_eq, Precedes]
    omega
  have hbefore : ∀ y ∈ s.vmrTree.toList, cmpTwoVmrs (s.vmr vmr) (s.vmr y) = false →
      Precedes s.vmr y vmr := by
    intro y hy hlt
    refine (hapart y hy).resolve_left fun hlt' => ?_
    simp [(hcmp y).mpr hlt'] at hlt
  have hless : ∀ y ∈ s.vmrTree.toList, ∀ z ∈ s.vmrTree.toList, Precedes s.vmr y z →
      cmpTwoVmrs (s.vmr vmr) (s.vmr y) = true → cmpTwoVmrs (s.vmr vmr) (s.vmr z) = true := by
    intro y hy z hz hyz hlt
    rw [hcmp] at hlt ⊢
    simp only [Precedes] at *
    omega
  obtain ⟨t, heq, hwf, hperm, hpair⟩ := insert_pairwise h.wf h.sorted hless hbefore
    fun y _ => (hcmp y).mp
  refine ⟨t, heq, fun _ => ⟨hwf, ?_, hpair, ?_⟩⟩
  · exact (h.perm.cons vmr).trans hperm.symm
  · intro x hx
    rcases mem_cons.mp hx with rfl | hx
    · exact hproper
    · exact h.proper x hx

section specs

theorem placed_of_ne (hstart : (s.vmr vmr).start ≠ 0) : placed s vmr = s := by
  simp [placed, place, hstart, Vmspace.setVmr]

/-- `add_vmr_to_vmspace` refuses a region when `check_vmr_intersect` finds another one; else it
adds the region to the list and to the tree. -/
theorem wp_addVmrToVmspace_of_wf (h : s.vmrTree.WF) :
    wp (addVmrToVmspace vmr) (fun ret t =>
      checkVmrIntersect (placed s vmr) vmr = true ∧ ret = -einval ∧ t = placed s vmr ∨
      checkVmrIntersect (placed s vmr) vmr = false ∧ ret = 0 ∧ ∃ tree,
        s.vmrTree.insert
          (fun x => cmpTwoVmrs ((placed s vmr).vmr vmr) ((placed s vmr).vmr x)) vmr = some tree ∧
        tree.WF ∧ tree.toList.Perm (vmr :: s.vmrTree.toList) ∧
        t = ((placed s vmr).setList (vmr :: s.vmrList)).setTree tree)
      (fun _ => True) s := by
  rw [addVmrToVmspace, wp_bind, wp_read, wp_bind]
  have hplaced : wp (when ((s.vmr vmr).start = 0)
      (store fun s => s.setVmr vmr { s.vmr vmr with start := findFreeVa s }))
      (fun _ t => t = placed s vmr) (fun _ => True) s := by
    refine wp_when.mpr ⟨fun hstart => wp_store.mpr ⟨trivial, ?_⟩, fun hstart => ?_⟩
    · simp [placed, place, hstart]
    · exact (placed_of_ne hstart).symm
  refine wp_post hplaced ?_
  rintro - _ rfl
  rw [wp_bind, wp_read, wp_ite]
  refine ⟨fun hhit => ?_, fun hhit => ?_⟩
  · exact wp_pure.mpr (.inl ⟨hhit, rfl, rfl⟩)
  · have hfree : checkVmrIntersect (placed s vmr) vmr = false := by simpa using hhit
    obtain ⟨tree, heq, hwf, hold, hnew⟩ := insert_spec
      (fun x => cmpTwoVmrs ((placed s vmr).vmr vmr) ((placed s vmr).vmr x)) vmr h
    have heq' : (placed s vmr).vmrTree.insert
        (fun x => cmpTwoVmrs ((placed s vmr).vmr vmr) ((placed s vmr).vmr x)) vmr = some tree := heq
    rw [wp_bind, wp_store, rbInsert, wp_bind, wp_bind, wp_read]
    refine ⟨trivial, ?_⟩
    simp only [Vmspace.setList_vmrTree, Vmspace.setList_vmr, heq']
    rw [wp_store]
    refine ⟨trivial, wp_pure.mpr (.inr ⟨hfree, rfl, tree, heq, hwf, ?_, rfl⟩)⟩
    rw [hnew, hold]
    exact perm_middle

/-- `add_vmr_to_vmspace` refuses a range that overlaps a region; else it adds the
region. -/
theorem wp_addVmrToVmspace (h : Regular s) (hvmr : vmr ∉ s.vmrList) :
    wp (addVmrToVmspace vmr) (fun ret t =>
      checkVmrIntersect (placed s vmr) vmr = true ∧ ret = -einval ∧ t = placed s vmr ∨
      checkVmrIntersect (placed s vmr) vmr = false ∧ ret = 0 ∧
        (((placed s vmr).vmr vmr).Proper → Regular t) ∧
        ∃ tree, t = ((placed s vmr).setList (vmr :: s.vmrList)).setTree tree)
      (fun _ => True) s := by
  have h' : Regular (placed s vmr) := h.setVmr hvmr _
  refine wp_post (wp_addVmrToVmspace_of_wf h.wf) fun ret t ht => ?_
  obtain hhit | ⟨hfree, hret, tree, heq, -, -, rfl⟩ := ht
  · exact .inl hhit
  · obtain ⟨tree', heq', hregular⟩ := h'.insert hfree
    obtain rfl : tree' = tree := Option.some.inj (heq'.symm.trans heq)
    exact .inr ⟨hfree, hret, hregular, tree', rfl⟩

/-- A region of the tree intersects itself. -/
theorem Regular.checkVmrIntersect_self (h : Regular s) (hvmr : vmr ∈ s.vmrList) :
    checkVmrIntersect s vmr = true := by
  refine h.checkVmrIntersect_eq.mpr ⟨vmr, hvmr, ?_⟩
  have hproper := h.proper vmr hvmr
  have := hproper.pos
  rw [Vmregion.Meets, hproper.vmrEnd_eq]
  omega

theorem wp_removeVmrFromVmspace (h : Regular s) (hvmr : vmr ∈ s.vmrList) :
    wp (removeVmrFromVmspace vmr) (fun ret t => ret = 0 ∧ Regular t ∧
      ∃ tree, t = (s.setTree tree).setList (s.vmrList.erase vmr)) (fun _ => True) s := by
  obtain ⟨tree, heq, hwf, hperm, hpair⟩ := erase_pairwise h.wf h.sorted (h.mem_tree.mpr hvmr)
  rw [removeVmrFromVmspace, wp_bind, wp_read, wp_ite]
  refine ⟨fun _ => ?_, fun hno => absurd (h.checkVmrIntersect_self hvmr) hno⟩
  rw [wp_bind, rbErase, wp_bind, wp_read]
  simp only [heq]
  rw [wp_store]
  refine ⟨trivial, ?_⟩
  rw [wp_bind, listDel, wp_bind, wp_read, wp_bind, wp_bugOn]
  refine ⟨by simpa using hvmr, ?_⟩
  rw [wp_store]
  refine ⟨trivial, wp_pure.mpr ⟨rfl, ⟨hwf, ?_, hpair, fun x hx => ?_⟩, tree, rfl⟩⟩
  · have := h.perm.trans hperm
    exact ((perm_cons_erase hvmr).symm.trans this).cons_inv
  · exact h.proper x (mem_of_mem_erase hx)

/-- `remove_vmr_from_vmspace` of a region that is not in the tree, but overlaps one
that is, does not return. -/
theorem wlp_removeVmrFromVmspace_stray (h : Regular s) (hvmr : vmr ∉ s.vmrList)
    (hhit : checkVmrIntersect s vmr = true) :
    wlp (removeVmrFromVmspace vmr) (fun _ _ => False) s := by
  rw [removeVmrFromVmspace, wlp_bind, wlp_read, wlp_ite]
  refine ⟨fun _ => ?_, fun hno => absurd hhit hno⟩
  rw [wlp_bind, rbErase, wlp_bind, wlp_read, erase_eq_none (mt h.mem_tree.mp hvmr)]
  exact wlp_bug.mpr trivial

/-- `remove_vmr_from_vmspace` of a region that is apart from all others does
nothing. -/
theorem wp_removeVmrFromVmspace_apart (hapart : checkVmrIntersect s vmr = false) :
    wp (removeVmrFromVmspace vmr) (fun ret t => ret = -1 ∧ t = s) (fun _ => True) s := by
  rw [removeVmrFromVmspace, wp_bind, wp_read, wp_ite]
  refine ⟨fun hhit => by simp [hapart] at hhit, fun _ => ?_⟩
  exact wp_pure.mpr ⟨rfl, rfl⟩

end specs

section place

variable {s : Vmspace}

section

variable {t : Vmspace} (hlist : t.vmrList = s.vmrList) (hvmr : ∀ x ∈ s.vmrList, t.vmr x = s.vmr x)
include hlist hvmr

theorem findFreeVa_congr : findFreeVa t = findFreeVa s := by
  rw [findFreeVa, findFreeVa, hlist]
  refine foldl_ext _ _ _ fun maxVa x hx => ?_
  rw [hvmr x hx]

theorem place_congr (start : ℕ) : place t start = place s start := by
  rw [place, place, findFreeVa_congr hlist hvmr]

end

theorem place_setVmr (hvmr : vmr ∉ s.vmrList) (v : Vmregion) (start : ℕ) :
    place (s.setVmr vmr v) start = place s start := by
  have hlist : (s.setVmr vmr v).vmrList = s.vmrList := rfl
  refine place_congr hlist (fun x hx => ?_) start
  have hne : x ≠ vmr := fun heq => hvmr (heq ▸ hx)
  exact update_of_ne hne v s.vmr

end place

/-! ## The heap -/

/-- The heap region as `adjust_heap_vmr` wants to put it back. -/
def grownHeap (s : Vmspace) (addLen : ℕ) : Vmregion :=
  { s.vmr s.heapVmr with
    start := place (s.setList (s.vmrList.erase s.heapVmr)) (s.vmr s.heapVmr).start
    size := ((s.vmr s.heapVmr).size + addLen) % top }

/-- `w` is `s` with a heap region that is resized, but not on the list. -/
structure HeapOut (s : Vmspace) (addLen : ℕ) (w : Vmspace) : Prop where
  regular : Regular w
  list : w.vmrList = s.vmrList.erase s.heapVmr
  heap : w.heapVmr = s.heapVmr
  vmr : w.vmr = Function.update s.vmr s.heapVmr (grownHeap s addLen)

/-- `adjust_heap_vmr` takes the heap region out and puts it back with more bytes,
unless these overlap another region. -/
theorem wp_adjustHeapVmr (addLen : ℕ) (h : Regular s) (hne : s.heapVmr ≠ 0)
    (hapart : s.heapVmr ∈ s.vmrList ∨ checkVmrIntersect s s.heapVmr = false) :
    wp (adjustHeapVmr addLen) (fun _ t => ∃ w, HeapOut s addLen w ∧
      (checkVmrIntersect w w.heapVmr = true ∧ t = w ∨
        checkVmrIntersect w w.heapVmr = false ∧ ((w.vmr w.heapVmr).Proper → Regular t) ∧
          ∃ tree, t = (w.setList (w.heapVmr :: w.vmrList)).setTree tree))
      (fun _ => True) s := by
  rw [adjustHeapVmr, wp_bind, wp_read, wp_bind, wp_bugOn]
  refine ⟨hne, ?_⟩
  have hremoved : wp (removeVmrFromVmspace s.heapVmr) (fun _ t => Regular t ∧
      ∃ tree, t = (s.setTree tree).setList (s.vmrList.erase s.heapVmr)) (fun _ => True) s := by
    by_cases hmem : s.heapVmr ∈ s.vmrList
    · exact wp_post (wp_removeVmrFromVmspace h hmem) fun _ _ ht => ht.2
    · refine wp_post (wp_removeVmrFromVmspace_apart (hapart.resolve_left hmem)) ?_
      rintro - t ⟨-, ht⟩
      rw [erase_of_not_mem hmem, ht]
      exact ⟨h, s.vmrTree, rfl⟩
  rw [wp_bind]
  refine wp_post hremoved ?_
  rintro - t ⟨ht, tree, heq⟩
  have hvmr : t.vmr = s.vmr := by rw [heq]; rfl
  have hlist : t.vmrList = s.vmrList.erase s.heapVmr := by rw [heq]; rfl
  have hheap : t.heapVmr = s.heapVmr := by rw [heq]; rfl
  have hout : s.heapVmr ∉ t.vmrList := by
    rw [hlist]
    exact h.nodup.not_mem_erase
  rw [wp_bind, wp_store]
  refine ⟨trivial, ?_⟩
  rw [wp_bind, wp_store]
  refine ⟨trivial, ?_⟩
  rw [wp_bind]
  -- the region and the PMO with their new sizes
  generalize hv : ({ t.vmr s.heapVmr with size := _ } : Vmregion) = v
  generalize (t.setVmr s.heapVmr v).vmr s.heapVmr = v'
  generalize hu : (t.setVmr s.heapVmr v).setPmo v'.pmo _ = u
  have hregular : Regular u := by
    rw [← hu]
    exact (ht.setVmr hout v).congr rfl rfl fun _ _ => rfl
  have hu_vmr : u.vmr s.heapVmr = v := by
    rw [← hu, Vmspace.setPmo_vmr, Vmspace.setVmr_vmr, update_self]
  have hplace : place u v.start =
      place (s.setList (s.vmrList.erase s.heapVmr)) (s.vmr s.heapVmr).start := by
    have hsame : ∀ x ∈ (s.setList (s.vmrList.erase s.heapVmr)).vmrList,
        t.vmr x = (s.setList (s.vmrList.erase s.heapVmr)).vmr x := fun x _ => by rw [hvmr]; rfl
    rw [← place_congr hlist hsame, ← place_setVmr hout v, ← hu, ← hv, hvmr]
    rfl
  have hw : HeapOut s addLen (placed u s.heapVmr) := by
    refine ⟨hregular.setVmr (hu ▸ hout) _, by rw [← hlist, ← hu]; rfl,
      by rw [← hheap, ← hu]; rfl, ?_⟩
    rw [placed, Vmspace.setVmr_vmr, hu_vmr, hplace, ← hu, Vmspace.setPmo_vmr, Vmspace.setVmr_vmr,
      update_idem, hvmr, ← hv, hvmr]
    rfl
  refine wp_post (wp_addVmrToVmspace hregular (hu ▸ hout)) fun ret t' ht' => ?_
  refine wp_pure.mpr ⟨placed u s.heapVmr, hw, ?_⟩
  rw [hw.heap]
  rcases ht' with ⟨hhit, -, ht'⟩ | ⟨hfree, -, ht'⟩
  · exact .inl ⟨hhit, ht'⟩
  · exact .inr ⟨hfree, ht'⟩

end Starfish.VMSpace
