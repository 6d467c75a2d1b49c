import Mathlib.Data.List.Nodup
import Starfish.VMSpace.Runs

/-!
# Starfish.VMSpace.Ckpt

Checkpoint and restore of the regions (`kernel/ckpt-ssi/ckpt_objects/vmspace.c`).

A checkpoint records the root of each PMO, and a restore looks the PMO up by its root, first in
the `obj_map` of the restore and then in the root itself (`ckpt_object_pool.c`).

The record is used again by a later checkpoint, which writes `heap_vmr_idx` only if it meets the
heap region.  Without a heap, the restore takes the region at the index that an earlier checkpoint
or `kzalloc` has left for the heap.

The restore adds one region after the other and ignores that `add_vmr_to_vmspace` refuses a region,
or moves one that begins at address 0.  A region that is lost or moved stays so: `load` counts the
regions, and those at address 0 twice, and no later step makes up for what is missing.
-/

namespace Starfish.VMSpace

open Function Prog List

/-! ## The roots of the objects -/

/-- `obj->obj_root` of an object, `root->obj` of a root, and the `obj_map` of a restore.  NULL is
`0`. -/
structure Roots where
  objRoot : ℕ → ℕ
  obj : ℕ → ℕ
  objMap : ℕ → Option ℕ

/-- `ckpt_obj_root_get`, when `ckpt_obj_root_alloc` returns `root`. -/
def ckptObjRootGet (m : Roots) (obj root : ℕ) : ℕ × Roots :=
  if m.objRoot obj = 0 then
    (root, { m with objRoot := update m.objRoot obj root, obj := update m.obj root obj })
  else (m.objRoot obj, m)

/-- `restore_obj_get_by_cap_group`, when `object_alloc` returns `new`. -/
def restoreObjGet (m : Roots) (root new : ℕ) : ℕ × Roots :=
  match m.objMap root with
  | some obj => (obj, m)
  | none =>
    if m.obj root = 0 then
      (new, ⟨update m.objRoot new root, update m.obj root new, update m.objMap root (some new)⟩)
    else (m.obj root, { m with objMap := update m.objMap root (some (m.obj root)) })

/-! ## Checkpoint and restore -/

/-- `struct ckpt_vmregion` -/
structure CkptVmregion where
  start : ℕ
  size : ℕ
  perm : ℕ
  pmoRoot : ℕ
deriving DecidableEq, Inhabited

/-- `struct ckpt_vmspace` -/
structure CkptVmspace where
  ckptVmrs : List CkptVmregion
  heapVmrIdx : ℕ
  userCurrentMmapAddr : ℕ

/-- `vmr_ckpt`, when `ckpt_obj_root_alloc` returns `root`. -/
def vmrCkpt (v : Vmregion) (m : Roots) (root : ℕ) : CkptVmregion × Roots :=
  let (pmoRoot, m) := ckptObjRootGet m v.pmo root
  (⟨v.start, v.size, v.perm, pmoRoot⟩, m)

/-- The regions of a vmspace; all of them are allocated. -/
def regions (s : Vmspace) : List Vmregion := s.vmrList.map fun x => { s.vmr x with live := true }

/-- The loop of `vmspace_ckpt`, when `ckpt_obj_root_alloc` returns `rootAlloc obj` for an object
without a root. -/
def vmrsCkpt (rootAlloc : ℕ → ℕ) : List Vmregion → Roots → List CkptVmregion × Roots
  | [], m => ([], m)
  | v :: vs, m =>
    let (c, m) := vmrCkpt v m (rootAlloc v.pmo)
    let (cs, m) := vmrsCkpt rootAlloc vs m
    (c :: cs, m)

/-- `vmspace_ckpt` into the record `r`. -/
def vmspaceCkpt (rootAlloc : ℕ → ℕ) (s : Vmspace) (r : CkptVmspace) (m : Roots) :
    CkptVmspace × Roots :=
  let (ckptVmrs, m) := vmrsCkpt rootAlloc (regions s) m
  -- the loop over the list writes the index when it meets the heap
  let idx := if s.heapVmr ∈ s.vmrList then s.vmrList.idxOf s.heapVmr else r.heapVmrIdx
  (⟨ckptVmrs, idx, s.userCurrentMmapAddr⟩, m)

/-- Code that works on the vmspace only. -/
def onVmspace {α : Type} (c : Prog Vmspace α) : Prog (Vmspace × Roots) α :=
  zoom Prod.fst (fun s t => (s, t.2)) c

/-- `vmr_restore` into the region that `alloc_vmregion` has given, when `object_alloc` returns
`new`. -/
def vmrRestore (c : CkptVmregion) (vmr new : ℕ) : Prog (Vmspace × Roots) Unit := do
  let found ← read fun t => restoreObjGet t.2 c.pmoRoot new
  store fun t => (t.1, found.2)
  onVmspace (store (·.setVmr vmr ⟨c.start, c.size, c.perm, found.1, true⟩))

/-- The body of the loop of `vmspace_restore`; it ignores what `add_vmr_to_vmspace` returns. -/
def restoreVmr (r : CkptVmspace) (alloc new : ℕ → ℕ) (i : ℕ) : Prog (Vmspace × Roots) Unit := do
  vmrRestore (r.ckptVmrs.getD i default) (alloc i) (new i)
  let _ ← onVmspace (addVmrToVmspace (alloc i))
  when (i = r.heapVmrIdx) (onVmspace (store (·.setHeapVmr (alloc i))))

/-- `vmspace_restore`, with the `i`-th region at `alloc i`.  `vmspace_init` leaves `heap_vmr`. -/
def vmspaceRestore (r : CkptVmspace) (alloc new : ℕ → ℕ) : Prog (Vmspace × Roots) Unit := do
  onVmspace (store fun t => { Vmspace.init t.vmr t.pmo with heapVmr := t.heapVmr })
  forUpTo r.ckptVmrs.length (restoreVmr r alloc new)
  onVmspace (store (·.setMmapAddr r.userCurrentMmapAddr))

theorem wp_onVmspace {α : Type} {c : Prog Vmspace α} {Q : α → Vmspace × Roots → Prop}
    {t : Vmspace × Roots} : wp (onVmspace c) Q (fun _ => True) t ↔
      wp c (fun a s => Q a (s, t.2)) (fun _ => True) t.1 :=
  wp_zoom (fun _ _ => rfl) (fun _ _ _ => rfl) fun _ => rfl

/-! ## PMOs by their roots -/

section roots

variable {rootAlloc : ℕ → ℕ} {m : Roots}

/-- The root of an object knows the object, and `ckpt_obj_root_alloc` returns new roots. -/
structure Linked (rootAlloc : ℕ → ℕ) (m : Roots) : Prop where
  back : ∀ p, m.objRoot p ≠ 0 → m.obj (m.objRoot p) = p
  unused : ∀ p q, m.objRoot p = 0 → m.objRoot q ≠ rootAlloc p

theorem Linked.get (h : Linked rootAlloc m) (hinj : Injective rootAlloc)
    (hne : ∀ p, rootAlloc p ≠ 0) (p : ℕ) :
    Linked rootAlloc (ckptObjRootGet m p (rootAlloc p)).2 ∧
      (ckptObjRootGet m p (rootAlloc p)).1 ≠ 0 ∧
      (ckptObjRootGet m p (rootAlloc p)).2.objRoot p = (ckptObjRootGet m p (rootAlloc p)).1 ∧
      ∀ q, m.objRoot q ≠ 0 → (ckptObjRootGet m p (rootAlloc p)).2.objRoot q = m.objRoot q := by
  by_cases hp : m.objRoot p = 0
  · rw [ckptObjRootGet, if_pos hp]
    refine ⟨⟨fun q hq => ?_, fun q q' hq => ?_⟩, hne p, update_self .., fun q hq => ?_⟩
    · by_cases hqp : q = p
      · simp [hqp]
      · simp only [update_of_ne hqp] at hq ⊢
        rw [update_of_ne (h.unused p q hp), h.back q hq]
    · by_cases hqp : q = p
      · simp [hqp, hne] at hq
      · simp only [update_of_ne hqp] at hq
        by_cases hqp' : q' = p
        · simpa [hqp'] using fun heq => hqp (hinj heq).symm
        · simpa [update_of_ne hqp'] using h.unused q q' hq
    · have hqp : q ≠ p := fun heq => hq (heq ▸ hp)
      exact update_of_ne hqp _ _
  · rw [ckptObjRootGet, if_neg hp]
    exact ⟨h, hp, rfl, fun _ _ => rfl⟩

/-- The record `c` is that of `v`, and its root leads to the PMO of `v`. -/
def Records (m : Roots) (c : CkptVmregion) (v : Vmregion) : Prop :=
  c = ⟨v.start, v.size, v.perm, c.pmoRoot⟩ ∧ m.obj c.pmoRoot = v.pmo ∧
    ∀ p ∈ m.objMap c.pmoRoot, p = v.pmo

theorem vmrsCkpt_spec (vs : List Vmregion) (h : Linked rootAlloc m) (hinj : Injective rootAlloc)
    (hne : ∀ p, rootAlloc p ≠ 0) :
    Linked rootAlloc (vmrsCkpt rootAlloc vs m).2 ∧
      (∀ q, m.objRoot q ≠ 0 → (vmrsCkpt rootAlloc vs m).2.objRoot q = m.objRoot q) ∧
      Forall₂ (fun c v => c = ⟨v.start, v.size, v.perm, (vmrsCkpt rootAlloc vs m).2.objRoot v.pmo⟩ ∧
        (vmrsCkpt rootAlloc vs m).2.objRoot v.pmo ≠ 0) (vmrsCkpt rootAlloc vs m).1 vs := by
  induction vs generalizing m with
  | nil => exact ⟨h, fun _ _ => rfl, .nil⟩
  | cons v vs ih =>
    obtain ⟨hlinked, hroot, hself, hkeep⟩ := h.get hinj hne v.pmo
    obtain ⟨hlinked', hkeep', hrest⟩ := ih hlinked
    have hv := (hkeep' v.pmo (hself ▸ hroot)).trans hself
    exact ⟨hlinked', fun q hq => (hkeep' q (hkeep q hq ▸ hq)).trans (hkeep q hq),
      .cons ⟨congrArg _ hv.symm, hv ▸ hroot⟩ hrest⟩

/-- A region's PMO is found by its root, and all others still are afterwards. -/
theorem Records.restore {c : CkptVmregion} {v : Vmregion} (h : Records m c v) (hv : v.pmo ≠ 0)
    (new : ℕ) : (restoreObjGet m c.pmoRoot new).1 = v.pmo ∧
      ∀ c' v', Records m c' v' → Records (restoreObjGet m c.pmoRoot new).2 c' v' := by
  obtain ⟨-, hobj, hmap⟩ := h
  cases hget : m.objMap c.pmoRoot with
  | some p =>
    simp only [restoreObjGet, hget]
    exact ⟨hmap p hget, fun _ _ h' => h'⟩
  | none =>
    simp only [restoreObjGet, hget, hobj, if_neg hv]
    refine ⟨trivial, fun c' v' ⟨hc', hobj', hmap'⟩ => ⟨hc', hobj', fun p hp => ?_⟩⟩
    by_cases hroot : c'.pmoRoot = c.pmoRoot
    · obtain rfl : v.pmo = p := by simpa [hroot] using hp
      rw [← hobj, ← hroot, hobj']
    · exact hmap' p (by simpa [update_of_ne hroot] using hp)

end roots

/-! ## Regions that can be added one after the other -/

/-- The regions have an address in common.  The comparisons take an empty region for its first
address. -/
def Touches (v w : Vmregion) : Prop := v.start ≤ vmrEnd w ∧ w.start ≤ vmrEnd v

instance : DecidableRel Touches := fun _ _ => inferInstanceAs (Decidable (_ ∧ _))

/-- `w` can be added after `v` without being refused because of `v`, or moved: a region at address
0 goes behind the end of all others. -/
def Joins (v w : Vmregion) : Prop := ¬ Touches v w ∧ (w.start = 0 → (v.start + v.size) % top = 0)

instance : DecidableRel Joins := fun _ _ => inferInstanceAs (Decidable (_ ∧ _))

/-- The region does not wrap around. -/
def Vmregion.Unwrapped (v : Vmregion) : Prop := v.start ≤ vmrEnd v

instance : DecidablePred Vmregion.Unwrapped := fun _ => inferInstanceAs (Decidable (_ ≤ _))

/-- The tree holds regions that do not wrap around in the order of their addresses; they may be
empty. -/
structure Ordered (s : Vmspace) : Prop where
  sorted : s.vmrTree.toList.Pairwise fun x y => vmrEnd (s.vmr x) < (s.vmr y).start
  unwrapped : ∀ x ∈ s.vmrTree.toList, (s.vmr x).Unwrapped

section ordered

variable {s : Vmspace} {vmr : ℕ}

theorem cmpVmrAndRange_eq_iff (v w : Vmregion) :
    cmpVmrAndRange w.start (vmrEnd w) v = .eq ↔ Touches v w := by
  rw [cmpVmrAndRange, Touches]
  split
  · simp
    omega
  · split
    · simp
      omega
    · simp
      omega

theorem exists_touches (h : checkVmrIntersect s vmr = true) :
    ∃ x ∈ s.vmrTree.toList, Touches (s.vmr x) (s.vmr vmr) := by
  obtain ⟨x, hx⟩ := Option.isSome_iff_exists.mp h
  obtain ⟨hmem, heq⟩ := RBTree.mem_of_search hx
  exact ⟨x, hmem, (cmpVmrAndRange_eq_iff _ _).mp heq⟩

/-- In an ordered tree `check_vmr_intersect` misses nothing. -/
theorem Ordered.checkVmrIntersect (h : Ordered s) (hx : x ∈ s.vmrTree.toList)
    (ht : Touches (s.vmr x) (s.vmr vmr)) : checkVmrIntersect s vmr = true := by
  refine RBTree.search_isSome (R := fun x y => vmrEnd (s.vmr x) < (s.vmr y).start)
    ⟨h.sorted, fun y hy z hz hyz hlt => ?_, fun y hy z hz hyz hgt => ?_⟩ hx
    ((cmpVmrAndRange_eq_iff _ _).mpr ht)
  · have hy' : (s.vmr y).start ≤ vmrEnd (s.vmr y) := h.unwrapped y hy
    have hlast : vmrEnd (s.vmr vmr) < (s.vmr y).start := by
      by_contra hno
      simp only [cmpVmrAndRange, if_neg hno] at hlt
      split at hlt
      · simp at hlt
      · simp at hlt
    exact if_pos (by omega)
  · have hy' : (s.vmr y).start ≤ vmrEnd (s.vmr y) := h.unwrapped y hy
    have hz' : (s.vmr z).start ≤ vmrEnd (s.vmr z) := h.unwrapped z hz
    have hfirst : ¬ vmrEnd (s.vmr vmr) < (s.vmr z).start ∧ (s.vmr vmr).start > vmrEnd (s.vmr z) := by
      simp only [cmpVmrAndRange] at hgt
      split at hgt
      · simp at hgt
      · split at hgt
        · exact ⟨‹_›, ‹_›⟩
        · simp at hgt
    rw [cmpVmrAndRange, if_neg (by omega), if_pos (by omega)]

/-- A region that touches no other goes to its place in the tree. -/
theorem Ordered.insert (h : Ordered s) (hwf : s.vmrTree.WF) (hvmr : (s.vmr vmr).Unwrapped)
    (hfree : ∀ x ∈ s.vmrTree.toList, ¬ Touches (s.vmr x) (s.vmr vmr))
    (ht : s.vmrTree.insert (fun x => cmpTwoVmrs (s.vmr vmr) (s.vmr x)) vmr = some tree) :
    Ordered (s.setTree tree) := by
  have hless : ∀ y ∈ s.vmrTree.toList, ∀ z ∈ s.vmrTree.toList, vmrEnd (s.vmr y) < (s.vmr z).start →
      cmpTwoVmrs (s.vmr vmr) (s.vmr y) = true → cmpTwoVmrs (s.vmr vmr) (s.vmr z) = true := by
    intro y hy z hz hyz hlt
    have hy' : (s.vmr y).start ≤ vmrEnd (s.vmr y) := h.unwrapped y hy
    simp only [cmpTwoVmrs, decide_eq_true_eq] at hlt ⊢
    omega
  have hbefore : ∀ y ∈ s.vmrTree.toList, cmpTwoVmrs (s.vmr vmr) (s.vmr y) = false →
      vmrEnd (s.vmr y) < (s.vmr vmr).start := by
    intro y hy hlt
    have hno := hfree y hy
    simp only [cmpTwoVmrs, decide_eq_false_iff_not] at hlt
    rw [Touches] at hno
    omega
  obtain ⟨tree', heq, -, hperm, hpair⟩ := RBTree.insert_pairwise hwf h.sorted hless hbefore
    fun y _ hlt => of_decide_eq_true hlt
  obtain rfl : tree' = tree := Option.some.inj (heq.symm.trans ht)
  refine ⟨hpair, fun x hx => ?_⟩
  obtain rfl | hx := mem_cons.mp (hperm.mem_iff.mp hx)
  · exact hvmr
  · exact h.unwrapped x hx

end ordered

/-! ## What is lost stays lost -/

/-- A region at address 0 counts twice. -/
def Vmregion.weight (v : Vmregion) : ℕ := if v.start = 0 then 2 else 1

/-- The number of regions, with those at address 0 counted twice. -/
def load (vs : List Vmregion) : ℕ := (vs.map Vmregion.weight).sum

theorem load_cons (v : Vmregion) (vs : List Vmregion) : load (v :: vs) = v.weight + load vs := by
  simp [load]

/-- `add_vmr_to_vmspace` moves regions away from address 0 only. -/
theorem weight_place_le (s : Vmspace) (v : Vmregion) (live : Bool) :
    ({ v with start := place s v.start, live } : Vmregion).weight ≤ v.weight := by
  rw [Vmregion.weight, Vmregion.weight, place]
  by_cases hstart : v.start = 0
  · rw [if_pos hstart, if_pos hstart]
    split
    · omega
    · omega
  · rw [if_neg hstart, if_neg hstart]

theorem load_of_perm {vs ws : List Vmregion} (h : vs.Perm ws) : load vs = load ws :=
  (h.map _).sum_nat

theorem findFreeVa_eq_zero {s : Vmspace} : findFreeVa s = 0 ↔
    ∀ x ∈ s.vmrList, ((s.vmr x).start + (s.vmr x).size) % top = 0 := by
  have hfold : ∀ (l : List ℕ) (a : ℕ), l.foldl (fun maxVa x =>
      if maxVa < ((s.vmr x).start + (s.vmr x).size) % top
      then ((s.vmr x).start + (s.vmr x).size) % top else maxVa) a = 0 ↔
      a = 0 ∧ ∀ x ∈ l, ((s.vmr x).start + (s.vmr x).size) % top = 0 := by
    intro l
    induction l with
    | nil => simp
    | cons y l ih =>
      intro a
      rw [foldl_cons, ih, forall_mem_cons, ← and_assoc]
      refine and_congr_left fun _ => ?_
      split
      · omega
      · omega
  rw [findFreeVa, hfold]
  simp

/-! ## The loop of the restore -/

/-- The region at `vmr` is `v`, at the address where `add_vmr_to_vmspace` puts it. -/
def added (s : Vmspace) (vmr : ℕ) (v : Vmregion) : Vmspace :=
  s.setVmr vmr { v with start := place s v.start }

/-- What `add_vmr_to_vmspace` does with a region `v` at `vmr`. -/
structure Adds (s : Vmspace) (vmr : ℕ) (v : Vmregion) (s' : Vmspace) : Prop where
  vmr_eq : s'.vmr = (added s vmr v).vmr
  list_eq : checkVmrIntersect (added s vmr v) vmr = true ∧ s'.vmrList = s.vmrList ∨
    checkVmrIntersect (added s vmr v) vmr = false ∧ s'.vmrList = vmr :: s.vmrList ∧
      s.vmrTree.insert
        (fun x => cmpTwoVmrs ((added s vmr v).vmr vmr) ((added s vmr v).vmr x)) vmr =
        some s'.vmrTree

section restore

variable {vs : List Vmregion} {r : CkptVmspace} {alloc new : ℕ → ℕ} {old i : ℕ}
  {t : Vmspace × Roots} {s s' : Vmspace}

/-- After `i` rounds, whatever became of the regions; the heap was `old` before. -/
structure Restoring (vs : List Vmregion) (r : CkptVmspace) (alloc : ℕ → ℕ) (old i : ℕ)
    (t : Vmspace × Roots) : Prop where
  records : ∀ j (hj : j < vs.length), Records t.2 (r.ckptVmrs.getD j default) vs[j]
  wf : t.1.vmrTree.WF
  perm : t.1.vmrList.Perm t.1.vmrTree.toList
  mem : ∀ x ∈ t.1.vmrList, ∃ j < i, alloc j = x
  heap : t.1.heapVmr = if r.heapVmrIdx < i then alloc r.heapVmrIdx else old

theorem Restoring.notMem (h : Restoring vs r alloc old i t) (ha : Injective alloc) :
    alloc i ∉ t.1.vmrList := by
  intro hi
  obtain ⟨j, hj, heq⟩ := h.mem _ hi
  exact absurd (ha heq) (by omega)

/-- One round gives the next region to `add_vmr_to_vmspace`, with the PMO it had. -/
theorem Restoring.step (h : Restoring vs r alloc old i t) (ha : Injective alloc) (hi : i < vs.length)
    (hpmo : ∀ v ∈ vs, v.pmo ≠ 0 ∧ v.live = true) :
    wp (restoreVmr r alloc new i) (fun _ t' => Restoring vs r alloc old (i + 1) t' ∧
      Adds t.1 (alloc i) vs[i] t'.1) (fun _ => True) t := by
  obtain ⟨hne, hlive⟩ := hpmo _ (getElem_mem hi)
  have hrec := h.records i hi
  obtain ⟨hfound, hrecords⟩ := hrec.restore hne (new i)
  have hnew := h.notMem ha
  -- the region as it is recorded
  have hv : (⟨(r.ckptVmrs.getD i default).start, (r.ckptVmrs.getD i default).size,
      (r.ckptVmrs.getD i default).perm, vs[i].pmo, true⟩ : Vmregion) = vs[i] := by
    rw [hrec.1, ← hlive]
  rw [restoreVmr, vmrRestore, bind_assoc, wp_bind, wp_read, bind_assoc, wp_bind, wp_store, wp_bind,
    wp_onVmspace, wp_store, hfound, hv, wp_bind, wp_onVmspace]
  refine ⟨trivial, trivial, ?_⟩
  have hplaced : placed (t.1.setVmr (alloc i) vs[i]) (alloc i) = added t.1 (alloc i) vs[i] := by
    rw [placed, added, Vmspace.setVmr_vmr, update_self, place_setVmr hnew]
    simp [Vmspace.setVmr]
  have hmem' : ∀ x ∈ alloc i :: t.1.vmrList, ∃ j < i + 1, alloc j = x := by
    intro x hx
    obtain rfl | hx := mem_cons.mp hx
    · exact ⟨i, by omega, rfl⟩
    · obtain ⟨j, hj, heq⟩ := h.mem x hx
      exact ⟨j, by omega, heq⟩
  -- the heap pointer is written last, and nothing else depends on it
  have hlast : ∀ w : Vmspace, w.heapVmr = t.1.heapVmr → Adds t.1 (alloc i) vs[i] w →
      w.vmrTree.WF → w.vmrList.Perm w.vmrTree.toList → (∀ x ∈ w.vmrList, ∃ j < i + 1, alloc j = x) →
      wp (when (i = r.heapVmrIdx) (onVmspace (store (·.setHeapVmr (alloc i)))))
        (fun _ t' => Restoring vs r alloc old (i + 1) t' ∧ Adds t.1 (alloc i) vs[i] t'.1)
        (fun _ => True) (w, (restoreObjGet t.2 (r.ckptVmrs.getD i default).pmoRoot (new i)).2) := by
    intro w hheap hadds hwf hperm hmem
    have hrecords' := fun j hj => hrecords _ _ (h.records j hj)
    refine wp_when.mpr ⟨fun heq => wp_onVmspace.mpr (wp_store.mpr ⟨trivial,
      ⟨hrecords', hwf, hperm, hmem, ?_⟩, hadds.1, hadds.2⟩), fun hneq =>
      ⟨⟨hrecords', hwf, hperm, hmem, ?_⟩, hadds⟩⟩
    · simp [← heq]
    · have hlt : r.heapVmrIdx < i + 1 ↔ r.heapVmrIdx < i := by omega
      simp only [hheap, h.heap, hlt]
  refine wp_post (wp_addVmrToVmspace_of_wf h.wf) fun ret w hw => ?_
  rw [hplaced] at hw
  obtain ⟨hhit, -, rfl⟩ | ⟨hfree, -, tree, heq, hwf, hperm, rfl⟩ := hw
  · refine hlast _ rfl ⟨rfl, .inl ⟨hhit, rfl⟩⟩ h.wf h.perm fun x hx => ?_
    exact hmem' x (mem_cons_of_mem _ hx)
  · exact hlast _ rfl ⟨rfl, .inr ⟨hfree, rfl, heq⟩⟩ hwf ((h.perm.cons _).trans hperm.symm) hmem'

theorem regions_eq (hlist : s'.vmrList = s.vmrList) (hvmr : ∀ x ∈ s.vmrList, s'.vmr x = s.vmr x) :
    regions s' = regions s := by
  rw [regions, regions, hlist]
  exact map_congr_left fun x hx => by rw [hvmr x hx]

theorem added_self (hplace : place s v.start = v.start) : (added s vmr v).vmr vmr = v := by
  simp [added, hplace]

theorem added_of_mem (hvmr : vmr ∉ s.vmrList) (v : Vmregion) (hx : x ∈ s.vmrList) :
    (added s vmr v).vmr x = s.vmr x := by
  have hne : x ≠ vmr := fun heq => hvmr (heq ▸ hx)
  exact update_of_ne hne _ _

/-- The region is refused, or it is the one region that is new. -/
theorem Adds.regions_cases (h : Adds s vmr v s') (hvmr : vmr ∉ s.vmrList) :
    checkVmrIntersect (added s vmr v) vmr = true ∧ regions s' = regions s ∨
    checkVmrIntersect (added s vmr v) vmr = false ∧
      regions s' = { v with start := place s v.start, live := true } :: regions s := by
  have hold : ∀ x ∈ s.vmrList, s'.vmr x = s.vmr x := fun x hx => by
    rw [h.vmr_eq, added_of_mem hvmr v hx]
  obtain ⟨hhit, hlist⟩ | ⟨hfree, hlist, -⟩ := h.list_eq
  · exact .inl ⟨hhit, regions_eq hlist hold⟩
  · refine .inr ⟨hfree, ?_⟩
    rw [regions, hlist, map_cons, map_congr_left fun x hx => by rw [hold x hx], h.vmr_eq]
    simp [added, regions]

/-- The first `i` regions are restored. -/
structure Restored (vs : List Vmregion) (alloc : ℕ → ℕ) (i : ℕ) (s : Vmspace) : Prop where
  list : s.vmrList = ((range i).map alloc).reverse
  vmr : ∀ j (hj : j < vs.length), j < i → s.vmr (alloc j) = vs[j]
  ordered : (∀ v ∈ vs, v.Unwrapped) → Ordered s

theorem Restored.mem (h : Restored vs alloc i s) : x ∈ s.vmrList ↔ ∃ j < i, alloc j = x := by
  simp [h.list]

theorem alloc_ne (ha : Injective alloc) (hj : j < i) : alloc j ≠ alloc i :=
  fun heq => absurd (ha heq) (by omega)

theorem Restored.regions_eq (h : Restored vs alloc i s) (hi : i ≤ vs.length)
    (hlive : ∀ v ∈ vs, v.live = true) : regions s = (vs.take i).reverse := by
  rw [regions, h.list, map_reverse, map_map]
  congr 1
  refine ext_getElem (by simp [hi]) fun j hj hj' => ?_
  have hji : j < i := by simpa using hj
  have hjs : j < vs.length := by omega
  have hvj := hlive _ (getElem_mem hjs)
  simp only [getElem_map, getElem_range, comp_apply, h.vmr j hjs hji, getElem_take]
  rw [← hvj]

/-- A region is not moved, if those before it leave address 0 free for it. -/
theorem Restored.place_eq (h : Restored vs alloc i s) (hi : i < vs.length)
    (hends : ∀ j (hj : j < i), vs[i].start = 0 → (vs[j].start + vs[j].size) % top = 0) :
    place s vs[i].start = vs[i].start := by
  by_cases hstart : vs[i].start = 0
  · rw [place, if_pos hstart, hstart, findFreeVa_eq_zero]
    intro x hx
    obtain ⟨j, hj, rfl⟩ := h.mem.mp hx
    rw [h.vmr j (by omega) hj]
    exact hends j hj hstart
  · rw [place, if_neg hstart]

section next

variable (h : Restored vs alloc i s) (hperm : s.vmrList.Perm s.vmrTree.toList)
  (ha : Injective alloc) (hi : i < vs.length)
include h hperm ha hi

/-- What `check_vmr_intersect` finds in the tree are the regions before. -/
theorem Restored.added_vmr (hx : x ∈ s.vmrTree.toList) : ∃ j, ∃ hj : j < i, alloc j = x ∧
    (added s (alloc i) vs[i]).vmr x = vs[j] := by
  obtain ⟨j, hj, rfl⟩ := h.mem.mp (hperm.mem_iff.mpr hx)
  exact ⟨j, hj, rfl, (update_of_ne (alloc_ne ha hj) _ _).trans (h.vmr j (by omega) hj)⟩

theorem Restored.ordered_added (hvs : ∀ v ∈ vs, v.Unwrapped) :
    Ordered (added s (alloc i) vs[i]) := by
  have hold : ∀ x ∈ s.vmrTree.toList, (added s (alloc i) vs[i]).vmr x = s.vmr x := by
    intro x hx
    obtain ⟨j, hj, rfl, heq⟩ := h.added_vmr hperm ha hi hx
    rw [heq, h.vmr j (by omega) hj]
  refine ⟨(h.ordered hvs).sorted.imp_of_mem fun {x y} hx hy hxy => ?_, fun x hx => ?_⟩
  · rwa [hold x hx, hold y hy]
  · rw [hold x hx]
    exact (h.ordered hvs).unwrapped x hx

variable (hadds : Adds s (alloc i) vs[i] s')
include hadds

/-- A region that joins those before it is restored. -/
theorem Restored.step (hwf : s.vmrTree.WF) (hjoins : ∀ j (hj : j < i), Joins vs[j] vs[i]) :
    Restored vs alloc (i + 1) s' := by
  have hplace := h.place_eq hi fun j hj => (hjoins j hj).2
  have hself : (added s (alloc i) vs[i]).vmr (alloc i) = vs[i] := added_self hplace
  have hfree : ∀ x ∈ s.vmrTree.toList, ¬ Touches ((added s (alloc i) vs[i]).vmr x)
      ((added s (alloc i) vs[i]).vmr (alloc i)) := by
    intro x hx
    obtain ⟨j, hj, -, heq⟩ := h.added_vmr hperm ha hi hx
    rw [heq, hself]
    exact (hjoins j hj).1
  obtain ⟨hhit, -⟩ | ⟨-, hlist, hinsert⟩ := hadds.list_eq
  · obtain ⟨x, hx, htouches⟩ := exists_touches hhit
    exact absurd htouches (hfree x hx)
  refine ⟨?_, fun j hj hji => ?_, fun hvs => ?_⟩
  · rw [hlist, h.list]
    simp [range_succ]
  · rw [hadds.vmr_eq]
    obtain hji | rfl := Nat.lt_succ_iff_lt_or_eq.mp hji
    · exact (update_of_ne (alloc_ne ha hji) _ _).trans (h.vmr j hj hji)
    · exact hself
  · obtain ⟨hsorted, hunwrapped⟩ := (h.ordered_added hperm ha hi hvs).insert hwf
      (by rw [hself]; exact hvs _ (getElem_mem hi)) hfree hinsert
    rw [Vmspace.setTree_vmrTree, Vmspace.setTree_vmr, ← hadds.vmr_eq] at hsorted hunwrapped
    exact ⟨hsorted, hunwrapped⟩

/-- A region that does not join those before it is refused or moved. -/
theorem Restored.loses (hvs : ∀ v ∈ vs, v.Unwrapped) (hj : j < i) (hno : ¬ Joins vs[j] vs[i]) :
    load (regions s') < load (regions s) + vs[i].weight := by
  have hnew : alloc i ∉ s.vmrList := by
    rw [h.mem]
    rintro ⟨j, hj, heq⟩
    exact alloc_ne ha hj heq
  obtain ⟨-, heq⟩ | ⟨hfree, heq⟩ := hadds.regions_cases hnew
  · rw [heq, Vmregion.weight]
    split
    · omega
    · omega
  · -- it is added, so it begins elsewhere
    have hmoved : place s vs[i].start ≠ vs[i].start := by
      intro hplace
      have hends : ∀ j (hj : j < i), vs[i].start = 0 → (vs[j].start + vs[j].size) % top = 0 := by
        intro j hj hstart
        rw [place, if_pos hstart, hstart, findFreeVa_eq_zero] at hplace
        have hend := hplace (alloc j) (h.mem.mpr ⟨j, hj, rfl⟩)
        rwa [h.vmr j (by omega) hj] at hend
      have htouches : Touches vs[j] vs[i] := by
        by_contra hno'
        exact hno ⟨hno', hends j hj⟩
      have hx : alloc j ∈ s.vmrTree.toList := hperm.mem_iff.mp (h.mem.mpr ⟨j, hj, rfl⟩)
      have hvj : (added s (alloc i) vs[i]).vmr (alloc j) = vs[j] :=
        (update_of_ne (alloc_ne ha hj) _ _).trans (h.vmr j (by omega) hj)
      have hhit : checkVmrIntersect (added s (alloc i) vs[i]) (alloc i) = true := by
        refine (h.ordered_added hperm ha hi hvs).checkVmrIntersect hx ?_
        rwa [hvj, added_self hplace]
      simp [hfree] at hhit
    have hstart : vs[i].start = 0 := by
      by_contra hne
      exact hmoved (if_neg hne)
    rw [hstart] at hmoved
    rw [heq, load_cons, Vmregion.weight, Vmregion.weight, hstart, if_neg hmoved, if_pos rfl]
    omega

end next

/-- What is lost is not made up for. -/
theorem Adds.load_le (hadds : Adds s vmr v s') (hnew : vmr ∉ s.vmrList) :
    load (regions s') ≤ load (regions s) + v.weight := by
  obtain ⟨-, heq⟩ | ⟨-, heq⟩ := hadds.regions_cases hnew
  · rw [heq]
    omega
  · have hle := weight_place_le s v true
    rw [heq, load_cons]
    omega

/-- After `i` rounds: the regions are restored as long as each joins those before it, and once
one did not, a region is missing. -/
structure Progress (vs : List Vmregion) (r : CkptVmspace) (alloc : ℕ → ℕ) (old i : ℕ)
    (t : Vmspace × Roots) : Prop extends Restoring vs r alloc old i t where
  restored : (vs.take i).Pairwise Joins → Restored vs alloc i t.1
  lost : (∀ v ∈ vs, v.Unwrapped) → ¬ (vs.take i).Pairwise Joins → load (regions t.1) < load (vs.take i)

theorem Progress.step (h : Progress vs r alloc old i t) (ha : Injective alloc) (hi : i < vs.length)
    (hpmo : ∀ v ∈ vs, v.pmo ≠ 0 ∧ v.live = true) :
    wp (restoreVmr r alloc new i) (fun _ t' => Progress vs r alloc old (i + 1) t') (fun _ => True)
      t := by
  refine wp_post (h.toRestoring.step ha hi hpmo) fun _ t' ⟨hrestoring, hadds⟩ => ?_
  have htake : vs.take (i + 1) = vs.take i ++ [vs[i]] := (take_append_getElem hi).symm
  have hpair : (vs.take (i + 1)).Pairwise Joins ↔
      (vs.take i).Pairwise Joins ∧ ∀ j (hj : j < i), Joins vs[j] vs[i] := by
    rw [htake, pairwise_append]
    refine and_congr_right fun _ => ⟨fun hall j hj => ?_, fun hall => ?_⟩
    · exact hall.2 _ (mem_take_iff_getElem.mpr ⟨j, by omega, rfl⟩) _ mem_cons_self
    · refine ⟨pairwise_singleton _ _, fun v hv w hw => ?_⟩
      obtain ⟨j, hj, rfl⟩ := mem_take_iff_getElem.mp hv
      obtain rfl := mem_singleton.mp hw
      exact hall j (by omega)
  refine ⟨hrestoring, fun hjoins => ?_, fun hvs hno => ?_⟩
  · obtain ⟨hbefore, hjoins⟩ := hpair.mp hjoins
    exact (h.restored hbefore).step h.perm ha hi hadds h.wf hjoins
  · have hload : load (vs.take (i + 1)) = load (vs.take i) + vs[i].weight := by
      rw [htake]
      simp only [load, map_append, sum_append, map_cons, map_nil, sum_cons, sum_nil, Nat.add_zero]
    rw [hload]
    by_cases hbefore : (vs.take i).Pairwise Joins
    · obtain ⟨j, hj, hnot⟩ : ∃ j, ∃ hj : j < i, ¬ Joins vs[j] vs[i] := by
        by_contra hall
        push Not at hall
        exact hno (hpair.mpr ⟨hbefore, hall⟩)
      have hs := h.restored hbefore
      have hregions := hs.regions_eq hi.le fun v hv => (hpmo v hv).2
      have hlt := hs.loses h.perm ha hi hadds hvs hj hnot
      rwa [hregions, load_of_perm (reverse_perm _)] at hlt
    · have hlt := h.lost hvs hbefore
      have hle := hadds.load_le (h.notMem ha)
      omega

end restore

/-! ## Restoring a checkpoint -/

/-- `heap_vmr` of `t` is set exactly if `s` has a heap region, and to that region. -/
def HeapRestored (s t : Vmspace) : Prop :=
  if s.heapVmr ∈ s.vmrList then
    t.heapVmr ∈ t.vmrList ∧
      { t.vmr t.heapVmr with live := true } = { s.vmr s.heapVmr with live := true }
  else t.heapVmr = 0

/-- `t` has exactly the regions of `s`, and its heap. -/
def RestoredAs (s t : Vmspace) : Prop := (regions t).Perm (regions s) ∧ HeapRestored s t

/-- Each region joins those before it on the list; and there is a heap, or the index left in the
record is behind the last region and the object that is restored has no old heap. -/
def Restorable (s : Vmspace) (r : CkptVmspace) (t : Vmspace) : Prop :=
  (regions s).Pairwise Joins ∧
    (s.heapVmr ∈ s.vmrList ∨ t.heapVmr = 0 ∧ s.vmrList.length ≤ r.heapVmrIdx)

instance (s : Vmspace) (r : CkptVmspace) (t : Vmspace) : Decidable (Restorable s r t) :=
  inferInstanceAs (Decidable (_ ∧ _))

/-- When all regions are restored, the heap is, exactly if the index does not mislead. -/
theorem Restored.heap_iff {s : Vmspace} {r : CkptVmspace} {alloc : ℕ → ℕ} {old : ℕ} {t : Vmspace}
    (h : Restored (regions s) alloc (regions s).length t) (hnull : ∀ i, alloc i ≠ 0)
    (hheap : t.heapVmr =
      let idx := if s.heapVmr ∈ s.vmrList then s.vmrList.idxOf s.heapVmr else r.heapVmrIdx
      if idx < (regions s).length then alloc idx else old) :
    HeapRestored s t ↔ s.heapVmr ∈ s.vmrList ∨ old = 0 ∧ s.vmrList.length ≤ r.heapVmrIdx := by
  have hlen : (regions s).length = s.vmrList.length := by simp [regions]
  rw [hlen] at hheap
  by_cases hmem : s.heapVmr ∈ s.vmrList
  · have hlt := idxOf_lt_length_of_mem hmem
    simp only [if_pos hmem, if_pos hlt] at hheap
    rw [HeapRestored, if_pos hmem]
    refine iff_of_true ⟨?_, ?_⟩ (.inl hmem)
    · exact hheap ▸ h.mem.mpr ⟨_, hlen ▸ hlt, rfl⟩
    · rw [hheap, h.vmr _ (hlen ▸ hlt) (hlen ▸ hlt)]
      simp [regions]
  · simp only [if_neg hmem] at hheap
    simp only [HeapRestored, hmem, if_false, false_or, hheap]
    split
    · next hlt => simp [hnull, hlt]
    · next hle => simp [Nat.not_lt.mp hle]

/-- A page of PMO 5. -/
def onePage : Vmspace := after (.mapRange 0x400000 4096 vmrRead 5 1) bootSpace

/-- Beside the page, a heap of no bytes, which `sys_handle_brk` puts on the list. -/
def unusedHeap : Vmspace := after (.brk 0x600000 0 0 0 0) (after (.brk 0 0x600000 0 7 2) onePage)

/-- No object has a root yet. -/
def noRoots : Roots := ⟨fun _ => 0, fun _ => 0, fun _ => none⟩

theorem linked_noRoots : Linked (· + 1) noRoots where
  back _ hp := absurd rfl hp
  unused p _ _ := (Nat.succ_ne_zero p).symm

end Starfish.VMSpace
