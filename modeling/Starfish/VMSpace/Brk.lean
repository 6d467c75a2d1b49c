import Starfish.VMSpace.Regions

/-!
# Starfish.VMSpace.Brk

`sys_handle_brk` against what its callers rely on: the address that it reports is the
end of the heap region, and when the heap cannot grow nothing changes (`BrkRight`).

`adjust_heap_vmr` takes the heap region out, makes it longer and puts it back, and
`sys_handle_brk` does not learn whether it came back.  `brk_right_iff` says for which
regions and addresses this goes well.
-/

namespace Starfish.VMSpace

open Prog Function

/-- The end of the heap, as the call computes it. -/
def oldEnd (s : Vmspace) : ℕ := ((s.vmr s.heapVmr).start + (s.vmr s.heapVmr).size) % top

/-- The heap region as the call wants it. -/
def brkHeap (s : Vmspace) (addr : ℕ) : Vmregion := grownHeap s (addr - oldEnd s)

/-- Another region has an address of `[heap_start, addr)`. -/
def Overlap (s : Vmspace) (addr : ℕ) : Prop :=
  ∃ x ∈ s.vmrList, x ≠ s.heapVmr ∧
    ∃ va, (s.vmr s.heapVmr).start ≤ va ∧ va < addr ∧ (s.vmr x).Contains va

/-- `add_vmr_to_vmspace` refuses the region that the call wants. -/
def Refused (s : Vmspace) (addr : ℕ) : Prop :=
  ∃ x ∈ s.vmrList, x ≠ s.heapVmr ∧
    (s.vmr x).Meets (brkHeap s addr).start (vmrEnd (brkHeap s addr))

/-- The heap and the other regions are as before. -/
structure Unchanged (s t : Vmspace) : Prop where
  heap : t.heapVmr = s.heapVmr
  vmr : t.vmr = s.vmr
  list : ∀ x, x ∈ t.vmrList ↔ x ∈ s.vmrList
  lookup : ∀ va, findVmrForVa t va = findVmrForVa s va

/-- What `brk(addr)` promises of its result. -/
structure BrkRight (s : Vmspace) (addr heapStart : ℕ) (r : Outcome Vmspace ℕ) : Prop where
  returns : addr ≠ 0 → ∃ ret t, r = .ok ret t
  reported : ∀ t, r = .ok addr t →
    (t.vmr t.heapVmr).start = (if addr = 0 then heapStart else (s.vmr s.heapVmr).start) ∧
    (t.vmr t.heapVmr).start + (t.vmr t.heapVmr).size = addr ∧
    ∀ va, (t.vmr t.heapVmr).Contains va → findVmrForVa t va = some t.heapVmr
  refused : addr ≠ 0 → s.heapVmr ≠ 0 → Overlap s addr ∨ Refused s addr →
    ∃ ret t, r = .ok ret t ∧ (ret = 0 ∨ ret = oldEnd s) ∧ Unchanged s t

/-- The heap region can grow to `addr`. -/
structure BrkFits (s : Vmspace) (addr : ℕ) : Prop where
  apart : s.heapVmr ∈ s.vmrList ∨ checkVmrIntersect s s.heapVmr = false
  room : ¬ Refused s addr
  stays : (brkHeap s addr).start = (s.vmr s.heapVmr).start
  below : (s.vmr s.heapVmr).start ≤ addr

section

variable {s : Vmspace} {addr heapStart pmo vmr : ℕ} {pmoCap : ℤ}

/-! ## The length of the new heap -/

theorem brkHeap_size (hstart : (s.vmr s.heapVmr).start < top) (haddr : addr < top) (hend : oldEnd s ≤ addr) :
    (brkHeap s addr).size =
      if (s.vmr s.heapVmr).start ≤ addr then addr - (s.vmr s.heapVmr).start
      else addr + top - (s.vmr s.heapVmr).start := by
  simp only [brkHeap, grownHeap, oldEnd, top] at *
  split <;> omega

theorem HeapOut.hit_iff (h : Regular s) (hw : HeapOut s (addr - oldEnd s) w) :
    checkVmrIntersect w w.heapVmr = true ↔ Refused s addr := by
  have hheap : w.vmr s.heapVmr = brkHeap s addr := by
    rw [hw.vmr, update_self]
    rfl
  have hother : ∀ x, x ≠ s.heapVmr → w.vmr x = s.vmr x := fun x hne => by
    rw [hw.vmr, update_of_ne hne]
  rw [hw.regular.checkVmrIntersect_eq, hw.heap, hheap, hw.list, Refused]
  constructor
  · rintro ⟨x, hx, hmeets⟩
    obtain ⟨hne, hx⟩ := h.nodup.mem_erase_iff.mp hx
    exact ⟨x, hx, hne, hother x hne ▸ hmeets⟩
  · rintro ⟨x, hx, hne, hmeets⟩
    exact ⟨x, h.nodup.mem_erase_iff.mpr ⟨hne, hx⟩, (hother x hne).symm ▸ hmeets⟩

/-! ## The call -/

/-- `brk(0)` sets up a heap region without bytes. -/
theorem wlp_sysHandleBrk_zero : wlp (sysHandleBrk 0 heapStart pmoCap pmo vmr)
    (fun ret t => ret = heapStart ∧ (t.vmr t.heapVmr).start = heapStart ∧
      (t.vmr t.heapVmr).size = 0) s := by
  rw [sysHandleBrk, wlp_bind, writeLock, wlp_await]
  intro _
  rw [if_pos rfl, wlp_bind, wlp_bugOn]
  intro _
  rw [wlp_bind, initHeapVmr, wlp_ite]
  refine ⟨fun _ => ?_, fun hne => ?_⟩
  · rw [wlp_pure, wlp_bind, wlp_bugOn]
    exact fun hno => absurd rfl hno
  · rw [wlp_bind, wlp_store, wlp_pure, wlp_bind, wlp_bugOn]
    intro _
    rw [wlp_bind, wlp_store, wlp_bind, writeUnlock, wlp_store, wlp_pure]
    simp

variable (heapStart pmo vmr pmoCap) in
/-- Without a heap, or with an end that is greater, the call does nothing. -/
theorem outcome_sysHandleBrk_refused (hunlocked : s.locked = false) (hzero : addr ≠ 0)
    (hno : s.heapVmr = 0 ∨ addr < oldEnd s) :
    ∃ ret, (sysHandleBrk addr heapStart pmoCap pmo vmr).outcome s =
      .ok ret ((s.setLocked true).setLocked false) ∧ ret ≠ addr ∧ (ret = 0 ∨ ret = oldEnd s) := by
  have hwp : wp (sysHandleBrk addr heapStart pmoCap pmo vmr) (fun ret t =>
      t = (s.setLocked true).setLocked false ∧ ret ≠ addr ∧ (ret = 0 ∨ ret = oldEnd s))
      (fun _ => True) s := by
    rw [sysHandleBrk, wp_bind, writeLock, wp_await]
    refine ⟨by simp [hunlocked], trivial, ?_⟩
    rw [if_neg hzero, wp_bind, wp_read, wp_ite]
    refine ⟨fun _ => ?_, fun hne => ?_⟩
    · rw [wp_bind, writeUnlock, wp_store, wp_pure]
      exact ⟨trivial, rfl, hzero.symm, .inl rfl⟩
    · have hlt : addr < oldEnd s := hno.resolve_left hne
      rw [wp_bind, wp_read]
      simp only
      rw [wp_ite]
      refine ⟨fun hge => absurd hlt (Nat.not_lt.mpr hge), fun _ => ?_⟩
      rw [wp_bind, writeUnlock, wp_store, wp_pure]
      exact ⟨trivial, rfl, Nat.ne_of_gt hlt, .inr rfl⟩
  obtain ⟨ret, t, hout, rfl, hret⟩ := wp_outcome hwp
  exact ⟨ret, hout, hret⟩

section grow

variable (h : Regular s) (hunlocked : s.locked = false) (hzero : addr ≠ 0) (hne : s.heapVmr ≠ 0)
  (hend : oldEnd s ≤ addr)
include h hunlocked hzero hne hend

omit h in
/-- The call grows the heap by `adjust_heap_vmr` and reports `addr`. -/
theorem outcome_sysHandleBrk_grow :
    (sysHandleBrk addr heapStart pmoCap pmo vmr).outcome s =
      (do
        adjustHeapVmr (addr - oldEnd s)
        writeUnlock
        pure addr).outcome (s.setLocked true) := by
  have hready : (!s.locked) = true := by simp [hunlocked]
  have hlock : writeLock.outcome s = .ok () (s.setLocked true) := by
    simp [writeLock, await, outcome, run, hready]
  rw [sysHandleBrk, outcome_bind hlock, if_neg hzero, outcome_read_bind]
  simp only [Vmspace.setLocked_heapVmr, hne, if_false]
  have hge : addr ≥ (((s.setLocked true).vmr s.heapVmr).start +
      ((s.setLocked true).vmr s.heapVmr).size) % top := hend
  rw [outcome_read_bind, if_pos hge]
  rfl

theorem outcome_sysHandleBrk_stray (hout : s.heapVmr ∉ s.vmrList)
    (hhit : checkVmrIntersect s s.heapVmr = true) (ret : ℕ)
    (t : Vmspace) : (sysHandleBrk addr heapStart pmoCap pmo vmr).outcome s ≠ .ok ret t := by
  rw [outcome_sysHandleBrk_grow hunlocked hzero hne hend]
  intro hok
  have hlocked : Regular (s.setLocked true) := h.congr rfl rfl fun _ _ => rfl
  have hstuck : wlp (adjustHeapVmr (addr - oldEnd s)) (fun _ _ => False) (s.setLocked true) := by
    rw [adjustHeapVmr, wlp_bind, wlp_read, wlp_bind, wlp_bugOn]
    intro _
    rw [wlp_bind]
    exact wlp_mono (wlp_removeVmrFromVmspace_stray hlocked hout hhit) fun _ _ hf => hf.elim
  have hcall : wlp (do
      adjustHeapVmr (addr - oldEnd s)
      writeUnlock
      pure addr) (fun _ _ => False) (s.setLocked true) :=
    wlp_bind.mpr (wlp_mono hstuck fun _ _ hf => hf.elim)
  exact hcall ret t hok

variable (heapStart pmo vmr pmoCap) in
/-- The call reports `addr`, whether the heap region came back or not. -/
theorem outcome_sysHandleBrk_apart
    (hapart : s.heapVmr ∈ s.vmrList ∨ checkVmrIntersect s s.heapVmr = false) :
    ∃ t, (sysHandleBrk addr heapStart pmoCap pmo vmr).outcome s = .ok addr t ∧
      t.heapVmr = s.heapVmr ∧
      t.vmr = update s.vmr s.heapVmr (brkHeap s addr) ∧
      (Refused s addr ∧ t.vmrList = s.vmrList.erase s.heapVmr ∨
        ¬ Refused s addr ∧ ((brkHeap s addr).Proper → Regular t) ∧
          t.vmrList = s.heapVmr :: s.vmrList.erase s.heapVmr) := by
  have hlocked : Regular (s.setLocked true) := h.congr rfl rfl fun _ _ => rfl
  have hwp := wp_adjustHeapVmr (addr - oldEnd s) hlocked hne hapart
  obtain ⟨⟨⟩, u, hout, w, hw', hcases⟩ := wp_outcome hwp
  have hw : HeapOut s (addr - oldEnd s) w := ⟨hw'.regular, hw'.list, hw'.heap, hw'.vmr⟩
  refine ⟨u.setLocked false, ?_, ?_⟩
  · rw [outcome_sysHandleBrk_grow hunlocked hzero hne hend, outcome_bind hout]
    rfl
  · have hproper : w.vmr w.heapVmr = brkHeap s addr := by
      rw [hw.heap, hw.vmr, update_self]
      rfl
    rcases hcases with ⟨hhit, rfl⟩ | ⟨hfree, hregular, tree, rfl⟩
    · exact ⟨hw.heap, hw.vmr, .inl ⟨(hw.hit_iff h).mp hhit, hw.list⟩⟩
    · refine ⟨hw.heap, hw.vmr, .inr ⟨fun href => ?_, fun hp => ?_, ?_⟩⟩
      · simp [(hw.hit_iff h).mpr href] at hfree
      · exact (hregular (hproper ▸ hp)).congr rfl rfl fun _ _ => rfl
      · simp [hw.heap, hw.list]

/-! ## When the call keeps its promise -/

omit h hunlocked hzero hne hend in
theorem unchanged_unlocked : Unchanged s ((s.setLocked true).setLocked false) :=
  ⟨rfl, rfl, fun _ => Iff.rfl, fun _ => rfl⟩

/-- A heap that can grow is the range up to `addr`, and the other regions are apart
from it. -/
theorem brkRight_of_fits (haddr : addr < top)
    (hstart : (s.vmr s.heapVmr).start < top) (hfits : BrkFits s addr) :
    BrkRight s addr heapStart ((sysHandleBrk addr heapStart pmoCap pmo vmr).outcome s) := by
  obtain ⟨t, hout, hheap, hvmr, hcases⟩ := outcome_sysHandleBrk_apart heapStart pmo vmr
    pmoCap h hunlocked hzero hne hend hfits.apart
  have hlen : (brkHeap s addr).size = addr - (s.vmr s.heapVmr).start := by
    rw [brkHeap_size hstart haddr hend, if_pos hfits.below]
  have hbelow := hfits.below
  obtain ⟨-, hregular, hlist⟩ := hcases.resolve_left fun hno => hfits.room hno.1
  have hv : t.vmr t.heapVmr = brkHeap s addr := by rw [hheap, hvmr, update_self]
  refine ⟨fun _ => ⟨addr, t, hout⟩, ?_, ?_⟩
  · intro t' ht'
    obtain rfl : t = t' := by
      rw [hout] at ht'
      injection ht'
    rw [hv, if_neg hzero, hfits.stays, hlen]
    refine ⟨rfl, by omega, fun va hva => ?_⟩
    have hproper : (brkHeap s addr).Proper := by
      simp only [Vmregion.Contains, hfits.stays, hlen] at hva
      refine ⟨?_, ?_⟩
      · rw [hlen]
        omega
      · rw [hfits.stays, hlen]
        omega
    refine (hregular hproper).findVmrForVa_eq.mpr ⟨?_, ?_⟩
    · simp [hlist, hheap]
    · rw [hv]
      exact hva
  · rintro - - (⟨x, hx, hxne, va, hle, hlt, hcontains⟩ | href)
    · -- an address of the new range is one of another region
      refine absurd ⟨x, hx, hxne, ?_⟩ hfits.room
      have hproper : (brkHeap s addr).Proper := by
        refine ⟨?_, ?_⟩
        · rw [hlen]
          omega
        · rw [hfits.stays, hlen]
          omega
      rw [hproper.vmrEnd_eq, hfits.stays, hlen]
      simp only [Vmregion.Meets, Vmregion.Contains] at *
      omega
    · exact absurd href hfits.room

/-- A call that keeps its promise has put the heap region back. -/
theorem fits_of_brkRight (hright : BrkRight s addr heapStart
      ((sysHandleBrk addr heapStart pmoCap pmo vmr).outcome s)) : BrkFits s addr := by
  have hapart : s.heapVmr ∈ s.vmrList ∨ checkVmrIntersect s s.heapVmr = false := by
    by_contra hno
    simp only [not_or, Bool.not_eq_false] at hno
    obtain ⟨ret, t, hout⟩ := hright.returns hzero
    exact outcome_sysHandleBrk_stray h hunlocked hzero hne hend hno.1 hno.2 ret t hout
  obtain ⟨t, hout, hheap, hvmr, hcases⟩ := outcome_sysHandleBrk_apart heapStart pmo vmr
    pmoCap h hunlocked hzero hne hend hapart
  have hv : t.vmr t.heapVmr = brkHeap s addr := by rw [hheap, hvmr, update_self]
  rcases hcases with ⟨href, hlist⟩ | ⟨hroom, -, -⟩
  · -- the region is gone, so it cannot be as before
    exfalso
    obtain ⟨ret, t', hout', -, hsame⟩ := hright.refused hzero hne (.inr href)
    obtain rfl : t = t' := by
      rw [hout] at hout'
      injection hout'
    have hmem := hsame.list s.heapVmr
    rw [hlist] at hmem
    have hnot : s.heapVmr ∉ s.vmrList := fun hin => h.nodup.not_mem_erase (hmem.mpr hin)
    obtain ⟨x, hx, -, hmeets⟩ := href
    rw [← hv, hheap, hsame.vmr] at hmeets
    have hhit := h.checkVmrIntersect_eq.mpr ⟨x, hx, hmeets⟩
    simp [hapart.resolve_left hnot] at hhit
  · obtain ⟨hfst, hsnd, -⟩ := hright.reported t hout
    rw [hv, if_neg hzero] at hfst
    rw [hv, hfst] at hsnd
    exact ⟨hapart, hroom, hfst, by omega⟩

end grow

/-- `brk(addr)` keeps its promise if it sets up the heap, does nothing, or the heap
can grow to `addr`; else it does not. -/
theorem brk_right_iff (h : Regular s) (hunlocked : s.locked = false) (haddr : addr < top)
    (hstart : (s.vmr s.heapVmr).start < top) :
    BrkRight s addr heapStart ((sysHandleBrk addr heapStart pmoCap pmo vmr).outcome s) ↔
      addr = 0 ∨ s.heapVmr = 0 ∨ addr < oldEnd s ∨ BrkFits s addr := by
  by_cases hzero : addr = 0
  · subst hzero
    refine iff_of_true ⟨fun hno => absurd rfl hno, fun t ht => ?_, fun hno => absurd rfl hno⟩
      (.inl rfl)
    obtain ⟨hret, hfst, hsnd⟩ := wlp_sysHandleBrk_zero 0 t ht
    rw [hfst, hsnd, ← hret]
    refine ⟨rfl, rfl, fun va hva => ?_⟩
    simp only [Vmregion.Contains, hfst, hsnd] at hva
    omega
  by_cases hno : s.heapVmr = 0 ∨ addr < oldEnd s
  · obtain ⟨ret, hout, hret, hold⟩ :=
      outcome_sysHandleBrk_refused heapStart pmo vmr pmoCap hunlocked hzero hno
    refine iff_of_true ⟨fun _ => ⟨ret, _, hout⟩, fun t ht => ?_,
      fun _ _ _ => ⟨ret, _, hout, hold, unchanged_unlocked⟩⟩ ?_
    · rw [hout] at ht
      injection ht with hre
      exact absurd hre hret
    · exact .inr (or_assoc.mp (.inl hno))
  · simp only [not_or, Nat.not_lt] at hno
    obtain ⟨hne, hend⟩ := hno
    have hiff : BrkRight s addr heapStart
        ((sysHandleBrk addr heapStart pmoCap pmo vmr).outcome s) ↔ BrkFits s addr :=
      ⟨fits_of_brkRight h hunlocked hzero hne hend,
        brkRight_of_fits h hunlocked hzero hne hend haddr hstart⟩
    rw [hiff]
    simp [hzero, hne, Nat.not_lt.mpr hend]

end

/-- A region of two pages, and a heap that begins one page before it. -/
def crowded : Vmspace where
  vmrList := [1, 2]
  vmrTree := .node .black .nil 2 (.node .red .nil 1 .nil)
  heapVmr := 2
  userCurrentMmapAddr := mmapStart
  locked := false
  vmr x := if x = 1 then ⟨0x602000, 0x2000, vmrRead, 0, true⟩ else ⟨0x600000, 0x1000, 3, 7, true⟩
  pmo _ := ⟨pmoAnonym, 0⟩

theorem regular_crowded : Regular crowded where
  wf := ⟨1, .black .nil (.red .nil .nil)⟩
  perm := by decide
  sorted := by decide
  proper x hx := by
    have hmem : x = 1 ∨ x = 2 := by simpa [crowded] using hx
    rcases hmem with rfl | rfl
    · exact ⟨by decide, by decide⟩
    · exact ⟨by decide, by decide⟩

/-- `brk` reports an end inside of another region, and the heap region is gone. -/
theorem brk_loses_heap : ∃ t, (sysHandleBrk 0x603000 0 0 0 0).outcome crowded = .ok 0x603000 t ∧
    Overlap crowded 0x603000 ∧ crowded.heapVmr ∈ crowded.vmrList ∧ t.heapVmr = crowded.heapVmr ∧
    t.heapVmr ∉ t.vmrList ∧ findVmrForVa crowded 0x600000 = some 2 ∧
    findVmrForVa t 0x600000 = none := by
  refine ⟨((sysHandleBrk 0x603000 0 0 0 0).outcome crowded).final,
    Outcome.eq_ok_of_result? (by decide +kernel), ⟨1, ?_⟩, ?_⟩
  · exact ⟨by decide, by decide, 0x602000, by decide, by decide, by decide⟩
  · decide +kernel

/-- The heap can grow by one page. -/
theorem brk_right_iff_one_page : Regular crowded ∧ BrkFits crowded 0x602000 ∧
    BrkRight crowded 0x602000 0 ((sysHandleBrk 0x602000 0 0 0 0).outcome crowded) := by
  have hfits : BrkFits crowded 0x602000 := by
    refine ⟨.inl (by decide), ?_, by decide, by decide⟩
    rintro ⟨x, hx, hne, hmeets⟩
    have hmem : x = 1 ∨ x = 2 := by simpa [crowded] using hx
    obtain rfl : x = 1 := hmem.resolve_right hne
    exact absurd hmeets.1 (by decide)
  exact ⟨regular_crowded, hfits, (brk_right_iff regular_crowded rfl (by decide) (by decide)).mpr
    (.inr (.inr (.inr hfits)))⟩

end Starfish.VMSpace
