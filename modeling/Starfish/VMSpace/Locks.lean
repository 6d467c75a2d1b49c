import Starfish.LockCount
import Starfish.VMSpace.Runs

/-!
# Starfish.VMSpace.Locks

How often the calls on a vmspace take `vmspace_lock` and give it back: those that
`Starfish.VMSpace.Runs` runs, `vmspace_unmap_shm_vmr`, `sys_handle_mprotect` and `vmspace_clone`.
Every path that returns gives the lock back as often as it took it, except the one on which
`vmspace_unmap_range` finds no region (`calls_balanced_iff`).

`sys_handle_mprotect` walks over its range twice, once to check and once to change.  Both walks go
on from the end of a region's size, wherever in the region they began.
-/

namespace Starfish.VMSpace

open Prog Lock

/-! ## Three more calls -/

def eacces : ℤ := 13

/-- `vmspace_unmap_shm_vmr`. -/
def vmspaceUnmapShmVmr (va : ℕ) : Prog Vmspace ℤ := do
  writeLock
  match ← read (findVmrForVa · va) with
  | none => do
    writeUnlock
    pure (-einval)
  | some vmr => do
    let v ← read (·.vmr vmr)
    let p ← read (·.pmo v.pmo)
    bugOn (p.type ≠ pmoShm)
    bugOn (va ≠ v.start)
    delVmrFromVmspace vmr
    writeUnlock
    pure 0

/-- `get_vmr_prot`. -/
def getVmrProt (prot : ℕ) : ℕ :=
  (if prot.testBit 0 then vmrRead else 0) ||| (if prot.testBit 1 then vmrWrite else 0) |||
    if prot.testBit 2 then vmrExec else 0

/-- `valid_prot` returns 0. -/
def validProt (vmrProt targetProt : ℕ) : Bool :=
  [0, 1, 2].all fun i => !(targetProt.testBit i && !vmrProt.testBit i)

/-- The first walk: the answer of the call, unless it goes on.  A walk that meets a region without
addresses stays there. -/
def mprotectCheck (targetProt : ℕ) : ℕ → ℕ → ℕ → Prog Vmspace (Option ℤ)
  | _, _, 0 => pure none
  | 0, _, _ => bug
  | fuel + 1, va, remaining => do
    match ← read (findVmrForVa · va) with
    | none => pure (some (-eacces))
    | some vmr => do
      let v ← read (·.vmr vmr)
      if validProt v.perm targetProt = false then pure (some (-eacces))
      -- a part of a region: the request is ignored
      else if remaining < v.size then pure (some 0)
      else mprotectCheck targetProt fuel ((va + v.size) % top) (remaining - v.size)

/-- The second walk. -/
def mprotectSet (targetProt : ℕ) : ℕ → ℕ → ℕ → Prog Vmspace Unit
  | _, _, 0 => pure ()
  | 0, _, _ => bug
  | fuel + 1, va, remaining => do
    match ← read (findVmrForVa · va) with
    | none => bug
    | some vmr => do
      store fun s => s.setVmr vmr { s.vmr vmr with perm := targetProt }
      let v ← read (·.vmr vmr)
      mprotectSet targetProt fuel ((va + v.size) % top) (remaining - v.size)

/-- `sys_handle_mprotect`. -/
def sysHandleMprotect (addr length prot : ℕ) : Prog Vmspace ℤ :=
  if addr % pageSize ≠ 0 ∨ length % pageSize ≠ 0 then pure (-einval)
  else if length = 0 then pure 0
  else do
    writeLock
    -- such a length is negative as an `s64`, and no walk begins
    bugOn (2 ^ 63 ≤ length)
    match ← mprotectCheck (getVmrProt prot) length addr length with
    | some r => do
      writeUnlock
      pure r
    | none => do
      mprotectSet (getVmrProt prot) length addr length
      writeUnlock
      pure 0

/-- What `vmspace_clone` is given for a region: the PMO, what `pmo_clone` and `cap_alloc` return,
and the new region. -/
structure CloneLuck where
  pmo : ℕ
  cloned : ℤ
  cap : ℤ
  vmr : ℕ

/-- The body of the loop in `vmspace_clone`, from the first vmspace to the second. -/
def cloneVmr (luck : CloneLuck) (vmr : ℕ) : Prog (Vmspace × Vmspace) ℤ :=
  if luck.pmo = 0 then pure (-enomem)
  else if luck.cloned < 0 then pure (-enomem)
  else do
    let v ← read (·.1.vmr vmr)
    store fun s => (s.1, s.2.setPmo luck.pmo (s.1.pmo v.pmo))
    if luck.cap < 0 then pure luck.cap
    else if luck.vmr = 0 then pure (-enomem)
    else do
      store fun s => (s.1, s.2.setVmr luck.vmr { v with pmo := luck.pmo, live := true })
      let _ ← zoom Prod.snd (fun dst s => (s.1, dst)) (addVmrToVmspace luck.vmr)
      let heapVmr ← read (·.1.heapVmr)
      when (vmr = heapVmr) (store fun s => (s.1, s.2.setHeapVmr luck.vmr))
      pure 0

def cloneVmrs (luck : ℕ → CloneLuck) : List ℕ → Prog (Vmspace × Vmspace) ℤ
  | [] => pure 0
  | vmr :: vmrs => do
    let r ← cloneVmr (luck vmr) vmr
    if r < 0 then pure r else cloneVmrs luck vmrs

/-- `vmspace_clone`, from the first vmspace to the second. -/
def vmspaceClone (luck : ℕ → CloneLuck) : Prog (Vmspace × Vmspace) ℤ := do
  await (fun s => !s.1.locked) fun s => (s.1.setLocked true, s.2)
  store fun s => (s.1, s.2.setHeapVmr 0)
  let vmrs ← read (·.1.vmrList)
  let r ← cloneVmrs luck vmrs
  if r < 0 then do
    store fun s => (s.1.setLocked false, s.2)
    pure r
  else do
    let heapVmr ← read (·.2.heapVmr)
    bugOn (heapVmr = 0)
    store fun s => (s.1, s.2.setMmapAddr s.1.userCurrentMmapAddr)
    store fun s => (s.1.setLocked false, s.2)
    pure 0

/-! ## The lock -/

def vmspaceLock : Lock Vmspace := ⟨(·.locked), fun b s => s.setLocked b, fun _ _ => rfl⟩

/-- The lock of the vmspace that is cloned. -/
def sourceLock : Lock (Vmspace × Vmspace) :=
  ⟨(·.1.locked), fun b s => (s.1.setLocked b, s.2), fun _ _ => rfl⟩

theorem nets_writeLock : vmspaceLock.Nets 1 writeLock := fun _ => rfl

theorem nets_writeUnlock : vmspaceLock.Nets (-1) writeUnlock := fun _ => rfl

/-! ## What does not touch the lock -/

theorem nets_rbInsert (vmr : ℕ) : vmspaceLock.Nets 0 (rbInsert vmr) := nets_read.seq fun
    | none => trivial
    | some _ => nets_store fun _ => rfl

theorem nets_addVmrToVmspace (vmr : ℕ) : vmspaceLock.Nets 0 (addVmrToVmspace vmr) :=
  nets_read.seq fun _ => Nets.seq (nets_when (nets_store fun _ => rfl)) fun _ => nets_read.seq fun _ =>
    nets_ite nets_pure <| nets_store_seq (fun _ => rfl) <|
      (nets_rbInsert vmr).seq fun _ => nets_pure

theorem nets_removeVmrFromVmspace (vmr : ℕ) : vmspaceLock.Nets 0 (removeVmrFromVmspace vmr) := by
  have hErase : vmspaceLock.Nets 0 (rbErase vmr) := nets_read.seq fun
      | none => trivial
      | some _ => nets_store fun _ => rfl
  have hDel : vmspaceLock.Nets 0 (listDel vmr) :=
    nets_read.seq fun _ => nets_bugOn.seq fun _ => nets_store fun _ => rfl
  exact nets_read.seq fun _ =>
    nets_ite (hErase.seq fun _ => hDel.seq fun _ => nets_pure) nets_pure

theorem nets_delVmrFromVmspace (vmr : ℕ) : vmspaceLock.Nets 0 (delVmrFromVmspace vmr) :=
  (nets_removeVmrFromVmspace vmr).seq fun _ => nets_store fun _ => rfl

theorem nets_adjustHeapVmr (addLen : ℕ) : vmspaceLock.Nets 0 (adjustHeapVmr addLen) :=
  nets_read.seq fun _ => nets_bugOn.seq fun _ => (nets_removeVmrFromVmspace _).seq fun _ =>
    nets_store_seq (fun _ => rfl) <| nets_store_seq (fun _ => rfl) <|
    (nets_addVmrToVmspace _).seq fun _ => nets_pure

theorem nets_mprotectCheck (targetProt fuel va remaining : ℕ) :
    vmspaceLock.Nets 0 (mprotectCheck targetProt fuel va remaining) := by
  induction fuel generalizing va remaining with
  | zero => cases remaining <;> trivial
  | succ fuel ih =>
    cases remaining with
    | zero => rfl
    | succ remaining =>
      exact nets_read.seq fun
        | none => nets_pure
        | some _ => nets_read.seq fun _ => nets_ite nets_pure <| nets_ite nets_pure (ih _ _)

theorem nets_mprotectSet (targetProt fuel va remaining : ℕ) :
    vmspaceLock.Nets 0 (mprotectSet targetProt fuel va remaining) := by
  induction fuel generalizing va remaining with
  | zero => cases remaining <;> trivial
  | succ fuel ih =>
    cases remaining with
    | zero => rfl
    | succ remaining =>
      exact nets_read.seq fun
        | none => trivial
        | some _ => nets_store_seq (fun _ => rfl) <| nets_read.seq fun _ => ih _ _

theorem nets_cloneVmrs (luck : ℕ → CloneLuck) (vmrs : List ℕ) :
    sourceLock.Nets 0 (cloneVmrs luck vmrs) := by
  induction vmrs with
  | nil => rfl
  | cons vmr vmrs ih =>
    refine Nets.seq ?_ fun _ => nets_ite nets_pure ih
    exact nets_ite nets_pure <| nets_ite nets_pure <| nets_read.seq fun _ =>
      nets_store_seq (fun _ => rfl) <| nets_ite nets_pure <| nets_ite nets_pure <|
      nets_store_seq (fun _ => rfl) <| Nets.seq (nets_zoom fun _ _ => rfl) fun _ =>
      nets_read.seq fun _ => Nets.seq (nets_when (nets_store fun _ => rfl)) fun _ => nets_pure

/-! ## The calls -/

/-- The way out of a call: the lock is given back and not touched again. -/
theorem nets_out {α : Type} {g : Unit → Prog Vmspace α} (h : vmspaceLock.Nets 0 (g ())) :
    vmspaceLock.Nets (-1) (writeUnlock >>= g) := nets_writeUnlock.bind fun _ => h

theorem nets_locked {α : Type} {g : Unit → Prog Vmspace α} (h : vmspaceLock.Nets (-1) (g ())) :
    vmspaceLock.Nets 0 (writeLock >>= g) := nets_writeLock.bind fun _ => h

theorem nets_vmspaceMapRange (va len flags pmo vmr : ℕ) :
    vmspaceLock.Nets 0 (vmspaceMapRange va len flags pmo vmr) :=
  nets_read.seq fun _ => nets_bugOn.seq fun _ => nets_ite nets_pure <|
    nets_store_seq (fun _ => rfl) <| nets_locked <| (nets_addVmrToVmspace vmr).seq fun _ =>
    nets_out <| nets_ite (nets_store_seq (fun _ => rfl) nets_pure) nets_pure

/-- `vmspace_unmap_range`, behind the lookup. -/
def unmapFound (va len : ℕ) : Option ℕ → Prog Vmspace ℤ
  | none => pure (-1)
  | some vmr => do
    let v ← read (·.vmr vmr)
    bugOn ((va ≠ v.start ∨ len ≠ v.size) ∧ len ≠ 0)
    delVmrFromVmspace vmr
    writeUnlock
    pure 0

theorem net_unmapRange (hout : (Op.unmapRange va len).code.outcome s = .ok () t) :
    net (vmspaceLock.count (Op.unmapRange va len).code s) =
      if findVmrForVa s va = none then 1 else 0 := by
  -- behind the lock the lookup finds what it would find before it
  set rest : Option ℕ → Prog Vmspace Unit := fun hit => do
    let _ ← unmapFound va len hit
  change (writeLock >>= fun _ => rest (findVmrForVa s va)).outcome s = .ok () t at hout
  change net (vmspaceLock.count (writeLock >>= fun _ => rest (findVmrForVa s va)) s) = _
  cases hfind : findVmrForVa s va with
  | none =>
    rw [hfind] at hout
    exact (nets_writeLock.bind fun _ => nets_pure.seq fun _ => nets_pure).count hout
  | some vmr =>
    rw [hfind] at hout
    have hfound : vmspaceLock.Nets (-1) (unmapFound va len (some vmr)) :=
      nets_read.seq fun _ => nets_bugOn.seq fun _ => (nets_delVmrFromVmspace vmr).seq fun _ =>
        nets_out nets_pure
    have hrest : vmspaceLock.Nets (-1) (rest (some vmr)) := hfound.bind fun _ => nets_pure
    exact (nets_locked hrest).count hout

theorem nets_unmapPmoInVmspace (pmo : ℕ) : vmspaceLock.Nets 0 (unmapPmoInVmspace pmo) :=
  nets_locked <| nets_read.seq fun
    | none => nets_out nets_pure
    | some vmr => (nets_delVmrFromVmspace vmr).seq fun _ => nets_out nets_pure

theorem nets_vmspaceMmapWithPmo (pmo len perm vmr : ℕ) :
    vmspaceLock.Nets 0 (vmspaceMmapWithPmo pmo len perm vmr) :=
  nets_ite nets_pure <| nets_locked <| nets_read.seq fun _ => nets_bugOn.seq fun _ =>
    nets_store_seq (fun _ => rfl) <| nets_read.seq fun _ => nets_bugOn.seq fun _ =>
    nets_store_seq (fun _ => rfl) <| (nets_addVmrToVmspace vmr).seq fun _ => nets_out <|
    nets_ite (nets_store_seq (fun _ => rfl) nets_pure) (nets_read.seq fun _ => nets_pure)

theorem nets_sysHandleBrk (addr heapStart : ℕ) (pmoCap : ℤ) (pmo vmr : ℕ) :
    vmspaceLock.Nets 0 (sysHandleBrk addr heapStart pmoCap pmo vmr) := by
  have hInit : vmspaceLock.Nets 0 (initHeapVmr heapStart pmo vmr) :=
    nets_ite nets_pure (nets_store_seq (fun _ => rfl) nets_pure)
  refine nets_locked <| nets_ite ?_ ?_
  · exact nets_bugOn.seq fun _ => hInit.seq fun _ => nets_bugOn.seq fun _ =>
      nets_store_seq (fun _ => rfl) <| nets_out nets_pure
  · exact nets_read.seq fun _ => nets_ite (nets_out nets_pure) <| nets_read.seq fun _ =>
      nets_ite ((nets_adjustHeapVmr _).seq fun _ => nets_out nets_pure) (nets_out nets_pure)

theorem nets_vmspaceUnmapShmVmr (va : ℕ) : vmspaceLock.Nets 0 (vmspaceUnmapShmVmr va) :=
  nets_locked <| nets_read.seq fun
    | none => nets_out nets_pure
    | some vmr => nets_read.seq fun _ => nets_read.seq fun _ => nets_bugOn.seq fun _ =>
      nets_bugOn.seq fun _ => (nets_delVmrFromVmspace vmr).seq fun _ => nets_out nets_pure

theorem nets_sysHandleMprotect (addr length prot : ℕ) :
    vmspaceLock.Nets 0 (sysHandleMprotect addr length prot) :=
  nets_ite nets_pure <| nets_ite nets_pure <| nets_locked <| nets_bugOn.seq fun _ =>
    (nets_mprotectCheck _ _ _ _).seq fun
      | some _ => nets_out nets_pure
      | none => (nets_mprotectSet _ _ _ _).seq fun _ => nets_out nets_pure

theorem nets_vmspaceClone (luck : ℕ → CloneLuck) : sourceLock.Nets 0 (vmspaceClone luck) := by
  have hLock : sourceLock.Nets 1 (await (fun s : Vmspace × Vmspace => !s.1.locked)
      fun s => (s.1.setLocked true, s.2)) := fun _ => rfl
  have hUnlock (r : ℤ) : sourceLock.Nets (-1) (do
      store fun s : Vmspace × Vmspace => (s.1.setLocked false, s.2)
      pure r) := fun _ => rfl
  refine hLock.bind (e := -1) fun _ => ?_
  exact nets_store_seq (fun _ => rfl) <| nets_read.seq fun _ =>
    (nets_cloneVmrs luck _).seq fun _ => nets_ite (hUnlock _) <| nets_read.seq fun _ =>
    nets_bugOn.seq fun _ => nets_store_seq (fun _ => rfl) <| hUnlock 0

/-- The calls on one vmspace. -/
inductive Call where
  | regions (op : Op)
  | unmapShm (va : ℕ)
  | mprotect (addr length prot : ℕ)

def Call.code : Call → Prog Vmspace Unit
  | regions op => op.code
  | unmapShm va => do
    let _ ← vmspaceUnmapShmVmr va
  | mprotect addr length prot => do
    let _ ← sysHandleMprotect addr length prot

/-- `vmspace_unmap_range` of an address in no region. -/
def Call.Misses : Call → Vmspace → Prop
  | regions (.unmapRange va _), s => findVmrForVa s va = none
  | _, _ => False

/-- The lock is given back as often as it is taken. -/
abbrev Balanced (n : ℕ × ℕ) : Prop := n.1 = n.2

theorem balanced_iff_net : Balanced n ↔ net n = 0 := by
  simp only [Balanced, net]
  omega

theorem Call.nets (call : Call) (h : ∀ va len, call ≠ regions (.unmapRange va len)) :
    vmspaceLock.Nets 0 call.code := by
  cases call with
  | regions op =>
    cases op with
    | mapRange va len flags pmo vmr =>
      exact (nets_vmspaceMapRange va len flags pmo vmr).seq fun _ => rfl
    | unmapRange va len => exact absurd rfl (h va len)
    | unmapPmo pmo => exact (nets_unmapPmoInVmspace pmo).seq fun _ => rfl
    | adjustHeap addLen =>
      exact nets_locked <| (nets_adjustHeapVmr addLen).seq fun _ => nets_writeUnlock
    | mmapWithPmo pmo len perm vmr =>
      exact (nets_vmspaceMmapWithPmo pmo len perm vmr).seq fun _ => rfl
    | brk addr heapStart pmoCap pmo vmr =>
      exact (nets_sysHandleBrk addr heapStart pmoCap pmo vmr).seq fun _ => rfl
  | unmapShm va => exact (nets_vmspaceUnmapShmVmr va).seq fun _ => rfl
  | mprotect addr length prot => exact (nets_sysHandleMprotect addr length prot).seq fun _ => rfl

/-- When a call returns, it has given the lock back as often as it has taken it, unless it is
`vmspace_unmap_range` of an address in no region. -/
theorem calls_balanced_iff (call : Call) (luck : ℕ → CloneLuck) :
    (∀ s t : Vmspace, call.code.outcome s = .ok () t →
      (Balanced (vmspaceLock.count call.code s) ↔ ¬ call.Misses s)) ∧
    ∀ (s t : Vmspace × Vmspace) (r : ℤ), (vmspaceClone luck).outcome s = .ok r t →
      Balanced (sourceLock.count (vmspaceClone luck) s) := by
  refine ⟨fun s t hout => ?_, fun s t r hout =>
    balanced_iff_net.mpr ((nets_vmspaceClone luck).count hout)⟩
  by_cases hunmap : ∃ va len, call = .regions (.unmapRange va len)
  · obtain ⟨va, len, rfl⟩ := hunmap
    rw [balanced_iff_net, Call.code, net_unmapRange hout, Call.Misses]
    split <;> simp_all
  · have hnets := call.nets fun va len heq => hunmap ⟨va, len, heq⟩
    refine iff_of_true (balanced_iff_net.mpr (hnets.count hout)) fun hmiss => ?_
    cases call with
    | regions op => cases op <;> simp_all [Call.Misses]
    | _ => exact hmiss

/-- `vmspace_unmap_range` in an empty vmspace returns, and has taken the lock once and never given
it back. -/
theorem unmapRange_keeps_lock :
    let s := Vmspace.init (fun _ => ⟨0, 0, 0, 0, false⟩) fun _ => ⟨0, 0⟩
    ((vmspaceUnmapRange 0x1000 0x1000).outcome s).result? = some (-1) ∧
      vmspaceLock.count (vmspaceUnmapRange 0x1000 0x1000) s = (1, 0) := ⟨rfl, rfl⟩

end Starfish.VMSpace
