import Mathlib.Data.Int.Notation
import Starfish.Prog
import Starfish.RBErase

/-!
# Starfish.VMSpace.Model

The regions of a `struct vmspace`: `kernel/mm/vmregion.c`, and the system call for
the heap in `kernel/object/memory.c`.  Regions are known by their addresses, `0` is
NULL, and an allocator's answer is an argument of the call.  Addresses and lengths are
`u64`.

The regions are on a list, newest first, and in a red-black tree.  `rb_erase` of a
node that is not in the tree and `list_del` of one that is not on the list follow
pointers to nowhere; the model stops there.

The page tables are left out here; no function below reads them.
-/

namespace Starfish.VMSpace

open Prog

def enoent : ℤ := 2

def enomem : ℤ := 12

def einval : ℤ := 22

abbrev pageSize : ℕ := 4096

/-- One more than the greatest `u64`. -/
abbrev top : ℕ := 2 ^ 64

def vmrRead : ℕ := 1

def vmrWrite : ℕ := 2

def vmrExec : ℕ := 4

def vmrDevice : ℕ := 8

def vmrNocache : ℕ := 16

def pmoAnonym : ℕ := 0

def pmoFile : ℕ := 2

def pmoShm : ℕ := 3

def pmoDevice : ℕ := 5

def pmoDataNocache : ℕ := 6

def pmoTypeNr : ℕ := 15

def mmapStart : ℕ := 0x700000000000

/-- `struct vmregion`; `live` is the allocator's own record. -/
structure Vmregion where
  start : ℕ
  size : ℕ
  perm : ℕ
  pmo : ℕ
  live : Bool
deriving DecidableEq, Repr

/-- `struct pmobject` -/
structure Pmobject where
  type : ℕ
  size : ℕ
deriving DecidableEq, Repr

/-- `struct vmspace`, and the regions and PMOs that it refers to. -/
structure Vmspace where
  vmrList : List ℕ
  vmrTree : RBTree ℕ
  heapVmr : ℕ
  userCurrentMmapAddr : ℕ
  locked : Bool
  vmr : ℕ → Vmregion
  pmo : ℕ → Pmobject

namespace Vmspace

@[simps -fullyApplied]
def setVmr (s : Vmspace) (vmr : ℕ) (v : Vmregion) : Vmspace :=
  { s with vmr := Function.update s.vmr vmr v }

@[simps -fullyApplied]
def setPmo (s : Vmspace) (pmo : ℕ) (v : Pmobject) : Vmspace :=
  { s with pmo := Function.update s.pmo pmo v }

@[simps -fullyApplied]
def setList (s : Vmspace) (l : List ℕ) : Vmspace := { s with vmrList := l }

@[simps -fullyApplied]
def setTree (s : Vmspace) (t : RBTree ℕ) : Vmspace := { s with vmrTree := t }

@[simps -fullyApplied]
def setLocked (s : Vmspace) (b : Bool) : Vmspace := { s with locked := b }

@[simps -fullyApplied]
def setHeapVmr (s : Vmspace) (vmr : ℕ) : Vmspace := { s with heapVmr := vmr }

@[simps -fullyApplied]
def setMmapAddr (s : Vmspace) (va : ℕ) : Vmspace := { s with userCurrentMmapAddr := va }

/-- `vmspace_init`. -/
def init (vmr : ℕ → Vmregion) (pmo : ℕ → Pmobject) : Vmspace :=
  ⟨[], .nil, 0, mmapStart, false, vmr, pmo⟩

end Vmspace

/-! ## Comparisons -/

/-- `vmr_end` of the comparisons: the last address, or the first if there is none. -/
def vmrEnd (v : Vmregion) : ℕ := (v.start + if v.size > 0 then v.size - 1 else v.size) % top

/-- `cmp_two_vmrs`. -/
def cmpTwoVmrs (v₁ v₂ : Vmregion) : Bool := vmrEnd v₁ < v₂.start

/-- `cmp_vmr_and_range`, for the addresses `first` to `last`. -/
def cmpVmrAndRange (first last : ℕ) (v : Vmregion) : Ordering :=
  if last < v.start then .lt else if first > vmrEnd v then .gt else .eq

/-- `cmp_vmr_and_va`. -/
def cmpVmrAndVa (va : ℕ) (v : Vmregion) : Ordering :=
  if va < v.start then .lt else if va > vmrEnd v then .gt else .eq

/-- The region that `check_vmr_intersect` finds. -/
def intersecting (s : Vmspace) (vmr : ℕ) : Option ℕ :=
  s.vmrTree.search fun x => cmpVmrAndRange (s.vmr vmr).start (vmrEnd (s.vmr vmr)) (s.vmr x)

/-- `check_vmr_intersect`. -/
def checkVmrIntersect (s : Vmspace) (vmr : ℕ) : Bool := (intersecting s vmr).isSome

/-- `find_vmr_for_va`. -/
def findVmrForVa (s : Vmspace) (va : ℕ) : Option ℕ :=
  s.vmrTree.search fun x => cmpVmrAndVa va (s.vmr x)

/-- `find_free_va`; it does not use the size. -/
def findFreeVa (s : Vmspace) : ℕ :=
  s.vmrList.foldl (fun maxVa x =>
    if maxVa < ((s.vmr x).start + (s.vmr x).size) % top
    then ((s.vmr x).start + (s.vmr x).size) % top else maxVa) 0

/-! ## Adding and removing a region -/

/-- `write_lock(&vmspace->vmspace_lock)` -/
def writeLock : Prog Vmspace Unit := await (fun s => !s.locked) (·.setLocked true)

/-- `write_unlock(&vmspace->vmspace_lock)` -/
def writeUnlock : Prog Vmspace Unit := store (·.setLocked false)

/-- `rb_insert(&vmspace->vmr_tree, …, cmp_two_vmrs)` -/
def rbInsert (vmr : ℕ) : Prog Vmspace Unit := do
  let t ← read fun s => s.vmrTree.insert (fun x => cmpTwoVmrs (s.vmr vmr) (s.vmr x)) vmr
  match t with
  | none => bug
  | some t => store (·.setTree t)

/-- `rb_erase(&vmspace->vmr_tree, …)` -/
def rbErase (vmr : ℕ) : Prog Vmspace Unit := do
  let t ← read fun s => s.vmrTree.erase vmr
  match t with
  | none => bug
  | some t => store (·.setTree t)

/-- `list_del(&vmr->list_node)` -/
def listDel (vmr : ℕ) : Prog Vmspace Unit := do
  let l ← read (·.vmrList)
  bugOn (vmr ∉ l)
  store (·.setList (l.erase vmr))

/-- `add_vmr_to_vmspace`. -/
def addVmrToVmspace (vmr : ℕ) : Prog Vmspace ℤ := do
  let v ← read (·.vmr vmr)
  when (v.start = 0) (store fun s => s.setVmr vmr { s.vmr vmr with start := findFreeVa s })
  let hit ← read (checkVmrIntersect · vmr)
  if hit then pure (-einval)
  else do
    store fun s => s.setList (vmr :: s.vmrList)
    rbInsert vmr
    pure 0

/-- `remove_vmr_from_vmspace`. -/
def removeVmrFromVmspace (vmr : ℕ) : Prog Vmspace ℤ := do
  let hit ← read (checkVmrIntersect · vmr)
  if hit then do
    rbErase vmr
    listDel vmr
    pure 0
  else pure (-1)

/-- `free_vmregion`. -/
def freeVmregion (vmr : ℕ) : Prog Vmspace Unit :=
  store fun s => s.setVmr vmr { s.vmr vmr with live := false }

/-- `del_vmr_from_vmspace`. -/
def delVmrFromVmspace (vmr : ℕ) : Prog Vmspace Unit := do
  let _ ← removeVmrFromVmspace vmr
  freeVmregion vmr

/-! ## The operations -/

/-- `ROUND_DOWN(va, PAGE_SIZE)` -/
def roundDown (va : ℕ) : ℕ := va / pageSize * pageSize

/-- `vmspace_map_range`, when `alloc_vmregion` returns `vmr`. -/
def vmspaceMapRange (va len flags pmo vmr : ℕ) : Prog Vmspace ℤ := do
  let p ← read (·.pmo pmo)
  bugOn (p.type > pmoTypeNr)
  let va := roundDown va
  let len := if len < pageSize then pageSize else len
  if vmr = 0 then pure (-enomem)
  else do
    let perm :=
      if p.type = pmoDevice then flags ||| vmrDevice
      else if p.type = pmoDataNocache then flags ||| vmrNocache
      else flags
    store (·.setVmr vmr ⟨va, len, perm, pmo, true⟩)
    writeLock
    let ret ← addVmrToVmspace vmr
    writeUnlock
    if ret < 0 then do
      freeVmregion vmr
      pure ret
    else pure 0

/-- `vmspace_unmap_range`.  It keeps the lock when it finds no region. -/
def vmspaceUnmapRange (va len : ℕ) : Prog Vmspace ℤ := do
  writeLock
  match ← read (findVmrForVa · va) with
  | none => pure (-1)
  | some vmr => do
    let v ← read (·.vmr vmr)
    bugOn ((va ≠ v.start ∨ len ≠ v.size) ∧ len ≠ 0)
    delVmrFromVmspace vmr
    writeUnlock
    pure 0

/-- `unmap_pmo_in_vmspace`. -/
def unmapPmoInVmspace (pmo : ℕ) : Prog Vmspace ℤ := do
  writeLock
  match ← read fun s => s.vmrList.find? fun x => (s.vmr x).pmo = pmo with
  | none => do
    writeUnlock
    pure (-enoent)
  | some vmr => do
    delVmrFromVmspace vmr
    writeUnlock
    pure 0

/-- `init_heap_vmr`, when `alloc_vmregion` returns `vmr`. -/
def initHeapVmr (va pmo vmr : ℕ) : Prog Vmspace ℕ :=
  if vmr = 0 then pure 0
  else do
    store (·.setVmr vmr ⟨va, 0, vmrRead ||| vmrWrite, pmo, true⟩)
    pure vmr

/-- `adjust_heap_vmr`, with the lock. -/
def adjustHeapVmr (addLen : ℕ) : Prog Vmspace Unit := do
  let vmr ← read (·.heapVmr)
  -- the fault of following NULL
  bugOn (vmr = 0)
  let _ ← removeVmrFromVmspace vmr
  store fun s => s.setVmr vmr { s.vmr vmr with size := ((s.vmr vmr).size + addLen) % top }
  store fun s => s.setPmo (s.vmr vmr).pmo
    { s.pmo (s.vmr vmr).pmo with size := ((s.pmo (s.vmr vmr).pmo).size + addLen) % top }
  let _ ← addVmrToVmspace vmr
  pure ()

/-- `vmspace_mmap_with_pmo`, when `alloc_vmregion` returns `vmr`; it fails with
`(u64)-1L`. -/
def vmspaceMmapWithPmo (pmo len perm vmr : ℕ) : Prog Vmspace ℕ :=
  if vmr = 0 then pure (top - 1)
  else do
    writeLock
    let start ← read (·.userCurrentMmapAddr)
    bugOn (len % pageSize ≠ 0)
    store fun s => s.setMmapAddr ((s.userCurrentMmapAddr + len) % top)
    let p ← read (·.pmo pmo)
    bugOn (p.type ≠ pmoAnonym ∧ p.type ≠ pmoShm ∧ p.type ≠ pmoFile)
    store (·.setVmr vmr ⟨start, len, perm, pmo, true⟩)
    let ret ← addVmrToVmspace vmr
    writeUnlock
    if ret < 0 then do
      freeVmregion vmr
      pure (top - 1)
    else do
      let v ← read (·.vmr vmr)
      pure v.start

/-- `sys_handle_brk`, when `create_pmo` returns the capability `pmoCap` and the PMO
`pmo`, and `alloc_vmregion` returns `vmr`. -/
def sysHandleBrk (addr heapStart : ℕ) (pmoCap : ℤ) (pmo vmr : ℕ) : Prog Vmspace ℕ := do
  writeLock
  if addr = 0 then do
    bugOn (pmoCap < 0)
    let heapVmr ← initHeapVmr heapStart pmo vmr
    bugOn (heapVmr = 0)
    store (·.setHeapVmr heapVmr)
    writeUnlock
    pure heapStart
  else do
    let heapVmr ← read (·.heapVmr)
    if heapVmr = 0 then do
      writeUnlock
      pure 0
    else do
      let v ← read (·.vmr heapVmr)
      let oldEnd := (v.start + v.size) % top
      if addr ≥ oldEnd then do
        adjustHeapVmr (addr - oldEnd)
        writeUnlock
        pure addr
      else do
        writeUnlock
        pure oldEnd

end Starfish.VMSpace
