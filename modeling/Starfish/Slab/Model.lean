import Mathlib.Data.Nat.Log
import Starfish.DList
import Starfish.SList

/-!
# Starfish.Slab.Model

The CXL slab allocator of `kernel/mm/cxl/cxl_slab.c`, in the build with
`SLAB_CRASH_RECOVERY`: the pools, their full lists and the per-CPU logs live in
shared memory, one set for each machine of the cluster.  The locks of the pools
are in the memory of their machine; the locks beside the shared pools are
written by recovery only.

Memory is addressed by natural numbers, `0` is `NULL`.  A slab is the address
of its header.  `nextFree a` is the first word of the slot at `a`, which is the
link of a free slot and belongs to the caller while the slot is handed out.
The debugging options that `common/debug.h` turns off are left out, and so are
the cache flushes: a store is visible to recovery once it is executed.

The pages of a slab come from the page allocator, which is not modelled here:
what `get_cxl_pages` returns is an argument of the calls, and `taken` lists the
slabs whose pages it has handed out and not got back.
-/

namespace Starfish.Slab

open Function (update)

open Prog

/-! ## Constants and records -/

/-- `BUDDY_PAGE_SIZE` -/
def pageSize : ℕ := 0x1000

/-- `SLAB_MIN_ORDER` -/
def slabMinOrder : ℕ := 5

/-- `SLAB_MAX_ORDER` -/
def slabMaxOrder : ℕ := 11

/-- `SIZE_OF_ONE_SLAB` -/
def sizeOfOneSlab : ℕ := 2 * 1024 * 1024

/-- `PLAT_CPU_NUM` -/
def platCpuNum : ℕ := 12

/-- `sizeof(struct slab_header)` -/
def sizeofSlabHeader : ℕ := 40

/-- `struct slab_header` without its list node.  The two counters are
`unsigned short`. -/
structure SlabHeader where
  freeListHead : ℕ
  order : ℕ
  ownerCpu : ℕ
  ownerMachine : ℕ
  totalFreeCnt : ℕ
  currentFreeCnt : ℕ

/-- The index of a `struct slab_pointer`: machine, CPU and order. -/
structure PoolKey where
  machine : ℕ
  cpu : ℕ
  order : ℕ
deriving DecidableEq, Repr

/-- A `struct list_head`: the two lists of a pool, the node of a slab, and the
list on the stack of `recover_cxl_slabs`. -/
inductive SlabNode where
  | partialList (k : PoolKey)
  | fullList (k : PoolKey)
  | collect
  | slab (addr : ℕ)
deriving DecidableEq, Repr

/-- `SLAB_OP_NONE`, `SLAB_OP_ALLOC`, `SLAB_OP_FREE` -/
inductive SlabOp where
  | none
  | alloc
  | free
deriving DecidableEq, Repr

/-- `struct slab_cpu_log` -/
structure SlabCpuLog where
  op : SlabOp
  oldFreeCnt : ℕ
  slabAddr : ℕ
  oldFreeHead : ℕ
deriving DecidableEq, Repr

/-- The memory that the slab allocators of all machines work on. -/
structure SlabMem where
  header : ℕ → SlabHeader
  links : Links SlabNode
  nextFree : ℕ → ℕ
  pageSlab : ℕ → ℕ
  currentSlab : PoolKey → ℕ
  locks : PoolKey → Bool
  cpuLogs : ℕ → ℕ → SlabCpuLog
  taken : List ℕ

namespace SlabMem

@[simps -fullyApplied]
def setHeader (m : SlabMem) (slab : ℕ) (h : SlabHeader) : SlabMem :=
  { m with header := update m.header slab h }

@[simps -fullyApplied]
def setLinks (m : SlabMem) (L : Links SlabNode) : SlabMem := { m with links := L }

@[simps -fullyApplied]
def setNextFree (m : SlabMem) (slot v : ℕ) : SlabMem :=
  { m with nextFree := update m.nextFree slot v }

@[simps -fullyApplied]
def setPageSlab (m : SlabMem) (page v : ℕ) : SlabMem :=
  { m with pageSlab := update m.pageSlab page v }

@[simps -fullyApplied]
def setCurrentSlab (m : SlabMem) (k : PoolKey) (slab : ℕ) : SlabMem :=
  { m with currentSlab := update m.currentSlab k slab }

@[simps -fullyApplied]
def setLock (m : SlabMem) (k : PoolKey) (held : Bool) : SlabMem :=
  { m with locks := update m.locks k held }

@[simps -fullyApplied]
def setCpuLog (m : SlabMem) (mid cpu : ℕ) (log : SlabCpuLog) : SlabMem :=
  { m with
    cpuLogs := update m.cpuLogs mid (update (m.cpuLogs mid) cpu log) }

@[simps -fullyApplied]
def setTaken (m : SlabMem) (slabs : List ℕ) : SlabMem := { m with taken := slabs }

end SlabMem

/-- Code on the list nodes. -/
def onLinks {α : Type} (c : Prog (Links SlabNode) α) : Prog SlabMem α :=
  zoom SlabMem.links (fun L m => m.setLinks L) c

/-- `list_entry(node, struct slab_header, node)`.  On the head of a list the
result would point outside the slabs. -/
def listEntry : SlabNode → Prog SlabMem ℕ
  | .slab addr => pure addr
  | _ => bug

/-- `lock`: spin until the lock is free and take it. -/
def lock (k : PoolKey) : Prog SlabMem Unit := await (!·.locks k) (·.setLock k true)

/-- `unlock` -/
def unlock (k : PoolKey) : Prog SlabMem Unit := store (·.setLock k false)

/-! ## Sizes -/

/-- `size_to_order`: halve until one is left, and round up. -/
def sizeToOrder (size : ℕ) : ℕ :=
  let order := Nat.log2 size
  if size > 1 <<< order then order + 1 else order

/-- `order_to_size` -/
def orderToSize (order : ℕ) : ℕ := 1 <<< order

/-- `meta_slots` of `init_slab_cache`: the slots that the header occupies. -/
def metaSlots (order : ℕ) : ℕ :=
  (sizeofSlabHeader + (orderToSize order - 1)) / orderToSize order

/-- `total_slots` of `init_slab_cache` -/
def totalSlots (order : ℕ) : ℕ := sizeOfOneSlab / orderToSize order

/-! ## Slab pages -/

/-- `get_cxl_pages`; `pages` is what the page allocator has to give. -/
def getCxlPages : Option ℕ → Prog SlabMem ℕ
  | none => pure 0
  | some pages => do
    store fun m => m.setTaken (pages :: m.taken)
    pure pages

/-- `free_pages` -/
def freePages (slab : ℕ) : Prog SlabMem Unit := store fun m => m.setTaken (m.taken.erase slab)

/-- `set_or_clear_slab_in_page` -/
def setOrClearSlabInPage (addr : ℕ) (set : Bool) : Prog SlabMem Unit :=
  forUpTo (orderToSize (sizeToOrder (sizeOfOneSlab / pageSize))) fun i =>
    store fun m => m.setPageSlab ((addr + i * pageSize) / pageSize) (if set then addr else 0)

/-- `alloc_slab_memory` -/
def allocSlabMemory (pages : Option ℕ) : Prog SlabMem ℕ := do
  let addr ← getCxlPages pages
  if addr = 0 then
    pure 0
  else do
    setOrClearSlabInPage addr true
    pure addr

/-- The loop of `init_slab_cache` that links the slots: the one at `slot` and
the `n - 1` after it. -/
def linkSlots (objSize : ℕ) (slot n : ℕ) : Prog SlabMem Unit := do
  forUpTo (n - 1) fun i =>
    store fun m => m.setNextFree (slot + i * objSize) (slot + i * objSize + objSize)
  store fun m => m.setNextFree (slot + (n - 1) * objSize) 0

/-- `init_slab_cache` -/
def initSlabCache (pages : Option ℕ) (mid order ownerCpu : ℕ) : Prog SlabMem ℕ := do
  let addr ← allocSlabMemory pages
  if addr = 0 then
    pure 0
  else do
    let objSize := orderToSize order
    bugOn (metaSlots order = 0 ∨ metaSlots order ≥ totalSlots order)
    let cnt := totalSlots order - metaSlots order
    let slot := addr + metaSlots order * objSize
    store fun m => m.setHeader addr { m.header addr with freeListHead := slot }
    store fun m => m.setHeader addr { m.header addr with order := order }
    store fun m => m.setHeader addr { m.header addr with ownerCpu := ownerCpu }
    store fun m => m.setHeader addr { m.header addr with ownerMachine := mid }
    store fun m => m.setHeader addr { m.header addr with totalFreeCnt := cnt % 2 ^ 16 }
    store fun m => m.setHeader addr { m.header addr with currentFreeCnt := cnt % 2 ^ 16 }
    linkSlots objSize slot cnt
    pure addr

/-! ## The per-CPU log -/

/-- `slab_log_begin` -/
def slabLogBegin (mid cpu slab : ℕ) (op : SlabOp) : Prog SlabMem Unit := do
  store fun m => m.setCpuLog mid cpu { m.cpuLogs mid cpu with slabAddr := slab }
  store fun m => m.setCpuLog mid cpu
    { m.cpuLogs mid cpu with oldFreeHead := (m.header slab).freeListHead }
  store fun m => m.setCpuLog mid cpu
    { m.cpuLogs mid cpu with oldFreeCnt := (m.header slab).currentFreeCnt }
  store fun m => m.setCpuLog mid cpu { m.cpuLogs mid cpu with op := op }

/-- `slab_log_end` -/
def slabLogEnd (mid cpu : ℕ) : Prog SlabMem Unit :=
  store fun m => m.setCpuLog mid cpu { m.cpuLogs mid cpu with op := .none }

/-! ## Allocation and free -/

/-- `choose_new_current_slab` -/
def chooseNewCurrentSlab (k : PoolKey) : Prog SlabMem Unit := do
  let links ← read (·.links)
  if links.listEmpty (.partialList k) then
    store (·.setCurrentSlab k 0)
  else do
    let slab ← listEntry (links.next (.partialList k))
    store (·.setCurrentSlab k slab)
    onLinks (listDel (.slab slab))

/-- The part of `alloc_in_cxl_slab_impl` that takes the first free slot of the
current slab. -/
def takeSlot (k : PoolKey) (currentSlab : ℕ) : Prog SlabMem ℕ := do
  let freeList ← read fun m => (m.header currentSlab).freeListHead
  bugOn (freeList = 0)
  slabLogBegin k.machine k.cpu currentSlab .alloc
  let nextSlot ← read (·.nextFree freeList)
  store fun m => m.setHeader currentSlab { m.header currentSlab with freeListHead := nextSlot }
  store fun m => m.setHeader currentSlab
    { m.header currentSlab with
      currentFreeCnt := ((m.header currentSlab).currentFreeCnt + (2 ^ 16 - 1)) % 2 ^ 16 }
  let cnt ← read fun m => (m.header currentSlab).currentFreeCnt
  when (cnt = 0) do
    chooseNewCurrentSlab k
    onLinks (listAppend (.slab currentSlab) (.fullList k))
  slabLogEnd k.machine k.cpu
  unlock k
  pure freeList

/-- `alloc_in_cxl_slab_impl` on CPU `cpu` of machine `mid` -/
def allocInCxlSlabImpl (pages : Option ℕ) (mid cpu order : ℕ) : Prog SlabMem ℕ := do
  bugOn (cpu ≥ platCpuNum)
  let k : PoolKey := ⟨mid, cpu, order⟩
  lock k
  let currentSlab ← read (·.currentSlab k)
  if currentSlab = 0 then do
    let newSlab ← initSlabCache pages mid order cpu
    if newSlab = 0 then do
      unlock k
      pure 0
    else do
      store (·.setCurrentSlab k newSlab)
      takeSlot k newSlab
  else
    takeSlot k currentSlab

/-- The order that `alloc_in_cxl_slab` serves a size with. -/
def slabOrder (size : ℕ) : ℕ :=
  let order := sizeToOrder size
  if order < slabMinOrder then slabMinOrder else order

/-- `alloc_in_cxl_slab`.  Before it allocates, the source drains the stack of
objects that other machines have freed; the calls that go through that stack
are modelled with it. -/
def allocInCxlSlab (pages : Option ℕ) (mid cpu size : ℕ) : Prog SlabMem ℕ := do
  bugOn (size > orderToSize slabMaxOrder)
  allocInCxlSlabImpl pages mid cpu (slabOrder size)

/-- The pool of `slab` on machine `mid`. -/
def SlabMem.poolOf (m : SlabMem) (mid slab : ℕ) : PoolKey :=
  ⟨mid, (m.header slab).ownerCpu, (m.header slab).order⟩

/-- `try_insert_full_slab_to_partial` -/
def tryInsertFullSlabToPartial (mid slab : ℕ) : Prog SlabMem Unit := do
  let cnt ← read fun m => (m.header slab).currentFreeCnt
  when (cnt = 0) do
    let k ← read (·.poolOf mid slab)
    bugOn (k.cpu ≥ platCpuNum)
    onLinks (listDel (.slab slab))
    onLinks (listAppend (.slab slab) (.partialList k))

/-- The part of `try_return_slab_to_buddy` that takes the slab out of its
pool. -/
def unlinkSlab (k : PoolKey) (slab : ℕ) : Prog SlabMem Unit := do
  let current ← read (·.currentSlab k)
  if slab = current then
    chooseNewCurrentSlab k
  else
    onLinks (listDel (.slab slab))

/-- `try_return_slab_to_buddy` -/
def tryReturnSlabToBuddy (mid slab order : ℕ) : Prog SlabMem Unit := do
  let cpu ← read fun m => (m.header slab).ownerCpu
  bugOn (cpu ≥ platCpuNum)
  let h ← read (·.header slab)
  when (h.currentFreeCnt = h.totalFreeCnt) do
    unlinkSlab ⟨mid, cpu, order⟩ slab
    setOrClearSlabInPage slab false
    freePages slab

/-- The part of `free_in_cxl_slab_local` that puts the slot back, under the log
record of the CPU that owns the slab. -/
def putSlot (k : PoolKey) (slab addr : ℕ) : Prog SlabMem Unit := do
  slabLogBegin k.machine k.cpu slab .free
  store fun m => m.setNextFree addr (m.header slab).freeListHead
  store fun m => m.setHeader slab { m.header slab with freeListHead := addr }
  store fun m => m.setHeader slab
    { m.header slab with currentFreeCnt := ((m.header slab).currentFreeCnt + 1) % 2 ^ 16 }
  slabLogEnd k.machine k.cpu

/-- `free_in_cxl_slab_local` on machine `mid` -/
def freeInCxlSlabLocal (mid addr : ℕ) : Prog SlabMem Unit := do
  let slab ← read (·.pageSlab (addr / pageSize))
  let k ← read (·.poolOf mid slab)
  bugOn (k.cpu ≥ platCpuNum)
  lock k
  tryInsertFullSlabToPartial mid slab
  putSlot k slab addr
  tryReturnSlabToBuddy mid slab k.order
  unlock k

/-- The body of the inner loop of `init_cxl_slab`. -/
def initPool (k : PoolKey) : Prog SlabMem Unit := do
  store (·.setLock k false)
  store (·.setCurrentSlab k 0)
  onLinks (initListHead (.partialList k))
  onLinks (initListHead (.fullList k))

/-- `init_cxl_slab` on machine `mid` -/
def initCxlSlab (mid : ℕ) : Prog SlabMem Unit :=
  forUpTo platCpuNum fun cpu => do
    forFrom slabMinOrder (slabMaxOrder + 1 - slabMinOrder) fun order => initPool ⟨mid, cpu, order⟩
    store fun m => m.setCpuLog mid cpu { m.cpuLogs mid cpu with op := .none }

end Starfish.Slab
