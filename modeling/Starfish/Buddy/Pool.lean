import Mathlib.Data.Nat.Bitwise
import Starfish.DList

/-!
# Starfish.Buddy.Pool

The buddy allocator of `kernel/mm/buddy.c`: one physical memory pool, its
page metadata and its free lists.

A `struct page *` is the index of the page in `page_metadata`.  All list
heads and list nodes of the pool live in one `Links`, so that `list_add` and
`list_del` are the pointer stores they are in the source.  Addresses are
natural numbers: the kernel maps its pools far below the end of the 64-bit
address space, so `pool_start_addr + pool_mem_size` does not wrap.  The pools
of a machine are disjoint and `page->pool` never changes after `init_buddy`,
so `virt_to_page` of an address inside this pool finds this pool; outside it
the model gives up like the source does when no pool matches.
-/

namespace Starfish.Buddy

open Prog

/-! ## Constants and records -/

/-- `BUDDY_PAGE_SIZE` -/
def buddyPageSize : ℕ := 0x1000

/-- `BUDDY_PAGE_SIZE_ORDER` -/
def buddyPageSizeOrder : ℕ := 12

/-- `BUDDY_MAX_ORDER` -/
def buddyMaxOrder : ℕ := 20

/-- Which single-level-store support is compiled in.  Allocations are logged
under `CHCORE_SLS` and `CHCORE_SSI_SLS`, frees under `CHCORE_SLS` only. -/
inductive Build where
  | plain
  | ssiSls
  | sls
deriving DecidableEq, Repr

/-- `defined CHCORE_SLS || defined CHCORE_SSI_SLS` -/
def Build.logsGet (build : Build) : Bool := build != .plain

/-- `defined CHCORE_SLS` -/
def Build.logsFree (build : Build) : Bool := build == .sls

/-- `enum pageflags` -/
inductive PageFlag where
  | allocated
  | cached
  | patched
deriving DecidableEq, Repr

/-- The bit number of a flag. -/
def PageFlag.bit : PageFlag → ℕ
  | .allocated => 0
  | .cached => 1
  | .patched => 2

/-- A `struct list_head` of the pool: the head of a free list, or the `node`
field of a page. -/
inductive Node where
  | freeList (order : ℕ)
  | page (idx : ℕ)
deriving DecidableEq, Repr

/-- `enum log_commit_type` -/
inductive LogCommit where
  | init
  | done
  | commit
deriving DecidableEq, Repr

/-- `enum log_type` -/
inductive LogType where
  | addPages
  | removePages
deriving DecidableEq, Repr

/-- `struct log_entry` -/
structure LogEntry where
  commited : LogCommit
  type : LogType
  page : ℕ
  dedicatedOrder : ℕ
  curOrder : ℕ
  listCurNum : ℕ

/-- `struct phys_mem_pool` together with its page metadata: `flags i` and
`order i` are fields of `page_metadata[i]`. -/
structure PhysMemPool where
  poolStartAddr : ℕ
  poolMemSize : ℕ
  links : Links Node
  nrFree : ℕ → ℕ
  flags : ℕ → BitVec 32
  order : ℕ → ℕ
  latestLog : LogEntry

namespace PhysMemPool

@[simps]
def setLinks (m : PhysMemPool) (L : Links Node) : PhysMemPool := { m with links := L }

@[simps]
def setNrFree (m : PhysMemPool) (k v : ℕ) : PhysMemPool :=
  { m with nrFree := Function.update m.nrFree k v }

@[simps]
def setFlags (m : PhysMemPool) (i : ℕ) (v : BitVec 32) : PhysMemPool :=
  { m with flags := Function.update m.flags i v }

@[simps]
def setOrder (m : PhysMemPool) (i v : ℕ) : PhysMemPool :=
  { m with order := Function.update m.order i v }

@[simps]
def setLog (m : PhysMemPool) (log : LogEntry) : PhysMemPool := { m with latestLog := log }

@[simp] theorem setLog_setLog (m : PhysMemPool) (log log' : LogEntry) :
    (m.setLog log).setLog log' = m.setLog log' := rfl

theorem setOrder_comm (m : PhysMemPool) (hij : i ≠ j) (v w : ℕ) :
    (m.setOrder i v).setOrder j w = (m.setOrder j w).setOrder i v := by
  simp only [setOrder]
  rw [Function.update_comm hij]

/-- `page_check_flag` -/
def pageCheckFlag (m : PhysMemPool) (page : ℕ) (flag : PageFlag) : Bool :=
  m.flags page &&& (1#32 <<< flag.bit) != 0#32

end PhysMemPool

/-- Code on the list nodes of the pool. -/
def onLinks {α : Type} (c : Prog (Links Node) α) : Prog PhysMemPool α :=
  zoom PhysMemPool.links (fun L m => m.setLinks L) c

/-- `page_set_flag` -/
def pageSetFlag (page : ℕ) (flag : PageFlag) : Prog PhysMemPool Unit :=
  store fun m => m.setFlags page (m.flags page ||| (1#32 <<< flag.bit))

/-- `page_clear_flag` -/
def pageClearFlag (page : ℕ) (flag : PageFlag) : Prog PhysMemPool Unit :=
  store fun m => m.setFlags page (m.flags page &&& ~~~(1#32 <<< flag.bit))

/-- `list_entry(node, struct page, node)`.  On the head of a free list the
result would point outside the page metadata. -/
def listEntry : Node → Prog PhysMemPool ℕ
  | .page idx => pure idx
  | .freeList _ => bug

/-! ## Addresses and buddies -/

/-- `page_to_virt` -/
def pageToVirt (page : ℕ) : Prog PhysMemPool ℕ := do
  let pool ← read id
  let addr := page * buddyPageSize + pool.poolStartAddr
  bugOn (addr > pool.poolStartAddr + pool.poolMemSize)
  pure addr

/-- `virt_to_page` -/
def virtToPage (addr : ℕ) : Prog PhysMemPool ℕ := do
  let pool ← read id
  if addr ≥ pool.poolStartAddr ∧ addr < pool.poolStartAddr + pool.poolMemSize then
    pure ((addr - pool.poolStartAddr) / buddyPageSize)
  else
    bug

/-- `get_buddy_chunk` -/
def getBuddyChunk (chunk : ℕ) : Prog PhysMemPool (Option ℕ) := do
  let chunkAddr ← pageToVirt chunk
  let order ← read (·.order chunk)
  let buddyChunkAddr := chunkAddr ^^^ (1 <<< (order + buddyPageSizeOrder))
  let pool ← read id
  if buddyChunkAddr < pool.poolStartAddr ∨
      buddyChunkAddr + (1 <<< order) * buddyPageSize > pool.poolStartAddr + pool.poolMemSize then
    pure none
  else do
    let page ← virtToPage buddyChunkAddr
    pure (some page)

/-! ## Splitting and merging

The recursion depth of both functions is bounded by `BUDDY_MAX_ORDER`, which
is the fuel they are called with. -/

/-- `split_chunk` -/
def splitChunk (order : ℕ) : ℕ → ℕ → Prog PhysMemPool ℕ
  | 0, _ => bug
  | fuel + 1, chunk => do
    let cur ← read (·.order chunk)
    if cur = order then
      pure chunk
    else do
      store fun m => m.setOrder chunk (m.order chunk - 1)
      let buddyChunk ← getBuddyChunk chunk
      match buddyChunk with
      | none => bug
      | some buddyChunk => do
        store fun m => m.setOrder buddyChunk (m.order chunk)
        pageClearFlag buddyChunk .allocated
        let buddyOrder ← read (·.order buddyChunk)
        onLinks (listAdd (.page buddyChunk) (.freeList buddyOrder))
        store fun m => m.setNrFree buddyOrder (m.nrFree buddyOrder + 1)
        splitChunk order fuel chunk

/-- `merge_chunk` -/
def mergeChunk : ℕ → ℕ → Prog PhysMemPool ℕ
  | 0, _ => bug
  | fuel + 1, chunk => do
    let cur ← read (·.order chunk)
    if cur = buddyMaxOrder - 1 then
      pure chunk
    else do
      let buddyChunk ← getBuddyChunk chunk
      match buddyChunk with
      | none => pure chunk
      | some buddyChunk => do
        let allocated ← read (·.pageCheckFlag buddyChunk .allocated)
        let buddyOrder ← read (·.order buddyChunk)
        if allocated ∨ buddyOrder ≠ cur then
          pure chunk
        else do
          onLinks (listDel (.page buddyChunk))
          store fun m => m.setNrFree buddyOrder (m.nrFree buddyOrder - 1)
          store fun m => m.setOrder buddyChunk (m.order buddyChunk + 1)
          store fun m => m.setOrder chunk (m.order chunk + 1)
          mergeChunk fuel (if chunk > buddyChunk then buddyChunk else chunk)

/-! ## The operation log -/

/-- `prepare_latest_log` -/
def prepareLatestLog (type : LogType) (page dedicatedOrder curOrder : ℕ) :
    Prog PhysMemPool Unit := do
  store fun m => m.setLog { m.latestLog with type := type }
  store fun m => m.setLog { m.latestLog with page := page }
  store fun m => m.setLog { m.latestLog with dedicatedOrder := dedicatedOrder }
  store fun m => m.setLog { m.latestLog with curOrder := curOrder }
  store fun m => m.setLog { m.latestLog with listCurNum := m.nrFree curOrder }
  store fun m => m.setLog { m.latestLog with commited := .done }

/-- `commit_latest_log` -/
def commitLatestLog : Prog PhysMemPool Unit :=
  store fun m => m.setLog { m.latestLog with commited := .commit }

/-! ## Allocation and free -/

/-- The search loop of `buddy_get_pages`: take the first chunk of the first
non-empty free list among the `n` lists from `curOrder` on. -/
def takeChunk (build : Build) (order : ℕ) : ℕ → ℕ → Prog PhysMemPool (Option (ℕ × ℕ))
  | 0, _ => pure none
  | n + 1, curOrder => do
    let links ← read (·.links)
    if links.listEmpty (.freeList curOrder) then
      takeChunk build order n (curOrder + 1)
    else do
      let page ← listEntry (links.next (.freeList curOrder))
      when build.logsGet (prepareLatestLog .addPages page order curOrder)
      onLinks (listDel (.page page))
      store fun m => m.setNrFree curOrder (m.nrFree curOrder - 1)
      pure (some (page, curOrder))

/-- `buddy_get_pages`.  `BUDDY_MAX_ORDER` is an `unsigned long`, so the test
`order >= BUDDY_MAX_ORDER` converts a negative order to a huge one. -/
def buddyGetPages (build : Build) (order : ℤ) : Prog PhysMemPool (Option ℕ) :=
  if order < 0 ∨ order ≥ buddyMaxOrder then
    pure none
  else do
    let order := order.toNat
    let found ← takeChunk build order (buddyMaxOrder - order) order
    match found with
    | none => do
      when build.logsGet commitLatestLog
      pure none
    | some (page, _) => do
      let page ← splitChunk order buddyMaxOrder page
      forUpTo (1 <<< order) fun i => pageSetFlag (page + i) .allocated
      when build.logsGet commitLatestLog
      pure (some page)

/-- The loop of `buddy_free_pages` that clears all flags of the pages of a
chunk, which must be allocated. -/
def clearPages (page order : ℕ) : Prog PhysMemPool Unit :=
  forUpTo (1 <<< order) fun i => do
    let allocated ← read (·.pageCheckFlag (page + i) .allocated)
    bugOn (¬ allocated)
    store fun m => m.setFlags (page + i) 0#32

/-- `buddy_free_pages` -/
def buddyFreePages (build : Build) (page : ℕ) : Prog PhysMemPool Unit := do
  let order ← read (·.order page)
  when build.logsFree (prepareLatestLog .removePages page order 0)
  clearPages page order
  let page ← mergeChunk buddyMaxOrder page
  let order ← read (·.order page)
  onLinks (listAdd (.page page) (.freeList order))
  store fun m => m.setNrFree order (m.nrFree order + 1)
  when build.logsFree commitLatestLog

/-- `init_buddy` -/
def initBuddy (build : Build) (startAddr pageNum : ℕ) : Prog PhysMemPool Unit := do
  store fun m => { m with poolStartAddr := startAddr }
  store fun m => { m with poolMemSize := pageNum * buddyPageSize }
  forUpTo buddyMaxOrder fun order => do
    store fun m => m.setNrFree order 0
    onLinks (initListHead (.freeList order))
  -- memset of the page metadata
  store fun m =>
    { m with
      flags := fun i => if i < pageNum then 0#32 else m.flags i
      order := fun i => if i < pageNum then 0 else m.order i }
  forUpTo pageNum fun i => do
    pageSetFlag i .allocated
    store fun m => m.setOrder i 0
  forUpTo pageNum fun i => buddyFreePages build i

end Starfish.Buddy
