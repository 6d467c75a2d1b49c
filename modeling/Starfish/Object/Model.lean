import Starfish.DList
import Starfish.Object.SlotTable

/-!
# Starfish.Object.Model

The capabilities of `kernel/object/capability.c` and `cap_group.c`, in the build
with `DSM_ENABLED` and without checkpointing.  A capability is a slot in the slot
table of a cap group; a slot points to an object, and the slots of an object are
linked in its copies list.

Objects, slots and cap groups are known by their addresses, `0` is NULL, and a cap
group is the object that holds it.  What the allocators return is an argument of
the calls.  Memory from `kmalloc` holds what was there before; `live` is the
allocator's own record of what it has handed out.

The locks are left out here: the functions are what one thread does, cut where it
takes or drops a lock.  Of the deinit functions only that of a cap group is here:
it frees the slot table, which is there as long as its object is.  That of a vmspace
is left out; with `MULTI_PAGETABLE_ENABLED` it also puts the references to PMOs that
it has held back.
No object has a `pair_obj`, which only a migration between machines gives it.
-/

namespace Starfish.Object

open Prog

def ecapbility : ℤ := 200

def einval : ℤ := 22

/-- `enum object_type` -/
inductive ObjectType where
  | capGroup
  | thread
  | connection
  | notification
  | irq
  | pmo
  | vmspace
deriving DecidableEq, Repr

/-- `struct object_slot` without its list node. -/
structure ObjectSlot where
  slotId : ℤ
  capGroup : ℕ
  isvalid : Bool
  rights : ℕ
  object : ℕ
  live : Bool
deriving DecidableEq, Repr

/-- `struct object` without the head of its copies list.  `inuse` is
`status == DSM_STATUS_INUSE`. -/
structure KObject where
  type : ObjectType
  refcount : ℕ
  inuse : Bool
  live : Bool
deriving DecidableEq, Repr

/-- A `struct list_head`: the copies list of an object, and the node of a slot. -/
inductive CapNode where
  | head (object : ℕ)
  | copy (slot : ℕ)
deriving DecidableEq, Repr

/-- The memory of the capabilities. -/
structure CapMem where
  table : ℕ → SlotTable
  slot : ℕ → ObjectSlot
  object : ℕ → KObject
  links : Links CapNode

namespace CapMem

@[simps -fullyApplied]
def setTable (m : CapMem) (g : ℕ) (t : SlotTable) : CapMem :=
  { m with table := Function.update m.table g t }

@[simps -fullyApplied]
def setSlot (m : CapMem) (slot : ℕ) (v : ObjectSlot) : CapMem :=
  { m with slot := Function.update m.slot slot v }

@[simps -fullyApplied]
def setObject (m : CapMem) (object : ℕ) (v : KObject) : CapMem :=
  { m with object := Function.update m.object object v }

@[simps -fullyApplied]
def setLinks (m : CapMem) (L : Links CapNode) : CapMem := { m with links := L }

/-- `get_slot`. -/
def getSlot (m : CapMem) (g : ℕ) (i : ℤ) : ℕ := (m.table g).getSlot i

/-- `slot && slot->isvalid`. -/
def ValidSlot (m : CapMem) (slot : ℕ) : Prop := slot ≠ 0 ∧ (m.slot slot).isvalid = true

instance (m : CapMem) (slot : ℕ) : Decidable (m.ValidSlot slot) :=
  inferInstanceAs (Decidable (_ ∧ _))

end CapMem

/-- A list operation. -/
def onLinks {α : Type} (c : Prog (Links CapNode) α) : Prog CapMem α :=
  zoom (·.links) (fun L m => m.setLinks L) c

/-! ## Slots -/

/-- `alloc_slot_id`. -/
def allocSlotId (g : ℕ) (as : List (Option Around)) : Prog CapMem ℤ :=
  .act (fun _ => true) (fun m => m.setTable g (SlotTable.allocSlotId as (m.table g)).2)
    fun m => .ret (SlotTable.allocSlotId as (m.table g)).1

/-- `free_slot_id`. -/
def freeSlotId (g : ℕ) (slotId : ℤ) : Prog CapMem Unit :=
  store fun m => m.setTable g ((m.table g).freeSlotId slotId)

/-- `install_slot`. -/
def installSlot (g : ℕ) (slotId : ℤ) (slot : ℕ) : Prog CapMem Unit := do
  let set ← read fun m => getBit (toU32 slotId) (m.table g).slotsBmp
  bugOn (set = false)
  store fun m => m.setTable g ((m.table g).setSlot slotId slot)

/-- `kmalloc(sizeof(*slot))`. -/
def kmallocSlot (slot : ℕ) : Prog CapMem Unit :=
  store fun m => m.setSlot slot { m.slot slot with live := true }

/-- `kfree(slot)`. -/
def kfreeSlot (slot : ℕ) : Prog CapMem Unit :=
  store fun m => m.setSlot slot { m.slot slot with live := false }

/-! ## Objects -/

/-- `object_alloc`. -/
def objectAlloc (object : ℕ) (type : ObjectType) : Prog CapMem ℕ :=
  if object = 0 then pure 0
  else do
    store (·.setObject object ⟨type, 0, false, true⟩)
    onLinks (initListHead (.head object))
    pure object

/-- `cap_group_init`: the slot table. -/
def capGroupInit (g : ℕ) (a : Around) : Prog CapMem Unit :=
  store (·.setTable g (SlotTable.init baseObjectNum a))

/-- The creation of an object up to its first capability; a cap group is
initialised in between. -/
def createObject (object : ℕ) (type : ObjectType) (a : Around) : Prog CapMem ℕ := do
  let object ← objectAlloc object type
  when (object ≠ 0 ∧ type = .capGroup) (capGroupInit object a)
  pure object

/-- `atomic_fetch_add_64(&object->refcount, 1)`. -/
def refAdd (object : ℕ) : Prog CapMem Unit :=
  store fun m => m.setObject object
    { m.object object with refcount := ((m.object object).refcount + 1) % 2 ^ 64 }

/-- `atomic_fetch_sub_64(&object->refcount, 1)`. -/
def refSub (object : ℕ) : Prog CapMem ℕ :=
  .act (fun _ => true)
    (fun m => m.setObject object
      { m.object object with refcount := ((m.object object).refcount + (2 ^ 64 - 1)) % 2 ^ 64 })
    fun m => .ret (m.object object).refcount

/-- `__free_object`. -/
def freeObject (object : ℕ) : Prog CapMem Unit := do
  let links ← read (·.links)
  bugOn (¬ links.listEmpty (.head object))
  store fun m => m.setObject object { m.object object with live := false }

/-- `obj_put`. -/
def objPut (object : ℕ) : Prog CapMem Unit := do
  let oldRefcount ← refSub object
  when (oldRefcount = 1) (freeObject object)

/-- `get_opaque`; the type is checked if it is given. -/
def getOpaque (g : ℕ) (slotId : ℤ) (type : Option ObjectType) : Prog CapMem (Option ℕ) := do
  let t ← read (·.table g)
  if slotId < 0 ∨ slotId ≥ t.slotsSize then pure none
  else if getBit (toU32 slotId) t.slotsBmp = false then pure none
  else do
    bugOn (t.slots slotId = 0)
    let slot ← read fun m => m.slot (m.getSlot g slotId)
    bugOn (slot.isvalid = false)
    let object ← read fun m => m.object slot.object
    -- `dsm_get_inuse_object` gives NULL when there is no pair
    bugOn (object.inuse = false)
    if type.all (· = object.type) then do
      refAdd slot.object
      pure (some slot.object)
    else pure none

/-- `obj_get`. -/
def objGet (g : ℕ) (slotId : ℤ) (type : ObjectType) : Prog CapMem (Option ℕ) :=
  getOpaque g slotId (some type)

/-! ## Capabilities -/

/-- The last part of `cap_alloc`, when there is a slot. -/
def capAllocInto (g object rights : ℕ) (slotId : ℤ) (slot : ℕ) : Prog CapMem ℤ := do
  store (·.setSlot slot ⟨slotId, g, true, rights, object, true⟩)
  onLinks (listAdd (.copy slot) (.head object))
  let refcount ← read fun m => (m.object object).refcount
  bugOn (refcount ≠ 0)
  store fun m => m.setObject object { m.object object with refcount := 1, inuse := true }
  installSlot g slotId slot
  pure slotId

/-- `cap_alloc`. -/
def capAlloc (g object rights : ℕ) (as : List (Option Around)) (slot : ℕ) : Prog CapMem ℤ := do
  let slotId ← allocSlotId g as
  if slotId < 0 then pure (-enomem)
  else if slot = 0 then do
    freeSlotId g slotId
    pure (-enomem)
  else
    capAllocInto g object rights slotId slot

/-- The first step of `__cap_free`, with the slot table locked: take the slot out
of it. -/
def capFreeTable (g : ℕ) (slotId : ℤ) : Prog CapMem (Option ℕ) := do
  let m ← read id
  if m.ValidSlot (m.getSlot g slotId) then do
    freeSlotId g slotId
    pure (some (m.getSlot g slotId))
  else pure none

/-- The second step of `__cap_free`, with the copies list locked. -/
def capFreeUnlink (slot : ℕ) : Prog CapMem Unit := do
  onLinks (listDel (.copy slot))
  kfreeSlot slot

/-- `__cap_free`; its third step is that of `obj_put`. -/
def capFree (g : ℕ) (slotId : ℤ) : Prog CapMem ℤ := do
  match ← capFreeTable g slotId with
  | none => pure (-ecapbility)
  | some slot => do
    let object ← read fun m => (m.slot slot).object
    capFreeUnlink slot
    objPut object
    pure 0

/-- The part of `cap_copy` before it takes the lock of the copies list, with the
slot `destSlot` from `kmalloc`: the error, or the new slot id and the slot to copy.
It takes any negative slot id but `-1` for a slot id, and it leaves the rights of
the new slot as they are. -/
def copyBegin (src dest : ℕ) (srcSlotId : ℤ) (as : List (Option Around)) (destSlot : ℕ) :
    Prog CapMem (Except ℤ (ℤ × ℕ)) := do
  let m ← read id
  if ¬ m.ValidSlot (m.getSlot src srcSlotId) then pure (.error (-ecapbility))
  else do
    let destSlotId ← allocSlotId dest as
    if destSlotId = -1 then pure (.error (-enomem))
    else if destSlot = 0 then do
      freeSlotId dest destSlotId
      pure (.error (-enomem))
    else do
      kmallocSlot destSlot
      let m ← read id
      let srcSlot := m.getSlot src srcSlotId
      if ¬ m.ValidSlot srcSlot then do
        kfreeSlot destSlot
        freeSlotId dest destSlotId
        pure (.error (-ecapbility))
      else do
        refAdd (m.slot srcSlot).object
        store fun m => m.setSlot destSlot
          { m.slot destSlot with
            slotId := destSlotId, capGroup := dest, isvalid := true,
            object := (m.slot srcSlot).object }
        pure (.ok (destSlotId, srcSlot))

/-- `cap_copy`. -/
def capCopy (src dest : ℕ) (srcSlotId : ℤ) (as : List (Option Around)) (destSlot : ℕ) :
    Prog CapMem ℤ := do
  match ← copyBegin src dest srcSlotId as destSlot with
  | .error r => pure r
  | .ok (destSlotId, srcSlot) => do
    onLinks (listAdd (.copy destSlot) (.copy srcSlot))
    installSlot dest destSlotId destSlot
    pure destSlotId

/-- `cap_move`. -/
def capMove (src dest : ℕ) (srcSlotId : ℤ) (as : List (Option Around)) (destSlot : ℕ) :
    Prog CapMem ℤ := do
  let r ← capCopy src dest srcSlotId as destSlot
  if r < 0 then pure r
  else do
    let r ← capFree src srcSlotId
    bugOn (r ≠ 0)
    pure r

/-- The rounds of the loop of `cap_free_all` from `elem` on, with `tmp` the
successor that was read before.  Running out of fuel stands for a loop that does
not end. -/
def freeCopies (object : ℕ) : ℕ → CapNode → CapNode → Prog CapMem Unit
  | 0, _, _ => bug
  | fuel + 1, elem, tmp =>
    if elem = .head object then pure ()
    else
      match elem with
      | .head _ => bug
      | .copy slot => do
        let iter ← read fun m => m.slot slot
        let r ← capFree iter.capGroup iter.slotId
        bugOn (r ≠ 0)
        let next ← read (·.links.next tmp)
        freeCopies object fuel tmp next

/-- `cap_free_all`. -/
def capFreeAll (g : ℕ) (slotId : ℤ) : Prog CapMem ℤ := do
  match ← getOpaque g slotId none with
  | none => pure (-ecapbility)
  | some object => do
    let elem ← read (·.links.next (.head object))
    let tmp ← read (·.links.next elem)
    let fuel ← read fun m => (m.object object).refcount + 1
    freeCopies object fuel elem tmp
    objPut object
    pure 0

/-- The last part of `cap_insert`, when there is a slot. -/
def capInsertInto (g object rights : ℕ) (slotId : ℤ) (slot : ℕ) : Prog CapMem ℤ := do
  store (·.setSlot slot ⟨slotId, g, true, rights, object, true⟩)
  onLinks (listAdd (.copy slot) (.head object))
  refAdd object
  installSlot g slotId slot
  pure slotId

/-- `cap_insert`.  It uses the slot that is there. -/
def capInsert (g object rights : ℕ) (slotId : ℤ) (slot : ℕ) : Prog CapMem ℤ := do
  let t ← read (·.table g)
  bugOn (slotId < 0 ∨ slotId ≥ t.slotsSize)
  store fun m => m.setTable g ((m.table g).mark slotId)
  let old ← read fun m => (m.table g).slots slotId
  if old = 0 then
    if slot = 0 then do
      freeSlotId g slotId
      pure (-enomem)
    else capInsertInto g object rights slotId slot
  else capInsertInto g object rights slotId old

/-- `cap_replace`. -/
def capReplace (g object : ℕ) (slotId : ℤ) : Prog CapMem ℤ := do
  let t ← read (·.table g)
  bugOn (slotId < 0 ∨ slotId ≥ t.slotsSize)
  bugOn (getBit (toU32 slotId) t.slotsBmp = false)
  -- the fault of following NULL
  bugOn (t.slots slotId = 0)
  let slot := t.slots slotId
  let oldObj ← read fun m => (m.slot slot).object
  if oldObj = object then pure slotId
  else do
    store fun m => m.setSlot slot { m.slot slot with object := object }
    onLinks (listAdd (.copy slot) (.head object))
    refAdd object
    pure slotId

/-- One capability for `sys_transfer_caps`: its slot id, and what the allocators
return while it is copied. -/
structure Transfer where
  slotId : ℤ
  arrays : List (Option Around)
  destSlot : ℕ

/-- The loop of `sys_transfer_caps`. -/
def transferCaps (src dest : ℕ) : List Transfer → Prog CapMem (List ℤ)
  | [] => pure []
  | c :: caps => do
    let r ← capCopy src dest c.slotId c.arrays c.destSlot
    let rs ← transferCaps src dest caps
    pure (r :: rs)

/-- `sys_transfer_caps` called in the cap group `g` with the buffer `srcCaps`; the
results that it writes for the user come with the return value. -/
def sysTransferCaps (g : ℕ) (destGroupCap : ℤ) (srcCaps : ℕ → Transfer) (nrCaps : ℤ) :
    Prog CapMem (ℤ × List ℤ) := do
  match ← objGet g destGroupCap .capGroup with
  | none => pure (-ecapbility, [])
  | some dest => do
    if nrCaps < 0 ∨ nrCaps > 1024 then do
      objPut dest
      pure (-einval, [])
    else do
      let rs ← transferCaps g dest ((List.range nrCaps.toNat).map srcCaps)
      objPut dest
      pure (0, rs)

end Starfish.Object
