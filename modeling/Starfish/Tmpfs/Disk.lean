import Mathlib.Data.Nat.Notation
import Mathlib.Logic.Function.Basic

/-!
# Starfish.Tmpfs.Disk

The durable tree of CXLFS (`user/system-servers/tmpfs/cxlfs.c`) as tmpfs sees it: inodes by their
number, directories as their slots for entries, regular files as their bytes.

* An inode number is in use iff `node` has a node for it; this is the inode bitmap.
* A directory entry is written by one `cxlfs_write`.  The entry may lie across two blocks, and
  there may be no free block for either: `WriteResult` says how far the write comes, and a write
  that comes only half way may leave anything in the directory.
* `id` is a ghost: it says which file a node is, when its number is used again.

What a file system call needs beside that, the blocks of a file and their allocation, is left out.
-/

namespace Starfish.Tmpfs

/-- A name of a directory entry, or a path. -/
abbrev Name : Type := List Char

/-- `FS_REG` and `FS_DIR`. -/
inductive FileType where
  | reg | dir
deriving DecidableEq, Repr

/-- `namexNoent` is `E_NAMEX_NOENT`. -/
inductive Errno where
  | noent | namexNoent | exist | isdir | notdir | notempty | nospc | inval | io | nametoolong
  | nomem
deriving DecidableEq, Repr

/-- `struct cxlfs_dirent_disk`, of an entry that is used. -/
structure Dirent where
  ino : ℕ
  type : FileType
  name : Name
deriving DecidableEq, Repr

structure DiskNode where
  type : FileType
  slots : List (Option Dirent)
  data : List UInt8
  id : ℕ
deriving DecidableEq, Repr

structure Disk where
  node : ℕ → Option DiskNode
  nextId : ℕ

/-- How far the write of a directory entry comes: `torn` leaves these slots. -/
inductive WriteResult where
  | whole
  | nothing
  | torn (slots : List (Option Dirent))
deriving DecidableEq, Repr

def cxlfsRootIno : ℕ := 1

def cxlfsNinodes : ℕ := 32768

namespace Disk

def setNode (d : Disk) (ino : ℕ) (n : Option DiskNode) : Disk :=
  { d with node := Function.update d.node ino n }

/-- `alloc_inode` -/
def allocInode (d : Disk) : Option ℕ :=
  (List.range' (cxlfsRootIno + 1) (cxlfsNinodes - (cxlfsRootIno + 1))).find? fun ino =>
    (d.node ino).isNone

end Disk

/-- `find_dirent`: the slot and the entry with this name, from slot `k` on. -/
def findDirent (name : Name) : List (Option Dirent) → ℕ → Option (ℕ × Dirent)
  | [], _ => none
  | none :: slots, k => findDirent name slots (k + 1)
  | some e :: slots, k => if e.name = name then some (k, e) else findDirent name slots (k + 1)

/-- The slot for a new entry: the first that is free, or one behind the last. -/
def freeSlot (slots : List (Option Dirent)) : ℕ := slots.findIdx Option.isNone

def setSlot (slots : List (Option Dirent)) (k : ℕ) (e : Option Dirent) : List (Option Dirent) :=
  if k < slots.length then slots.set k e else slots ++ [e]

namespace Disk

/-- `cxlfs_write` of an entry, or of zeros in its place; whether all of it was written. -/
def writeDirent (d : Disk) (dir k : ℕ) (e : Option Dirent) (w : WriteResult) : Disk × Bool :=
  match d.node dir with
  | none => (d, false)
  | some n =>
    match w with
    | .whole => (d.setNode dir (some { n with slots := setSlot n.slots k e }), true)
    | .nothing => (d, false)
    | .torn slots => (d.setNode dir (some { n with slots := slots }), false)

/-- `destroy_disk_inode` -/
def destroyDiskInode (d : Disk) (ino : ℕ) : Disk := d.setNode ino none

/-- `cxlfs_create_node`; `none` if the entry is written at an offset that was never set, because
the parent is not a directory. -/
def createNode (d : Disk) (parent : ℕ) (name : Name) (type : FileType) (w : WriteResult) :
    Option (Disk × Except Errno ℕ) :=
  if name.length = 0 ∨ 256 < name.length then some (d, .error .nametoolong)
  else
    match d.node parent with
    | none =>
      -- `cxlfs_write` does not get to the offset
      match d.allocInode with
      | none => some (d, .error .nospc)
      | some _ => some (d, .error .noent)
    | some n =>
      if n.type ≠ .dir then none
      else
        match findDirent name n.slots 0 with
        | some _ => some (d, .error .exist)
        | none =>
          match d.allocInode with
          | none => some (d, .error .nospc)
          | some ino =>
            let d' := { d.setNode ino (some ⟨type, [], [], d.nextId⟩) with nextId := d.nextId + 1 }
            match d'.writeDirent parent (freeSlot n.slots) (some ⟨ino, type, name⟩) w with
            | (d', true) => some (d', .ok ino)
            | (d', false) => some (d'.destroyDiskInode ino, .error .nospc)

/-- `cxlfs_unlink_node` -/
def unlinkNode (d : Disk) (parent : ℕ) (name : Name) (w : WriteResult) : Disk × Except Errno Unit :=
  match d.node parent with
  | none => (d, .error .notdir)
  | some n =>
    if n.type ≠ .dir then (d, .error .notdir)
    else
      match findDirent name n.slots 0 with
      | none => (d, .error .noent)
      | some (k, e) =>
        match d.writeDirent parent k none w with
        | (d, true) => (d.destroyDiskInode e.ino, .ok ())
        | (d, false) => (d, .error .io)

def current : Name := "CURRENT".toList

/-- The last check of `cxlfs_rename_node`, for LevelDB. -/
def checkCurrent (d : Disk) (parent : ℕ) (name : Name) (ino : ℕ) : Except Errno Unit :=
  if name ≠ current then .ok ()
  else
    match (d.node parent).bind fun n => findDirent name n.slots 0 with
    | none => .error .io
    | some (_, e) => if e.ino ≠ ino then .error .io else .ok ()

/-- `cxlfs_rename_node`, from where both directories have been searched.  The result of clearing
the old entry is not looked at. -/
def moveDirent (d : Disk) (oldParent oldSlot : ℕ) (oldEntry : Dirent) (newParent newSlot : ℕ)
    (newEntry : Option Dirent) (newName : Name) (w clear : WriteResult) :
    Disk × Except Errno Unit :=
  match d.writeDirent newParent newSlot (some { oldEntry with name := newName }) w with
  | (d, false) => (d, .error .io)
  | (d, true) =>
    let d := if oldParent = newParent ∧ oldSlot = newSlot then d
      else (d.writeDirent oldParent oldSlot none clear).1
    let d := match newEntry with
      | none => d
      | some e => if e.ino ≠ oldEntry.ino then d.destroyDiskInode e.ino else d
    (d, d.checkCurrent newParent newName oldEntry.ino)

/-- `cxlfs_rename_node`; `none` if the new parent is not a directory: then the entry is written at
an offset that was never set. -/
def renameNode (d : Disk) (oldParent : ℕ) (oldName : Name) (newParent : ℕ) (newName : Name)
    (w clear : WriteResult) : Option (Disk × Except Errno Unit) :=
  match d.node oldParent with
  | none => some (d, .error .notdir)
  | some old =>
    if old.type ≠ .dir then some (d, .error .notdir)
    else
      match findDirent oldName old.slots 0 with
      | none => some (d, .error .noent)
      | some (oldSlot, oldEntry) =>
        match d.node newParent with
        -- `cxlfs_write` does not get to the offset
        | none => some (d, .error .io)
        | some new =>
          if new.type ≠ .dir then none
          else
            match findDirent newName new.slots 0 with
            | some (newSlot, newEntry) => some (d.moveDirent oldParent oldSlot oldEntry newParent
                newSlot (some newEntry) newName w clear)
            | none => some (d.moveDirent oldParent oldSlot oldEntry newParent
                (freeSlot new.slots) none newName w clear)

/-! ### Data -/

/-- The bytes of a file after `bs` were written at `offset`. -/
def writeBytes (data : List UInt8) (offset : ℕ) (bs : List UInt8) : List UInt8 :=
  (data ++ List.replicate (offset - data.length) 0).take offset ++ bs ++
    data.drop (offset + bs.length)

/-- `cxlfs_read` -/
def read (d : Disk) (ino offset size : ℕ) : Except Errno (List UInt8) :=
  match d.node ino with
  | none => .error .noent
  | some n => .ok ((n.data.drop offset).take size)

/-- `cxlfs_write` on a regular file; there are blocks for the first `room` bytes. -/
def write (d : Disk) (ino offset : ℕ) (bs : List UInt8) (room : ℕ) : Disk × Except Errno ℕ :=
  match d.node ino with
  | none => (d, .error .noent)
  | some n =>
    if (bs.take room).length = 0 ∧ bs.length ≠ 0 then (d, .error .nospc)
    else (d.setNode ino (some { n with data := writeBytes n.data offset (bs.take room) }),
      .ok (bs.take room).length)

end Disk

end Starfish.Tmpfs
