import Mathlib.Data.Int.Notation
import Starfish.Tmpfs.Disk

/-!
# Starfish.Tmpfs.Model

The tmpfs server (`user/system-servers/tmpfs/tmpfs_ops.c`, `util.c`): the tree in memory over the
durable tree of `Starfish.Tmpfs.Disk`, and the requests that change both.

* Inodes in memory are at addresses; a directory has its entries, `.` and `..` among them.
* A request is a function of the state and of its `Luck`: whether the p-log takes the entry,
  whether there is memory, and how far the writes to the durable directories come.
* The result is `none` where the server runs into an `assert` or a `BUG_ON`, writes at an offset
  that was never set, or frees a directory entry that is still in its directory.  The last happens
  because `tmpfs_rename` makes an entry without the reference that `add_new_dent` takes for the
  directory (`counted`): a walk through it takes a reference and drops it again.  Where `tmpfs_rename`
  returns an error before it drops the reference, the result is `none` too.

Symbolic links are left out: `fstatat` of one and a walk through one end in an `assert`.
-/

namespace Starfish.Tmpfs

/-! ## The tree in memory -/

/-- `struct dentry` -/
structure Dent where
  name : Name
  inode : ℕ
  counted : Bool
deriving DecidableEq, Repr

/-- `struct inode` -/
structure Inode where
  type : FileType
  diskIno : ℕ
  refcnt : ℤ
  dentries : List Dent
deriving DecidableEq, Repr

/-- An open file.  `id` is a ghost: which file was opened. -/
structure Handle where
  inode : ℕ
  id : ℕ
deriving DecidableEq, Repr

structure State where
  inode : ℕ → Option Inode
  /-- The next address that `malloc` returns. -/
  next : ℕ
  disk : Disk
  handles : List Handle

structure Luck where
  /-- `plog_append_*` fails. -/
  logFull : Bool
  /-- There is no memory for an inode. -/
  noInode : Bool
  /-- There is no memory for a directory entry. -/
  noDentry : Bool
  write : WriteResult
  clear : WriteResult

/-- `tmpfs_root` -/
def root : ℕ := 0

def dot : Name := ['.']

def dotDot : Name := ['.', '.']

def maxFilenameLen : ℕ := 255

namespace State

def setInode (s : State) (i : ℕ) (x : Option Inode) : State :=
  { s with inode := Function.update s.inode i x }

def typeOf (s : State) (i : ℕ) : Option FileType := (s.inode i).map Inode.type

/-- `get_inode` -/
def getInode (s : State) (i : ℕ) : State :=
  match s.inode i with
  | none => s
  | some x => s.setInode i (some { x with refcnt := x.refcnt + 1 })

/-- `put_inode` -/
def putInode (s : State) (i : ℕ) : Option (State × Except Errno Unit) :=
  match s.inode i with
  | none => none
  | some x =>
    if x.refcnt - 1 < 0 then none
    else if x.refcnt - 1 = 0 then
      -- `del_inode`
      if x.type = .dir ∧ x.dentries ≠ [] then
        some (s.setInode i (some { x with refcnt := 0 }), .error .notempty)
      else some (s.setInode i none, .ok ())
    else some (s.setInode i (some { x with refcnt := x.refcnt - 1 }), .ok ())

/-- `tfs_lookup` -/
def tfsLookup (s : State) (dir : ℕ) (name : Name) : Option Dent :=
  (s.inode dir).bind fun x => x.dentries.find? fun d => d.name = name

def setDentries (s : State) (dir : ℕ) (ds : List Dent) : State :=
  match s.inode dir with
  | none => s
  | some x => s.setInode dir (some { x with dentries := ds })

def dentries (s : State) (dir : ℕ) : List Dent :=
  match s.inode dir with
  | none => []
  | some x => x.dentries

def diskIno (s : State) (i : ℕ) : ℕ :=
  match s.inode i with
  | none => 0
  | some x => x.diskIno

end State

/-! ## Walking a path -/

/-- The components of a path, and whether a `/` follows the last. -/
def splitPath (path : Name) : List Name × Bool :=
  ((path.splitOn '/').filter fun c => c ≠ [], path.getLast? = some '/')

/-- `tfs_namex`: the directory of the last component, and the last component.  A path that ends
with `/` is walked to its end, and the last component is empty. -/
def tfsNamex (s : State) : ℕ → List Name → Bool → Option (Except Errno (ℕ × Name))
  | dir, [], _ => some (.ok (dir, []))
  | dir, c :: cs, trailing =>
    if maxFilenameLen < c.length then some (.error .inval)
    else if cs = [] ∧ trailing = false then some (.ok (dir, c))
    else
      match s.tfsLookup dir c with
      | none => some (.error .namexNoent)
      | some d =>
        if d.counted = false then none
        else if cs ≠ [] ∧ s.typeOf d.inode ≠ some .dir then some (.error .notdir)
        else tfsNamex s d.inode cs trailing

/-- What `handle_xxxat` finds: the target, or `-ENOENT` with the place where it would be. -/
inductive Walk where
  | found (parent : ℕ) (leaf : Name) (target : ℕ)
  | absent (parent : ℕ) (leaf : Name)
  | failed (e : Errno)
deriving DecidableEq, Repr

def handleXxxat (s : State) (path : Name) : Option Walk :=
  if path = [] then none
  else if (splitPath path).1 = [] then some (.found root [] root)
  else
    match tfsNamex s root (splitPath path).1 (splitPath path).2 with
    | none => none
    | some (.error e) => some (.failed e)
    | some (.ok (parent, [])) =>
      if s.typeOf parent = some .dir then some (.found parent [] parent)
      else some (.absent parent [])
    | some (.ok (parent, leaf)) =>
      match s.tfsLookup parent leaf with
      | none => some (.absent parent leaf)
      | some d => some (.found parent leaf d.inode)

/-! ## Requests -/

/-- The new inode of `new_reg` and of `new_dir`, at `s.next`. -/
def State.newInode (s : State) (parent : ℕ) (type : FileType) : State :=
  let i := s.next
  match type with
  | .reg => { s.setInode i (some ⟨.reg, 0, 1, []⟩) with next := i + 1 }
  | .dir =>
    { (s.getInode parent).setInode i
        (some ⟨.dir, 0, 2, [⟨dotDot, parent, true⟩, ⟨dot, i, true⟩]⟩) with next := i + 1 }

/-- The end of `tfs_mknod`: the inode gets its number and its entry, whose reference takes the
place of the one from `new_reg` or `new_dir`. -/
def State.linkInode (s : State) (dir : ℕ) (name : Name) (i ino : ℕ) : State :=
  let s := match s.inode i with
    | none => s
    | some x => s.setInode i (some { x with diskIno := ino })
  s.setDentries dir (⟨name, i, true⟩ :: s.dentries dir)

/-- `tfs_mknod`, with the new inode as its result. -/
def tfsMknod (s : State) (dir : ℕ) (name : Name) (type : FileType) (luck : Luck) :
    Option (State × Except Errno ℕ) :=
  if name = [] then some (s, .error .noent)
  else if luck.noInode then some (s, .error .nomem)
  else
    let i := s.next
    let s := s.newInode dir type
    match s.disk.createNode (s.diskIno dir) name type luck.write with
    | none => none
    | some (disk, .error e) => some ({ s with disk := disk }, .error e)
    | some (disk, .ok ino) =>
      -- `assert(!err)` behind `add_new_dent`
      if luck.noDentry then none
      else some (({ s with disk := disk } : State).linkInode dir name i ino, .ok i)

/-- `tfs_creat` and `tfs_mkdir`: the name must not be empty. -/
def tfsMake (s : State) (dir : ℕ) (name : Name) (type : FileType) (luck : Luck) :
    Option (State × Except Errno ℕ) :=
  if luck.logFull then some (s, .error .nospc)
  else if name = [] then none
  else tfsMknod s dir name type luck

/-- `__fs_creat` -/
def fsCreat (s : State) (path : Name) (luck : Luck) : Option (State × Except Errno ℕ) :=
  if path.head? ≠ some '/' then none
  else if (splitPath path).1 = [] then some (s, .error .isdir)
  else
    match tfsNamex s root (splitPath path).1 (splitPath path).2 with
    | none => none
    | some (.error e) => some (s, .error e)
    | some (.ok (dir, leaf)) => tfsMake s dir leaf .reg luck

/-- `tmpfs_mkdir` -/
def tmpfsMkdir (s : State) (path : Name) (luck : Luck) : Option (State × Except Errno ℕ) :=
  match handleXxxat s path with
  | none => none
  | some (.found _ _ _) => some (s, .error .exist)
  | some (.failed .namexNoent) => some (s, .error .noent)
  | some (.failed e) => some (s, .error e)
  | some (.absent dir leaf) => tfsMake s dir leaf .dir luck

/-- The end of `tmpfs_open`. -/
def State.openInode (s : State) (i : ℕ) : State :=
  let id := ((s.disk.node (s.diskIno i)).map DiskNode.id).getD 0
  { s.getInode i with handles := ⟨i, id⟩ :: s.handles }

/-- `tmpfs_open`; `creat` is `O_CREAT`. -/
def tmpfsOpen (s : State) (path : Name) (creat : Bool) (luck : Luck) :
    Option (State × Except Errno ℕ) :=
  match handleXxxat s path with
  | none => none
  | some (.failed .namexNoent) => some (s, .error .noent)
  | some (.failed e) => some (s, .error e)
  | some (.found _ _ i) => some (s.openInode i, .ok i)
  | some (.absent dir leaf) =>
    -- the callback is not called for a path that ends with `/`
    if creat = false ∨ leaf = [] then some (s, .error .noent)
    else
      match tfsMake s dir leaf .reg luck with
      | none => none
      | some (s, .error e) => some (s, .error e)
      | some (s, .ok i) => some (s.openInode i, .ok i)

/-- `tmpfs_close` -/
def tmpfsClose (s : State) (h : Handle) : Option (State × Except Errno Unit) :=
  ({ s with handles := s.handles.erase h } : State).putInode h.inode

/-- `tfs_remove` -/
def tfsRemove (s : State) (dir : ℕ) (name : Name) : Option (State × Except Errno Unit) :=
  if name = [] then some (s, .error .noent)
  else
    match s.tfsLookup dir name with
    | none => some (s, .error .noent)
    | some d =>
      if s.typeOf d.inode = some .dir ∧
          ∃ e ∈ s.dentries d.inode, e.name ≠ dot ∧ e.name ≠ dotDot then
        some (s, .error .notempty)
      else
        match s.putInode d.inode with
        | none => none
        | some (s, .error e) => some (s, .error e)
        | some (s, .ok _) => some (s.setDentries dir ((s.dentries dir).erase d), .ok ())

/-- `__tmpfs_unlink`; `rmdir` is `FS_REQ_RMDIR`. -/
def tmpfsUnlink (s : State) (path : Name) (rmdir : Bool) (luck : Luck) :
    Option (State × Except Errno Unit) :=
  match handleXxxat s path with
  | none => none
  | some (.failed e) => some (s, .error e)
  | some (.absent _ _) => some (s, .error .noent)
  | some (.found parent leaf target) =>
    if rmdir = false ∧ s.typeOf target = some .dir then some (s, .error .isdir)
    else if rmdir = true ∧ s.typeOf target ≠ some .dir then some (s, .error .notdir)
    else if luck.logFull then some (s, .error .nospc)
    else
      match s.disk.unlinkNode (s.diskIno parent) leaf luck.clear with
      | (disk, .error e) => some ({ s with disk := disk }, .error e)
      | (disk, .ok _) => tfsRemove { s with disk := disk } parent leaf

/-! ### Rename -/

/-- `strncmp(old, new, strlen(old)) == 0 && new[strlen(old)] == '/'` -/
def isBelow (oldpath newpath : Name) : Bool :=
  newpath.take oldpath.length = oldpath ∧ newpath[oldpath.length]? = some '/'

/-- The end of `tmpfs_rename`: the old entry goes, and with it its reference. -/
def dropOld (s : State) (parent : ℕ) (d : Dent) : Option (State × Except Errno Unit) :=
  match s.putInode d.inode with
  | none => none
  | some (s, .error e) => some (s, .error e)
  | some (s, .ok _) => some (s.setDentries parent ((s.dentries parent).erase d), .ok ())

/-- `tmpfs_rename` where the new path exists: its entry gets the inode of the old one. -/
def replaceDent (s : State) (oldParent : ℕ) (old : Dent) (newParent : ℕ) (new : Dent) :
    Option (State × Except Errno Unit) :=
  let s := s.getInode old.inode
  let s := s.setDentries newParent
    ((s.dentries newParent).map fun d => if d = new then { new with inode := old.inode } else d)
  match s.putInode new.inode with
  | none => none
  | some (s, .error e) => some (s, .error e)
  | some (s, .ok _) => dropOld s oldParent old

/-- `tmpfs_rename` where the new path does not exist: a new entry, without the reference that
`add_new_dent` would take. -/
def moveDent (s : State) (oldParent : ℕ) (old : Dent) (newParent : ℕ) (newLeaf : Name)
    (luck : Luck) : Option (State × Except Errno Unit) :=
  if luck.noDentry then some (s, .error .nomem)
  else
    let s := s.getInode old.inode
    let s := s.setDentries newParent (⟨newLeaf, old.inode, false⟩ :: s.dentries newParent)
    dropOld s oldParent old

/-- The two durable steps that every rename begins with. -/
def renameDisk (s : State) (oldParent : ℕ) (oldLeaf : Name) (newParent : ℕ) (newLeaf : Name)
    (luck : Luck) : Option (State × Except Errno Unit) :=
  if luck.logFull then some (s, .error .nospc)
  else
    match s.disk.renameNode (s.diskIno oldParent) oldLeaf (s.diskIno newParent) newLeaf
        luck.write luck.clear with
    | none => none
    | some (disk, res) => some ({ s with disk := disk }, res)

/-- `tmpfs_rename`.  The entry of a path that ends with `/` is not looked up: the durable tree has
no entry with an empty name, so its rename fails. -/
def tmpfsRename (s : State) (oldpath newpath : Name) (luck : Luck) :
    Option (State × Except Errno Unit) :=
  match handleXxxat s oldpath with
  | none => none
  | some (.failed .namexNoent) => some (s, .error .noent)
  | some (.failed e) => some (s, .error e)
  | some (.absent _ _) => some (s, .error .noent)
  | some (.found oldParent oldLeaf oldInode) =>
    if oldLeaf = dot ∨ oldLeaf = dotDot then some (s, .error .inval)
    else
      match handleXxxat s newpath with
      | none => none
      | some (.failed .namexNoent) => some (s, .error .noent)
      | some (.failed e) => some (s, .error e)
      | some (.found newParent newLeaf newInode) =>
        if isBelow oldpath newpath then some (s, .error .inval)
        else if oldInode = newInode then some (s, .ok ())
        else if s.typeOf oldInode = some .dir ∧ s.typeOf newInode ≠ some .dir then
          some (s, .error .notdir)
        else if s.typeOf oldInode ≠ some .dir ∧ s.typeOf newInode = some .dir then
          some (s, .error .isdir)
        else if s.typeOf newInode = some .dir ∧ s.dentries newInode ≠ [] then
          some (s, .error .notempty)
        else
          match renameDisk s oldParent oldLeaf newParent newLeaf luck with
          | none => none
          | some (s, .error e) => some (s, .error e)
          | some (s, .ok _) =>
            match s.tfsLookup oldParent oldLeaf, s.tfsLookup newParent newLeaf with
            | some old, some new => replaceDent s oldParent old newParent new
            | _, _ => none
      | some (.absent newParent newLeaf) =>
        if isBelow oldpath newpath then some (s, .error .inval)
        else
          match renameDisk s oldParent oldLeaf newParent newLeaf luck with
          | none => none
          | some (s, .error e) => some (s, .error e)
          | some (s, .ok _) =>
            match s.tfsLookup oldParent oldLeaf with
            | some old => moveDent s oldParent old newParent newLeaf luck
            | none => none

/-! ### Data -/

/-- `tmpfs_read`; a directory is a `BUG_ON`. -/
def tmpfsRead (s : State) (i offset size : ℕ) : Option (Except Errno (List UInt8)) :=
  if s.typeOf i ≠ some .reg then none
  else some (s.disk.read (s.diskIno i) offset size)

/-- `tmpfs_write`; there are blocks for the first `room` bytes. -/
def tmpfsWrite (s : State) (i offset : ℕ) (bs : List UInt8) (room : ℕ) (luck : Luck) :
    Option (State × Except Errno ℕ) :=
  if luck.logFull then some (s, .error .nospc)
  else if s.typeOf i ≠ some .reg then none
  else
    let (disk, res) := s.disk.write (s.diskIno i) offset bs room
    some ({ s with disk := disk }, res)

/-! ## The first state -/

/-- A new image, mounted: the root is empty. -/
def start : State where
  inode := Function.update (fun _ => none) root
    (some ⟨.dir, cxlfsRootIno, 4, [⟨dotDot, root, true⟩, ⟨dot, root, true⟩]⟩)
  next := root + 1
  disk := ⟨Function.update (fun _ => none) cxlfsRootIno (some ⟨.dir, [], [], 0⟩), 1⟩
  handles := []

end Starfish.Tmpfs
