import Mathlib.Tactic.Ring
import Mathlib.Logic.Function.Basic

/-!
# Starfish.FsWrapper.Model

The part of a file server that all file systems share
(`user/system-servers/fs_base/{fs_wrapper,fs_wrapper_ops,fs_vnode}.c`): the open files, the vnodes
they stand for, and for each client the table from its file descriptors to open files.

* A client is known by its badge, and it chooses the numbers of its descriptors itself.
* `Env` is what the wrapper calls during one request: the file system behind `server_ops`, and
  `malloc`.  `files` is what that file system holds.
* The page cache is off, so a read or a write goes to the file system.
* A request has no result when the server stops: at a `BUG_ON`, or at a null entry.

Paths, directories' contents, `fstat`, `fmap` and the page cache are left out.
-/

namespace Starfish.FsWrapper

open Function

abbrev Badge : Type := ℕ

/-! ## Machine integers -/

/-- A value stored in an `off_t`. -/
def offT (z : ℤ) : ℤ := z.bmod (2 ^ 64)

/-- An `off_t` compared with, or added to, a `size_t`. -/
def sizeT (z : ℤ) : ℕ := (z % 2 ^ 64).toNat

/-- A value stored in an `int`. -/
def int (z : ℤ) : ℤ := z.bmod (2 ^ 32)

def ENOENT : ℤ := 2
def EBADF : ℤ := 9
def EACCES : ℤ := 13
def EEXIST : ℤ := 17
def ENOTDIR : ℤ := 20
def EINVAL : ℤ := 22
def EMFILE : ℤ := 24

def AT_FDROOT : ℤ := -101

/-- `MAX_SERVER_ENTRY_NUM` and `MAX_SERVER_ENTRY_PER_CLIENT`. -/
def maxServerEntry : ℕ := 1024

/-! ## The server -/

/-- `FS_NODE_REG` and `FS_NODE_DIR`. -/
inductive NodeType where
  | reg | dir
deriving DecidableEq, Repr

/-- The bits of the flags of `open` that the wrapper looks at. -/
structure Flags where
  wronly : Bool := false
  rdwr : Bool := false
  creat : Bool := false
  excl : Bool := false
  directory : Bool := false
  noctty : Bool := false
  trunc : Bool := false
  append : Bool := false
deriving DecidableEq, Repr

def Flags.writable (f : Flags) : Bool := f.rdwr || f.wronly

/-- The flags as the number that `F_GETFL` returns. -/
def Flags.bits (f : Flags) : ℤ :=
  f.wronly.toNat + 2 * f.rdwr.toNat + 0o100 * f.creat.toNat + 0o200 * f.excl.toNat +
    0o400 * f.noctty.toNat + 0o1000 * f.trunc.toNat + 0o2000 * f.append.toNat +
    0o200000 * f.directory.toNat

/-- `struct fs_vnode`; its `private` is the file of the same number. -/
structure Vnode where
  type : NodeType
  size : ℕ
  refcnt : ℤ
deriving DecidableEq, Repr

/-- `struct server_entry`; `vnode` is the number of the vnode. -/
structure Entry where
  flags : Flags
  offset : ℤ
  refcnt : ℤ
  vnode : ℕ
deriving DecidableEq, Repr

/-- One `struct server_entry_node`: a client and its `fd_to_fid`. -/
abbrev Node : Type := Badge × (ℤ → ℤ)

structure Server where
  entrys : ℤ → Option Entry
  vnodes : ℕ → Option Vnode
  mapping : List Node
  files : ℕ → List UInt8

/-- What `server_ops.open` finds. -/
structure Found where
  id : ℕ
  type : NodeType
  content : List UInt8

/-- The file system and `malloc` during one request.  `write` and `ftruncate` also say what the
file holds afterwards; `junk` is what the memory of a new node held before. -/
structure Env where
  openFile : Except ℤ Found
  read : ℕ → ℤ → ℕ → ℤ × List UInt8
  write : ℕ → ℤ → List UInt8 → ℤ × List UInt8
  ftruncate : ℕ → ℤ → ℤ × List UInt8
  close : ℕ → ℤ
  fcntl : ℤ
  mallocEntry : Bool
  mallocNode : Bool
  junk : ℤ → ℤ

structure Reply where
  server : Server
  ret : ℤ
  data : List UInt8 := []

namespace Server

variable (s : Server)

def setEntry (fid : ℤ) (e : Option Entry) : Server :=
  { s with entrys := update s.entrys fid e }

def setVnode (id : ℕ) (v : Option Vnode) : Server :=
  { s with vnodes := update s.vnodes id v }

def setFile (id : ℕ) (content : List UInt8) : Server :=
  { s with files := update s.files id content }

/-- The entry at `fid` with its vnode, if `fid` is in the array and the entry is there. -/
def entryAt (fid : ℤ) : Option (Entry × Vnode) :=
  if fid < 0 ∨ (maxServerEntry : ℤ) ≤ fid then none
  else (s.entrys fid).bind fun e => (s.vnodes e.vnode).map fun v => (e, v)

/-- The entry of a regular file: what passes `fd_type_invalid(fd, true)`. -/
def fileAt (fid : ℤ) : Option (Entry × Vnode) :=
  (s.entryAt fid).filter fun p => p.2.type = .reg

end Server

/-! ## The tables of the clients -/

/-- The table of a client: that of the first node with its badge. -/
def fdToFid : List Node → Badge → Option (ℤ → ℤ)
  | [], _ => none
  | (b, t) :: rest, badge => if b = badge then some t else fdToFid rest badge

/-- What a client's table says for `fd`. -/
def fidOf (mapping : List Node) (badge : Badge) (fd : ℤ) : ℤ :=
  match fdToFid mapping badge with
  | some t => t fd
  | none => -1

/-- `for_each_in_list` of `fs_wrapper_set_server_entry`; the new node is appended, if there is
memory for it. -/
def mapFd : List Node → Badge → ℤ → ℤ → Bool → List Node
  | [], badge, fd, fid, malloc =>
    if malloc then [(badge, update (fun _ => -1) fd fid)] else []
  | (b, t) :: rest, badge, fd, fid, malloc =>
    if b = badge then (b, update t fd fid) :: rest
    else (b, t) :: mapFd rest badge fd fid malloc

def fsWrapperGetServerEntry (s : Server) (badge : Badge) (fd : ℤ) : Option ℤ :=
  if fd = AT_FDROOT then some AT_FDROOT
  else if fd < 0 ∨ (maxServerEntry : ℤ) ≤ fd then none
  else some (fidOf s.mapping badge fd)

def fsWrapperSetServerEntry (s : Server) (badge : Badge) (fd fid : ℤ) (malloc : Bool) :
    Option Server :=
  if fd < 0 ∨ (maxServerEntry : ℤ) ≤ fd then none
  else some { s with mapping := mapFd s.mapping badge fd fid malloc }

/-! ## Entries and vnodes -/

/-- `alloc_entry`: the first slot that is free. -/
def allocEntry (s : Server) (malloc : Bool) : Option ℕ :=
  if malloc then (List.range maxServerEntry).find? fun i => (s.entrys i).isNone else none

/-- `get_fs_vnode_by_id`, then `inc_ref_fs_vnode` or `alloc_fs_vnode`. -/
def holdVnode (s : Server) (f : Found) : Server :=
  match s.vnodes f.id with
  | some v => s.setVnode f.id (some { v with refcnt := v.refcnt + 1 })
  | none => s.setVnode f.id (some ⟨f.type, f.content.length, 1⟩)

/-- `dec_ref_fs_vnode`.  A vnode that the file system could not close is kept. -/
def decRefFsVnode (s : Server) (id : ℕ) (v : Vnode) (env : Env) : Server :=
  if v.refcnt - 1 = 0 ∧ env.close id = 0 then s.setVnode id none
  else s.setVnode id (some { v with refcnt := v.refcnt - 1 })

/-! ## Requests -/

/-- `assign_entry` of a new entry. -/
def newEntry (flags : Flags) (f : Found) : Entry :=
  ⟨flags, if flags.append ∧ f.type = .reg then offT f.content.length else 0, 1, f.id⟩

/-- `fs_wrapper_open` from `alloc_entry` on. -/
def openEntry (s : Server) (badge : Badge) (newFd : ℤ) (flags : Flags) (f : Found) (env : Env) :
    Option Reply :=
  match allocEntry s env.mallocEntry with
  | none => some ⟨s, -EMFILE, []⟩
  | some fid =>
    let s := holdVnode (s.setEntry fid (some (newEntry flags f))) f
    (fsWrapperSetServerEntry s badge newFd fid env.mallocNode).map fun s => ⟨s, newFd, []⟩

/-- The truncation in `fs_wrapper_open`; its result is not looked at. -/
def openTrunc (s : Server) (flags : Flags) (f : Found) (env : Env) : Server :=
  if flags.trunc ∧ f.type = .reg then s.setFile f.id (env.ftruncate f.id 0).2 else s

/-- The checks of `fs_wrapper_open`: it may refuse with an error, or stop the server. -/
def openCheck (flags : Flags) (f : Found) : Except (Option ℤ) Unit :=
  if flags.creat ∧ flags.excl then .error (some (-EEXIST))
  else if flags.directory ∧ f.type ≠ .dir then .error (some (-ENOTDIR))
  else if flags.writable ∧ f.type = .dir then .error (some (-ENOTDIR))
  else if flags.noctty then .error none
  else if ¬ flags.writable ∧ (flags.trunc ∨ flags.append) then .error (some (-EACCES))
  else .ok ()

def fsWrapperOpen (s : Server) (badge : Badge) (newFd : ℤ) (flags : Flags) (env : Env) :
    Option Reply :=
  match env.openFile with
  | .error e => some ⟨s, e, []⟩
  | .ok f =>
    let s := s.setFile f.id f.content
    match openCheck flags f with
    | .error none => none
    | .error (some e) => some ⟨s, e, []⟩
    | .ok _ => openEntry (openTrunc s flags f env) badge newFd flags f env

def fsWrapperClose (s : Server) (fid : ℤ) (env : Env) : Reply :=
  match s.entryAt fid with
  | none => ⟨s, -ENOENT, []⟩
  | some (e, v) =>
    if e.refcnt - 1 = 0 then ⟨decRefFsVnode (s.setEntry fid none) e.vnode v env, 0, []⟩
    else ⟨s.setEntry fid (some { e with refcnt := e.refcnt - 1 }), 0, []⟩

/-- The size that `fs_wrapper_read` asks for: not more than is left of the file. -/
def readSize (v : Vnode) (offset : ℤ) (count : ℕ) : ℕ :=
  if v.size < (sizeT offset + count) % 2 ^ 64 then v.size - sizeT offset else count

def fsWrapperRead (s : Server) (fid : ℤ) (count : ℕ) (env : Env) : Reply :=
  match s.fileAt fid with
  | none => ⟨s, -EBADF, []⟩
  | some (e, v) =>
    if v.size ≤ sizeT e.offset then ⟨s, 0, []⟩
    else
      let (n, data) := env.read e.vnode e.offset (readSize v e.offset count)
      ⟨s.setEntry fid (some { e with offset := offT (e.offset + int n) }), int n, data⟩

def fsWrapperPread (s : Server) (fid : ℤ) (count : ℕ) (offset : ℤ) (env : Env) : Reply :=
  match s.fileAt fid with
  | none => ⟨s, -EBADF, []⟩
  | some (e, v) =>
    if v.size ≤ sizeT offset then ⟨s, 0, []⟩
    else
      let (n, data) := env.read e.vnode offset (readSize v offset count)
      ⟨s.setEntry fid (some { e with offset := offT (offset + int n) }), int n, data⟩

/-- What `fs_wrapper_write` and `fs_wrapper_pwrite` share: the bytes go to `offset`, and both move
the entry's own offset. -/
def writeAt (s : Server) (fid : ℤ) (buf : List UInt8) (offset : Entry → ℤ) (env : Env) : Reply :=
  match s.fileAt fid with
  | none => ⟨s, -EBADF, []⟩
  | some (e, v) =>
    if buf.length = 0 then ⟨s, 0, []⟩
    else
      let (n, content) := env.write e.vnode (offset e) buf
      let off := offT (e.offset + int n)
      let s := (s.setFile e.vnode content).setEntry fid (some { e with offset := off })
      if v.size < sizeT off then ⟨s.setVnode e.vnode (some { v with size := sizeT off }), int n, []⟩
      else ⟨s, int n, []⟩

def fsWrapperWrite (s : Server) (fid : ℤ) (buf : List UInt8) (env : Env) : Reply :=
  writeAt s fid buf Entry.offset env

def fsWrapperPwrite (s : Server) (fid : ℤ) (buf : List UInt8) (offset : ℤ) (env : Env) : Reply :=
  writeAt s fid buf (fun _ => offset) env

inductive Whence where
  | set | cur | fromEnd | other
deriving DecidableEq, Repr

def seekTarget (e : Entry) (v : Vnode) (offset : ℤ) : Whence → ℤ
  | .set => offset
  | .cur => offT (e.offset + offset)
  | .fromEnd => offT (v.size + offset)
  | .other => -1

def fsWrapperLseek (s : Server) (fid : ℤ) (offset : ℤ) (whence : Whence) : Reply :=
  match s.fileAt fid with
  | none => ⟨s, -EBADF, []⟩
  | some (e, v) =>
    let target := seekTarget e v offset whence
    if target < 0 then ⟨s, -EINVAL, []⟩
    else ⟨s.setEntry fid (some { e with offset := target }), int target, []⟩

def fsWrapperFtruncate (s : Server) (fid : ℤ) (len : ℤ) (env : Env) : Reply :=
  match s.fileAt fid with
  | none => ⟨s, -EBADF, []⟩
  | some (e, v) =>
    if ¬ e.flags.writable then ⟨s, -EINVAL, []⟩
    else if len < 0 then ⟨s, -EINVAL, []⟩
    else
      let (r, content) := env.ftruncate e.vnode len
      let s := s.setFile e.vnode content
      if r = 0 then ⟨s.setVnode e.vnode (some { v with size := sizeT len }), r, []⟩
      else ⟨s, r, []⟩

/-- The commands of `fs_wrapper_fcntl`.  Of the flags, `setfl` changes only `O_APPEND` here. -/
inductive Cmd where
  | getfl
  | setfl (flags : Flags)
  | dupfd (arg : ℤ)
  | other

def fsWrapperFcntl (s : Server) (badge : Badge) (fid : ℤ) (cmd : Cmd) (env : Env) :
    Option Reply :=
  match s.entryAt fid with
  | none => some ⟨s, -EBADF, []⟩
  | some (e, _) =>
    match cmd with
    | .getfl => some ⟨s, e.flags.bits, []⟩
    | .setfl flags =>
      let flags := { e.flags with append := flags.append }
      some ⟨s.setEntry fid (some { e with flags := flags }), 0, []⟩
    | .dupfd arg =>
      let s' := s.setEntry fid (some { e with refcnt := e.refcnt + 1 })
      (fsWrapperSetServerEntry s' badge arg fid env.mallocNode).map fun s => ⟨s, env.fcntl, []⟩
    | .other => some ⟨s, -1, []⟩

/-- The loop of `fs_finish_fork`: every entry the parent's table names gets a reference. -/
def inherit (table : ℤ → ℤ) : List ℕ → (ℤ → Option Entry) → Option (ℤ → Option Entry)
  | [], es => some es
  | i :: is, es =>
    if table i = -1 then inherit table is es
    else
      match es (table i) with
      | none => none
      | some e =>
        inherit table is (update es (table i) (some { e with refcnt := e.refcnt + 1 }))

/-- The child's table: where the parent's has `-1`, nothing is stored in the new node. -/
def childTable (table junk : ℤ → ℤ) (i : ℤ) : ℤ := if table i = -1 then junk i else table i

def fsFinishFork (s : Server) (child parent : Badge) (env : Env) : Option Reply :=
  match fdToFid s.mapping parent with
  | none => some ⟨s, 0, []⟩
  | some table =>
    (inherit table (List.range maxServerEntry) s.entrys).map fun es =>
      ⟨{ s with entrys := es, mapping := s.mapping ++ [(child, childTable table env.junk)] }, 0, []⟩

inductive Request where
  | openFile (newFd : ℤ) (flags : Flags)
  | close (fd : ℤ)
  | read (fd : ℤ) (count : ℕ)
  | pread (fd : ℤ) (count : ℕ) (offset : ℤ)
  | write (fd : ℤ) (buf : List UInt8)
  | pwrite (fd : ℤ) (buf : List UInt8) (offset : ℤ)
  | lseek (fd offset : ℤ) (whence : Whence)
  | ftruncate (fd len : ℤ)
  | fcntl (fd : ℤ) (cmd : Cmd)
  | fork (child : Badge)

/-- The descriptor that `translate_fd_to_fid` translates. -/
def Request.fd : Request → Option ℤ
  | .openFile _ _ | .fork _ => none
  | .close fd | .read fd _ | .pread fd _ _ | .write fd _ | .pwrite fd _ _ | .lseek fd _ _
  | .ftruncate fd _ | .fcntl fd _ => some fd

/-- The handler of a request whose descriptor is translated.  Offsets and lengths are an `off_t`. -/
def handle (s : Server) (badge : Badge) (fid : ℤ) (env : Env) : Request → Option Reply
  | .openFile _ _ | .fork _ => none
  | .close _ => some (fsWrapperClose s fid env)
  | .read _ count => some (fsWrapperRead s fid count env)
  | .pread _ count offset => some (fsWrapperPread s fid count (offT offset) env)
  | .write _ buf => some (fsWrapperWrite s fid buf env)
  | .pwrite _ buf offset => some (fsWrapperPwrite s fid buf (offT offset) env)
  | .lseek _ offset whence => some (fsWrapperLseek s fid (offT offset) whence)
  | .ftruncate _ len => some (fsWrapperFtruncate s fid (offT len) env)
  | .fcntl _ cmd => fsWrapperFcntl s badge fid cmd env

/-- `fs_server_dispatch`, and `fs_finish_fork` for a client that forks. -/
def fsServerDispatch (s : Server) (badge : Badge) (req : Request) (env : Env) : Option Reply :=
  match req with
  | .openFile newFd flags => fsWrapperOpen s badge newFd flags env
  | .fork child => fsFinishFork s child badge env
  | req => req.fd.bind fun fd =>
    (fsWrapperGetServerEntry s badge fd).bind fun fid => handle s badge fid env req

/-- A server that was just started. -/
def Server.start (files : ℕ → List UInt8) : Server := ⟨fun _ => none, fun _ => none, [], files⟩

end Starfish.FsWrapper
