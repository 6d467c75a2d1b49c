import Starfish.Memory

/-!
# Starfish.Plog.Model

The persistent operation log of tmpfs (`user/system-servers/tmpfs/plog.c`): a header and a region
of entries in shared memory.

* An append writes its entry behind the tail and then moves the tail.  It is given as the list of
  its stores in program order, so that the server can stop between any two of them.  `strncpy` and
  `memcpy` store one byte after the other.
* A log that is full is checkpointed and truncated before the append.
* `plogReplay` walks from the checkpoint to the tail.  What it decodes is its result; what the
  operations then do to the file system is not part of this module.

Lengths are `uint32_t`, offsets and sizes `uint64_t`.  A path is its bytes up to the `'\0'`.
-/

namespace Starfish.Plog

/-- `sizeof(struct plog_header)` -/
def headerSize : ℕ := 64

def plogShmSize : ℕ := 4096 * 1024

def plogMagic : ℕ := 0x504C4F47

def plogMaxPath : ℕ := 256

/-- `struct plog_header`, as far as the log uses it. -/
structure Header where
  magic : ℕ
  tail : ℕ
  seqCounter : ℕ
  fsMachine : ℕ
  checkpointTail : ℕ
  checkpointGeneration : ℕ
  checkpointRootIno : ℕ

structure Region where
  hdr : Header
  mem : Memory

/-- An operation, as it is appended. -/
inductive Op where
  | creat (path : List UInt8) (mode : UInt32)
  | mkdir (path : List UInt8) (mode : UInt32)
  | write (path : List UInt8) (offset : UInt64) (data : List UInt8)
  | unlink (path : List UInt8)
  | rmdir (path : List UInt8)
  | rename (path newPath : List UInt8)
  | truncate (path : List UInt8) (size : UInt64)
deriving DecidableEq, Repr

/-! ## The layout of an entry -/

/-- The places of the fields of `struct plog_entry`. -/
def lenOff : ℕ := 4
def seqOff : ℕ := 8
def pathOff : ℕ := 16
def argOff : ℕ := 272

/-- `PLOG_ENTRY_BASE_SIZE`, `PLOG_ENTRY_WRITE_HDR`, `PLOG_ENTRY_RENAME_SIZE` and
`PLOG_ENTRY_TRUNCATE_SIZE`. -/
def baseSize : ℕ := argOff + 4
def writeHdr : ℕ := argOff + 12
def renameSize : ℕ := argOff + plogMaxPath
def truncateSize : ℕ := argOff + 8

namespace Op

/-- `enum plog_op_type` -/
def code : Op → ℕ
  | creat .. => 1
  | write .. => 2
  | mkdir .. => 3
  | unlink .. => 4
  | rmdir .. => 5
  | rename .. => 6
  | truncate .. => 7

def path : Op → List UInt8
  | creat p _ | mkdir p _ | write p _ _ | unlink p | rmdir p | rename p _ | truncate p _ => p

/-- The `entry_len`: a `uint32_t`. -/
def entryLen : Op → ℕ
  | creat .. | mkdir .. | unlink .. | rmdir .. => baseSize
  | write _ _ data => (writeHdr + data.length) % 2 ^ 32
  | rename .. => renameSize
  | truncate .. => truncateSize

end Op

/-! ## Stores -/

/-- The stores of the server.  Two of them are named for what they mean: the store to `tail` that
commits an entry, and the store to `checkpoint_tail` that completes a checkpoint. -/
inductive Action where
  | bytes (a : ℕ) (bs : List UInt8)
  | seqCounter (n : ℕ)
  | fsMachine (n : ℕ)
  | checkpointGeneration (n : ℕ)
  | checkpointRootIno (n : ℕ)
  | tail (n : ℕ)
  | checkpointTail (n : ℕ)
  | commit (tail : ℕ) (o : Op)
  | checkpoint (tail : ℕ)
deriving DecidableEq, Repr

def Action.exec (r : Region) : Action → Region
  | bytes a bs => { r with mem := r.mem.store a bs }
  | seqCounter n => { r with hdr := { r.hdr with seqCounter := n } }
  | fsMachine n => { r with hdr := { r.hdr with fsMachine := n } }
  | checkpointGeneration n => { r with hdr := { r.hdr with checkpointGeneration := n } }
  | checkpointRootIno n => { r with hdr := { r.hdr with checkpointRootIno := n } }
  | tail n | commit n _ => { r with hdr := { r.hdr with tail := n } }
  | checkpointTail n | checkpoint n => { r with hdr := { r.hdr with checkpointTail := n } }

def execAll (r : Region) (l : List Action) : Region := l.foldl Action.exec r

/-- The entries that are committed since the last checkpoint. -/
def Action.committed (log : List Op) : Action → List Op
  | commit _ o => log ++ [o]
  | checkpoint _ => []
  | _ => log

def committedAll (log : List Op) (l : List Action) : List Op := l.foldl Action.committed log

/-- A copy, byte after byte. -/
def copyActions (a : ℕ) : List UInt8 → List Action
  | [] => []
  | b :: bs => .bytes a [b] :: copyActions (a + 1) bs

/-- What `strncpy(dst, p, n)` writes. -/
def strncpyBytes (p : List UInt8) (n : ℕ) : List UInt8 :=
  p.take n ++ List.replicate (n - p.length) 0

/-- `strncpy(dst, p, PLOG_MAX_PATH - 1); dst[PLOG_MAX_PATH - 1] = '\0';` -/
def pathActions (a : ℕ) (p : List UInt8) : List Action :=
  copyActions a (strncpyBytes p (plogMaxPath - 1)) ++ [.bytes (a + (plogMaxPath - 1)) [0]]

/-! ## Append -/

/-- What each of the `plog_append_*` stores behind the path. -/
def argActions (a : ℕ) : Op → List Action
  | .creat _ mode | .mkdir _ mode => [.bytes (a + argOff) (leBytes 4 mode.toNat)]
  | .unlink _ | .rmdir _ => [.bytes (a + argOff) (leBytes 4 0)]
  | .write _ offset data =>
    [.bytes (a + argOff) (leBytes 8 offset.toNat),
      .bytes (a + argOff + 8) (leBytes 4 data.length)] ++ copyActions (a + writeHdr) data
  | .rename _ newPath => pathActions (a + argOff) newPath
  | .truncate _ size => [.bytes (a + argOff) (leBytes 8 size.toNat)]

/-- The length and the sequence number, which `plog_append_raw` writes, and the operation. -/
def headActions (a seq : ℕ) (o : Op) : List Action :=
  [.bytes (a + lenOff) (leBytes 4 o.entryLen), .seqCounter ((seq + 1) % 2 ^ 64),
    .bytes (a + seqOff) (leBytes 8 seq), .bytes a (leBytes 4 o.code)]

/-- The entry at `a`, before it is committed. -/
def bodyActions (a seq : ℕ) (o : Op) : List Action :=
  headActions a seq o ++ pathActions (a + pathOff) o.path ++ argActions a o

/-- The entry at `a`; `plog_commit` moves the tail behind it. -/
def entryActions (a seq : ℕ) (o : Op) : List Action :=
  bodyActions a seq o ++ [.commit (a + o.entryLen) o]

/-- What `cxlfs_sync` makes known: the machine, the generation and the root. -/
structure Synced where
  machine : ℕ
  generation : ℕ
  rootIno : ℕ

/-- `plog_checkpoint`, after `cxlfs_sync`. -/
def checkpointActions (g : Synced) (tail : ℕ) : List Action :=
  [.fsMachine g.machine, .checkpoint tail, .checkpointGeneration g.generation,
    .checkpointRootIno g.rootIno]

/-- `plog_truncate` -/
def truncateActions : List Action := [.tail headerSize, .checkpointTail headerSize, .seqCounter 0]

/-- The stores of `plog_append_*`.  `sync` is `none` if `cxlfs_sync` fails; then, and if the entry
does not even fit in an empty log, nothing is appended. -/
def appendActions (sync : Option Synced) (r : Region) (o : Op) : List Action :=
  if plogShmSize < r.hdr.tail + o.entryLen then
    match sync with
    | none => []
    | some g => checkpointActions g r.hdr.tail ++ truncateActions ++
        if plogShmSize < headerSize + o.entryLen then [] else entryActions headerSize 0 o
  else entryActions r.hdr.tail r.hdr.seqCounter o

/-! ## Replay -/

/-- What `plog_replay` makes of an entry. -/
inductive Event where
  | redo (o : Op)
  /-- The unlink that a rename begins with. -/
  | skip (o : Op)
  | corruptWrite
  | unknown (code : ℕ)
deriving DecidableEq, Repr

/-- A field that is a number. -/
def field (m : Memory) (a w : ℕ) : ℕ := leNat (m.load a w)

/-- A path, up to its `'\0'`. -/
def cstr (m : Memory) (a : ℕ) : List UInt8 := (m.load a plogMaxPath).takeWhile (· != 0)

/-- `next_entry_renames_to` -/
def nextEntryRenamesTo (m : Memory) (pos tail : ℕ) (path : List UInt8) : Bool :=
  if tail ≤ pos then false
  else if field m (pos + lenOff) 4 < renameSize ∨ tail < pos + field m (pos + lenOff) 4 ∨
      field m pos 4 ≠ 6 ∨ 0 ∉ m.load (pos + argOff) plogMaxPath then false
  else cstr m (pos + argOff) = path

/-- The switch over the operation of the entry at `pos`. -/
def decodeOp (m : Memory) (pos tail len : ℕ) : Event :=
  let path := cstr m (pos + pathOff)
  let remove := fun o => if nextEntryRenamesTo m (pos + len) tail path then .skip o else .redo o
  match field m pos 4 with
  | 1 => .redo (.creat path (.ofNat (field m (pos + argOff) 4)))
  | 2 =>
    let dataLen := field m (pos + argOff + 8) 4
    if len < writeHdr ∨ len - writeHdr < dataLen then .corruptWrite
    else .redo (.write path (.ofNat (field m (pos + argOff) 8)) (m.load (pos + writeHdr) dataLen))
  | 3 => .redo (.mkdir path (.ofNat (field m (pos + argOff) 4)))
  | 4 => remove (.unlink path)
  | 5 => remove (.rmdir path)
  | 6 => .redo (.rename path (cstr m (pos + argOff)))
  | 7 => .redo (.truncate path (.ofNat (field m (pos + argOff) 8)))
  | c => .unknown c

/-- The loop of `plog_replay`; `false` if it stops at a corrupt entry.  An entry has at least
`baseSize` bytes, so `tail - pos` rounds are enough. -/
def replayLoop (m : Memory) (tail : ℕ) : ℕ → ℕ → List Event × Bool
  | 0, _ => ([], true)
  | n + 1, pos =>
    if tail ≤ pos then ([], true)
    else
      let len := field m (pos + lenOff) 4
      if len < baseSize ∨ tail < pos + len ∨ 0 ∉ m.load (pos + pathOff) plogMaxPath then ([], false)
      else
        let rest := replayLoop m tail n (pos + len)
        (decodeOp m pos tail len :: rest.1, rest.2)

/-- `plog_replay`; `none` if the header, its tail or its checkpoint is not valid. -/
def plogReplay (r : Region) : Option (List Event × Bool) :=
  if r.hdr.magic ≠ plogMagic then none
  else if r.hdr.tail < headerSize ∨ plogShmSize < r.hdr.tail then none
  else if r.hdr.checkpointTail < headerSize ∨ r.hdr.tail < r.hdr.checkpointTail then none
  else some (replayLoop r.mem r.hdr.tail (r.hdr.tail - r.hdr.checkpointTail) r.hdr.checkpointTail)

end Starfish.Plog
