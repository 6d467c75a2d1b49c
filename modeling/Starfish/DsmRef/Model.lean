import Mathlib.Data.Set.Basic
import Starfish.Interleave

/-!
# Starfish.DsmRef.Model

Reference counts of objects in the shared memory of a cluster (`dsm_ref.c`): `dsm_ref_link`
and `dsm_ref_unlink` keep a redo record and an era for each machine, and
`dsm_ref_recover_machine` finishes what a crashed machine has left.

A step is one access to shared memory by one CPU, or the crash of a machine with all its
CPUs.  Any number of CPUs of any machines run at the same time.
-/

namespace Starfish.DsmRef

open Function

/-! ## `ref_info` -/

/-- `lcid << 48 | cnt << 32 | era` of a `u16`, a `u16` and a `u32`. -/
def dsmRefPack (lcid cnt era : ℕ) : ℕ := lcid % 2 ^ 16 * 2 ^ 48 + cnt % 2 ^ 16 * 2 ^ 32 + era % 2 ^ 32

def dsmRefLcid (ri : ℕ) : ℕ := ri / 2 ^ 48 % 2 ^ 16

def dsmRefCnt (ri : ℕ) : ℕ := ri / 2 ^ 32 % 2 ^ 16

def dsmRefEra (ri : ℕ) : ℕ := ri % 2 ^ 32

@[simp] theorem dsmRefLcid_pack (lcid cnt era : ℕ) :
    dsmRefLcid (dsmRefPack lcid cnt era) = lcid % 2 ^ 16 := by
  rw [dsmRefLcid, dsmRefPack]
  omega

@[simp] theorem dsmRefCnt_pack (lcid cnt era : ℕ) :
    dsmRefCnt (dsmRefPack lcid cnt era) = cnt % 2 ^ 16 := by
  rw [dsmRefCnt, dsmRefPack]
  omega

@[simp] theorem dsmRefEra_pack (lcid cnt era : ℕ) :
    dsmRefEra (dsmRefPack lcid cnt era) = era % 2 ^ 32 := by
  rw [dsmRefEra, dsmRefPack]
  omega

/-! ## Redo records -/

/-- `func_id`; 0 is an empty slot. -/
inductive FuncId where
  | empty
  | link
  | unlink
  deriving DecidableEq, Repr

/-- `struct dsm_ref_redo`. -/
structure Redo where
  funcId : FuncId
  savedCnt : ℕ
  curEra : ℕ
  refLocOff : ℕ
  refedOff : ℕ
  deriving DecidableEq, Repr

/-- A slot that is cleared. -/
def Redo.zero : Redo := ⟨.empty, 0, 0, 0, 0⟩

/-- `write_redo` stores field `n`. -/
def Redo.write (new old : Redo) : ℕ → Redo
  | 0 => { old with funcId := new.funcId }
  | 1 => { old with savedCnt := new.savedCnt }
  | 2 => { old with curEra := new.curEra }
  | 3 => { old with refLocOff := new.refLocOff }
  | _ => { old with refedOff := new.refedOff }

/-- What the operation of a record leaves in its location. -/
def Redo.value (r : Redo) : ℕ := if r.funcId = .link then r.refedOff else 0

/-- `DSM_REF_REDO_CNT`. -/
def redoCnt : ℕ := 8

/-- `DSM_REF_MAX_MACHINES`. -/
def maxMachines : ℕ := 8

/-- One slot of the scan: the best record so far, or this one. -/
def betterRedo (best : Option Redo) (r : Redo) : Option Redo :=
  if r.funcId = .empty then best
  else match best with
    | none => some r
    | some b => if r.curEra > b.curEra then some r else some b

def findLatestRedo (redo : ℕ → Redo) : Option Redo :=
  ((List.range redoCnt).map redo).foldl betterRedo none

/-! ## Memory -/

/-- A call of `dsm_ref_link` or `dsm_ref_unlink` on a machine. -/
structure Call where
  mid : ℕ
  link : Bool
  loc : ℕ
  target : ℕ
  deriving DecidableEq, Repr

namespace Call

variable (c : Call)

def funcId : FuncId := if c.link then .link else .unlink

/-- The count after the operation, which `dsm_ref_pack` cuts to a `u16`. -/
def count (cnt : ℕ) : ℕ := if c.link then cnt + 1 else cnt + (2 ^ 16 - 1)

/-- What the operation stores in its location. -/
def value : ℕ := if c.link then c.target else 0

/-- The record of the operation. -/
def redo (old cur : ℕ) : Redo := ⟨c.funcId, dsmRefCnt old, cur, c.loc, c.target⟩

end Call

/-- What a recovery has decided about a record, and whether its CAS took effect in the
latest life of the machine. -/
structure Verdict where
  committed : Bool
  landed : Bool
  deriving DecidableEq, Repr

/-- The shared memory.  `landed` lists era and object of every operation of the latest life
of a machine that took effect, the last one first; `stale` bounds the eras of its earlier
lives; `lost` is the locations whose store a crash has prevented. -/
structure Shared where
  refInfo : ℕ → ℕ
  embeddedRefCnt : ℕ → ℕ
  loc : ℕ → ℕ
  era : ℕ → ℕ → ℕ
  redo : ℕ → ℕ → Redo
  up : ℕ → Bool
  unrecovered : ℕ → Bool
  landed : ℕ → List (ℕ × ℕ)
  stale : ℕ → ℕ
  lost : ℕ → Set ℕ
  verdicts : List Verdict

/-- The location of an embedded reference: the references follow the header. -/
def embedded (obj i : ℕ) : ℕ := obj + 16 + 8 * i

namespace Shared

variable (s : Shared)

def setEra (i j val : ℕ) : Shared :=
  { s with era := update s.era i (update (s.era i) j val) }

def setRedo (mid slot : ℕ) (r : Redo) : Shared :=
  { s with redo := update s.redo mid (update (s.redo mid) slot r) }

def setLoc (l val : ℕ) : Shared := { s with loc := update s.loc l val }

/-- The CAS of an operation takes effect. -/
def land (c : Call) (old cur : ℕ) : Shared :=
  { s with
    refInfo := update s.refInfo c.target
      (dsmRefPack c.mid (c.count (dsmRefCnt old)) cur)
    landed := update s.landed c.mid ((cur, c.target) :: s.landed c.mid) }

/-- `dsm_ref_machine_join`: the log is cleared and the own era starts at 1. -/
def join (mid : ℕ) : Shared :=
  { s.setEra mid mid 1 with
    redo := update s.redo mid fun _ => .zero
    up := update s.up mid true
    landed := update s.landed mid []
    stale := update s.stale mid (max (s.stale mid) (s.era mid mid)) }

/-- The CAS of the record took effect in the latest life. -/
def Landed (dead : ℕ) (r : Redo) : Prop := r.curEra ∈ (s.landed dead).map Prod.fst

instance (dead : ℕ) (r : Redo) : Decidable (s.Landed dead r) :=
  inferInstanceAs (Decidable (_ ∈ _))

/-- A recovery decides. -/
def decideRedo (dead : ℕ) (r : Redo) (committed : Bool) : Shared :=
  { s with verdicts := ⟨committed, s.Landed dead r⟩ :: s.verdicts }

/-- A recovery stores what the record says. -/
def applyRedo (dead : ℕ) (r : Redo) : Shared :=
  { s.setLoc r.refLocOff r.value with
    lost := update s.lost dead (s.lost dead \ {r.refLocOff}) }

end Shared

/-! ## Steps -/

/-- What a CPU does after a call: it returns, it goes on with the embedded references of an
object, or it finishes a recovery. -/
inductive Cont where
  | ret
  | sweep (obj i : ℕ) (k : Cont)
  | clear (dead : ℕ)

/-- Where a CPU is. -/
inductive Phase where
  | idle
  /-- At the head of the CAS loop. -/
  | load (c : Call) (k : Cont)
  /-- Before it reads its era. -/
  | age (c : Call) (k : Cont) (old : ℕ)
  /-- Before it reads the era it has seen of the last modifier. -/
  | see (c : Call) (k : Cont) (old cur : ℕ)
  /-- Before it notes the era of the last modifier. -/
  | note (c : Call) (k : Cont) (old cur seen : ℕ)
  /-- With `n` fields of the record written. -/
  | log (c : Call) (k : Cont) (old cur n : ℕ)
  /-- After the CAS, before the store to the location. -/
  | store (c : Call) (k : Cont) (old cur : ℕ)
  /-- Before the era is incremented. -/
  | inc (c : Call) (k : Cont) (old cur : ℕ)
  /-- Unlinking embedded references. -/
  | sweep (mid obj i : ℕ) (k : Cont)
  /-- `dsm_ref_recover_machine` before it looks for the record. -/
  | find (mid dead : ℕ)
  /-- Before case A. -/
  | check (mid dead : ℕ) (r : Redo)
  /-- Case B, before machine `j`. -/
  | scan (mid dead : ℕ) (r : Redo) (j : ℕ)
  /-- Before the store to the location. -/
  | apply (mid dead : ℕ) (r : Redo)
  /-- Before the slot of the dead machine is released. -/
  | clear (mid dead : ℕ)

/-- A CPU goes on after a call. -/
def Cont.resume (mid : ℕ) : Cont → Phase
  | ret => .idle
  | sweep obj i k => .sweep mid obj i k
  | clear dead => .clear mid dead

/-- The end of a call: the last reference to an object gives up the references in it. -/
def Call.after (c : Call) (k : Cont) (old : ℕ) : Phase :=
  if c.link = false ∧ dsmRefCnt old = 1 then .sweep c.mid c.target 0 k else k.resume c.mid

/-- After the store of a recovery. -/
def Redo.after (r : Redo) (mid dead : ℕ) : Phase :=
  if r.funcId ≠ .link ∧ r.savedCnt = 1 then .sweep mid r.refedOff 0 (.clear dead)
  else .clear mid dead

/-- What a CPU can do. -/
inductive Acts (machines : ℕ) : Shared → Phase → Shared → Phase → Prop
  | join {s : Shared} {mid : ℕ} (hmid : mid < machines) (hmax : mid < maxMachines)
      (hdown : s.up mid = false) (hrecovered : s.unrecovered mid = false) :
      Acts machines s .idle (s.join mid) .idle
  | call {s : Shared} {c : Call} (h : s.up c.mid = true) : Acts machines s .idle s (.load c .ret)
  | load {s : Shared} {c : Call} {k : Cont} :
      Acts machines s (.load c k) s (.age c k (s.refInfo c.target))
  | age {s : Shared} {c : Call} {k : Cont} {old : ℕ} :
      Acts machines s (.age c k old) s (.see c k old (s.era c.mid c.mid))
  | see {s : Shared} {c : Call} {k : Cont} {old cur : ℕ} :
      Acts machines s (.see c k old cur) s (.note c k old cur (s.era c.mid (dsmRefLcid old)))
  | note {s : Shared} {c : Call} {k : Cont} {old cur seen : ℕ} (h : dsmRefEra old > seen) :
      Acts machines s (.note c k old cur seen) (s.setEra c.mid (dsmRefLcid old) (dsmRefEra old))
        (.log c k old cur 0)
  | noteNot {s : Shared} {c : Call} {k : Cont} {old cur seen : ℕ} (h : ¬ dsmRefEra old > seen) :
      Acts machines s (.note c k old cur seen) s (.log c k old cur 0)
  | log {s : Shared} {c : Call} {k : Cont} {old cur n : ℕ} (h : n < 5) :
      Acts machines s (.log c k old cur n)
        (s.setRedo c.mid (cur % redoCnt)
          ((c.redo old cur).write (s.redo c.mid (cur % redoCnt)) n)) (.log c k old cur (n + 1))
  | cas {s : Shared} {c : Call} {k : Cont} {old cur : ℕ} (h : s.refInfo c.target = old) :
      Acts machines s (.log c k old cur 5) (s.land c old cur) (.store c k old cur)
  | casNot {s : Shared} {c : Call} {k : Cont} {old cur : ℕ} (h : s.refInfo c.target ≠ old) :
      Acts machines s (.log c k old cur 5) s (.load c k)
  | store {s : Shared} {c : Call} {k : Cont} {old cur : ℕ} :
      Acts machines s (.store c k old cur) (s.setLoc c.loc c.value) (.inc c k old cur)
  | inc {s : Shared} {c : Call} {k : Cont} {old cur : ℕ} :
      Acts machines s (.inc c k old cur)
        (s.setEra c.mid c.mid ((s.era c.mid c.mid + 1) % 2 ^ 32)) (c.after k old)
  | sweepCall {s : Shared} {mid obj i : ℕ} {k : Cont} (hi : i < s.embeddedRefCnt obj)
      (h : s.loc (embedded obj i) ≠ 0) :
      Acts machines s (.sweep mid obj i k) s
        (.load ⟨mid, false, embedded obj i, s.loc (embedded obj i)⟩ (.sweep obj (i + 1) k))
  | sweepNext {s : Shared} {mid obj i : ℕ} {k : Cont} (hi : i < s.embeddedRefCnt obj)
      (h : s.loc (embedded obj i) = 0) :
      Acts machines s (.sweep mid obj i k) s (.sweep mid obj (i + 1) k)
  | sweepEnd {s : Shared} {mid obj i : ℕ} {k : Cont} (hi : ¬ i < s.embeddedRefCnt obj) :
      Acts machines s (.sweep mid obj i k) s (k.resume mid)
  | callRecover {s : Shared} {mid dead : ℕ} (hup : s.up mid = true) (hdown : s.up dead = false)
      (h : s.unrecovered dead = true) : Acts machines s .idle s (.find mid dead)
  | findNot {s : Shared} {mid dead : ℕ} (h : findLatestRedo (s.redo dead) = none) :
      Acts machines s (.find mid dead) s (.clear mid dead)
  | find {s : Shared} {mid dead : ℕ} {r : Redo} (h : findLatestRedo (s.redo dead) = some r) :
      Acts machines s (.find mid dead) s (.check mid dead r)
  | check {s : Shared} {mid dead : ℕ} {r : Redo} (hlcid : dsmRefLcid (s.refInfo r.refedOff) = dead)
      (hera : dsmRefEra (s.refInfo r.refedOff) = r.curEra) :
      Acts machines s (.check mid dead r) (s.decideRedo dead r true) (.apply mid dead r)
  | checkNot {s : Shared} {mid dead : ℕ} {r : Redo}
      (h : ¬ (dsmRefLcid (s.refInfo r.refedOff) = dead ∧
        dsmRefEra (s.refInfo r.refedOff) = r.curEra)) :
      Acts machines s (.check mid dead r) s (.scan mid dead r 0)
  | scan {s : Shared} {mid dead j : ℕ} {r : Redo} (hj : j < machines) (hne : j ≠ dead)
      (h : s.era j dead ≥ r.curEra) :
      Acts machines s (.scan mid dead r j) (s.decideRedo dead r true) (.apply mid dead r)
  | scanNext {s : Shared} {mid dead j : ℕ} {r : Redo} (hj : j < machines)
      (h : ¬ (j ≠ dead ∧ s.era j dead ≥ r.curEra)) :
      Acts machines s (.scan mid dead r j) s (.scan mid dead r (j + 1))
  | scanEnd {s : Shared} {mid dead j : ℕ} {r : Redo} (hj : ¬ j < machines) :
      Acts machines s (.scan mid dead r j) (s.decideRedo dead r false) (.clear mid dead)
  | apply {s : Shared} {mid dead : ℕ} {r : Redo} :
      Acts machines s (.apply mid dead r) (s.applyRedo dead r) (r.after mid dead)
  | clear {s : Shared} {mid dead : ℕ} :
      Acts machines s (.clear mid dead)
        { s with unrecovered := update s.unrecovered dead false } .idle

/-- The machine of a CPU that does something. -/
def Phase.mid? : Phase → Option ℕ
  | idle => none
  | load c _ => some c.mid
  | age c _ _ => some c.mid
  | see c _ _ _ => some c.mid
  | note c _ _ _ _ => some c.mid
  | log c _ _ _ _ => some c.mid
  | store c _ _ _ => some c.mid
  | inc c _ _ _ => some c.mid
  | sweep mid _ _ _ => some mid
  | find mid _ => some mid
  | check mid _ _ => some mid
  | scan mid _ _ _ => some mid
  | apply mid _ _ => some mid
  | clear mid _ => some mid

abbrev World (T : Type) := Threads T Shared Phase

/-- A machine stops: its CPUs are gone, and a store that was due is not done. -/
def crash {T : Type} (w : World T) (mid : ℕ) : World T where
  mem :=
    { w.mem with
      up := update w.mem.up mid false
      unrecovered := update w.mem.unrecovered mid true
      lost := update w.mem.lost mid
        {l | ∃ t c k old cur, w.pc t = .store c k old cur ∧ c.mid = mid ∧ c.loc = l} }
  pc t := if (w.pc t).mid? = some mid then .idle else w.pc t

/-- One CPU does one step, or a machine crashes. -/
inductive Step {T : Type} [DecidableEq T] (machines : ℕ) : World T → World T → Prop
  | act {w : World T} {i : T} {s' : Shared} {p' : Phase}
      (h : Acts machines w.mem (w.pc i) s' p') : Step machines w (w.move i s' p')
  | crash {w : World T} {mid : ℕ} (h : w.mem.up mid = true) : Step machines w (crash w mid)

/-- `dsm_ref_global_init` has run, there are no references yet and no machine has joined. -/
def start {T : Type} (embeddedRefCnt : ℕ → ℕ) : World T where
  mem :=
    { refInfo := fun _ => 0
      embeddedRefCnt := embeddedRefCnt
      loc := fun _ => 0
      era := fun _ _ => 0
      redo := fun _ _ => .zero
      up := fun _ => false
      unrecovered := fun _ => false
      landed := fun _ => []
      stale := fun _ => 0
      lost := fun _ => ∅
      verdicts := [] }
  pc _ := .idle

end Starfish.DsmRef
