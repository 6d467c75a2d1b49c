import Starfish.Object.Runs
import Starfish.Interleave

/-!
# Starfish.Object.Threads

`cap_free_all` of one thread, among calls of `cap_free`, `cap_copy` and `cap_alloc`
by any number of other threads.  A step is what a thread does while it has one more
lock than before; between the steps of one thread the others run.

`cap_free` holds one lock at a time: that of the slot table, then that of the
copies list, and then it drops the reference.  `cap_copy` keeps the locks of both
slot tables until its slot is installed.  `cap_free_all` keeps the lock of the
copies list while it walks along it, and takes the lock of the slot table that it
finds in the slot; if that lock is taken it gives up the list and starts again.
-/

namespace Starfish.Object

open Prog

/-! ## The threads -/

/-- Where a thread in `cap_free` or `cap_copy` is when it waits for its next
lock. -/
inductive Phase where
  | idle
  /-- `__cap_free` has taken the slot out of the slot table. -/
  | unlinking (slot : ℕ)
  /-- `__cap_free` has freed the slot. -/
  | putting (object : ℕ)
  /-- `cap_copy` has filled the new slot. -/
  | linking (src dest : ℕ) (destSlotId : ℤ) (destSlot srcSlot object : ℕ)
  /-- `cap_copy` has put the new slot on the copies list. -/
  | installing (src dest : ℕ) (destSlotId : ℤ) (destSlot : ℕ)

/-- Where the thread in `cap_free_all` is. -/
inductive Revocation where
  | idle
  /-- Before the lock of the copies list. -/
  | again (object : ℕ)
  /-- At the head of the loop. -/
  | loop (object : ℕ) (elem tmp : CapNode)
  /-- In `__cap_free`, before the lock of the slot table; the group and the slot id
  were read from the slot. -/
  | inner (object slot : ℕ) (g : ℕ) (slotId : ℤ) (tmp : CapNode)
  /-- `__cap_free` has taken the slot out of the slot table. -/
  | unlinking (object slot : ℕ) (tmp : CapNode)
  /-- `__cap_free` has freed the slot, of the object `slotObject`. -/
  | putting (object slotObject : ℕ) (tmp : CapNode)
  /-- Before `obj_put`, with no lock. -/
  | ending (object : ℕ)
  /-- In `BUG_ON(r != 0)`. -/
  | bug

namespace Phase

/-- The slot tables that the thread has locked. -/
def holds : Phase → ℕ → Prop
  | linking src dest _ _ _ _, g => g = src ∨ g = dest
  | installing src dest _ _, g => g = src ∨ g = dest
  | _, _ => False

/-- The slot table that the thread has locked for writing. -/
def writes : Phase → ℕ → Prop
  | linking _ dest _ _ _ _, g => g = dest
  | installing _ dest _ _, g => g = dest
  | _, _ => False

end Phase

/-- `cap_free_all` has the lock of the copies list. -/
def Revocation.holds : Revocation → ℕ → Prop
  | loop object _ _, o => o = object
  | inner object _ _ _ _, o => o = object
  | unlinking object _ _, o => o = object
  | putting object _ _, o => o = object
  | _, _ => False

/-- The memory, and where the threads are. -/
structure World (n : ℕ) where
  mem : CapMem
  other : Fin n → Phase
  revoker : Revocation

namespace World

variable {n : ℕ}

/-- No call is under way. -/
def start (m : CapMem) : World n := ⟨m, fun _ => .idle, .idle⟩

/-- The slot table of `g` can be locked for writing. -/
def Unlocked (w : World n) (g : ℕ) : Prop := ∀ j, ¬ (w.other j).holds g

/-- The slot table of `g` can be locked for reading. -/
def Readable (w : World n) (g : ℕ) : Prop := ∀ j, ¬ (w.other j).writes g

/-- Thread `j` has come to `p`. -/
def move (w : World n) (j : Fin n) (m : CapMem) (p : Phase) : World n :=
  ⟨m, Function.update w.other j p, w.revoker⟩

/-- The thread in `cap_free_all` has come to `p`. -/
def walk (w : World n) (m : CapMem) (p : Revocation) : World n := ⟨m, w.other, p⟩

end World

/-! ## Steps -/

/-- What a thread does next: the beginning of a call, or the next step of it. -/
inductive Act (n : ℕ) where
  | capFree (j : Fin n) (g : ℕ) (slotId : ℤ)
  | capAlloc (j : Fin n) (g object rights : ℕ) (arrays : List (Option Around)) (slot : ℕ)
  | capCopy (j : Fin n) (src dest : ℕ) (srcSlotId : ℤ) (arrays : List (Option Around))
      (destSlot : ℕ)
  | goOn (j : Fin n)
  | capFreeAll (g : ℕ) (slotId : ℤ)
  | walkOn

/-- Where `__cap_free` is after the slot table. -/
def afterTable : Option ℕ → Phase
  | none => .idle
  | some slot => .unlinking slot

/-- Where `cap_copy` is when it has filled the slot. -/
def afterFilling (src dest destSlot : ℕ) (m : CapMem) : Except ℤ (ℤ × ℕ) → Phase
  | .error _ => .idle
  | .ok (destSlotId, srcSlot) =>
    .linking src dest destSlotId destSlot srcSlot (m.slot srcSlot).object

/-- Where `cap_free_all` is after `get_opaque`. -/
def afterGet : Option ℕ → Revocation
  | none => .idle
  | some object => .again object

/-- Where `cap_free_all` is after the first step of `__cap_free`. -/
def afterInner (object : ℕ) (tmp : CapNode) : Option ℕ → Revocation
  | none => .bug
  | some slot => .unlinking object slot tmp

/-- The steps. -/
inductive Moves {n : ℕ} : Act n → World n → World n → Prop
  | capFree {w j g i r m'} (hidle : w.other j = .idle) (hg : Group w.mem g)
      (hlock : w.Unlocked g) (h : (capFreeTable g i).outcome w.mem = .ok r m') :
      Moves (.capFree j g i) w (w.move j m' (afterTable r))
  | unlink {w j s r m'} (hat : w.other j = .unlinking s)
      (hlock : ¬ w.revoker.holds (w.mem.slot s).object)
      (h : (capFreeUnlink s).outcome w.mem = .ok r m') :
      Moves (.goOn j) w (w.move j m' (.putting (w.mem.slot s).object))
  | put {w j o r m'} (hat : w.other j = .putting o) (h : (objPut o).outcome w.mem = .ok r m') :
      Moves (.goOn j) w (w.move j m' .idle)
  | capAlloc {w j g o rights arrays s r m'} (hidle : w.other j = .idle) (hg : Group w.mem g)
      (ho : Live w.mem o) (hs : FreshSlot w.mem s) (hlock : w.Unlocked g)
      (h : (capAlloc g o rights arrays s).outcome w.mem = .ok r m') :
      Moves (.capAlloc j g o rights arrays s) w (w.move j m' .idle)
  | capCopy {w j src dest i arrays s r m'} (hidle : w.other j = .idle) (hsrc : Group w.mem src)
      (hdest : Group w.mem dest) (hs : FreshSlot w.mem s) (hread : w.Readable src)
      (hlock : w.Unlocked dest) (h : (copyBegin src dest i arrays s).outcome w.mem = .ok r m') :
      Moves (.capCopy j src dest i arrays s) w (w.move j m' (afterFilling src dest s m' r))
  | link {w j src dest i d s o r m'} (hat : w.other j = .linking src dest i d s o)
      (hlock : ¬ w.revoker.holds o)
      (h : (onLinks (listAdd (.copy d) (.copy s))).outcome w.mem = .ok r m') :
      Moves (.goOn j) w (w.move j m' (.installing src dest i d))
  | install {w j src dest i d r m'} (hat : w.other j = .installing src dest i d)
      (h : (installSlot dest i d).outcome w.mem = .ok r m') :
      Moves (.goOn j) w (w.move j m' .idle)
  | capFreeAll {w g i r m'} (hidle : w.revoker = .idle) (hg : Group w.mem g)
      (hread : w.Readable g) (h : (getOpaque g i none).outcome w.mem = .ok r m') :
      Moves (.capFreeAll g i) w (w.walk m' (afterGet r))
  | lockList {w o} (hat : w.revoker = .again o) :
      Moves .walkOn w (w.walk w.mem (.loop o (w.mem.links.next (.head o))
        (w.mem.links.next (w.mem.links.next (.head o)))))
  | leave {w o tmp} (hat : w.revoker = .loop o (.head o) tmp) :
      Moves .walkOn w (w.walk w.mem (.ending o))
  | enter {w o s tmp} (hat : w.revoker = .loop o (.copy s) tmp) :
      Moves .walkOn w (w.walk w.mem
        (.inner o s (w.mem.slot s).capGroup (w.mem.slot s).slotId tmp))
  | busy {w o s g i tmp} (hat : w.revoker = .inner o s g i tmp) (hlock : ¬ w.Unlocked g) :
      Moves .walkOn w (w.walk w.mem (.again o))
  | inner {w o s g i tmp r m'} (hat : w.revoker = .inner o s g i tmp) (hlock : w.Unlocked g)
      (h : (capFreeTable g i).outcome w.mem = .ok r m') :
      Moves .walkOn w (w.walk m' (afterInner o tmp r))
  | innerUnlink {w o s tmp r m'} (hat : w.revoker = .unlinking o s tmp)
      (h : (capFreeUnlink s).outcome w.mem = .ok r m') :
      Moves .walkOn w (w.walk m' (.putting o (w.mem.slot s).object tmp))
  | innerPut {w o o' tmp r m'} (hat : w.revoker = .putting o o' tmp)
      (h : (objPut o').outcome w.mem = .ok r m') :
      Moves .walkOn w (w.walk m' (.loop o tmp (m'.links.next tmp)))
  | ending {w o r m'} (hat : w.revoker = .ending o) (h : (objPut o).outcome w.mem = .ok r m') :
      Moves .walkOn w (w.walk m' .idle)

/-- When `cap_free_all` gets the lock of a slot table to free a slot, no `cap_free` is
between its own two locks with that slot. -/
def Undisturbed {n : ℕ} (w : World n) : Prop :=
  ∀ o s g i tmp, w.revoker = .inner o s g i tmp → w.Unlocked g → ∀ j, w.other j ≠ .unlinking s

/-- A cap group that is destroyed in a step has no capabilities left, and nobody is
working in it. -/
def Abandoned {n : ℕ} (w w' : World n) : Prop :=
  ∀ g, Group w.mem g → ¬ Group w'.mem g →
    (∀ i, w'.mem.getSlot g i = 0) ∧ ∀ j, ¬ (w'.other j).holds g

/-- The steps after which all is well. -/
def Act.Careful {n : ℕ} : Act n → World n → Prop
  | .capCopy _ src dest i arrays _, w => ¬ Runaway w.mem src dest i arrays
  | .walkOn, w => Undisturbed w
  | _, _ => True

/-- A step of a run in which `cap_free_all` works. -/
def CarefulMove {n : ℕ} (w w' : World n) : Prop :=
  ∃ a : Act n, a.Careful w ∧ Room w.mem ∧ Abandoned w w' ∧ Moves a w w'

/-- A step of any run. -/
def AnyMove {n : ℕ} (w w' : World n) : Prop := ∃ a : Act n, Moves a w w'

/-- What is asked of `cap_free_all`: its check does not fail, it takes only
capabilities of its object out of the slot tables, and when it is at the end of the
list, still with the lock, no slot of any group points to the object. -/
structure Revoking {n : ℕ} (w : World n) : Prop where
  noBug : w.revoker ≠ .bug
  own : ∀ o s tmp, w.revoker = .unlinking o s tmp → (w.mem.slot s).object = o
  all : ∀ o tmp, w.revoker = .loop o (.head o) tmp → slotsOf w.mem o = ∅

end Starfish.Object
