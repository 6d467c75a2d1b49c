import Starfish.Tmpfs.Views

/-!
# Starfish.Tmpfs.Nodes

The inodes in memory, field by field, and how the operations on them change the fields.  An
operation on one inode is an `alter`; what it leaves alone is the same for every inode.
-/

namespace Starfish.Tmpfs

open Function

namespace State

attribute [local simp] newInode

/-- There is such an inode. -/
def live (s : State) (i : ℕ) : Prop := (s.inode i).isSome

def type (s : State) (i : ℕ) : FileType :=
  match s.inode i with
  | none => .reg
  | some x => x.type

def refcnt (s : State) (i : ℕ) : ℤ :=
  match s.inode i with
  | none => 0
  | some x => x.refcnt

/-- How often an inode is open. -/
def opens (s : State) (i : ℕ) : ℕ := s.handles.countP fun h => h.inode = i

/-- The inode that a name in a directory stands for. -/
def child (s : State) (i : ℕ) (n : Name) : Option ℕ := childOf (s.dentries i) n

/-- One inode is changed, if there is one. -/
def alter (s : State) (a : ℕ) (f : Inode → Inode) : State :=
  match s.inode a with
  | none => s
  | some x => s.setInode a (some (f x))

variable {s s' : State} {a i : ℕ} {f : Inode → Inode}

theorem live_iff : s.live i ↔ ∃ x, s.inode i = some x := Option.isSome_iff_exists

/-- An inode that is left alone. -/
theorem fields_of_inode (h : s'.inode i = s.inode i) : (s'.live i ↔ s.live i) ∧
    s'.dentries i = s.dentries i ∧ s'.diskIno i = s.diskIno i ∧ s'.type i = s.type i ∧
    s'.refcnt i = s.refcnt i := by
  simp only [live, dentries, diskIno, type, refcnt, h, and_self]

theorem typeOf_eq (h : s.live i) : s.typeOf i = some (s.type i) := by
  obtain ⟨x, hx⟩ := live_iff.mp h
  simp [typeOf, type, hx]

theorem inode_alter_of_ne (h : i ≠ a) : (s.alter a f).inode i = s.inode i := by
  unfold alter
  split
  · rfl
  · simp [setInode, h]

@[simp] theorem inode_alter_self : (s.alter a f).inode a = (s.inode a).map f := by
  unfold alter
  split
  · next h => rw [h]; rfl
  · next x h => simp [setInode, h]

@[simp] theorem live_alter : (s.alter a f).live i ↔ s.live i := by
  by_cases h : i = a
  · subst h
    simp [live]
  · simp [live, inode_alter_of_ne h]

/-- A field that the change leaves alone. -/
theorem map_alter {β : Type} {g : Inode → β} (hf : ∀ x, g (f x) = g x) :
    ((s.alter a f).inode i).map g = (s.inode i).map g := by
  by_cases h : i = a
  · subst h
    rw [inode_alter_self, Option.map_map]
    exact congrArg (Option.map · _) (funext hf)
  · rw [inode_alter_of_ne h]

theorem dentries_eq : s.dentries i = ((s.inode i).map Inode.dentries).getD [] := by
  unfold dentries
  cases s.inode i <;> rfl

theorem diskIno_eq : s.diskIno i = ((s.inode i).map Inode.diskIno).getD 0 := by
  unfold diskIno
  cases s.inode i <;> rfl

theorem type_eq : s.type i = ((s.inode i).map Inode.type).getD .reg := by
  unfold type
  cases s.inode i <;> rfl

theorem refcnt_eq : s.refcnt i = ((s.inode i).map Inode.refcnt).getD 0 := by
  unfold refcnt
  cases s.inode i <;> rfl

theorem dentries_alter (hf : ∀ x, (f x).dentries = x.dentries) :
    (s.alter a f).dentries i = s.dentries i := by
  rw [dentries_eq, map_alter hf, dentries_eq]

theorem diskIno_alter (hf : ∀ x, (f x).diskIno = x.diskIno) :
    (s.alter a f).diskIno i = s.diskIno i := by
  rw [diskIno_eq, map_alter hf, diskIno_eq]

theorem type_alter (hf : ∀ x, (f x).type = x.type) : (s.alter a f).type i = s.type i := by
  rw [type_eq, map_alter hf, type_eq]

theorem refcnt_alter (hf : ∀ x, (f x).refcnt = x.refcnt) : (s.alter a f).refcnt i = s.refcnt i := by
  rw [refcnt_eq, map_alter hf, refcnt_eq]

@[simp] theorem disk_alter : (s.alter a f).disk = s.disk := by
  unfold alter
  split <;> rfl

@[simp] theorem handles_alter : (s.alter a f).handles = s.handles := by
  unfold alter
  split <;> rfl

@[simp] theorem next_alter : (s.alter a f).next = s.next := by
  unfold alter
  split <;> rfl

/-! ### References -/

/-- The inode gets `k` references more. -/
@[simp] def addRefs (s : State) (a : ℕ) (k : ℤ) : State :=
  s.alter a fun x => { x with refcnt := x.refcnt + k }

theorem getInode_eq : s.getInode a = s.addRefs a 1 := rfl

@[simp] theorem dentries_addRefs : (s.addRefs a k).dentries i = s.dentries i :=
  dentries_alter fun _ => rfl

@[simp] theorem diskIno_addRefs : (s.addRefs a k).diskIno i = s.diskIno i :=
  diskIno_alter fun _ => rfl

@[simp] theorem type_addRefs : (s.addRefs a k).type i = s.type i := type_alter fun _ => rfl

@[simp] theorem live_addRefs : (s.addRefs a k).live i ↔ s.live i := live_alter

@[simp] theorem disk_addRefs : (s.addRefs a k).disk = s.disk := disk_alter

@[simp] theorem handles_addRefs : (s.addRefs a k).handles = s.handles := handles_alter

@[simp] theorem next_addRefs : (s.addRefs a k).next = s.next := next_alter

theorem refcnt_addRefs_of_ne (h : i ≠ a) : (s.addRefs a k).refcnt i = s.refcnt i := by
  simp [refcnt, inode_alter_of_ne h]

theorem refcnt_addRefs_self (h : s.live a) : (s.addRefs a k).refcnt a = s.refcnt a + k := by
  obtain ⟨x, hx⟩ := live_iff.mp h
  simp [refcnt, hx]

theorem refcnt_le_addRefs (h : 0 ≤ k) : s.refcnt i ≤ (s.addRefs a k).refcnt i := by
  by_cases hi : i = a
  · subst hi
    by_cases hl : s.live i
    · rw [refcnt_addRefs_self hl]
      omega
    · have hnone : s.inode i = none := by simpa [live] using hl
      simp [refcnt, hnone]
  · exact Int.le_of_eq (refcnt_addRefs_of_ne hi).symm

/-- The references that an inode of this type has as long as it is in the tree. -/
def ownRefs : FileType → ℤ
  | .reg => 1
  | .dir => 2

variable {r : Except Errno Unit}

section

variable (h : s.putInode a = some (s', r))
include h

/-- What dropping a reference does. -/
theorem putInode_cases : s.live a ∧ (1 < s.refcnt a ∧ s' = s.addRefs a (-1) ∧ r = .ok () ∨
      s.refcnt a = 1 ∧ s.type a = .dir ∧ r = .error .notempty ∨
      s.refcnt a = 1 ∧ s' = s.setInode a none ∧ r = .ok ()) := by
  unfold putInode at h
  cases hx : s.inode a with
  | none =>
    simp only [hx] at h
    cases h
  | some x =>
    simp only [hx] at h
    have hlive : s.live a := live_iff.mpr ⟨x, hx⟩
    have href : s.refcnt a = x.refcnt := by simp [refcnt, hx]
    have htype : s.type a = x.type := by simp [type, hx]
    rw [href, htype]
    split at h
    · cases h
    · split at h
      · split at h
        · next hdir =>
          cases h
          exact ⟨hlive, .inr (.inl ⟨by omega, hdir.1, rfl⟩)⟩
        · cases h
          exact ⟨hlive, .inr (.inr ⟨by omega, rfl, rfl⟩)⟩
      · cases h
        refine ⟨hlive, .inl ⟨by omega, ?_, rfl⟩⟩
        simp only [addRefs, alter, hx]
        rfl

/-- Dropping a reference leaves the other inodes alone. -/
theorem putInode_frame :
    (∀ i, i ≠ a → s'.inode i = s.inode i) ∧ s'.disk = s.disk ∧ s'.handles = s.handles ∧
      s'.next = s.next ∧ ∀ i, s'.live i → s.live i := by
  have hset (x : Option Inode) (hlive : s.live a) (i : ℕ) (hi : (s.setInode a x).live i) :
      s.live i := by
    by_cases hia : i = a
    · exact hia ▸ hlive
    · exact (fields_of_inode (update_of_ne hia _ _)).1.mp hi
  unfold putInode at h
  split at h
  · cases h
  · next x hx =>
    have hlive : s.live a := live_iff.mpr ⟨x, hx⟩
    split at h
    · cases h
    · split at h
      · split at h
        · cases h
          exact ⟨fun i hi => update_of_ne hi _ _, rfl, rfl, rfl, hset _ hlive⟩
        · cases h
          exact ⟨fun i hi => update_of_ne hi _ _, rfl, rfl, rfl, hset _ hlive⟩
      · cases h
        exact ⟨fun i hi => update_of_ne hi _ _, rfl, rfl, rfl, hset _ hlive⟩

/-- An inode that is in the tree gives up a reference. -/
theorem putInode_ok (href : ownRefs (s.type a) ≤ s.refcnt a) : r = .ok () := by
  obtain ⟨_, ⟨_, _, hr⟩ | ⟨hone, hdir, _⟩ | ⟨_, _, hr⟩⟩ := putInode_cases h
  · exact hr
  · rw [hdir, hone] at href
    exact absurd href (by decide)
  · exact hr

end

/-! ### Directories -/

theorem setDentries_eq : s.setDentries a ds = s.alter a fun x => { x with dentries := ds } := rfl

@[simp] theorem diskIno_setDentries : (s.setDentries a ds).diskIno i = s.diskIno i :=
  diskIno_alter fun _ => rfl

@[simp] theorem type_setDentries : (s.setDentries a ds).type i = s.type i := type_alter fun _ => rfl

@[simp] theorem refcnt_setDentries : (s.setDentries a ds).refcnt i = s.refcnt i :=
  refcnt_alter fun _ => rfl

@[simp] theorem live_setDentries : (s.setDentries a ds).live i ↔ s.live i := live_alter

@[simp] theorem disk_setDentries : (s.setDentries a ds).disk = s.disk := disk_alter

@[simp] theorem handles_setDentries : (s.setDentries a ds).handles = s.handles := handles_alter

@[simp] theorem next_setDentries : (s.setDentries a ds).next = s.next := next_alter

theorem dentries_setDentries_of_ne (h : i ≠ a) : (s.setDentries a ds).dentries i = s.dentries i := by
  simp [dentries, setDentries_eq, inode_alter_of_ne h]

theorem dentries_setDentries_self (h : s.live a) : (s.setDentries a ds).dentries a = ds := by
  obtain ⟨x, hx⟩ := live_iff.mp h
  simp [dentries, setDentries_eq, hx]

theorem tfsLookup_eq : s.tfsLookup i n = lookupDent n (s.dentries i) := by
  unfold tfsLookup dentries
  cases s.inode i <;> rfl

/-! ### A new inode -/

/-- The entries of a new inode. -/
def newDentries (type : FileType) (parent a : ℕ) : List Dent :=
  match type with
  | .reg => []
  | .dir => [⟨dotDot, parent, true⟩, ⟨dot, a, true⟩]

section new

variable {type : FileType}

theorem inode_newInode_self : (s.newInode parent type).inode s.next =
    some ⟨type, 0, ownRefs type, newDentries type parent s.next⟩ := by
  cases type <;> simp [setInode, ownRefs, newDentries]

theorem inode_newInode_of_ne (parent : ℕ) (type : FileType) (h : i ≠ s.next) :
    (s.newInode parent type).inode i = s.inode i ∨
      i = parent ∧ (s.newInode parent type).inode i = (s.addRefs parent 1).inode i := by
  cases type with
  | reg => exact .inl (by simp [setInode, h])
  | dir =>
    have hi : (s.newInode parent .dir).inode i = (s.addRefs parent 1).inode i := by
      simp [setInode, h, getInode_eq]
    by_cases hp : i = parent
    · exact .inr ⟨hp, hi⟩
    · refine .inl (hi.trans ?_)
      exact inode_alter_of_ne hp

@[simp] theorem handles_newInode : (s.newInode parent type).handles = s.handles := by
  cases type with
  | reg => rfl
  | dir => exact handles_addRefs (a := parent)

@[simp] theorem disk_newInode : (s.newInode parent type).disk = s.disk := by
  cases type with
  | reg => rfl
  | dir => exact disk_addRefs (a := parent)

@[simp] theorem next_newInode : (s.newInode parent type).next = s.next + 1 := by
  cases type <;> rfl

/-- The new inode takes nothing from the others. -/
theorem newInode_of_ne (parent : ℕ) (type : FileType) (h : i ≠ s.next) :
    ((s.newInode parent type).live i ↔ s.live i) ∧
      (s.newInode parent type).dentries i = s.dentries i ∧
      (s.newInode parent type).diskIno i = s.diskIno i ∧
      (s.newInode parent type).type i = s.type i ∧
      s.refcnt i ≤ (s.newInode parent type).refcnt i := by
  obtain hi | ⟨rfl, hi⟩ := inode_newInode_of_ne parent type h
  · simp only [live, dentries, diskIno, State.type, refcnt, hi, true_and]
    exact Int.le_refl _
  · simp only [live, dentries, diskIno, State.type, refcnt, hi]
    exact ⟨live_addRefs, dentries_addRefs, diskIno_addRefs, type_addRefs,
      refcnt_le_addRefs Int.one_nonneg⟩

theorem linkInode_eq : s.linkInode parent name a ino =
    (s.alter a fun x => { x with diskIno := ino }).setDentries parent
      (⟨name, a, true⟩ :: s.dentries parent) := by
  have hd : (s.alter a fun x => { x with diskIno := ino }).dentries parent = s.dentries parent :=
    dentries_alter fun _ => rfl
  rw [← hd]
  rfl

end new

end State

end Starfish.Tmpfs
