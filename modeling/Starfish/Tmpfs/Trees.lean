import Starfish.Tmpfs.DiskSpec
import Starfish.Tmpfs.Nodes

/-!
# Starfish.Tmpfs.Trees

The tree in memory and the durable tree have the same names, types and inode numbers.

`Tree T s` says so for the inodes `T`: they are a `Twin` of the durable nodes, and each of them is
`Sound`.  An operation on the tree keeps the inodes that stay (`Keeps`) and gives some names a new
meaning (`rebind`).
-/

namespace Starfish.Tmpfs

open State Disk

/-- An inode in the tree, and its durable node. -/
structure Sound (s : State) (i : ℕ) : Prop where
  live : s.live i
  reg : s.type i = .reg → s.dentries i = []
  names : s.type i = .dir → DirNames (s.dentries i)
  refs : ownRefs (s.type i) + s.opens i ≤ s.refcnt i
  typeOf : s.disk.typeOf (s.diskIno i) = some (s.type i)
  slots : (slotNames (s.disk.slots (s.diskIno i))).Nodup

structure Tree (T : ℕ → Prop) (s : State) : Prop where
  twin : Twin root T s.child s.diskIno s.type s.disk.entry
  sound : ∀ i, T i → Sound s i
  root_ino : s.diskIno root = cxlfsRootIno
  root_dir : s.type root = .dir
  fresh : ∀ i, s.live i → i < s.next
  opened : ∀ h ∈ s.handles, h.inode < s.next

variable {T : ℕ → Prop} {s s' : State} {i p a dir : ℕ} {n name : Name}

/-- What a name in the tree is in memory. -/
theorem Tree.dent (h : Tree T s) (hp : T p) (hc : s.child p n = some a) :
    Proper n ∧ s.type p = .dir ∧
      ∃ d, lookupDent n (s.dentries p) = some d ∧ d.inode = a ∧ d.name = n := by
  rw [State.child, childOf] at hc
  split at hc
  · cases hc
  · next hdots =>
    obtain ⟨d, hd, ha⟩ := Option.map_eq_some_iff.mp hc
    have hdir : s.type p = .dir := by
      cases htype : s.type p with
      | dir => rfl
      | reg =>
        rw [(h.sound p hp).reg htype] at hd
        cases hd
    have hname := name_of_lookupDent hd
    refine ⟨⟨?_, fun e => hdots (.inl e), fun e => hdots (.inr e)⟩, hdir, d, hd, ha, hname⟩
    rintro rfl
    refine ((h.sound p hp).names hdir).named ?_
    exact List.mem_map.mpr ⟨d, mem_of_lookupDent hd, hname⟩

theorem Tree.dirent (h : Tree T s) (hp : T p) (hdir : s.disk.typeOf (s.diskIno p) = some .dir)
    (hfind : findDirent n (s.disk.slots (s.diskIno p)) 0 = some (k, e)) :
    ∃ a, s.child p n = some a ∧ e.ino = s.diskIno a ∧ e.type = s.type a := by
  have hentry := h.twin.agree n hp
  rw [entry, if_pos hdir, lookupSlot_of_findDirent hfind] at hentry
  obtain ⟨a, ha, hpair⟩ := Option.map_eq_some_iff.mp hentry.symm
  obtain ⟨hino, htype⟩ := Prod.mk.inj hpair
  exact ⟨a, ha, hino.symm, htype.symm⟩

/-- The names with another meaning for one of them. -/
def rebind (child : ℕ → Name → Option ℕ) (p : ℕ) (m : Name) (x : Option ℕ) (i : ℕ) (n : Name) :
    Option ℕ :=
  if i = p ∧ n = m then x else child i n

/-- The inodes `T` stay what they are, and the names in them become `child'`. -/
structure Keeps (T : ℕ → Prop) (s s' : State) (child' : ℕ → Name → Option ℕ) : Prop where
  diskIno : ∀ i, T i → s'.diskIno i = s.diskIno i
  type : ∀ i, T i → s'.type i = s.type i
  file : ∀ i, T i → s'.disk.file (s.diskIno i) = s.disk.file (s.diskIno i)
  child : ∀ i n, T i → s'.child i n = child' i n
  handles : s'.handles = s.handles

/-- An inode of the tree that stays, up to its entries. -/
structure Stays (s s' : State) (i : ℕ) : Prop where
  live : s.live i → s'.live i
  diskIno : s'.diskIno i = s.diskIno i
  type : s'.type i = s.type i
  refs : s.refcnt i + s'.opens i ≤ s'.refcnt i + s.opens i
  typeOf : s'.disk.typeOf (s.diskIno i) = s.disk.typeOf (s.diskIno i)

/-- An inode of the tree that an operation has nothing to do with. -/
structure Kept (s s' : State) (i : ℕ) : Prop extends Stays s s' i where
  dentries : s'.dentries i = s.dentries i
  slots : s'.disk.slots (s.diskIno i) = s.disk.slots (s.diskIno i)

theorem Stays.sound (h : Stays s s' i) (hs : Sound s i)
    (hreg : s.type i = .reg → s'.dentries i = []) (hnames : s.type i = .dir → DirNames (s'.dentries i))
    (hslots : (slotNames (s'.disk.slots (s.diskIno i))).Nodup) : Sound s' i where
  live := h.live hs.live
  reg := by rw [h.type]; exact hreg
  names := by rw [h.type]; exact hnames
  refs := by
    have := h.refs
    have := hs.refs
    rw [h.type]
    omega
  typeOf := by rw [h.diskIno, h.typeOf, h.type]; exact hs.typeOf
  slots := by rw [h.diskIno]; exact hslots

/-- A directory whose entries change. -/
theorem Stays.sound_dir (h : Stays s s' i) (hs : Sound s i) (hdir : s.type i = .dir)
    (hnames : DirNames (s'.dentries i))
    (hslots : (slotNames (s'.disk.slots (s.diskIno i))).Nodup) : Sound s' i :=
  h.sound hs (fun hreg => by rw [hdir] at hreg; cases hreg) (fun _ => hnames) hslots

namespace Kept

theorem refl : Kept s s i := ⟨⟨id, rfl, rfl, Int.le_refl _, rfl⟩, rfl, rfl⟩

theorem child (h : Kept s s' i) : s'.child i n = s.child i n := by
  rw [State.child, State.child, h.dentries]

theorem entry (h : Kept s s' i) : s'.disk.entry (s.diskIno i) n = s.disk.entry (s.diskIno i) n := by
  rw [Disk.entry, Disk.entry, h.typeOf, h.slots]

theorem sound (h : Kept s s' i) (hs : Sound s i) : Sound s' i :=
  h.toStays.sound hs (by rw [h.dentries]; exact hs.reg) (by rw [h.dentries]; exact hs.names)
    (by rw [h.slots]; exact hs.slots)

end Kept

section

variable (h : Tree T s) (hi : T i)
include h hi

theorem Tree.lt_next : i < s.next := h.fresh i (h.sound i hi).live

theorem Tree.diskIno_ne (hj : T a) (hne : i ≠ a) :
    s.diskIno i ≠ s.diskIno a := fun e => hne (h.twin.key_inj hi hj e)

theorem Tree.diskIno_ne_free (hino : s.disk.node ino = none) : s.diskIno i ≠ ino := by
  rintro rfl
  have := (h.sound i hi).typeOf
  rw [Disk.typeOf, hino] at this
  cases this

theorem Tree.type_eq {t : FileType} (ht : s.disk.typeOf (s.diskIno i) = some t) : s.type i = t :=
  Option.some.inj ((h.sound i hi).typeOf.symm.trans ht)

end

theorem Tree.of_kept (h : Tree T s) (hkept : ∀ i, T i → Kept s s' i)
    (hfresh : ∀ i, s'.live i → i < s'.next) (hopened : ∀ h ∈ s'.handles, h.inode < s'.next) :
    Tree T s' where
  twin := h.twin.congr (fun i _ hi => (hkept i hi).child) (fun i hi => (hkept i hi).diskIno)
    (fun i hi => (hkept i hi).type) (fun i _ hi => (hkept i hi).entry)
  sound i hi := (hkept i hi).sound (h.sound i hi)
  root_ino := (hkept root h.twin.root_mem).diskIno.trans h.root_ino
  root_dir := (hkept root h.twin.root_mem).type.trans h.root_dir
  fresh := hfresh
  opened := hopened

theorem Keeps.refl : Keeps T s s s.child :=
  ⟨fun _ _ => rfl, fun _ _ => rfl, fun _ _ => rfl, fun _ _ _ => rfl, rfl⟩

theorem Keeps.of_kept (hkept : ∀ i, T i → Kept s s' i)
    (hdisk : s'.disk.node = s.disk.node) (hhandles : s'.handles = s.handles) :
    Keeps T s s' s.child where
  diskIno i hi := (hkept i hi).diskIno
  type i hi := (hkept i hi).type
  file i _ := by rw [Disk.file, Disk.file, hdisk]
  child i _ hi := (hkept i hi).child
  handles := hhandles

/-! ## Create -/

section make

variable {type : FileType} {d : Disk} {ino : ℕ}

theorem Tree.kept_newInode (h : Tree T s) (hd : d.node = s.disk.node) (hi : T i) :
    Kept s { s.newInode dir type with disk := d } i := by
  obtain ⟨hlive, hdent, hino, htype, href⟩ := newInode_of_ne dir type (Nat.ne_of_lt (h.lt_next hi))
  have hopens : ({ s.newInode dir type with disk := d } : State).opens i = s.opens i := by
    simp only [opens, handles_newInode]
  refine ⟨⟨hlive.mpr, hino, htype, ?_, ?_⟩, hdent, ?_⟩
  · rw [hopens]
    exact Int.add_le_add_right href _
  · simp only [Disk.typeOf, hd]
  · simp only [Disk.slots, hd]

/-- The state after `tfs_mknod`. -/
def made (s : State) (dir : ℕ) (name : Name) (type : FileType) (d : Disk) (ino : ℕ) : State :=
  ({ s.newInode dir type with disk := d } : State).linkInode dir name s.next ino

theorem made_eq : made s dir name type d ino =
    (({ s.newInode dir type with disk := d } : State).alter s.next fun x =>
      { x with diskIno := ino }).setDentries dir
        (⟨name, s.next, true⟩ :: (s.newInode dir type).dentries dir) := linkInode_eq

theorem made_of_ne (hi : i ≠ s.next) : ((made s dir name type d ino).live i ↔ s.live i) ∧
    (made s dir name type d ino).diskIno i = s.diskIno i ∧
    (made s dir name type d ino).type i = s.type i ∧
    s.refcnt i ≤ (made s dir name type d ino).refcnt i := by
  obtain ⟨hlive, _, hino, htype, href⟩ := newInode_of_ne dir type hi
  have halter : (({ s.newInode dir type with disk := d } : State).alter s.next fun x =>
      { x with diskIno := ino }).inode i = (s.newInode dir type).inode i := inode_alter_of_ne hi
  rw [made_eq]
  refine ⟨live_setDentries.trans (live_alter.trans hlive), ?_, ?_, ?_⟩
  · rw [diskIno_setDentries, ← hino]
    simp only [State.diskIno, halter]
  · rw [type_setDentries, ← htype]
    simp only [State.type, halter]
  · rw [refcnt_setDentries]
    simp only [State.refcnt, halter]
    exact href

theorem dentries_made_of_ne (hi : i ≠ s.next) (hne : i ≠ dir) :
    (made s dir name type d ino).dentries i = s.dentries i := by
  rw [made_eq, dentries_setDentries_of_ne hne, ← (newInode_of_ne dir type hi).2.1]
  exact dentries_alter fun _ => rfl

theorem dentries_made (hdir : s.live dir) (hne : dir ≠ s.next) :
    (made s dir name type d ino).dentries dir = ⟨name, s.next, true⟩ :: s.dentries dir := by
  obtain ⟨hlive, hdent, _⟩ := newInode_of_ne dir type hne
  have hlive' : (({ s.newInode dir type with disk := d } : State).alter s.next fun x =>
      { x with diskIno := ino }).live dir := live_alter.mpr (hlive.mpr hdir)
  rw [made_eq, dentries_setDentries_self hlive', hdent]

theorem inode_made_new (hne : dir ≠ s.next) : (made s dir name type d ino).inode s.next =
    some ⟨type, ino, ownRefs type, newDentries type dir s.next⟩ := by
  rw [made_eq, setDentries_eq, inode_alter_of_ne hne.symm, inode_alter_self]
  exact congrArg _ inode_newInode_self

@[simp] theorem handles_made : (made s dir name type d ino).handles = s.handles := by
  rw [made_eq, handles_setDentries, handles_alter]
  exact handles_newInode

@[simp] theorem disk_made : (made s dir name type d ino).disk = d := by
  rw [made_eq, disk_setDentries, disk_alter]

@[simp] theorem next_made : (made s dir name type d ino).next = s.next + 1 := by
  rw [made_eq, next_setDentries, next_alter]
  exact next_newInode

theorem stays_made (h : Tree T s) (hi : T i) (hd : d.typeOf (s.diskIno i) = s.disk.typeOf (s.diskIno i)) :
    Stays s (made s dir name type d ino) i := by
  obtain ⟨hlive, hino, htype, href⟩ := made_of_ne (Nat.ne_of_lt (h.lt_next hi))
  refine ⟨hlive.mpr, hino, htype, ?_, by rw [disk_made, hd]⟩
  simp only [opens, handles_made]
  exact Int.add_le_add_right href _

theorem child_newDentries (hs : s.dentries i = newDentries type dir a) : s.child i n = none := by
  rw [State.child, hs, childOf]
  split
  · rfl
  · next hn =>
    cases type with
    | reg => rfl
    | dir => simp [newDentries, lookupDent, Ne.symm (not_or.mp hn).1, Ne.symm (not_or.mp hn).2]

theorem child_made (h : Tree T s) (hname : Proper name) (hi : T i) :
    (made s dir name type d ino).child i n = rebind s.child dir name (some s.next) i n := by
  have hnext := Nat.ne_of_lt (h.lt_next hi)
  rw [rebind, State.child]
  by_cases hid : i = dir
  · subst hid
    rw [dentries_made (h.sound i hi).live hnext, childOf_cons hname]
    simp only [true_and]
    rfl
  · rw [if_neg (fun e => hid e.1), dentries_made_of_ne hnext hid]
    rfl

theorem Tree.opens_next (h : Tree T s) : s.opens s.next = 0 := by
  rw [opens, List.countP_eq_zero]
  intro x hx
  simpa using Nat.ne_of_lt (h.opened x hx)

theorem sound_new (hx : s.inode a = some ⟨type, ino, ownRefs type, newDentries type dir a⟩)
    (hopens : s.opens a = 0) (htypeOf : s.disk.typeOf ino = some type)
    (hslots : s.disk.slots ino = []) : Sound s a where
  live := live_iff.mpr ⟨_, hx⟩
  reg hreg := by
    simp only [State.type, hx] at hreg
    simp only [State.dentries, hx, hreg, newDentries]
  names hdir := by
    simp only [State.type, hx] at hdir
    simp only [State.dentries, hx, hdir, newDentries]
    exact ⟨by simp [dot, dotDot], by simp [dot, dotDot], by simp⟩
  refs := by simp [State.type, State.refcnt, hx, hopens]
  typeOf := by simp only [State.diskIno, State.type, hx, htypeOf]
  slots := by simp [State.diskIno, hx, hslots, slotNames]

/-- The new inode is in the tree, under its name. -/
theorem Tree.make (h : Tree T s) (hdir : T dir) (hname : Proper name)
    (hp : s.disk.typeOf (s.diskIno dir) = some .dir) (hino : s.disk.node ino = none)
    (hfree : lookupSlot name (s.disk.slots (s.diskIno dir)) = none)
    (hd : d = s.disk.created (s.diskIno dir) name type ino) :
    Tree (fun i => T i ∨ i = s.next) (made s dir name type d ino) ∧
      Keeps T s (made s dir name type d ino) (rebind s.child dir name (some s.next)) := by
  have hlt {i : ℕ} (hi : T i) : i ≠ s.next := Nat.ne_of_lt (h.lt_next hi)
  have hnew : (made s dir name type d ino).inode s.next =
      some ⟨type, ino, ownRefs type, newDentries type dir s.next⟩ := inode_made_new (hlt hdir)
  have hnew_ino : (made s dir name type d ino).diskIno s.next = ino := by
    simp only [State.diskIno, hnew]
  have hnew_type : (made s dir name type d ino).type s.next = type := by
    simp only [State.type, hnew]
  have hnew_dents : (made s dir name type d ino).dentries s.next = newDentries type dir s.next := by
    simp only [State.dentries, hnew]
  have hfile {i : ℕ} (hi : T i) : d.file (s.diskIno i) = s.disk.file (s.diskIno i) := by
    rw [hd]
    exact file_created_of_ne (h.diskIno_ne_free hi hino)
  have htypeOf {i : ℕ} (hi : T i) : d.typeOf (s.diskIno i) = s.disk.typeOf (s.diskIno i) := by
    rw [typeOf_eq_file, hfile hi, typeOf_eq_file]
  have hstays {i : ℕ} (hi : T i) : Stays s (made s dir name type d ino) i :=
    stays_made h hi (htypeOf hi)
  have hslots {i : ℕ} (hi : T i) (hid : i ≠ dir) :
      d.slots (s.diskIno i) = s.disk.slots (s.diskIno i) := by
    rw [hd]
    exact slots_created_of_ne (h.diskIno_ne hi hdir hid) (h.diskIno_ne_free hi hino)
  have hlookup : lookupDent name (s.dentries dir) = none := by
    have hentry := h.twin.agree name hdir
    rw [entry, if_pos hp, hfree, State.child, hname.childOf] at hentry
    simpa using hentry.symm
  refine ⟨⟨?_, ?_, ?_, ?_, ?_, ?_⟩, ⟨fun i hi => (hstays hi).diskIno, fun i hi => (hstays hi).type,
    fun i hi => by rw [disk_made, hfile hi], fun i n hi => child_made h hname hi, handles_made⟩⟩
  · refine h.twin.insert hdir (fun ha => hlt ha rfl)
      (fun i hi => hnew_ino.symm ▸ h.diskIno_ne_free hi hino) (fun i hi => (hstays hi).diskIno)
      (fun i hi => (hstays hi).type) ((child_made h hname hdir).trans (if_pos ⟨rfl, rfl⟩))
      (fun i n hi hne => (child_made h hname hi).trans (if_neg hne))
      (fun n => child_newDentries hnew_dents) ?_ (fun i n hi hne => ?_) (fun n => ?_)
    · rw [disk_made, hnew_ino, hnew_type, hd, entry_created hp hino hfree, if_pos rfl]
    · rw [disk_made, hd]
      by_cases hid : i = dir
      · subst hid
        rw [entry_created hp hino hfree, if_neg fun e => hne ⟨rfl, e.symm⟩]
      · exact entry_created_of_ne (h.diskIno_ne hi hdir hid) (h.diskIno_ne_free hi hino)
    · rw [disk_made, hnew_ino, hd, entry_created_new hp hino]
  · rintro i (hi | rfl)
    · by_cases hid : i = dir
      · subst hid
        have hsound := h.sound i hi
        refine (hstays hi).sound_dir hsound (h.type_eq hi hp) ?_ ?_
        · rw [dentries_made hsound.live (hlt hi)]
          exact (hsound.names (h.type_eq hi hp)).cons hname hlookup
        · rw [disk_made, hd]
          exact nodup_slots_created hp hino hfree hsound.slots
      · exact Kept.sound ⟨hstays hi, dentries_made_of_ne (hlt hi) hid, by rw [disk_made, hslots hi hid]⟩
          (h.sound i hi)
    · refine sound_new hnew ?_ ?_ ?_
      · simpa only [opens, handles_made] using h.opens_next
      · rw [disk_made, hd, typeOf_eq_file, file_created_new]
        rfl
      · rw [disk_made, hd, slots_created_new hp hino]
  · exact (hstays h.twin.root_mem).diskIno.trans h.root_ino
  · exact (hstays h.twin.root_mem).type.trans h.root_dir
  · intro i hi
    rw [next_made]
    by_cases hin : i = s.next
    · omega
    · exact Nat.lt_succ_of_lt (h.fresh i ((made_of_ne hin).1.mp hi))
  · rw [handles_made, next_made]
    exact fun x hx => Nat.lt_succ_of_lt (h.opened x hx)

/-- A request that fails changes nothing in the tree. -/
def Fails {α : Type} (T : ℕ → Prop) (s s' : State) (r : Except Errno α) : Prop :=
  (∃ e, r = .error e) ∧ Tree T s' ∧ Keeps T s s' s.child

theorem Tree.fails {α : Type} (h : Tree T s) (e : Errno) : Fails (α := α) T s s (.error e) :=
  ⟨⟨e, rfl⟩, h, Keeps.refl⟩

/-- `tfs_creat` and `tfs_mkdir` -/
theorem Tree.tfsMake (h : Tree T s)
    (hmake : tfsMake s dir name type luck = some (s', r)) (hdir : T dir)
    (hname : name ≠ dot ∧ name ≠ dotDot) (hw : luck.write.Untorn) :
    Fails T s s' r ∨ r = .ok s.next ∧ Tree (fun i => T i ∨ i = s.next) s' ∧
      Keeps T s s' (rebind s.child dir name (some s.next)) := by
  unfold Tmpfs.tfsMake at hmake
  split at hmake
  · cases hmake
    exact .inl (h.fails _)
  · split at hmake
    · cases hmake
    · next hnil =>
      rw [tfsMknod, if_neg hnil] at hmake
      split at hmake
      · cases hmake
        exact .inl (h.fails _)
      · have hino := (newInode_of_ne dir type (Nat.ne_of_lt (h.lt_next hdir))).2.2.1
        simp only [disk_newInode, hino] at hmake
        split at hmake
        · cases hmake
        · next d e hcreate =>
          cases hmake
          have hnode := createNode_error hcreate hw
          have hkept {i : ℕ} (hi : T i) : Kept s { s.newInode dir type with disk := d } i :=
            h.kept_newInode hnode hi
          refine .inl ⟨⟨e, rfl⟩, h.of_kept (fun i => hkept) (fun i hi => ?_) ?_,
            Keeps.of_kept (fun i => hkept) hnode handles_newInode⟩
          · rw [next_newInode]
            by_cases hin : i = s.next
            · omega
            · exact Nat.lt_succ_of_lt (h.fresh i ((newInode_of_ne dir type hin).1.mp hi))
          · rw [handles_newInode, next_newInode]
            exact fun x hx => Nat.lt_succ_of_lt (h.opened x hx)
        · next d ino hcreate =>
          split at hmake
          · cases hmake
          · cases hmake
            obtain ⟨hp, hfree, hlookup, hd⟩ := createNode_ok hcreate hw
            exact .inr ⟨rfl, h.make hdir ⟨hnil, hname.1, hname.2⟩ hp hfree hlookup hd⟩

end make

end Starfish.Tmpfs
