import Starfish.Tmpfs.Trees

/-!
# Starfish.Tmpfs.Moves

Unlink and rename on the tree: an entry goes, and with it its inode, or the inode gets another
name.
-/

namespace Starfish.Tmpfs

open State Disk Option

variable {T : ℕ → Prop} {s s' : State} {i p q a b : ℕ} {m n l : Name} {d : Disk}

theorem tfsRemove_eq (hm : m ≠ []) (hx : lookupDent m (s.dentries p) = some x)
    (hempty : ∀ n, s.child x.inode n = none) : tfsRemove s p m = dropOld s p x := by
  have hfull : ¬ (s.typeOf x.inode = some .dir ∧
      ∃ e ∈ s.dentries x.inode, e.name ≠ dot ∧ e.name ≠ dotDot) := by
    rintro ⟨_, e, he, hdot, hdotDot⟩
    have hnone := hempty e.name
    rw [State.child, childOf, if_neg (fun h => h.elim hdot hdotDot), map_eq_none_iff,
      lookupDent_eq_none] at hnone
    exact hnone (List.mem_map_of_mem he)
  rw [tfsRemove, if_neg hm, tfsLookup_eq, hx]
  simp only [if_neg hfull]
  rfl

/-- The entry `x` of `p` goes, and its inode with it. -/
theorem dropOld_ok (h : dropOld s p x = some (s', r))
    (href : ownRefs (s.type x.inode) ≤ s.refcnt x.inode) :
    r = .ok () ∧ s'.disk = s.disk ∧ s'.handles = s.handles ∧ s'.next = s.next ∧
      (∀ i, s'.live i → s.live i) ∧
      (∀ i, i ≠ x.inode → (s'.live i ↔ s.live i) ∧ s'.diskIno i = s.diskIno i ∧
        s'.type i = s.type i ∧ s'.refcnt i = s.refcnt i) ∧
      (∀ i, i ≠ x.inode → i ≠ p → s'.dentries i = s.dentries i) ∧
      (p ≠ x.inode → s.live p → s'.dentries p = (s.dentries p).erase x) := by
  unfold dropOld at h
  split at h
  · cases h
  · next s1 e hput => exact absurd (putInode_ok hput href) (by simp)
  · next s1 _ hput =>
    cases h
    obtain ⟨hinode, hdisk, hhandles, hnext, hlive⟩ := putInode_frame hput
    refine ⟨rfl, by simp [hdisk], by simp [hhandles], by simp [hnext],
      fun i hi => hlive i (live_setDentries.mp hi), fun i hi => ?_, fun i hi hip => ?_,
      fun hpx hlive' => ?_⟩
    · obtain ⟨h1, _, h2, h3, h4⟩ := fields_of_inode (hinode i hi)
      exact ⟨live_setDentries.trans h1, by simp [h2], by simp [h3], by simp [h4]⟩
    · rw [dentries_setDentries_of_ne hip, (fields_of_inode (hinode i hi)).2.1]
    · obtain ⟨h1, h2, _⟩ := fields_of_inode (hinode p hpx)
      rw [dentries_setDentries_self (h1.mpr hlive'), h2]

/-- `__tmpfs_unlink` behind its checks. -/
theorem Tree.remove (h : Tree T s) (hp : T p) (hc : s.child p m = some a)
    (hempty : ∀ n, s.child a n = none)
    (hfind : findDirent m (s.disk.slots (s.diskIno p)) 0 = some (k, e))
    (hd : d = s.disk.unlinked (s.diskIno p) k (s.diskIno a))
    (hremove : tfsRemove { s with disk := d } p m = some (s', r)) :
    r = .ok () ∧ Tree (fun i => T i ∧ i ≠ a) s' ∧
      Keeps (fun i => T i ∧ i ≠ a) s s' (rebind s.child p m none) := by
  obtain ⟨hm, hdir, x, hx, rfl, rfl⟩ := h.dent hp hc
  have ha := h.twin.closed hp hc
  have hpa : p ≠ x.inode := by
    intro e
    have hnone := hempty x.name
    rw [← e, hc] at hnone
    cases hnone
  have hino {i : ℕ} (hi : T i) (hia : i ≠ x.inode) : s.diskIno i ≠ s.diskIno x.inode :=
    h.diskIno_ne hi ha hia
  have htypeOf : s.disk.typeOf (s.diskIno p) = some .dir := by rw [(h.sound p hp).typeOf, hdir]
  have href : ownRefs (s.type x.inode) ≤ s.refcnt x.inode := by
    have := (h.sound x.inode ha).refs
    omega
  have hdrop : dropOld { s with disk := d } p x = some (s', r) :=
    (tfsRemove_eq (s := { s with disk := d }) hm.ne_nil hx hempty).symm.trans hremove
  obtain ⟨hr, hdisk, hhandles, hnext, hlive, hfields, hdents, hdents_p⟩ := dropOld_ok hdrop href
  -- the fields do not see the disk
  replace hdisk : s'.disk = d := hdisk
  replace hhandles : s'.handles = s.handles := hhandles
  replace hdents_p : s'.dentries p = (s.dentries p).erase x := hdents_p hpa (h.sound p hp).live
  have hstays {i : ℕ} (hi : T i) (hia : i ≠ x.inode) : Stays s s' i := by
    obtain ⟨h1, h2, h3, h4⟩ := hfields i hia
    refine ⟨h1.mpr, h2, h3, ?_, ?_⟩
    · rw [opens, opens, hhandles, h4]
      exact Int.le_refl _
    · rw [hdisk, hd]
      exact typeOf_unlinked_of_ne (hino hi hia)
  have hchild {i : ℕ} (n : Name) (hia : i ≠ x.inode) :
      s'.child i n = rebind s.child p x.name none i n := by
    rw [rebind, State.child]
    by_cases hip : i = p
    · subst hip
      have hnodup := ((h.sound i hp).names hdir).nodup
      rw [hdents_p, childOf_erase hnodup hx]
      simp only [true_and]
      rfl
    · rw [if_neg (fun e => hip e.1), hdents i hia hip]
      rfl
  have hroot : root ≠ x.inode := fun e => h.twin.not_root hp (e ▸ hc)
  refine ⟨hr, ⟨?_, ?_, ?_, ?_, fun i hi => hnext ▸ h.fresh i (hlive i hi), ?_⟩,
    ⟨fun i hi => (hstays hi.1 hi.2).diskIno, fun i hi => (hstays hi.1 hi.2).type, fun i hi => ?_,
      fun i n hi => hchild n hi.2, hhandles⟩⟩
  · refine h.twin.remove hp hc ((hchild _ hpa).trans (if_pos ⟨rfl, rfl⟩)) ?_
      (fun i hi hia => (hstays hi hia).diskIno) (fun i hi hia => (hstays hi hia).type)
      (fun i n _ hia hne => (hchild n hia).trans (if_neg hne)) (fun i n hi hia hne => ?_)
    · rw [hdisk, hd, entry_unlinked htypeOf hfind (h.sound p hp).slots (hino hp hpa), if_pos rfl]
    · rw [hdisk, hd]
      by_cases hip : i = p
      · subst hip
        rw [entry_unlinked htypeOf hfind (h.sound i hp).slots (hino hp hpa),
          if_neg fun e => hne ⟨rfl, e.symm⟩]
      · exact entry_unlinked_of_ne (h.diskIno_ne hi hp hip) (hino hi hia)
  · rintro i ⟨hi, hia⟩
    by_cases hip : i = p
    · subst hip
      have hsound := h.sound i hp
      refine (hstays hi hia).sound_dir hsound hdir ?_ ?_
      · rw [hdents_p]
        exact (hsound.names hdir).erase hm
      · rw [hdisk, hd]
        exact nodup_slots_unlinked htypeOf hfind hsound.slots (hino hp hpa)
    · refine Kept.sound ⟨hstays hi hia, hdents i hia hip, ?_⟩ (h.sound i hi)
      rw [hdisk, hd]
      exact slots_unlinked_of_ne (h.diskIno_ne hi hp hip) (hino hi hia)
  · exact (hstays h.twin.root_mem hroot).diskIno.trans h.root_ino
  · exact (hstays h.twin.root_mem hroot).type.trans h.root_dir
  · rw [hhandles, hnext]
    exact h.opened
  · rw [hdisk, hd]
    exact file_unlinked_of_ne (hino hi.1 hi.2)

/-! ## Rename -/

/-- The entry `x` of `p` goes, and its inode has another reference. -/
theorem dropOld_more (h : dropOld s p x = some (s', r)) (href : 1 < s.refcnt x.inode) :
    r = .ok () ∧ s' = (s.addRefs x.inode (-1)).setDentries p ((s.dentries p).erase x) := by
  unfold dropOld at h
  split at h
  · cases h
  · next s1 e hput =>
    obtain ⟨_, ⟨_, _, hr⟩ | ⟨hone, _⟩ | ⟨hone, _⟩⟩ := putInode_cases hput
    · cases hr
    · omega
    · omega
  · next s1 _ hput =>
    cases h
    obtain ⟨_, ⟨_, rfl, _⟩ | ⟨hone, _⟩ | ⟨hone, _⟩⟩ := putInode_cases hput
    · rw [dentries_addRefs]
      exact ⟨rfl, rfl⟩
    · omega
    · omega

/-- `tmpfs_rename` with its new entry: `ds` are the entries of `q` now, and the inode `a` has a
reference for it. -/
structure Linked (T : ℕ → Prop) (s s' : State) (q a : ℕ) (ds : List Dent) : Prop where
  live : ∀ i, T i → s.live i → s'.live i
  diskIno : ∀ i, T i → s'.diskIno i = s.diskIno i
  type : ∀ i, T i → s'.type i = s.type i
  refcnt : ∀ i, T i → s'.refcnt i = s.refcnt i + if i = a then 1 else 0
  dentries : ∀ i, T i → s'.dentries i = if i = q then ds else s.dentries i
  handles : s'.handles = s.handles
  next : s'.next = s.next
  of_live : ∀ i, s'.live i → s.live i

/-- The durable tree after the rename, as the inodes `T` see it. -/
structure DiskMoved (T : ℕ → Prop) (s : State) (d : Disk) (p : ℕ) (m : Name) (q : ℕ) (l : Name)
    (a : ℕ) : Prop where
  file : ∀ i, T i → d.file (s.diskIno i) = s.disk.file (s.diskIno i)
  slots : ∀ i, T i → (slotNames (d.slots (s.diskIno i))).Nodup
  entry : ∀ i n, T i → d.entry (s.diskIno i) n =
    if i = p ∧ n = m then none
    else if i = q ∧ n = l then some (s.diskIno a, s.type a) else s.disk.entry (s.diskIno i) n

/-- Both trees after the rename. -/
structure Renamed (T : ℕ → Prop) (s s' : State) (p : ℕ) (m : Name) (q : ℕ) (l : Name) (a : ℕ) :
    Prop where
  stays : ∀ i, T i → Stays s s' i
  child : ∀ i n, T i → s'.child i n = rebind (rebind s.child q l (some a)) p m none i n
  disk : DiskMoved T s s'.disk p m q l a
  sound : ∀ i, T i → Sound s' i
  handles : s'.handles = s.handles
  next : s'.next = s.next
  of_live : ∀ i, s'.live i → s.live i

namespace DiskMoved

variable (h : DiskMoved T s d p m q l a)

include h

theorem entry_gone (hp : T p) : d.entry (s.diskIno p) m = none :=
  (h.entry p m hp).trans (if_pos ⟨rfl, rfl⟩)

theorem entry_new (hq : T q) (hne : ¬ (q = p ∧ l = m)) :
    d.entry (s.diskIno q) l = some (s.diskIno a, s.type a) :=
  (h.entry q l hq).trans ((if_neg hne).trans (if_pos ⟨rfl, rfl⟩))

theorem entry_other (hi : T i) (hm : ¬ (i = p ∧ n = m)) (hl : ¬ (i = q ∧ n = l)) :
    d.entry (s.diskIno i) n = s.disk.entry (s.diskIno i) n :=
  (h.entry i n hi).trans ((if_neg hm).trans (if_neg hl))

end DiskMoved

section

variable (h : Renamed T s s' p m q l a)
include h

theorem Renamed.child_gone (hp : T p) : s'.child p m = none :=
  (h.child p m hp).trans (if_pos ⟨rfl, rfl⟩)

theorem Renamed.child_new (hq : T q) (hne : ¬ (q = p ∧ l = m)) : s'.child q l = some a :=
  (h.child q l hq).trans ((if_neg hne).trans (if_pos ⟨rfl, rfl⟩))

theorem Renamed.child_other (hi : T i) (hm : ¬ (i = p ∧ n = m))
    (hl : ¬ (i = q ∧ n = l)) : s'.child i n = s.child i n :=
  (h.child i n hi).trans ((if_neg hm).trans (if_neg hl))

theorem Renamed.keeps : Keeps T s s' (rebind (rebind s.child q l (some a)) p m none) :=
  ⟨fun i hi => (h.stays i hi).diskIno, fun i hi => (h.stays i hi).type, h.disk.file, h.child,
    h.handles⟩

end

theorem Renamed.tree {T' : ℕ → Prop} (hr : Renamed T' s s' p m q l a) (h : Tree T s)
    (hroot : T' root) (htwin : Twin root T' s'.child s'.diskIno s'.type s'.disk.entry) :
    Tree T' s' where
  twin := htwin
  sound := hr.sound
  root_ino := (hr.stays root hroot).diskIno.trans h.root_ino
  root_dir := (hr.stays root hroot).type.trans h.root_dir
  fresh i hi := hr.next ▸ h.fresh i (hr.of_live i hi)
  opened := by rw [hr.handles, hr.next]; exact h.opened

section renamed

variable {T' : ℕ → Prop}

/-- The old entry goes last. -/
theorem Linked.renamed (hl : Linked T' s s1 q x.inode ds) (h : Tree T s)
    (hsub : ∀ i, T' i → T i) (hp : T' p) (ha : T' x.inode) (hm : Proper x.name)
    (hpdir : s.type p = .dir) (hqdir : s.type q = .dir)
    (hx : lookupDent x.name (s.dentries p) = some x)
    (hds : DirNames ds) (hlookup : p = q → lookupDent x.name ds = some x)
    (hchild : ∀ n, childOf ds n = if n = l then some x.inode else s.child q n)
    (hdisk : DiskMoved T' s s1.disk p x.name q l x.inode)
    (hdrop : dropOld s1 p x = some (s', r)) :
    r = .ok () ∧ Renamed T' s s' p x.name q l x.inode := by
  have hlive_a := hl.live x.inode ha (h.sound _ (hsub _ ha)).live
  have href : 1 < s1.refcnt x.inode := by
    have hrefs := (h.sound _ (hsub _ ha)).refs
    have hone : 1 ≤ ownRefs (s.type x.inode) := by cases s.type x.inode <;> decide
    rw [hl.refcnt _ ha, if_pos rfl]
    omega
  obtain ⟨rfl, rfl⟩ := dropOld_more hdrop href
  have hlive_p := hl.live p hp (h.sound p (hsub p hp)).live
  -- the entries of `p` before the old one goes
  have hbefore : DirNames (s1.dentries p) ∧ lookupDent x.name (s1.dentries p) = some x := by
    rw [hl.dentries p hp]
    split
    · next e => exact ⟨hds, hlookup e⟩
    · exact ⟨(h.sound p (hsub p hp)).names hpdir, hx⟩
  have hdents {i : ℕ} : ((s1.addRefs x.inode (-1)).setDentries p ((s1.dentries p).erase x)).dentries
      i = if i = p then (s1.dentries p).erase x else s1.dentries i := by
    split
    · next e => rw [e, dentries_setDentries_self (live_addRefs.mpr hlive_p)]
    · next hne => rw [dentries_setDentries_of_ne hne, dentries_addRefs]
  have hstays {i : ℕ} (hi : T' i) :
      Stays s ((s1.addRefs x.inode (-1)).setDentries p ((s1.dentries p).erase x)) i := by
    refine ⟨fun hlive => ?_, ?_, ?_, ?_, ?_⟩
    · rw [live_setDentries, live_addRefs]
      exact hl.live i hi hlive
    · rw [diskIno_setDentries, diskIno_addRefs, hl.diskIno i hi]
    · rw [type_setDentries, type_addRefs, hl.type i hi]
    · have href_i := hl.refcnt i hi
      rw [refcnt_setDentries, opens, opens, handles_setDentries, handles_addRefs, hl.handles]
      by_cases hia : i = x.inode
      · subst hia
        rw [refcnt_addRefs_self hlive_a, href_i, if_pos rfl]
        omega
      · rw [refcnt_addRefs_of_ne hia, href_i, if_neg hia]
        omega
    · rw [disk_setDentries, disk_addRefs, typeOf_eq_file, hdisk.file i hi, typeOf_eq_file]
  have hchild_before {i : ℕ} (n : Name) (hi : T' i) :
      childOf (s1.dentries i) n = rebind s.child q l (some x.inode) i n := by
    rw [hl.dentries i hi, rebind]
    by_cases hiq : i = q
    · subst hiq
      simp only [if_true, true_and]
      exact hchild n
    · rw [if_neg hiq, if_neg fun e => hiq e.1]
      rfl
  refine ⟨rfl, ⟨fun i => hstays, fun i n hi => ?_, ?_, fun i hi => ?_, ?_, ?_, fun i hi => ?_⟩⟩
  · rw [State.child, hdents, rebind, ← hchild_before n hi]
    by_cases hip : i = p
    · subst hip
      rw [if_pos rfl, childOf_erase hbefore.1.nodup hbefore.2]
      simp only [true_and]
    · rw [if_neg hip, if_neg fun e => hip e.1]
  · rw [disk_setDentries, disk_addRefs]
    exact hdisk
  · have hsound := h.sound i (hsub i hi)
    refine (hstays hi).sound hsound (fun hreg => ?_) (fun hdir => ?_) ?_
    · have hip : i ≠ p := fun e => by rw [e, hpdir] at hreg; cases hreg
      have hiq : i ≠ q := fun e => by rw [e, hqdir] at hreg; cases hreg
      rw [hdents, if_neg hip, hl.dentries i hi, if_neg hiq, hsound.reg hreg]
    · rw [hdents]
      split
      · exact hbefore.1.erase hm
      · rw [hl.dentries i hi]
        split
        · exact hds
        · exact hsound.names hdir
    · rw [disk_setDentries, disk_addRefs]
      exact hdisk.slots i hi
  · rw [handles_setDentries, handles_addRefs, hl.handles]
  · rw [next_setDentries, next_addRefs, hl.next]
  · exact hl.of_live i (live_addRefs.mp (live_setDentries.mp hi))

/-- The new reference and the new entries of `q`, on a state with another disk. -/
theorem linked_setDentries (d : Disk) (ds : List Dent) (hq : s.live q) (ha : s.live a) :
    Linked T s ((({ s with disk := d } : State).addRefs a 1).setDentries q ds) q a ds where
  live _ _ hlive := live_setDentries.mpr (live_addRefs.mpr hlive)
  diskIno i _ := by
    rw [diskIno_setDentries, diskIno_addRefs]
    rfl
  type i _ := by
    rw [type_setDentries, type_addRefs]
    rfl
  refcnt i _ := by
    have ha' : ({ s with disk := d } : State).live a := ha
    rw [refcnt_setDentries]
    split
    · next e =>
      rw [e, refcnt_addRefs_self ha']
      rfl
    · next hne =>
      rw [refcnt_addRefs_of_ne hne, Int.add_zero]
      rfl
  dentries i _ := by
    have hq' : ({ s with disk := d } : State).live q := hq
    split
    · next e => rw [e, dentries_setDentries_self (live_addRefs.mpr hq')]
    · next hne =>
      rw [dentries_setDentries_of_ne hne, dentries_addRefs]
      rfl
  handles := by rw [handles_setDentries, handles_addRefs]
  next := by rw [next_setDentries, next_addRefs]
  of_live i hlive := by
    rw [live_setDentries, live_addRefs] at hlive
    exact hlive

theorem Linked.refs_le (hl : Linked T s s1 q a ds) (h : Tree T s) (hb : T b) (hba : b ≠ a) :
    ownRefs (s1.type b) ≤ s1.refcnt b := by
  have hrefs := (h.sound b hb).refs
  rw [hl.type b hb, hl.refcnt b hb, if_neg hba]
  omega

/-- The replaced file gives up its reference. -/
theorem Linked.put (hl : Linked T s s1 q a ds) (hput : s1.putInode b = some (s', r))
    (href : ownRefs (s1.type b) ≤ s1.refcnt b) :
    r = .ok () ∧ s'.disk = s1.disk ∧ Linked (fun i => T i ∧ i ≠ b) s s' q a ds := by
  obtain ⟨hinode, hdisk, hhandles, hnext, hlive⟩ := putInode_frame hput
  refine ⟨putInode_ok hput href, hdisk, ⟨fun i hi hlive' => ?_, fun i hi => ?_, fun i hi => ?_, fun i hi => ?_,
    fun i hi => ?_, hhandles.trans hl.handles, hnext.trans hl.next,
    fun i hi => hl.of_live i (hlive i hi)⟩⟩
  all_goals obtain ⟨h1, h2, h3, h4, h5⟩ := fields_of_inode (hinode i hi.2)
  · exact h1.mpr (hl.live i hi.1 hlive')
  · rw [h3, hl.diskIno i hi.1]
  · rw [h4, hl.type i hi.1]
  · rw [h5, hl.refcnt i hi.1]
  · rw [h2, hl.dentries i hi.1]

end renamed

/-! ### On the disk -/

theorem Tree.diskMoved (h : Tree T s) (hp : T p) (hq : T q)
    (hpdir : s.disk.typeOf (s.diskIno p) = some .dir)
    (hqdir : s.disk.typeOf (s.diskIno q) = some .dir)
    (hfind : findDirent m (s.disk.slots (s.diskIno p)) 0 = some (k, e))
    (hslot : SlotFor l (s.disk.slots (s.diskIno q)) j) (hne : ¬ (q = p ∧ l = m))
    (hino : e.ino = s.diskIno a) (htype : e.type = s.type a) :
    DiskMoved T s (s.disk.moved (s.diskIno p) k (s.diskIno q) j { e with name := l }) p m q l a := by
  have hne' : ¬ (s.diskIno p = s.diskIno q ∧ m = l) :=
    fun e => hne ⟨(h.twin.key_inj hp hq e.1).symm, e.2.symm⟩
  refine ⟨fun i _ => file_moved, fun i hi => ?_, fun i n hi => ?_⟩
  · exact nodup_slots_moved hpdir hqdir hfind hslot hne' (h.sound p hp).slots
      (h.sound q hq).slots (h.sound i hi).slots
  · have hkey {j : ℕ} (hj : T j) : s.diskIno i = s.diskIno j ↔ i = j :=
      ⟨h.twin.key_inj hi hj, congrArg _⟩
    rw [entry_moved hpdir hqdir hfind hslot hne' (h.sound p hp).slots (h.sound q hq).slots]
    simp only [hkey hp, hkey hq, hino, htype]

theorem DiskMoved.destroy (hd : DiskMoved T s d p m q l a) (h : Tree T s) (hb : T b) :
    DiskMoved (fun i => T i ∧ i ≠ b) s (d.destroyDiskInode (s.diskIno b)) p m q l a where
  file i hi := by
    rw [destroyDiskInode, file_setNode_of_ne (h.diskIno_ne hi.1 hb hi.2), hd.file i hi.1]
  slots i hi := by
    rw [destroyDiskInode, slots_setNode_of_ne (h.diskIno_ne hi.1 hb hi.2)]
    exact hd.slots i hi.1
  entry i n hi := by
    rw [destroyDiskInode, entry_setNode_of_ne (h.diskIno_ne hi.1 hb hi.2), hd.entry i n hi.1]

section

variable (h : Tree T s) (hp : T p) (hq : T q)
include h hp hq

/-- `cxlfs_rename_node` on a name of the tree, to a name that no directory has. -/
theorem Tree.renameNode (hne : ¬ (q = p ∧ l = m))
    (hreg : ∀ b, s.child q l = some b → s.type b = .reg) (hw : w.Untorn)
    (hrename : s.disk.renameNode (s.diskIno p) m (s.diskIno q) l w .whole = some (d, r)) :
    (d = s.disk ∧ ∃ err, r = .error err) ∨
      r = .ok () ∧ s.type q = .dir ∧ ∃ a, s.child p m = some a ∧
        ((s.child q l = none ∧ DiskMoved T s d p m q l a) ∨
          ∃ b, s.child q l = some b ∧ DiskMoved (fun i => T i ∧ i ≠ b) s d p m q l a) := by
  have hne' : ¬ (s.diskIno p = s.diskIno q ∧ m = l) :=
    fun e => hne ⟨(h.twin.key_inj hp hq e.1).symm, e.2.symm⟩
  obtain herr | ⟨hpdir, hqdir, k, e, j, hfind, hslot, hd, hr⟩ := renameNode_cases hrename hw hne'
  · exact .inl herr
  · obtain ⟨a, hc, hino, htype⟩ := h.dirent hp hpdir hfind
    have hmoved := h.diskMoved hp hq hpdir hqdir hfind hslot hne hino htype
    have hqtype := h.type_eq hq hqdir
    have hagree := h.twin.agree l hq
    rw [entry, if_pos hqdir] at hagree
    cases hb : s.child q l with
    | none =>
      rw [hb, map_none, map_eq_none_iff] at hagree
      rw [hagree] at hd
      subst hd
      have hcheck := checkCurrent_ok (hmoved.entry_new hq hne)
      exact .inr ⟨hr.trans (hino ▸ hcheck), hqtype, a, hc, .inl ⟨rfl, hmoved⟩⟩
    | some b =>
      rw [hb] at hagree
      obtain ⟨e', he', hpair⟩ := map_eq_some_iff.mp hagree
      have hino' : e'.ino = s.diskIno b := (Prod.mk.inj hpair).1
      have hbT := h.twin.closed hq hb
      have hba : b ≠ a := by
        rintro rfl
        exact hne (h.twin.unique hq hp hb hc)
      have hqb : q ≠ b := fun e => by
        rw [e, hreg b hb] at hqtype
        cases hqtype
      have hneq : e'.ino ≠ e.ino := by
        rw [hino', hino]
        exact h.diskIno_ne hbT (h.twin.closed hp hc) hba
      rw [he', dropped, if_pos hneq, hino'] at hd
      subst hd
      have hdestroyed := hmoved.destroy h hbT
      have hcheck := checkCurrent_ok (hdestroyed.entry_new ⟨hq, hqb⟩ hne)
      exact .inr ⟨hr.trans (hino ▸ hcheck), hqtype, a, hc, .inr ⟨b, rfl, hdestroyed⟩⟩

/-! ### To a new name -/

/-- `tmpfs_rename` behind its checks, where the new path does not exist. -/
theorem Tree.move (hc : s.child p m = some a)
    (hfree : s.child q l = none) (hl : Proper l) (hqdir : s.type q = .dir)
    (hx : lookupDent m (s.dentries p) = some x) (hdisk : DiskMoved T s d p m q l a)
    (hluck : luck.noDentry = false)
    (hmove : moveDent { s with disk := d } p x q l luck = some (s', r)) :
    r = .ok () ∧ Tree T s' ∧ Keeps T s s' (rebind (rebind s.child q l (some a)) p m none) := by
  obtain ⟨hm, hpdir, x', hx', rfl, rfl⟩ := h.dent hp hc
  obtain rfl : x' = x := some.inj (hx'.symm.trans hx)
  have ha := h.twin.closed hp hc
  have hnone : lookupDent l (s.dentries q) = none := by
    rw [State.child, hl.childOf, map_eq_none_iff] at hfree
    exact hfree
  have hne : ¬ (q = p ∧ l = x'.name) := by
    rintro ⟨rfl, rfl⟩
    rw [hc] at hfree
    cases hfree
  simp only [moveDent, hluck, getInode_eq, dentries_addRefs] at hmove
  have hlinked : Linked T s _ q x'.inode _ := linked_setDentries d
    (⟨l, x'.inode, false⟩ :: s.dentries q) (h.sound q hq).live (h.sound _ ha).live
  have hlookup : p = q → lookupDent x'.name (⟨l, x'.inode, false⟩ :: s.dentries q) = some x' := by
    rintro rfl
    rw [lookupDent_cons, if_neg fun e => hne ⟨rfl, e⟩, hx]
  obtain ⟨hr, hrenamed⟩ := hlinked.renamed (l := l) h (fun _ => id) hp ha hm hpdir hqdir hx
    (((h.sound q hq).names hqdir).cons hl hnone) hlookup (fun n => childOf_cons hl)
    (by rwa [disk_setDentries, disk_addRefs]) hmove
  refine ⟨hr, hrenamed.tree h h.twin.root_mem ?_, hrenamed.keeps⟩
  exact h.twin.move hp hc (hrenamed.child_gone hp) (hrenamed.disk.entry_gone hp)
    (fun i hi => (hrenamed.stays i hi).diskIno) (fun i hi => (hrenamed.stays i hi).type)
    (hrenamed.child_new hq hne) (fun i n hi hm hl => hrenamed.child_other hi hm hl)
    (hrenamed.disk.entry_new hq hne) (fun i n hi hm hl => hrenamed.disk.entry_other hi hm hl)

/-! ### Over another file -/

/-- `tmpfs_rename` behind its checks, where the new path is another file. -/
theorem Tree.replace (hc : s.child p m = some a)
    (hb : s.child q l = some b) (hab : a ≠ b) (hreg : s.type b = .reg)
    (hx : lookupDent m (s.dentries p) = some x) (hy : lookupDent l (s.dentries q) = some y)
    (hdisk : DiskMoved (fun i => T i ∧ i ≠ b) s d p m q l a)
    (hreplace : replaceDent { s with disk := d } p x q y = some (s', r)) :
    r = .ok () ∧ Tree (fun i => T i ∧ i ≠ b) s' ∧
      Keeps (fun i => T i ∧ i ≠ b) s s' (rebind (rebind s.child q l (some a)) p m none) := by
  obtain ⟨hm, hpdir, x', hx', rfl, rfl⟩ := h.dent hp hc
  obtain rfl : x' = x := some.inj (hx'.symm.trans hx)
  obtain ⟨hl, hqdir, y', hy', rfl, rfl⟩ := h.dent hq hb
  obtain rfl : y' = y := some.inj (hy'.symm.trans hy)
  have ha := h.twin.closed hp hc
  have hb' := h.twin.closed hq hb
  have hpb : p ≠ y'.inode := fun e => by
    rw [e, hreg] at hpdir
    cases hpdir
  have hqb : q ≠ y'.inode := fun e => by
    rw [e, hreg] at hqdir
    cases hqdir
  have hne : ¬ (q = p ∧ y'.name = x'.name) := by
    rintro ⟨rfl, e⟩
    rw [e, hc] at hb
    exact hab (some.inj hb)
  have hlinked : Linked T s _ q x'.inode _ := linked_setDentries d
    ((s.dentries q).map fun z => if z = y' then { y' with inode := x'.inode } else z)
    (h.sound q hq).live (h.sound _ ha).live
  simp only [replaceDent, getInode_eq, dentries_addRefs] at hreplace
  split at hreplace
  · cases hreplace
  · next s1 e hput =>
    have hr := (hlinked.put hput (hlinked.refs_le h hb' hab.symm)).1
    cases hr
  · next s1 _ hput =>
    obtain ⟨_, hdisk1, hlinked1⟩ := hlinked.put hput (hlinked.refs_le h hb' hab.symm)
    have hname : ({ y' with inode := x'.inode } : Dent).name = y'.name := rfl
    have hlookup : p = q → lookupDent x'.name ((s.dentries q).map fun z =>
        if z = y' then { y' with inode := x'.inode } else z) = some x' := by
      rintro rfl
      rw [lookupDent_replace hname hy, if_neg fun e => hne ⟨rfl, e.symm⟩, hx]
    have hdisk' : DiskMoved (fun i => T i ∧ i ≠ y'.inode) s s1.disk p x'.name q y'.name x'.inode := by
      rwa [hdisk1, disk_setDentries, disk_addRefs]
    obtain ⟨hr, hrenamed⟩ := hlinked1.renamed (l := y'.name) h (fun _ hi => hi.1) ⟨hp, hpb⟩
      ⟨ha, hab⟩ hm hpdir hqdir hx (((h.sound q hq).names hqdir).replace hname) hlookup
      (fun n => childOf_replace hname hl hy) hdisk' hreplace
    have hroot : root ≠ y'.inode := fun e => h.twin.not_root hq (e ▸ hb)
    refine ⟨hr, hrenamed.tree h ⟨h.twin.root_mem, hroot⟩ ?_, hrenamed.keeps⟩
    exact h.twin.replace hp hc (hrenamed.child_gone ⟨hp, hpb⟩)
      (hrenamed.disk.entry_gone ⟨hp, hpb⟩) hq hpb hqb hab hb
      (fun i hi hib => (hrenamed.stays i ⟨hi, hib⟩).diskIno)
      (fun i hi hib => (hrenamed.stays i ⟨hi, hib⟩).type) (hrenamed.child_new ⟨hq, hqb⟩ hne)
      (fun i n hi hib hm hl => hrenamed.child_other ⟨hi, hib⟩ hm hl) (hrenamed.disk.entry_new ⟨hq, hqb⟩ hne)
      (fun i n hi hib hm hl => hrenamed.disk.entry_other ⟨hi, hib⟩ hm hl)

end

end Starfish.Tmpfs
