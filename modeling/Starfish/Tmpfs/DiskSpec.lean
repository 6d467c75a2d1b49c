import Starfish.Tmpfs.Views

/-!
# Starfish.Tmpfs.DiskSpec

What the operations of CXLFS do to the durable tree, for writes that are not torn: an operation
that fails leaves the disk as it is, and one that succeeds writes the entries it says.
-/

namespace Starfish.Tmpfs

/-- The write of an entry comes to its end, or changes nothing. -/
def WriteResult.Untorn : WriteResult → Prop
  | .whole | .nothing => True
  | .torn _ => False

namespace Disk

variable {d d' : Disk} {p q k j ino i : ℕ} {n m l name : Name} {e x : Dirent}
  {type : FileType} {w clear : WriteResult}

variable {t : FileType}

theorem typeOf_eq_some : d.typeOf p = some t ↔ ∃ n, d.node p = some n ∧ n.type = t := by
  simp [typeOf]

theorem writeDirent_whole (h : d.typeOf p = some t) :
    d.writeDirent p k y .whole = (d.setSlots p (setSlot (d.slots p) k y), true) := by
  obtain ⟨n, hn, _⟩ := typeOf_eq_some.mp h
  simp only [writeDirent, setSlots, slots, hn]

theorem writeDirent_cases (h : d.writeDirent p k y w = (d', b)) (hw : w.Untorn) :
    b = true ∧ d' = d.setSlots p (setSlot (d.slots p) k y) ∨ b = false ∧ d' = d := by
  unfold writeDirent at h
  cases hn : d.node p with
  | none =>
    rw [hn] at h
    cases h
    exact .inr ⟨rfl, rfl⟩
  | some n =>
    rw [hn] at h
    cases w with
    | whole =>
      cases h
      exact .inl ⟨rfl, by simp only [setSlots, slots, hn]⟩
    | nothing =>
      cases h
      exact .inr ⟨rfl, rfl⟩
    | torn slots => exact hw.elim

/-! ### Create -/

theorem allocInode_free (h : d.allocInode = some ino) : d.node ino = none := by
  simpa using List.find?_some h

/-- The disk after `cxlfs_create_node`. -/
def created (d : Disk) (p : ℕ) (name : Name) (type : FileType) (ino : ℕ) : Disk :=
  (d.addNode ino type).setSlots p
    (setSlot (d.slots p) (freeSlot (d.slots p)) (some ⟨ino, type, name⟩))

section created

variable (hp : d.typeOf p = some .dir) (hino : d.node ino = none)

include hp hino

theorem ne_of_free : p ≠ ino := by
  rintro rfl
  rw [typeOf, hino] at hp
  cases hp

theorem entry_created (hname : lookupSlot name (d.slots p) = none) :
    (d.created p name type ino).entry p m =
      if name = m then some (ino, type) else d.entry p m := by
  have htype : (d.addNode ino type).typeOf p = some .dir := by
    rw [addNode, ← hp]
    exact typeOf_setNode_of_ne (ne_of_free hp hino)
  rw [created, entry_setSlots_self htype, lookupSlot_setSlot_free hname, entry, if_pos hp]
  split <;> rfl

theorem entry_created_new : (d.created p name type ino).entry ino m = none := by
  rw [created, entry_setSlots_of_ne (ne_of_free hp hino).symm]
  simp [entry, addNode, setNode, slots, lookupSlot]

theorem nodup_slots_created (hname : lookupSlot name (d.slots p) = none)
    (hnd : (slotNames (d.slots p)).Nodup) :
    (slotNames ((d.created p name type ino).slots p)).Nodup := by
  have htype : ((d.addNode ino type).typeOf p).isSome := by
    have : (d.addNode ino type).typeOf p = d.typeOf p := typeOf_setNode_of_ne (ne_of_free hp hino)
    rw [this, hp]
    rfl
  rw [created, slots_setSlots_self htype]
  exact nodup_setSlot (.inr ⟨hname, rfl⟩) hnd

theorem slots_created_new : (d.created p name type ino).slots ino = [] := by
  rw [created, slots_setSlots_of_ne (ne_of_free hp hino).symm]
  simp [slots, addNode, setNode]

omit hp hino

theorem slots_created_of_ne (hk : k ≠ p) (hk' : k ≠ ino) :
    (d.created p name type ino).slots k = d.slots k := by
  rw [created, slots_setSlots_of_ne hk]
  exact slots_setNode_of_ne hk'

theorem file_created_of_ne (hk : k ≠ ino) : (d.created p name type ino).file k = d.file k := by
  rw [created, file_setSlots]
  exact file_setNode_of_ne hk

theorem typeOf_created_of_ne (hk : k ≠ ino) :
    (d.created p name type ino).typeOf k = d.typeOf k := by
  rw [typeOf_eq_file, file_created_of_ne hk, typeOf_eq_file]

theorem entry_created_of_ne (hk : k ≠ p) (hk' : k ≠ ino) :
    (d.created p name type ino).entry k m = d.entry k m := by
  rw [entry, typeOf_created_of_ne hk', slots_created_of_ne hk hk', entry]

theorem file_created_new : (d.created p name type ino).file ino = some (type, [], d.nextId) := by
  rw [created, file_setSlots]
  simp [file, addNode, setNode]

end created

theorem createNode_ok (h : d.createNode p name type w = some (d', .ok ino)) (hw : w.Untorn) :
    d.typeOf p = some .dir ∧ d.node ino = none ∧ lookupSlot name (d.slots p) = none ∧
      d' = d.created p name type ino := by
  unfold createNode at h
  split at h
  · cases h
  · cases hn : d.node p with
    | none =>
      simp only [hn] at h
      split at h <;> cases h
    | some n =>
      simp only [hn] at h
      split at h
      · cases h
      · next htype =>
        split at h
        · cases h
        · next hfind =>
          split at h
          · cases h
          · next ino' halloc =>
            have hfree := allocInode_free halloc
            have hne : p ≠ ino' := by
              rintro rfl
              rw [hn] at hfree
              cases hfree
            have hslots : (d.addNode ino' type).slots p = d.slots p := slots_setNode_of_ne hne
            have hslots' : d.slots p = n.slots := by simp only [slots, hn]
            split at h
            · next d'' hwrite =>
              cases h
              obtain ⟨_, rfl⟩ | ⟨hb, _⟩ := writeDirent_cases hwrite hw
              · refine ⟨typeOf_eq_some.mpr ⟨n, hn, not_not.mp htype⟩, hfree, ?_, ?_⟩
                · rw [hslots']
                  exact findDirent_eq_none.mp hfind
                · rw [created, ← hslots']
                  exact congrArg _ (by rw [← hslots]; rfl)
              · cases hb
            · cases h

theorem createNode_error (h : d.createNode p name type w = some (d', .error err))
    (hw : w.Untorn) : d'.node = d.node := by
  unfold createNode at h
  split at h
  · cases h
    rfl
  · cases hn : d.node p with
    | none =>
      simp only [hn] at h
      split at h <;> cases h <;> rfl
    | some n =>
      simp only [hn] at h
      split at h
      · cases h
      · split at h
        · cases h
          rfl
        · split at h
          · cases h
            rfl
          · next ino halloc =>
            split at h
            · cases h
            · next d'' hwrite =>
              cases h
              obtain ⟨hb, _⟩ | ⟨_, rfl⟩ := writeDirent_cases hwrite hw
              · cases hb
              · -- the number is given back
                simp only [destroyDiskInode, setNode, Function.update_idem]
                rw [← allocInode_free halloc, Function.update_eq_self]

/-! ### Unlink -/

/-- The disk after `cxlfs_unlink_node`. -/
def unlinked (d : Disk) (p k ino : ℕ) : Disk :=
  (d.setSlots p (setSlot (d.slots p) k none)).destroyDiskInode ino

section unlinked

variable (hp : d.typeOf p = some .dir) (hfind : findDirent name (d.slots p) 0 = some (k, e))
  (hnd : (slotNames (d.slots p)).Nodup)

theorem file_unlinked_of_ne (hi : i ≠ ino) : (d.unlinked p k ino).file i = d.file i := by
  rw [unlinked, destroyDiskInode, file_setNode_of_ne hi, file_setSlots]

theorem typeOf_unlinked_of_ne (hi : i ≠ ino) : (d.unlinked p k ino).typeOf i = d.typeOf i := by
  rw [typeOf_eq_file, file_unlinked_of_ne hi, typeOf_eq_file]

theorem slots_unlinked_of_ne (hi : i ≠ p) (hi' : i ≠ ino) :
    (d.unlinked p k ino).slots i = d.slots i := by
  rw [unlinked, destroyDiskInode, slots_setNode_of_ne hi', slots_setSlots_of_ne hi]

theorem entry_unlinked_of_ne (hi : i ≠ p) (hi' : i ≠ ino) :
    (d.unlinked p k ino).entry i m = d.entry i m := by
  rw [entry, typeOf_unlinked_of_ne hi', slots_unlinked_of_ne hi hi', entry]

include hp hfind hnd

theorem entry_unlinked (hino : p ≠ ino) :
    (d.unlinked p k ino).entry p m = if name = m then none else d.entry p m := by
  rw [unlinked, destroyDiskInode, entry_setNode_of_ne hino, entry_setSlots_self hp,
    lookupSlot_clear hfind hnd, entry, if_pos hp]
  split <;> rfl

theorem nodup_slots_unlinked (hino : p ≠ ino) :
    (slotNames ((d.unlinked p k ino).slots p)).Nodup := by
  rw [unlinked, destroyDiskInode, slots_setNode_of_ne hino, slots_setSlots_self (by rw [hp]; rfl)]
  exact nodup_clear hfind hnd

end unlinked

theorem unlinkNode_ok (h : d.unlinkNode p name w = (d', .ok ())) (hw : w.Untorn) :
    d.typeOf p = some .dir ∧ ∃ k e, findDirent name (d.slots p) 0 = some (k, e) ∧
      d' = d.unlinked p k e.ino := by
  unfold unlinkNode at h
  cases hn : d.node p with
  | none =>
    simp only [hn] at h
    cases h
  | some n =>
    simp only [hn] at h
    split at h
    · cases h
    · next htype =>
      split at h
      · cases h
      · next k e hfind =>
        split at h
        · next d'' hwrite =>
          cases h
          obtain ⟨_, rfl⟩ | ⟨hb, _⟩ := writeDirent_cases hwrite hw
          · refine ⟨typeOf_eq_some.mpr ⟨n, hn, not_not.mp htype⟩, k, e, ?_, rfl⟩
            simpa only [slots, hn] using hfind
          · cases hb
        · cases h

theorem unlinkNode_error (h : d.unlinkNode p name w = (d', .error err))
    (hw : w.Untorn) : d' = d := by
  unfold unlinkNode at h
  split at h
  · cases h
    rfl
  · split at h
    · cases h
      rfl
    · split at h
      · cases h
        rfl
      · split at h
        · cases h
        · next d'' hwrite =>
          cases h
          obtain ⟨hb, _⟩ | ⟨_, rfl⟩ := writeDirent_cases hwrite hw
          · cases hb
          · rfl

/-! ### Rename -/

/-- The disk after both entries are written in `cxlfs_rename_node`. -/
def moved (d : Disk) (p k q j : ℕ) (x : Dirent) : Disk :=
  let d' := d.setSlots q (setSlot (d.slots q) j (some x))
  d'.setSlots p (setSlot (d'.slots p) k none)

section moved

@[simp] theorem file_moved : (d.moved p k q j x).file i = d.file i := by
  simp only [moved, file_setSlots]

variable (hp : d.typeOf p = some .dir) (hq : d.typeOf q = some .dir)
  (hfind : findDirent name (d.slots p) 0 = some (k, e)) (hslot : SlotFor x.name (d.slots q) j)
  (hne : ¬ (p = q ∧ name = x.name)) (hndp : (slotNames (d.slots p)).Nodup)
  (hndq : (slotNames (d.slots q)).Nodup)

include hp hq hfind hslot hne hndp hndq

/-- The old entry is still in its slot when it is cleared. -/
theorem findDirent_written :
    findDirent name ((d.setSlots q (setSlot (d.slots q) j (some x))).slots p) 0 = some (k, e) ∧
      (slotNames ((d.setSlots q (setSlot (d.slots q) j (some x))).slots p)).Nodup := by
  by_cases hpq : p = q
  · subst hpq
    rw [slots_setSlots_self (by rw [hp]; rfl)]
    have hname : x.name ≠ name := fun e => hne ⟨rfl, e.symm⟩
    exact ⟨findDirent_setSlot hfind (by simpa using hslot.ne hfind hname) hname,
      nodup_setSlot hslot hndq⟩
  · rw [slots_setSlots_of_ne hpq]
    exact ⟨hfind, hndp⟩

theorem entry_moved : (d.moved p k q j x).entry i m =
    if i = p ∧ m = name then none
    else if i = q ∧ m = x.name then some (x.ino, x.type) else d.entry i m := by
  obtain ⟨hfind', hnd'⟩ := findDirent_written hp hq hfind hslot hne hndp hndq
  -- the first write
  have hwritten : (d.setSlots q (setSlot (d.slots q) j (some x))).entry i m =
      if i = q ∧ m = x.name then some (x.ino, x.type) else d.entry i m := by
    by_cases hi : i = q
    · subst hi
      rw [entry_setSlots_self hq, lookupSlot_setSlot hslot hndq, entry, if_pos hq]
      by_cases hm : m = x.name
      · rw [if_pos hm.symm, if_pos ⟨rfl, hm⟩]
        rfl
      · rw [if_neg (Ne.symm hm), if_neg (fun e => hm e.2)]
    · rw [entry_setSlots_of_ne hi, if_neg (fun e => hi e.1)]
  rw [← hwritten, moved]
  by_cases hi : i = p
  · subst hi
    rw [entry_setSlots_self (by rw [typeOf_setSlots, hp]), lookupSlot_clear hfind' hnd']
    by_cases hm : m = name
    · rw [if_pos hm.symm, if_pos ⟨rfl, hm⟩]
      rfl
    · rw [if_neg (Ne.symm hm), if_neg (fun e => hm e.2), entry, typeOf_setSlots, if_pos hp]
  · rw [entry_setSlots_of_ne hi, if_neg (fun e => hi e.1)]

theorem nodup_slots_moved (hi : (slotNames (d.slots i)).Nodup) :
    (slotNames ((d.moved p k q j x).slots i)).Nodup := by
  obtain ⟨hfind', hnd'⟩ := findDirent_written hp hq hfind hslot hne hndp hndq
  rw [moved]
  by_cases hip : i = p
  · subst hip
    rw [slots_setSlots_self (by rw [typeOf_setSlots, hp]; rfl)]
    exact nodup_clear hfind' hnd'
  · rw [slots_setSlots_of_ne hip]
    by_cases hiq : i = q
    · subst hiq
      rw [slots_setSlots_self (by rw [hq]; rfl)]
      exact nodup_setSlot hslot hndq
    · rwa [slots_setSlots_of_ne hiq]

end moved

theorem checkCurrent_ok (h : d.entry p name = some (ino, t)) :
    d.checkCurrent p name ino = .ok () := by
  unfold entry at h
  split at h
  · obtain ⟨e, he, hpair⟩ := Option.map_eq_some_iff.mp h
    cases hpair
    have hn : (d.node p).bind (fun n => findDirent name n.slots 0) =
        findDirent name (d.slots p) 0 := by
      unfold slots
      cases d.node p <;> rfl
    rw [checkCurrent, hn]
    split
    · rfl
    · split
      · next hnone =>
        rw [findDirent_eq_none.mp hnone] at he
        cases he
      · next k e' hfind =>
        rw [lookupSlot_of_findDirent hfind] at he
        cases he
        exact if_neg fun h => h rfl
  · cases h

/-- The last step of `cxlfs_rename_node`: the replaced file goes. -/
def dropped (d : Disk) (replaced : Option Dirent) (ino : ℕ) : Disk :=
  match replaced with
  | none => d
  | some e => if e.ino ≠ ino then d.destroyDiskInode e.ino else d

theorem moveDirent_cases (h : d.moveDirent p k e q j replaced m w .whole = (d', r)) (hw : w.Untorn)
    (hp : d.typeOf p = some .dir) (hne : ¬ (p = q ∧ k = j)) :
    d' = d ∧ r = .error .io ∨ d' = (d.moved p k q j { e with name := m }).dropped replaced e.ino ∧
        r = d'.checkCurrent q m e.ino := by
  unfold moveDirent at h
  split at h
  · next d1 hwrite =>
    cases h
    obtain ⟨hb, _⟩ | ⟨_, rfl⟩ := writeDirent_cases hwrite hw
    · cases hb
    · exact .inl ⟨rfl, rfl⟩
  · next d1 hwrite =>
    obtain ⟨_, rfl⟩ | ⟨hb, _⟩ := writeDirent_cases hwrite hw
    · simp only [if_neg hne, writeDirent_whole (typeOf_setSlots.trans hp)] at h
      cases h
      exact .inr ⟨by cases replaced <;> rfl, by cases replaced <;> rfl⟩
    · cases hb

/-- `cxlfs_rename_node`, where the old entry is cleared when the new one is written. -/
theorem renameNode_cases (h : d.renameNode p name q m w .whole = some (d', r)) (hw : w.Untorn)
    (hne : ¬ (p = q ∧ name = m)) :
    (d' = d ∧ ∃ err, r = .error err) ∨ d.typeOf p = some .dir ∧ d.typeOf q = some .dir ∧ ∃ k e j,
        findDirent name (d.slots p) 0 = some (k, e) ∧ SlotFor m (d.slots q) j ∧
        d' = (d.moved p k q j { e with name := m }).dropped (lookupSlot m (d.slots q)) e.ino ∧
        r = d'.checkCurrent q m e.ino := by
  unfold renameNode at h
  cases hn : d.node p with
  | none =>
    simp only [hn] at h
    cases h
    exact .inl ⟨rfl, _, rfl⟩
  | some n =>
    simp only [hn] at h
    split at h
    · cases h
      exact .inl ⟨rfl, _, rfl⟩
    · next htype =>
      have hp := typeOf_eq_some.mpr ⟨n, hn, not_not.mp htype⟩
      have hslots : d.slots p = n.slots := by simp only [slots, hn]
      split at h
      · cases h
        exact .inl ⟨rfl, _, rfl⟩
      · next k e hfind =>
        rw [← hslots] at hfind
        cases hn' : d.node q with
        | none =>
          simp only [hn'] at h
          cases h
          exact .inl ⟨rfl, _, rfl⟩
        | some n' =>
          simp only [hn'] at h
          split at h
          · cases h
          · next htype' =>
            have hq := typeOf_eq_some.mpr ⟨n', hn', not_not.mp htype'⟩
            have hslots' : d.slots q = n'.slots := by simp only [slots, hn']
            rw [← hslots'] at h
            -- the two slots differ, because the two names do
            have hdiff {j : ℕ} (hslot : SlotFor m (d.slots q) j) : ¬ (p = q ∧ k = j) := by
              rintro ⟨rfl, rfl⟩
              exact hslot.ne hfind (fun e => hne ⟨rfl, e.symm⟩) rfl
            split at h
            · next j e' hfind' =>
              have hslot : SlotFor m (d.slots q) j := .inl ⟨e', hfind'⟩
              obtain ⟨rfl, rfl⟩ | ⟨rfl, rfl⟩ :=
                moveDirent_cases (Option.some.inj h) hw hp (hdiff hslot)
              · exact .inl ⟨rfl, _, rfl⟩
              · rw [lookupSlot_of_findDirent hfind']
                exact .inr ⟨hp, hq, k, e, j, hfind, hslot, rfl, rfl⟩
            · next hfind' =>
              have hslot : SlotFor m (d.slots q) (freeSlot (d.slots q)) :=
                .inr ⟨findDirent_eq_none.mp hfind', rfl⟩
              obtain ⟨rfl, rfl⟩ | ⟨rfl, rfl⟩ :=
                moveDirent_cases (Option.some.inj h) hw hp (hdiff hslot)
              · exact .inl ⟨rfl, _, rfl⟩
              · rw [findDirent_eq_none.mp hfind']
                exact .inr ⟨hp, hq, k, e, _, hfind, hslot, rfl, rfl⟩

/-! ### Data -/

theorem write_cases (h : d.write ino offset bs room = (d', r)) :
    d' = d ∨ ∃ n data, d.node ino = some n ∧ d' = d.setNode ino (some { n with data := data }) := by
  unfold write at h
  split at h
  · cases h
    exact .inl rfl
  · next n hn =>
    split at h
    · cases h
      exact .inl rfl
    · cases h
      exact .inr ⟨n, _, hn, rfl⟩

/-- The data of a node are neither its type nor its entries. -/
theorem typeOf_slots_setNode {n : DiskNode} (hn : d.node ino = some n) (k : ℕ) :
    (d.setNode ino (some { n with data := data })).typeOf k = d.typeOf k ∧
      (d.setNode ino (some { n with data := data })).slots k = d.slots k := by
  by_cases hk : k = ino
  · subst hk
    simp [typeOf, slots, setNode, hn]
  · exact ⟨typeOf_setNode_of_ne hk, slots_setNode_of_ne hk⟩

/-- They are not its identity either. -/
theorem file_id_setNode {n : DiskNode} {id : ℕ} (hn : d.node ino = some n)
    (h : d.file k = some (type, data, id)) :
    ∃ type' data'', (d.setNode ino (some { n with data := data' })).file k =
      some (type', data'', id) := by
  by_cases hk : k = ino
  · subst hk
    rw [file, hn] at h
    cases h
    exact ⟨n.type, data', by simp [file, setNode]⟩
  · exact ⟨type, data, by rw [file_setNode_of_ne hk, h]⟩

end Disk

end Starfish.Tmpfs
