import Mathlib.Data.List.Nodup
import Mathlib.Tactic.SplitIfs
import Starfish.Tmpfs.Model
import Starfish.Twin

/-!
# Starfish.Tmpfs.Views

The two trees as tables of names: what a name stands for in a directory in memory, and in a
durable one, and how the operations on the lists behind them change the tables.
-/

namespace Starfish.Tmpfs

open List Dent

/-! ## Entries in memory -/

section dents

variable {ds : List Dent} {d : Dent} {n : Name}

@[simp] def lookupDent (n : Name) (ds : List Dent) : Option Dent := ds.find? fun d => d.name = n

theorem lookupDent_cons : lookupDent n (d :: ds) =
    if d.name = n then some d else lookupDent n ds := by
  by_cases hd : d.name = n <;> simp [hd]

theorem lookupDent_eq_none : lookupDent n ds = none ↔ n ∉ ds.map name := by
  simp

theorem name_of_lookupDent (h : lookupDent n ds = some d) : d.name = n := by
  simpa using find?_some h

theorem mem_of_lookupDent (h : lookupDent n ds = some d) : d ∈ ds := List.mem_of_find?_eq_some h

theorem lookupDent_erase (hnd : (ds.map name).Nodup) (h : lookupDent d.name ds = some d) :
    lookupDent n (ds.erase d) = if n = d.name then none else lookupDent n ds := by
  induction ds with
  | nil => simp
  | cons x ds ih =>
    obtain ⟨hx, hnd'⟩ := nodup_cons.mp hnd
    by_cases hxd : x = d
    · subst hxd
      rw [erase_cons_head, lookupDent_cons]
      by_cases hn : n = x.name
      · rw [if_pos hn, lookupDent_eq_none, hn]
        exact hx
      · rw [if_neg hn, if_neg (Ne.symm hn)]
    · have hname : x.name ≠ d.name := by
        intro e
        rw [lookupDent_cons, if_pos e] at h
        exact hxd (Option.some.inj h)
      rw [lookupDent_cons, if_neg hname] at h
      rw [erase_cons_tail (by simpa using hxd), lookupDent_cons, lookupDent_cons, ih hnd' h]
      by_cases hn : n = d.name
      · rw [if_pos hn, if_pos hn, if_neg (hn ▸ hname)]
      · rw [if_neg hn, if_neg hn]

theorem nodup_erase (hnd : (ds.map name).Nodup) : ((ds.erase d).map name).Nodup :=
  hnd.sublist (erase_sublist.map _)

theorem lookupDent_map {f : Dent → Dent} (hf : ∀ x, (f x).name = x.name) :
    lookupDent n (ds.map f) = (lookupDent n ds).map f := by
  induction ds with
  | nil => rfl
  | cons x ds ih =>
    rw [map_cons, lookupDent_cons, lookupDent_cons, hf x, ih]
    split <;> rfl

/-- An entry that is found is replaced by one of the same name. -/
theorem lookupDent_replace (hname : new.name = d.name) (h : lookupDent d.name ds = some d) :
    lookupDent n (ds.map fun x => if x = d then new else x) =
      if n = d.name then some new else lookupDent n ds := by
  rw [lookupDent_map fun x => by split <;> simp [*]]
  by_cases hn : n = d.name
  · rw [if_pos hn, hn, h]
    simp
  · rw [if_neg hn]
    cases hx : lookupDent n ds with
    | none => rfl
    | some x =>
      have hxd : x ≠ d := fun e => hn (e ▸ (name_of_lookupDent hx).symm)
      rw [Option.map_some, if_neg hxd]

theorem map_name_replace (hname : new.name = d.name) :
    (ds.map fun x => if x = d then new else x).map name = ds.map name := by
  rw [map_map]
  refine map_congr_left fun x _ => ?_
  simp only [Function.comp_apply]
  split <;> simp [*]

/-- The names of a directory: `.` and `..` are not in the tree. -/
def childOf (ds : List Dent) (n : Name) : Option ℕ :=
  if n = dot ∨ n = dotDot then none else (lookupDent n ds).map Dent.inode

/-- A name of an entry in the tree. -/
structure Proper (n : Name) : Prop where
  ne_nil : n ≠ []
  ne_dot : n ≠ dot
  ne_dotDot : n ≠ dotDot

theorem Proper.childOf (h : Proper n) : childOf ds n = (lookupDent n ds).map inode :=
  if_neg fun e => e.elim h.ne_dot h.ne_dotDot

theorem childOf_cons (h : Proper d.name) :
    childOf (d :: ds) n = if n = d.name then some d.inode else childOf ds n := by
  by_cases hn : n = d.name
  · rw [hn, h.childOf, lookupDent_cons, if_pos rfl, if_pos rfl]
    rfl
  · rw [if_neg hn, childOf, childOf, lookupDent_cons, if_neg (Ne.symm hn)]

theorem childOf_erase (hnd : (ds.map name).Nodup) (h : lookupDent d.name ds = some d) :
    childOf (ds.erase d) n = if n = d.name then none else childOf ds n := by
  rw [childOf, childOf, lookupDent_erase hnd h]
  split_ifs <;> rfl

theorem childOf_replace (hname : new.name = d.name) (hproper : Proper d.name)
    (h : lookupDent d.name ds = some d) :
    childOf (ds.map fun x => if x = d then new else x) n =
      if n = d.name then some new.inode else childOf ds n := by
  by_cases hn : n = d.name
  · rw [if_pos hn, hn, hproper.childOf, lookupDent_replace hname h, if_pos rfl]
    rfl
  · rw [if_neg hn, childOf, childOf, lookupDent_replace hname h, if_neg hn]

/-- The entries of a directory in the tree. -/
structure DirNames (ds : List Dent) : Prop where
  nodup : (ds.map Dent.name).Nodup
  named : [] ∉ ds.map Dent.name
  dot_mem : dot ∈ ds.map Dent.name

namespace DirNames

theorem cons (h : DirNames ds) (hd : Proper d.name) (hnone : lookupDent d.name ds = none) :
    DirNames (d :: ds) where
  nodup := nodup_cons.mpr ⟨lookupDent_eq_none.mp hnone, h.nodup⟩
  named := by
    rw [map_cons, mem_cons, not_or]
    exact ⟨hd.ne_nil.symm, h.named⟩
  dot_mem := mem_cons_of_mem _ h.dot_mem

theorem erase (h : DirNames ds) (hd : Proper d.name) : DirNames (ds.erase d) where
  nodup := nodup_erase h.nodup
  named hmem := h.named ((erase_sublist.map _).subset hmem)
  dot_mem := by
    obtain ⟨x, hx, hname⟩ := mem_map.mp h.dot_mem
    have hne : x ≠ d := fun e => hd.ne_dot (e ▸ hname)
    exact mem_map.mpr ⟨x, (mem_erase_of_ne hne).mpr hx, hname⟩

theorem replace (h : DirNames ds) (hname : new.name = d.name) :
    DirNames (ds.map fun x => if x = d then new else x) := by
  obtain ⟨hnodup, hnamed, hdot⟩ := h
  exact ⟨by rwa [map_name_replace hname], by rwa [map_name_replace hname],
    by rwa [map_name_replace hname]⟩

end DirNames

end dents

/-! ## Slots of a durable directory -/

section slots

variable {slots : List (Option Dirent)} {e : Dirent} {n m : Name} {j : ℕ}

@[simp] def lookupSlot (n : Name) : List (Option Dirent) → Option Dirent
  | [] => none
  | none :: slots => lookupSlot n slots
  | some e :: slots => if e.name = n then some e else lookupSlot n slots

@[simp] def slotNames (slots : List (Option Dirent)) : List Name := (slots.filterMap id).map Dirent.name

theorem lookupSlot_eq_none : lookupSlot n slots = none ↔ n ∉ slotNames slots := by
  induction slots with
  | nil => simp
  | cons x slots ih =>
    cases x with
    | none => simpa using ih
    | some e =>
      by_cases he : e.name = n
      · simp [he]
      · simpa [he, Ne.symm he] using ih

theorem name_of_lookupSlot (h : lookupSlot n slots = some e) : e.name = n := by
  induction slots with
  | nil => cases h
  | cons x slots ih =>
    cases x with
    | none => exact ih h
    | some e' =>
      rw [lookupSlot] at h
      split at h
      · next he => rwa [← Option.some.inj h]
      · exact ih h

theorem findDirent_eq_none : findDirent n slots k = none ↔ lookupSlot n slots = none := by
  induction slots generalizing k with
  | nil => simp [findDirent]
  | cons x slots ih =>
    cases x with
    | none => simpa [findDirent] using ih
    | some e =>
      by_cases he : e.name = n
      · simp [findDirent, he]
      · simpa [findDirent, he] using ih

theorem lookupSlot_append : lookupSlot n (as ++ bs) = (lookupSlot n as).or (lookupSlot n bs) := by
  induction as with
  | nil => rfl
  | cons x as ih =>
    cases x with
    | none => exact ih
    | some e =>
      rw [cons_append, lookupSlot, lookupSlot, ih]
      split <;> rfl

/-- The slot that a search finds, and what is before it. -/
theorem split_of_findDirent (h : findDirent n slots k = some (j, e)) :
    ∃ as bs, slots = as ++ some e :: bs ∧ j = k + as.length ∧ e.name = n ∧
      lookupSlot n as = none := by
  induction slots generalizing k with
  | nil => cases h
  | cons x slots ih =>
    cases x with
    | none =>
      obtain ⟨as, bs, rfl, rfl, hname, hnone⟩ := ih h
      exact ⟨none :: as, bs, rfl, by rw [length_cons]; omega, hname, hnone⟩
    | some x =>
      rw [findDirent] at h
      split at h
      · next hx =>
        cases h
        exact ⟨[], slots, rfl, rfl, hx, rfl⟩
      · next hx =>
        obtain ⟨as, bs, rfl, rfl, hname, hnone⟩ := ih h
        exact ⟨some x :: as, bs, rfl, by rw [length_cons]; omega, hname,
          by rw [lookupSlot, if_neg hx, hnone]⟩

theorem lookupSlot_of_findDirent (h : findDirent n slots k = some (j, e)) :
    lookupSlot n slots = some e := by
  obtain ⟨as, bs, rfl, -, hname, hnone⟩ := split_of_findDirent h
  rw [lookupSlot_append, hnone, lookupSlot, if_pos hname]
  rfl

theorem setSlot_zero : setSlot (x :: slots) 0 y = y :: slots := by
  rw [setSlot, if_pos (by rw [length_cons]; omega)]
  rfl

theorem setSlot_succ : setSlot (x :: slots) (k + 1) y = x :: setSlot slots k y := by
  simp only [setSlot, length_cons, Nat.add_lt_add_iff_right, set_cons_succ, cons_append]
  split <;> rfl

/-- The slot `j` is between `as` and `bs`, and no other slot has the name. -/
structure Between (n : Name) (slots : List (Option Dirent)) (j : ℕ)
    (as bs : List (Option Dirent)) : Prop where
  set : ∀ y, setSlot slots j y = as ++ y :: bs
  lookup : ∀ m, n ≠ m → lookupSlot m slots = (lookupSlot m as).or (lookupSlot m bs)
  nodup : (slotNames slots).Nodup → (slotNames as ++ slotNames bs).Nodup
  notMem : n ∉ slotNames as ++ slotNames bs

theorem between_found (h : findDirent n slots 0 = some (j, e)) (hnd : (slotNames slots).Nodup) :
    ∃ as bs, Between n slots j as bs := by
  obtain ⟨as, bs, rfl, rfl, rfl, -⟩ := split_of_findDirent h
  have hnames : slotNames (as ++ some e :: bs) = slotNames as ++ e.name :: slotNames bs := by simp
  rw [hnames, nodup_middle] at hnd
  refine ⟨as, bs, fun y => by simp [setSlot], fun m hm => ?_, fun _ => hnd.of_cons,
    (nodup_cons.mp hnd).1⟩
  rw [lookupSlot_append, lookupSlot, if_neg hm]

theorem freeSlot_none : freeSlot (none :: slots) = 0 := by simp [freeSlot, List.findIdx_cons]

theorem freeSlot_some : freeSlot (some e :: slots) = freeSlot slots + 1 := by
  simp [freeSlot, findIdx_cons]

/-- The free slot is the first that is empty, or it is behind all. -/
theorem split_at_freeSlot (slots : List (Option Dirent)) :
    ∃ as bs, (∀ y, setSlot slots (freeSlot slots) y = as ++ y :: bs) ∧
      (slots = as ++ none :: bs ∨ slots = as ∧ bs = []) := by
  induction slots with
  | nil => exact ⟨[], [], fun _ => rfl, .inr ⟨rfl, rfl⟩⟩
  | cons x slots ih =>
    cases x with
    | none => exact ⟨[], slots, fun y => by rw [freeSlot_none, setSlot_zero]; rfl, .inl rfl⟩
    | some x =>
      obtain ⟨as, bs, hset, hslots⟩ := ih
      refine ⟨some x :: as, bs, fun y => by rw [freeSlot_some, setSlot_succ, hset]; rfl, ?_⟩
      simpa using hslots

theorem between_free (h : lookupSlot n slots = none) :
    ∃ as bs, Between n slots (freeSlot slots) as bs := by
  rw [lookupSlot_eq_none] at h
  obtain ⟨as, bs, hset, rfl | ⟨rfl, rfl⟩⟩ := split_at_freeSlot slots
  · have hnames : slotNames (as ++ none :: bs) = slotNames as ++ slotNames bs := by simp
    exact ⟨as, bs, hset, fun _ _ => lookupSlot_append, fun hnd => hnames ▸ hnd, hnames ▸ h⟩
  · exact ⟨_, [], hset, fun m _ => by simp, fun hnd => by simpa using hnd, by simpa using h⟩

section

variable (hy : ∀ e : Dirent, y = some e → e.name = n)
include hy

/-- What is written there is found, and hides nothing else. -/
theorem Between.lookupSlot (h : Between n slots j as bs) :
    lookupSlot m (setSlot slots j y) = if n = m then y else lookupSlot m slots := by
  have hno := h.notMem
  rw [mem_append, not_or, ← lookupSlot_eq_none, ← lookupSlot_eq_none] at hno
  rw [h.set, lookupSlot_append]
  by_cases hm : n = m
  · subst hm
    rw [if_pos rfl, hno.1]
    cases y with
    | none => exact hno.2
    | some e => simp [hy e rfl]
  · rw [if_neg hm, h.lookup m hm]
    cases y with
    | none => rfl
    | some e => rw [Tmpfs.lookupSlot, if_neg (hy e rfl ▸ hm)]

theorem Between.nodup_set (h : Between n slots j as bs) (hnd : (slotNames slots).Nodup) :
    (slotNames (setSlot slots j y)).Nodup := by
  have hnames := h.nodup hnd
  rw [h.set]
  cases y with
  | none => simpa using hnames
  | some e =>
    have hno := h.notMem
    rw [← hy e rfl] at hno
    simpa using nodup_middle.mpr (nodup_cons.mpr ⟨hno, hnames⟩)

end

/-- Where an entry for the name is written: over the one of this name, or in the free slot. -/
def SlotFor (n : Name) (slots : List (Option Dirent)) (j : ℕ) : Prop :=
  (∃ e, findDirent n slots 0 = some (j, e)) ∨ lookupSlot n slots = none ∧ j = freeSlot slots

theorem SlotFor.between (h : SlotFor n slots j) (hnd : (slotNames slots).Nodup) :
    ∃ as bs, Between n slots j as bs := by
  obtain ⟨e, h⟩ | ⟨h, rfl⟩ := h
  · exact between_found h hnd
  · exact between_free h

theorem lookupSlot_setSlot_free (h : lookupSlot e.name slots = none) :
    lookupSlot m (setSlot slots (freeSlot slots) (some e)) =
      if e.name = m then some e else lookupSlot m slots := by
  obtain ⟨as, bs, hb⟩ := between_free h
  exact hb.lookupSlot fun _ he => by cases he; rfl

theorem lookupSlot_setSlot (h : SlotFor e.name slots j) (hnd : (slotNames slots).Nodup) :
    lookupSlot m (setSlot slots j (some e)) = if e.name = m then some e else lookupSlot m slots := by
  obtain ⟨as, bs, hb⟩ := h.between hnd
  exact hb.lookupSlot fun _ he => by cases he; rfl

theorem nodup_setSlot (h : SlotFor e.name slots j) (hnd : (slotNames slots).Nodup) :
    (slotNames (setSlot slots j (some e))).Nodup := by
  obtain ⟨as, bs, hb⟩ := h.between hnd
  exact hb.nodup_set (fun _ he => by cases he; rfl) hnd

section

variable (h : findDirent n slots 0 = some (j, e)) (hnd : (slotNames slots).Nodup)
include h hnd

theorem lookupSlot_clear :
    lookupSlot m (setSlot slots j none) = if n = m then none else lookupSlot m slots := by
  obtain ⟨as, bs, hb⟩ := between_found h hnd
  exact hb.lookupSlot fun _ he => by cases he

theorem nodup_clear : (slotNames (setSlot slots j none)).Nodup := by
  obtain ⟨as, bs, hb⟩ := between_found h hnd
  exact hb.nodup_set (fun _ he => by cases he) hnd

end

/-- A write to another slot, for another name, does not move the entry. -/
theorem findDirent_setSlot (h : findDirent n slots k = some (j, e)) {y : Dirent}
    (hi : i + k ≠ j) (hy : y.name ≠ n) : findDirent n (setSlot slots i (some y)) k = some (j, e) := by
  induction slots generalizing k i with
  | nil => cases h
  | cons x slots ih =>
    cases i with
    | zero =>
      rw [setSlot_zero, findDirent, if_neg hy]
      cases x with
      | none => exact h
      | some x =>
        rw [findDirent] at h
        split at h
        · cases h
          exact absurd (Nat.zero_add _) hi
        · exact h
    | succ i =>
      have hi' : i + (k + 1) ≠ j := by omega
      rw [setSlot_succ]
      cases x with
      | none => exact ih h hi'
      | some x =>
        rw [findDirent] at h ⊢
        split at h
        · next hx => rwa [if_pos hx]
        · next hx =>
          rw [if_neg hx]
          exact ih h hi'

theorem getElem?_of_findDirent (h : findDirent n slots k = some (j, e)) :
    slots[j - k]? = some (some e) := by
  obtain ⟨as, bs, rfl, rfl, -⟩ := split_of_findDirent h
  simp

theorem getElem?_freeSlot : slots[freeSlot slots]? ≠ some (some e) := by
  induction slots with
  | nil => simp
  | cons x slots ih =>
    cases x with
    | none => simp [freeSlot_none]
    | some x => simpa [freeSlot_some] using ih

theorem SlotFor.ne (h : SlotFor m slots j) (hfound : findDirent n slots 0 = some (k, e))
    (hne : m ≠ n) : j ≠ k := by
  rintro rfl
  have hj := getElem?_of_findDirent hfound
  obtain ⟨e', h⟩ | ⟨_, rfl⟩ := h
  · have hj' := getElem?_of_findDirent h
    rw [hj] at hj'
    cases hj'
    have hm := name_of_lookupSlot (lookupSlot_of_findDirent h)
    exact hne (hm.symm.trans (name_of_lookupSlot (lookupSlot_of_findDirent hfound)))
  · exact getElem?_freeSlot hj

end slots

/-! ## The durable tree -/

namespace Disk

def typeOf (d : Disk) (ino : ℕ) : Option FileType := (d.node ino).map DiskNode.type

def slots (d : Disk) (ino : ℕ) : List (Option Dirent) :=
  match d.node ino with
  | none => []
  | some n => n.slots

/-- The number and the type in an entry of a directory. -/
def entry (d : Disk) (ino : ℕ) (n : Name) : Option (ℕ × FileType) :=
  if d.typeOf ino = some .dir then (lookupSlot n (d.slots ino)).map fun e => (e.ino, e.type)
  else none

/-- What a node is beside its entries. -/
def file (d : Disk) (ino : ℕ) : Option (FileType × List UInt8 × ℕ) :=
  (d.node ino).map fun n => (n.type, n.data, n.id)

def setSlots (d : Disk) (p : ℕ) (slots : List (Option Dirent)) : Disk :=
  match d.node p with
  | none => d
  | some n => d.setNode p (some { n with slots := slots })

/-- The new node of `cxlfs_create_node`. -/
def addNode (d : Disk) (ino : ℕ) (type : FileType) : Disk :=
  { d.setNode ino (some ⟨type, [], [], d.nextId⟩) with nextId := d.nextId + 1 }

variable {d : Disk} {p k ino : ℕ} {n m : Name} {sl : List (Option Dirent)}
  {type : FileType}

@[simp] theorem file_setSlots : (d.setSlots p sl).file k = d.file k := by
  unfold setSlots
  split
  · rfl
  · next n hn =>
    by_cases hk : k = p
    · subst hk
      simp [file, setNode, hn]
    · simp [file, setNode, hk]

theorem typeOf_eq_file : d.typeOf k = (d.file k).map Prod.fst := by
  simp [typeOf, file, Function.comp_def]

@[simp] theorem typeOf_setSlots : (d.setSlots p sl).typeOf k = d.typeOf k := by
  rw [typeOf_eq_file, file_setSlots, typeOf_eq_file]

theorem slots_setSlots_self (h : (d.typeOf p).isSome) : (d.setSlots p sl).slots p = sl := by
  obtain ⟨n, hn⟩ : ∃ n, d.node p = some n := by simpa [typeOf, Option.isSome_iff_exists] using h
  simp [setSlots, hn, setNode, Disk.slots]

theorem slots_setSlots_of_ne (h : k ≠ p) : (d.setSlots p sl).slots k = d.slots k := by
  unfold setSlots
  split
  · rfl
  · simp [setNode, Disk.slots, h]

theorem entry_setSlots_self (h : d.typeOf p = some .dir) : (d.setSlots p sl).entry p m =
    (lookupSlot m sl).map fun e => (e.ino, e.type) := by
  rw [entry, typeOf_setSlots, if_pos h, slots_setSlots_self (by rw [h]; rfl)]

theorem entry_setSlots_of_ne (h : k ≠ p) : (d.setSlots p sl).entry k m = d.entry k m := by
  rw [entry, typeOf_setSlots, slots_setSlots_of_ne h, entry]

variable {x : Option DiskNode}

/-- Another node comes or goes. -/
theorem file_setNode_of_ne (h : k ≠ ino) : (d.setNode ino x).file k = d.file k := by
  simp [file, setNode, h]

theorem slots_setNode_of_ne (h : k ≠ ino) : (d.setNode ino x).slots k = d.slots k := by
  simp [Disk.slots, setNode, h]

theorem typeOf_setNode_of_ne (h : k ≠ ino) : (d.setNode ino x).typeOf k = d.typeOf k := by
  rw [typeOf_eq_file, file_setNode_of_ne h, typeOf_eq_file]

theorem entry_setNode_of_ne (h : k ≠ ino) : (d.setNode ino x).entry k m = d.entry k m := by
  rw [entry, typeOf_setNode_of_ne h, slots_setNode_of_ne h, entry]

end Disk

end Starfish.Tmpfs
