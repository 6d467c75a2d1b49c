import Starfish.Object.Tables

/-!
# Starfish.Object.Copy

Copies of capabilities: what is left when `cap_copy` or `cap_move` fails, and what
the capabilities are like that come from one `cap_alloc` by any sequence of
`cap_copy`, `cap_move` and `sys_transfer_caps`.
-/

namespace Starfish.Object

open Prog SlotTable CapMem

variable {m m' : CapMem} {src dest g o s : ℕ} {i r : ℤ} {arrays : List (Option Around)}

/-! ## What `cap_copy` does -/

variable {t : SlotTable}

/-- The result of `alloc_slot_id` is a slot id or `-ENOMEM`. -/
theorem allocSlotId_ne_neg_one (h : t.Bits fun _ => False) :
    (SlotTable.allocSlotId arrays t).1 ≠ -1 := by
  obtain ⟨idx, t', heq, -⟩ | ⟨heq, -, -⟩ := allocSlotId_spec h arrays
  · rw [heq]
    simp only
    omega
  · rw [heq]
    simp [enomem]

/-- The memory when `cap_copy` takes the lock of the copies list. -/
def copying (m : CapMem) (dest : ℕ) (slotId : ℤ) (t : SlotTable) (s o : ℕ) : CapMem :=
  ((m.setTable dest t).setSlot s ⟨slotId, dest, true, (m.slot s).rights, o, true⟩).setObject o
    { m.object o with refcount := ((m.object o).refcount + 1) % 2 ^ 64 }

variable {slotId : ℤ}

section

variable (h : (m.table dest).Bits fun _ => False)
  (ha : SlotTable.allocSlotId arrays (m.table dest) = (slotId, t))
include h ha

/-- The three ways through the part of `cap_copy` before that. -/
theorem wlp_copyBegin_eq : wlp (copyBegin src dest i arrays s) (fun r m' =>
      (¬ m.ValidSlot (m.getSlot src i) ∧ r = .error (-ecapbility) ∧ m' = m) ∨
      (m.ValidSlot (m.getSlot src i) ∧ s = 0 ∧ r = .error (-enomem) ∧
        m' = m.setTable dest (t.freeSlotId slotId)) ∨
      (m.ValidSlot (m.getSlot src i) ∧ s ≠ 0 ∧ r = .ok (slotId, m.getSlot src i) ∧
        m' = copying m dest slotId t s (m.slot (m.getSlot src i)).object)) m := by
  have hone : slotId ≠ -1 := by
    have hne : (SlotTable.allocSlotId arrays (m.table dest)).1 ≠ -1 := allocSlotId_ne_neg_one h
    rwa [ha] at hne
  rw [copyBegin, wlp_bind, wlp_read, wlp_ite]
  refine ⟨fun hv => wlp_pure.mpr (.inl ⟨hv, rfl, rfl⟩), fun hv => ?_⟩
  rw [not_not, id_eq] at hv
  rw [wlp_bind, allocSlotId, wlp_act, wlp_ret, ha, if_neg hone, wlp_ite]
  refine fun _ => ⟨fun hs => ?_, fun hs => ?_⟩
  · simp only [freeSlotId, wlp_bind, wlp_store, wlp_pure]
    refine .inr (.inl ⟨hv, hs, trivial, ?_⟩)
    simp [CapMem.setTable]
  · -- the slot is still there when it is looked up again
    have hget : (m.setTable dest t).getSlot src i = m.getSlot src i := by
      rw [Caps.getSlot_setTable]
      split
      · next heq => rw [heq, CapMem.getSlot, (grew_of_alloc h ha).slot]
      · rfl
    have hkm : ∀ x, (((m.setTable dest t).setSlot s { m.slot s with live := true }).slot x).isvalid =
        (m.slot x).isvalid ∧
        (((m.setTable dest t).setSlot s { m.slot s with live := true }).slot x).object =
          (m.slot x).object := by
      intro x
      by_cases heq : x = s
      · subst heq
        simp
      · simp [heq]
    have hvalid : ((m.setTable dest t).setSlot s { m.slot s with live := true }).ValidSlot
        (m.getSlot src i) := ⟨hv.1, (hkm _).1.trans hv.2⟩
    have hget' : ((m.setTable dest t).setSlot s { m.slot s with live := true }).getSlot src i =
        m.getSlot src i := hget
    simp only [kmallocSlot, refAdd, wlp_bind, wlp_store, wlp_read, id_eq, setTable_slot,
      hget', hvalid, not_true, if_false, wlp_pure]
    refine .inr (.inr ⟨hv, hs, trivial, ?_⟩)
    simp only [copying, CapMem.setSlot_object, CapMem.setTable_object, CapMem.setObject_slot]
    rw [(hkm _).2]
    simp [CapMem.setSlot, CapMem.setObject, CapMem.setTable]

theorem wlp_capCopy_eq : wlp (capCopy src dest i arrays s) (fun r m' =>
      (¬ m.ValidSlot (m.getSlot src i) ∧ r = -ecapbility ∧ m' = m) ∨
      (m.ValidSlot (m.getSlot src i) ∧ s = 0 ∧ r = -enomem ∧
        m' = m.setTable dest (t.freeSlotId slotId)) ∨
      (m.ValidSlot (m.getSlot src i) ∧ s ≠ 0 ∧ r = slotId ∧
        ∃ L, m' = ((copying m dest slotId t s (m.slot (m.getSlot src i)).object).setLinks L).setTable
          dest (t.setSlot slotId s))) m := by
  rw [capCopy, wlp_bind]
  refine wlp_mono (wlp_copyBegin_eq h ha) fun r m₁ h1 => ?_
  obtain ⟨hv, rfl, rfl⟩ | ⟨hv, hs, rfl, rfl⟩ | ⟨hv, hs, rfl, rfl⟩ := h1
  · exact wlp_pure.mpr (.inl ⟨hv, rfl, rfl⟩)
  · exact wlp_pure.mpr (.inr (.inl ⟨hv, hs, rfl, rfl⟩))
  · simp only [wlp_bind, wlp_onLinks, installSlot, wlp_read, wlp_bugOn, wlp_store, wlp_pure]
    intro _ L _ _
    refine .inr (.inr ⟨hv, hs, trivial, L, ?_⟩)
    simp [copying]

end

/-! ## A copy that fails -/

/-- Nothing was written in front of the arrays of the table or behind them. -/
structure SameOutside (t t' : SlotTable) : Prop where
  slots : ∀ i : ℤ, i < 0 ∨ t.slotsSize ≤ i → t'.slots i = t.slots i
  slotsBmp : ∀ i, t.slotsSize ≤ i → getBit i t'.slotsBmp = getBit i t.slotsBmp
  fullSlotsBmp : ∀ w, t.slotsSize / 64 ≤ w → getBit w t'.fullSlotsBmp = getBit w t.fullSlotsBmp

/-- The tables hold the same slots under the same ids, and mark the same; and if the arrays
are the old ones, the memory around them is the same. -/
structure SameSlots (t t' : SlotTable) : Prop where
  slot : ∀ i, t'.getSlot i = t.getSlot i
  slotsBmp : ∀ i, i < t'.slotsSize ∧ getBit i t'.slotsBmp = true ↔
    i < t.slotsSize ∧ getBit i t.slotsBmp = true
  fullSlotsBmp : ∀ w, w < t'.slotsSize / 64 ∧ getBit w t'.fullSlotsBmp = true ↔
    w < t.slotsSize / 64 ∧ getBit w t.fullSlotsBmp = true
  outside : t'.slotsSize = t.slotsSize → SameOutside t t'

/-- Tables, slots, objects and copies lists are as they were. -/
structure Unchanged (m m' : CapMem) : Prop where
  table : ∀ g, SameSlots (m.table g) (m'.table g)
  slot : m'.slot = m.slot
  object : m'.object = m.object
  links : m'.links = m.links

/-- No table has grown either. -/
def SameSize (m m' : CapMem) : Prop := ∀ g, (m'.table g).slotsSize = (m.table g).slotsSize

/-- `alloc_slot_id` has to expand the table. -/
def Expanded (m : CapMem) (src dest : ℕ) (srcSlotId : ℤ) (arrays : List (Option Around)) : Prop :=
  m.ValidSlot (m.getSlot src srcSlotId) ∧
    (SlotTable.allocSlotId arrays (m.table dest)).2.slotsSize ≠ (m.table dest).slotsSize

theorem marks_iff (h : t.Bits fun _ => False) (i : ℕ) :
    i < t.slotsSize ∧ getBit i t.slotsBmp = true ↔ t.getSlot i ≠ 0 := by
  by_cases hi : i < t.slotsSize
  · simp [hi, h.not_marked hi]
  · simp [hi, getSlot_of_ge (Nat.le_of_not_lt hi)]

theorem marksFull_iff (h : t.Bits fun _ => False) (hfull : t.Full) (w : ℕ) :
    w < t.slotsSize / 64 ∧ getBit w t.fullSlotsBmp = true ↔
      ∀ i : ℕ, i / 64 = w → t.getSlot i ≠ 0 := by
  have haligned := h.aligned
  constructor
  · rintro ⟨hw, hbit⟩ i hi
    have hones := (hfull w hw).mp hbit
    exact (marks_iff h i).mp ⟨by omega, (eq_ones_iff _ _).mp hones i hi⟩
  · intro hall
    have hlt : ∀ i, i / 64 = w → i < t.slotsSize ∧ getBit i t.slotsBmp = true :=
      fun i hi => (marks_iff h i).mpr (hall i hi)
    have hw : w < t.slotsSize / 64 := by
      have := (hlt (64 * w) (by omega)).1
      omega
    exact ⟨hw, (hfull w hw).mpr ((eq_ones_iff _ _).mpr fun i hi => (hlt i hi).2)⟩

/-- Bitmaps that are right follow the slots. -/
theorem sameSlots_of_getSlot {t t' : SlotTable} (h : t.Bits fun _ => False) (hfull : t.Full)
    (h' : t'.Bits fun _ => False) (hfull' : t'.Full) (hslot : ∀ i, t'.getSlot i = t.getSlot i)
    (houtside : t'.slotsSize = t.slotsSize → SameOutside t t') : SameSlots t t' where
  slot := hslot
  slotsBmp i := by rw [marks_iff h', marks_iff h, hslot]
  fullSlotsBmp w := by
    rw [marksFull_iff h' hfull', marksFull_iff h hfull]
    exact forall_congr' fun i => by rw [hslot]
  outside := houtside

/-- An allocation that leaves the arrays where they are only marks the slot id. -/
theorem eq_take_of_alloc {t t' : SlotTable} {idx : ℕ} (h : t.Bits fun _ => False)
    (ha : SlotTable.allocSlotId arrays t = (↑idx, t')) (hsize : t'.slotsSize = t.slotsSize) :
    t' = t.take idx := by
  cases hs : t.search with
  | some j =>
    have heq : SlotTable.allocSlotId arrays t = (↑j, t.take j) := by
      cases arrays <;> simp [SlotTable.allocSlotId, hs]
    obtain ⟨hid, rfl⟩ := Prod.mk.inj (heq.symm.trans ha)
    rw [Int.ofNat_inj.mp hid]
  | none =>
    exfalso
    cases arrays with
    | nil =>
      have hid := congrArg Prod.fst ha
      simp only [SlotTable.allocSlotId, hs, enomem] at hid
      omega
    | cons a arrays =>
      cases hexp : t.expandSlotTable a with
      | none =>
        have hid := congrArg Prod.fst ha
        simp only [SlotTable.allocSlotId, hs, hexp, enomem] at hid
        omega
      | some u =>
        obtain ⟨hb, b, rfl, rfl⟩ := expandSlotTable_some hexp
        simp only [SlotTable.allocSlotId, hs, hexp] at ha
        have hgrew := (grew_of_alloc (h.expand (a := b) (by simp) hb) ha).size
        rw [slotsSize_expand] at hgrew
        omega

theorem sameOutside_undone (h : t.Bits fun _ => False) (hi : idx < t.slotsSize) :
    SameOutside t ((t.take idx).freeSlotId idx) := by
  have hb := Nat.lt_of_lt_of_le hi h.bound
  have haligned := h.aligned
  refine ⟨fun i hout => ?_, fun i hge => ?_, fun w hge => ?_⟩
  · have hne : i ≠ idx := by omega
    simp [SlotTable.freeSlotId, SlotTable.take, hne]
  · have hne : i ≠ idx := by omega
    simp [SlotTable.freeSlotId, SlotTable.take, toU32_of_lt hb, getBit_clearBit, getBit_setBit, hne]
  · have hne : w ≠ idx / 64 := by omega
    simp only [SlotTable.freeSlotId, SlotTable.take, wordOf_of_lt hb, getBit_clearBit, bitsPerLong,
      getBit_ite_setBit]
    simp [hne]

/-- The table after an allocation is undone. -/
theorem sameSlots_undone {t t' : SlotTable} (h : t.Bits fun _ => False)
    (hfull : t.Full) (ha : SlotTable.allocSlotId arrays t = (slotId, t')) (hid : 0 ≤ slotId) :
    SameSlots t (t'.freeSlotId slotId) := by
  obtain ⟨idx, u, heq, halloc⟩ | ⟨heq, -, -⟩ := allocSlotId_spec h arrays
  · obtain ⟨rfl, rfl⟩ := Prod.mk.inj (heq.symm.trans ha)
    have hbits : (u.freeSlotId idx).Bits fun _ => False :=
      (halloc.bits.freeSlotId halloc.lt).congr fun i => by simp
    refine sameSlots_of_getSlot h hfull hbits
      ((halloc.full hfull).freeSlotId halloc.bits halloc.lt) (fun i => ?_) fun hsize => ?_
    · rw [getSlot_freeSlotId]
      split
      · next hi => rw [hi, halloc.free]
      · exact halloc.grew.slot i
    · have hlt : idx < t.slotsSize := hsize ▸ halloc.lt
      rw [eq_take_of_alloc h ha hsize]
      exact sameOutside_undone h hlt
  · obtain ⟨rfl, rfl⟩ := Prod.mk.inj (heq.symm.trans ha)
    simp [enomem] at hid

theorem unchanged_refl (m : CapMem) : Unchanged m m :=
  ⟨fun _ => ⟨fun _ => rfl, fun _ => Iff.rfl, fun _ => Iff.rfl,
    fun _ => ⟨fun _ _ => rfl, fun _ _ => rfl, fun _ _ => rfl⟩⟩, rfl, rfl, rfl⟩

/-- What a copy that failed leaves behind: nothing, if `alloc_slot_id` did not fail; and
else one more reference, or NULL in front of the array. -/
structure FailedCopy (m m' : CapMem) (src dest : ℕ) (i : ℤ) (arrays : List (Option Around))
    (s : ℕ) : Prop where
  unchanged : ¬ Runaway m src dest i arrays →
    Unchanged m m' ∧ (SameSize m m' ↔ ¬ Expanded m src dest i arrays)
  referenced : Runaway m src dest i arrays → s ≠ 0 → ¬ Unchanged m m'
  written : Runaway m src dest i arrays → s = 0 → (m'.table dest).slots (-enomem) = 0 ∧
    (m'.table dest).slotsSize = (m.table dest).slotsSize

theorem wlp_capCopy_failed (h : AllMarked m) (hdest : Group m dest) :
    wlp (capCopy src dest i arrays s)
      (fun r m' => r < 0 → FailedCopy m m' src dest i arrays s) m := by
  have hbits := h.tables dest hdest
  have hfull := h.full dest hdest
  obtain ⟨slotId, t, ha⟩ : ∃ r t, SlotTable.allocSlotId arrays (m.table dest) = (r, t) := ⟨_, _, rfl⟩
  refine wlp_mono (wlp_capCopy_eq hbits ha) fun r m' hcases hr => ?_
  obtain ⟨hv, -, rfl⟩ | ⟨hv, hs, -, rfl⟩ | ⟨hv, hs, rfl, L, rfl⟩ := hcases
  · have hrun : ¬ Runaway m' src dest i arrays := fun hc => hv hc.1
    have hexp : ¬ Expanded m' src dest i arrays := fun he => hv he.1
    exact ⟨fun _ => ⟨unchanged_refl m', iff_of_true (fun _ => rfl) hexp⟩,
      fun hc => absurd hc hrun, fun hc => absurd hc hrun⟩
  · have hrun : Runaway m src dest i arrays ↔ slotId < 0 := by
      rw [Runaway, ha]
      exact and_iff_right hv
    refine ⟨fun hc => ⟨⟨fun g => ?_, rfl, rfl, rfl⟩, ?_⟩, fun _ hne => absurd hs hne,
      fun hc _ => ?_⟩
    · by_cases heq : g = dest
      · subst heq
        simpa using sameSlots_undone hbits hfull ha (Int.not_lt.mp (mt hrun.mpr hc))
      · simpa [heq] using (unchanged_refl m).table g
    · have htsize : (SlotTable.allocSlotId arrays (m.table dest)).2.slotsSize = t.slotsSize := by
        rw [ha]
      rw [Expanded, htsize]
      constructor
      · intro hsame hexp
        have hd := hsame dest
        rw [setTable_table, Function.update_self] at hd
        exact hexp.2 hd
      · intro hexp g
        by_cases heq : g = dest
        · subst heq
          rw [setTable_table, Function.update_self]
          by_contra hne
          exact hexp ⟨hv, hne⟩
        · rw [setTable_table, Function.update_of_ne heq]
    · obtain ⟨idx, u, heq, -⟩ | ⟨heq, -, -⟩ := allocSlotId_spec hbits arrays
      · obtain ⟨rfl, rfl⟩ := Prod.mk.inj (heq.symm.trans ha)
        have hneg := hrun.mp hc
        omega
      · obtain ⟨rfl, rfl⟩ := Prod.mk.inj (heq.symm.trans ha)
        exact ⟨by simp [SlotTable.freeSlotId], by simp [SlotTable.freeSlotId]⟩
  · have hrun : Runaway m src dest i arrays := ⟨hv, by rw [ha]; exact hr⟩
    refine ⟨fun hc => absurd hrun hc, fun _ _ hun => ?_, fun _ hs' => absurd hs' hs⟩
    have hobj := congrArg KObject.refcount (congrFun hun.object (m.slot (m.getSlot src i)).object)
    simp [copying] at hobj
    omega

theorem failedCopy {c : Prog CapMem ℤ} (h : AllMarked m) (hdest : Group m dest)
    (hc : c = capCopy src dest i arrays s ∨ c = capMove src dest i arrays s)
    (hout : c.outcome m = .ok r m') (hr : r < 0) : FailedCopy m m' src dest i arrays s := by
  rcases hc with rfl | rfl
  · exact wlp_capCopy_failed h hdest r m' hout hr
  · have hmove : wlp (capMove src dest i arrays s) (fun r m' => r < 0 →
        FailedCopy m m' src dest i arrays s) m := by
      rw [capMove, wlp_bind]
      refine wlp_mono (wlp_capCopy_failed h hdest) fun r₁ m₁ h1 => ?_
      rw [wlp_ite]
      refine ⟨fun _ => wlp_pure.mpr h1, fun _ => ?_⟩
      -- `cap_free` returns `0` or the kernel stops
      simp only [wlp_bind, wlp_bugOn, wlp_pure]
      intro r2 m2 _ hzero hneg
      omega
    exact hmove r m' hout hr

/-- **A failed copy** leaves everything as it was, if `alloc_slot_id` does not fail for a valid
source slot, and then it leaves the sizes of the tables as they were if and only if no table was
expanded.  If it does fail, and the word in front of the array of slots that belongs to the error
code is not NULL already, the failed copy changes something. -/
theorem failed_copy_unchanged_iff {m m' : CapMem} {src dest s : ℕ} {i r : ℤ}
    {arrays : List (Option Around)} (h : AllMarked m) (hdest : Group m dest) {c : Prog CapMem ℤ}
    (hc : c = capCopy src dest i arrays s ∨ c = capMove src dest i arrays s)
    (hout : c.outcome m = .ok r m') (hr : r < 0) :
    (¬ Runaway m src dest i arrays →
      Unchanged m m' ∧ (SameSize m m' ↔ ¬ Expanded m src dest i arrays)) ∧
    ((m.table dest).slots (-enomem) ≠ 0 → (Unchanged m m' ↔ ¬ Runaway m src dest i arrays)) := by
  have hcopy := failedCopy h hdest hc hout hr
  refine ⟨hcopy.unchanged, fun hfront => ⟨fun hun hrun => ?_, fun hrun => (hcopy.unchanged hrun).1⟩⟩
  by_cases hs : s = 0
  · obtain ⟨hnull, hsize⟩ := hcopy.written hrun hs
    have hsame := ((hun.table dest).outside hsize).slots (-enomem) (.inl (by decide))
    exact hfront (hsame.symm.trans hnull)
  · exact hcopy.referenced hrun hs hun

/-- A full table; the bit that belongs to the error code is set in the memory behind
the bitmap. -/
def fullTable : SlotTable where
  slotsSize := 64
  slots := fun i => if 0 ≤ i ∧ i < 64 then 100 + i.toNat else 0
  slotsBmp := fun w => if w = 0 ∨ w = 67108863 then ones else 0
  fullSlotsBmp := fun w => if w = 0 then 1 else 0

theorem bits_fullTable : fullTable.Bits fun _ => False where
  aligned := by decide
  pos := by decide
  bound := by decide
  bit := by decide +kernel
  tail := by decide +kernel

theorem full_fullTable : fullTable.Full := by
  unfold SlotTable.Full
  decide +kernel

/-- A cap group with that table, whose slots are all capabilities to the group. -/
def fullGroup : CapMem where
  table := fun _ => fullTable
  slot := fun x =>
    if 100 ≤ x ∧ x < 164 then ⟨x - 100, 1, true, 0, 1, true⟩ else ⟨0, 0, false, 0, 0, false⟩
  object := fun o => ⟨.capGroup, if o = 1 then 64 else 0, o == 1, o == 1⟩
  links :=
    { next := fun
        | .head _ => .copy 100
        | .copy x => if x < 163 then .copy (x + 1) else .head 1
      prev := fun
        | .head _ => .copy 163
        | .copy x => if 100 < x then .copy (x - 1) else .head 1 }

theorem allMarked_fullGroup : AllMarked fullGroup :=
  ⟨fun _ _ => bits_fullTable, fun _ _ => full_fullTable⟩

/-- The table is expanded, but there is no memory for the slot. -/
theorem failed_copy_unchanged_no_slot :
    (capCopy 1 1 0 [some ⟨fun _ => 0, fun _ => 0, fun _ => 0⟩] 0).outcome fullGroup = .ok (-12)
        (after (capCopy 1 1 0 [some ⟨fun _ => 0, fun _ => 0, fun _ => 0⟩] 0) fullGroup) ∧
      Unchanged fullGroup
        (after (capCopy 1 1 0 [some ⟨fun _ => 0, fun _ => 0, fun _ => 0⟩] 0) fullGroup) := by
  have hout := outcome_eq_after (m := fullGroup) (r := -12)
    (c := capCopy 1 1 0 [some ⟨fun _ => 0, fun _ => 0, fun _ => 0⟩] 0) (by decide +kernel)
  have hrun : ¬ Runaway fullGroup 1 1 0 [some ⟨fun _ => 0, fun _ => 0, fun _ => 0⟩] := by
    rintro ⟨-, hneg⟩
    exact absurd hneg (by decide +kernel)
  exact ⟨hout, ((failed_copy_unchanged_iff allMarked_fullGroup (by decide +kernel) (.inl rfl) hout
    (by decide)).1 hrun).1⟩

/-- No memory for an expansion, but some for the slot: `cap_copy` fails and leaves one
more reference and a slot on the copies list. -/
theorem failed_copy_leaves_reference :
    ∃ (m m' : CapMem) (src dest s : ℕ) (i r : ℤ) (arrays : List (Option Around)),
      AllMarked m ∧ Group m src ∧ Group m dest ∧ FreshSlot m s ∧
      (capCopy src dest i arrays s).outcome m = .ok r m' ∧ r < 0 ∧
      (m.object 1).refcount = 64 ∧ (m'.object 1).refcount = 65 ∧
      m.links.next (.copy 100) = .copy 101 ∧ m'.links.next (.copy 100) = .copy 200 :=
  ⟨fullGroup, after (capCopy 1 1 0 [none] 200) fullGroup, 1, 1, 200, 0, -12, [none],
    allMarked_fullGroup, by decide +kernel, by decide +kernel, by decide +kernel,
    outcome_eq_after (by decide +kernel), by decide, by decide +kernel, by decide +kernel,
    by decide +kernel, by decide +kernel⟩

end Starfish.Object
