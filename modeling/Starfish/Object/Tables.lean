import Starfish.Object.Runs

/-!
# Starfish.Object.Tables

The slot tables along a sequence of calls, whatever becomes of the objects.  Both
bitmaps stay right as long as `cap_insert` tells a full word from others, which it
does by looking at the wrong bitmap, and as long as `cap_copy` does not go on after
a failed expansion, when it writes in front of the array of slots.
-/

namespace Starfish.Object

open Prog SlotTable Function

attribute [local simp] withObject

/-! ## Code that leaves the tables alone -/

/-- Tables and slots are the same, and no object is new. -/
structure Frame (m m' : CapMem) : Prop where
  table : m'.table = m.table
  slot : m'.slot = m.slot
  live : ∀ o, Live m' o → Live m o
  type : ∀ o, (m'.object o).type = (m.object o).type

namespace Frame

@[refl] theorem refl (m : CapMem) : Frame m m := ⟨rfl, rfl, fun _ h => h, fun _ => rfl⟩

theorem trans (h : Frame m m') (h' : Frame m' m'') : Frame m m'' :=
  ⟨h'.table.trans h.table, h'.slot.trans h.slot, fun o ho => h.live o (h'.live o ho),
    fun o => (h'.type o).trans (h.type o)⟩

theorem setLinks (L : Links CapNode) : Frame m (m.setLinks L) :=
  ⟨rfl, rfl, fun _ h => h, fun _ => rfl⟩

theorem setObject (hv : v.live = true → Live m o) (ht : v.type = (m.object o).type) :
    Frame m (m.setObject o v) := by
  refine ⟨rfl, rfl, fun o' ho' => ?_, fun o' => ?_⟩
  · rw [Counts.live_setObject] at ho'
    by_cases heq : o' = o
    · subst heq
      exact hv (by simpa using ho')
    · simpa [heq] using ho'
  · by_cases heq : o' = o
    · subst heq
      simp [ht]
    · simp [heq]

theorem group (h : Frame m m') (hg : Group m' g) : Group m g :=
  ⟨h.live g hg.1, (h.type g).symm.trans hg.2⟩

end Frame

section frames

theorem frame_onLinks {α : Type} (c : Prog (Links CapNode) α) :
    wlp (onLinks c) (fun _ m' => Frame m m') m := by
  rw [wlp_onLinks]
  exact fun _ L _ => Frame.setLinks L

theorem frame_refAdd : wlp (refAdd o) (fun _ m' => Frame m m') m := by
  rw [refAdd, wlp_store]
  exact Frame.setObject id rfl

theorem frame_refSub : wlp (refSub o) (fun _ m' => Frame m m') m := by
  rw [refSub, wlp_act, wlp_ret]
  exact fun _ => Frame.setObject id rfl

theorem frame_freeObject : wlp (freeObject o) (fun _ m' => Frame m m') m := by
  simp only [freeObject, wlp_bind, wlp_read, wlp_bugOn, wlp_store]
  exact fun _ => Frame.setObject (by simp) rfl

theorem frame_objPut : wlp (objPut o) (fun _ m' => Frame m m') m := by
  rw [objPut, wlp_bind]
  refine wlp_mono frame_refSub fun _ m₁ h1 => ?_
  rw [wlp_when]
  exact ⟨fun _ => wlp_mono frame_freeObject fun _ _ h2 => h1.trans h2, fun _ => h1⟩

theorem frame_getOpaque {type : Option ObjectType} :
    wlp (getOpaque g i type) (fun _ m' => Frame m m') m := by
  simp only [getOpaque, wlp_bind, wlp_read, wlp_ite, wlp_bugOn, wlp_pure]
  refine ⟨fun _ => .refl m, fun _ => ⟨fun _ => .refl m, fun _ _ _ _ => ⟨fun _ => ?_, fun _ => .refl m⟩⟩⟩
  exact frame_refAdd

end frames

/-! ## The two bitmaps -/

/-- Both bitmaps of each slot table are right, but for the slot ids `J` that are
reserved. -/
structure Marked (J : ℕ → ℕ → Prop) (m : CapMem) : Prop where
  tables : Tables (Group m) J m
  full : ∀ g, Group m g → (m.table g).Full

namespace Marked

theorem of_table_eq (h : Marked J m) (htable : m'.table = m.table)
    (hgroup : ∀ g, Group m' g → Group m g) : Marked J m' where
  tables g hg := by
    rw [htable]
    exact h.tables g (hgroup g hg)
  full g hg := by
    rw [htable]
    exact h.full g (hgroup g hg)

theorem frame (h : Marked J m) (hf : Frame m m') : Marked J m' :=
  h.of_table_eq hf.table fun _ hg => hf.group hg

theorem setSlot (h : Marked J m) (v : ObjectSlot) : Marked J (m.setSlot s v) :=
  h.of_table_eq rfl fun _ hg => hg

/-- The table of one group changes. -/
theorem set (h : Marked J m)
    (htables : Tables (Group m) J' (m.setTable g t)) (hfull : Group m g → t.Full) :
    Marked J' (m.setTable g t) where
  tables := htables
  full g' hg' := by
    by_cases heq : g' = g
    · subst heq
      simpa using hfull hg'
    · simpa [heq] using h.full g' hg'

theorem release (h : Marked (also J g idx) m) (hJ : ¬ J g idx)
    (hi : Group m g → idx < (m.table g).slotsSize) :
    Marked J (m.setTable g ((m.table g).freeSlotId idx)) :=
  h.set (h.tables.release hJ hi) fun hg => (h.full g hg).freeSlotId (h.tables g hg) (hi hg)

theorem takeOut (h : Marked J m) (hJ : ∀ i, ¬ J g i) (hi : m.getSlot g i ≠ 0) :
    Marked J (m.setTable g ((m.table g).freeSlotId i)) := by
  refine h.set (h.tables.takeOut hJ hi) fun hg => ?_
  obtain ⟨j, rfl, hj⟩ := lt_of_getSlot (t := m.table g) (i := i) hi
  exact (h.full g hg).freeSlotId (h.tables g hg) hj

theorem install (h : Marked (also J g idx) m) (hJ : ∀ i, ¬ J g i) (hs : s ≠ 0)
    (hi : Group m g → idx < (m.table g).slotsSize) :
    Marked J (m.setTable g ((m.table g).setSlot idx s)) :=
  h.set (h.tables.install hJ hs hi) (h.full g)

theorem mark (h : Marked J m) (hi : Group m g → idx < (m.table g).slotsSize)
    (hright : (m.table g).MarksRight idx) :
    Marked (also J g idx) (m.setTable g ((m.table g).mark idx)) :=
  h.set (h.tables.mark hi) fun hg =>
    (full_mark_iff (h.full g hg) (h.tables g hg) (hi hg)).mpr hright

end Marked

/-! ## Calls -/

section calls

variable {m : CapMem} {g src dest : ℕ} {i : ℤ} {arrays : List (Option Around)}

/-- No slot id is reserved between two calls. -/
abbrev AllMarked (m : CapMem) : Prop := Marked (fun _ _ => False) m

/-- The slot id `idx` is reserved in the table of `g`. -/
structure Reserved (g idx : ℕ) (m : CapMem) : Prop where
  marked : Marked (also (fun _ _ => False) g idx) m
  lt : Group m g → idx < (m.table g).slotsSize

theorem Reserved.frame (h : Reserved g idx m) (hf : Frame m m') : Reserved g idx m' where
  marked := h.marked.frame hf
  lt hg := by
    rw [hf.table]
    exact h.lt (hf.group hg)

theorem Reserved.setSlot (h : Reserved g idx m) (v : ObjectSlot) :
    Reserved g idx (m.setSlot s v) := ⟨h.marked.setSlot v, h.lt⟩

section

variable (h : AllMarked m)
include h

/-- What `alloc_slot_id` leaves behind. -/
theorem marked_allocSlotId :
    wlp (allocSlotId g arrays) (fun r m' => r = (SlotTable.allocSlotId arrays (m.table g)).1 ∧
      (r < 0 → AllMarked m') ∧ ∀ idx : ℕ, r = idx → Reserved g idx m') m := by
  rw [allocSlotId, wlp_act, wlp_ret]
  intro _
  refine ⟨rfl, fun hneg => ?_, fun idx hidx => ?_⟩
  · have hsame : Group m g → (SlotTable.allocSlotId arrays (m.table g)).2 = m.table g := by
      intro hg
      obtain ⟨idx, t, heq, -⟩ | ⟨heq, -, -⟩ := SlotTable.allocSlotId_spec (h.tables g hg) arrays
      · rw [heq] at hneg
        simp at hneg
        omega
      · rw [heq]
    refine h.set (h.tables.set (fun hg => ?_) fun _ _ => rfl) fun hg => ?_
    · rw [hsame hg]
      exact h.tables g hg
    · rw [hsame hg]
      exact h.full g hg
  · have ha : Group m g → (m.table g).Alloc idx (SlotTable.allocSlotId arrays (m.table g)).2 := by
      intro hg
      obtain ⟨j, t, heq, ha⟩ | ⟨heq, -, -⟩ := SlotTable.allocSlotId_spec (h.tables g hg) arrays
      · rw [heq] at hidx ⊢
        obtain rfl : j = idx := by simpa using hidx
        exact ha
      · rw [heq] at hidx
        exact absurd hidx (by simp [enomem])
    refine ⟨h.set (h.tables.reserve (fun _ hf => hf) ha) fun hg => (ha hg).full (h.full g hg),
      fun hg => ?_⟩
    simpa using (ha hg).lt

omit h in
theorem marked_freeSlotId (h : Reserved g idx m) :
    wlp (freeSlotId g idx) (fun _ m' => AllMarked m') m := by
  rw [freeSlotId, wlp_store]
  exact h.marked.release (fun hf => hf) h.lt

omit h in
theorem marked_installSlot (h : Reserved g idx m) (hs : s ≠ 0) :
    wlp (installSlot g idx s) (fun _ m' => AllMarked m') m := by
  simp only [installSlot, wlp_bind, wlp_read, wlp_bugOn, wlp_store]
  exact fun _ => h.marked.install (fun _ hf => hf) hs h.lt

theorem marked_capAlloc : wlp (capAlloc g o rights arrays s) (fun _ m' => AllMarked m') m := by
  rw [capAlloc, wlp_bind]
  refine wlp_mono (marked_allocSlotId h) fun r m₁ h1 => ?_
  obtain ⟨-, hneg, hpos⟩ := h1
  rw [wlp_ite]
  refine ⟨fun hr => wlp_pure.mpr (hneg hr), fun hr => ?_⟩
  obtain ⟨idx, rfl⟩ : ∃ j : ℕ, r = j := ⟨r.toNat, by omega⟩
  have hres := hpos idx rfl
  rw [wlp_ite]
  refine ⟨fun _ => ?_, fun hs => ?_⟩
  · rw [wlp_bind]
    exact wlp_mono (marked_freeSlotId hres) fun _ _ h2 => wlp_pure.mpr h2
  · simp only [capAllocInto, wlp_bind, wlp_store, wlp_read, wlp_bugOn, wlp_pure]
    refine wlp_mono (frame_onLinks _) fun _ m2 h2 _ => ?_
    have hobj : Frame m2 (m2.setObject o { m2.object o with refcount := 1, inuse := true }) :=
      Frame.setObject id rfl
    exact marked_installSlot (((hres.setSlot _).frame h2).frame hobj) hs

theorem marked_capFree : wlp (capFree g i) (fun _ m' => AllMarked m') m := by
  rw [capFree, wlp_bind, capFreeTable, wlp_bind, wlp_read, wlp_ite]
  refine ⟨fun hv => ?_, fun _ => ?_⟩
  · simp only [freeSlotId, wlp_bind, wlp_store, wlp_pure, wlp_read]
    have h1 : AllMarked (m.setTable g ((m.table g).freeSlotId i)) := h.takeOut (fun _ hf => hf) hv.1
    rw [capFreeUnlink, wlp_bind]
    refine wlp_mono (frame_onLinks _) fun _ m2 h2 => ?_
    rw [kfreeSlot, wlp_store]
    exact wlp_mono frame_objPut fun _ _ h3 => ((h1.frame h2).setSlot _).frame h3
  · rw [wlp_pure, wlp_pure]
    exact h

theorem marked_freeCopies : wlp (freeCopies o fuel elem tmp) (fun _ m' => AllMarked m') m := by
  induction fuel generalizing m elem tmp with
  | zero => exact wlp_bug.mpr trivial
  | succ fuel ih =>
    cases elem with
    | head o' =>
      simp only [freeCopies, wlp_ite, wlp_pure, wlp_bug]
      exact ⟨fun _ => h, fun _ => trivial⟩
    | copy slot =>
      simp only [freeCopies, reduceCtorEq, if_false, wlp_bind, wlp_read, wlp_bugOn]
      exact wlp_mono (marked_capFree h) fun _ _ h1 _ => ih h1

theorem marked_capFreeAll : wlp (capFreeAll g i) (fun _ m' => AllMarked m') m := by
  rw [capFreeAll, wlp_bind]
  refine wlp_mono frame_getOpaque fun r m₁ h1 => ?_
  cases r with
  | none => exact wlp_pure.mpr (h.frame h1)
  | some o =>
    simp only [wlp_bind, wlp_read, wlp_pure]
    refine wlp_mono (marked_freeCopies (h.frame h1)) fun _ m2 h2 => ?_
    exact wlp_mono frame_objPut fun _ _ h3 => h2.frame h3

section

variable (hsafe : ¬ Runaway m src dest i arrays)
include hsafe

theorem marked_copyBegin : wlp (copyBegin src dest i arrays s) (fun r m' =>
      (∃ e, r = .error e ∧ AllMarked m') ∨
      ∃ (idx srcSlot : ℕ), r = .ok (↑idx, srcSlot) ∧ Reserved dest idx m' ∧ s ≠ 0) m := by
  rw [copyBegin, wlp_bind, wlp_read, wlp_ite]
  refine ⟨fun _ => wlp_pure.mpr (.inl ⟨_, rfl, h⟩), fun hv => ?_⟩
  rw [not_not, id_eq] at hv
  rw [wlp_bind]
  refine wlp_mono (marked_allocSlotId h) fun r m₁ h1 => ?_
  obtain ⟨hr, -, hpos⟩ := h1
  have hnonneg : ¬ r < 0 := fun hneg => hsafe ⟨hv, hr ▸ hneg⟩
  obtain ⟨idx, rfl⟩ : ∃ j : ℕ, r = j := ⟨r.toNat, by omega⟩
  have hres := hpos idx rfl
  have hone : ¬ (idx : ℤ) = -1 := by omega
  rw [if_neg hone, wlp_ite]
  refine ⟨fun _ => ?_, fun hs => ?_⟩
  · rw [wlp_bind]
    exact wlp_mono (marked_freeSlotId hres) fun _ _ h2 => wlp_pure.mpr (.inl ⟨_, rfl, h2⟩)
  · simp only [kmallocSlot, kfreeSlot, wlp_bind, wlp_store, wlp_read, wlp_ite]
    refine ⟨fun _ => ?_, fun _ => ?_⟩
    · exact wlp_mono (marked_freeSlotId ((hres.setSlot _).setSlot _)) fun _ _ h2 =>
        wlp_pure.mpr (.inl ⟨_, rfl, h2⟩)
    · refine wlp_mono frame_refAdd fun _ m2 h2 => ?_
      exact wlp_pure.mpr (.inr ⟨idx, _, rfl, ((hres.setSlot _).frame h2).setSlot _, hs⟩)

theorem marked_capCopy : wlp (capCopy src dest i arrays s) (fun _ m' => AllMarked m') m := by
  rw [capCopy, wlp_bind]
  refine wlp_mono (marked_copyBegin h hsafe) fun r m₁ h1 => ?_
  obtain ⟨e, rfl, h1⟩ | ⟨idx, srcSlot, rfl, hres, hs⟩ := h1
  · exact wlp_pure.mpr h1
  · simp only [wlp_bind, wlp_pure]
    exact wlp_mono (frame_onLinks _) fun _ _ h2 => marked_installSlot (hres.frame h2) hs

theorem marked_capMove : wlp (capMove src dest i arrays s) (fun _ m' => AllMarked m') m := by
  rw [capMove, wlp_bind]
  refine wlp_mono (marked_capCopy h hsafe) fun r m₁ h1 => ?_
  rw [wlp_ite]
  refine ⟨fun _ => wlp_pure.mpr h1, fun _ => ?_⟩
  simp only [wlp_bind, wlp_bugOn, wlp_pure]
  exact wlp_mono (marked_capFree h1) fun _ _ h2 _ => h2

end

omit h in
theorem marked_capInsertInto (h : Reserved g idx m) (hs : s ≠ 0) :
    wlp (capInsertInto g o rights idx s) (fun _ m' => AllMarked m') m := by
  simp only [capInsertInto, wlp_bind, wlp_store, wlp_pure]
  refine wlp_mono (frame_onLinks _) fun _ m₁ h1 => ?_
  exact wlp_mono frame_refAdd fun _ _ h2 =>
    marked_installSlot (((h.setSlot _).frame h1).frame h2) hs

theorem marked_capInsert (hright : (m.table g).MarksRight i.toNat) :
    wlp (capInsert g o rights i s) (fun _ m' => AllMarked m') m := by
  simp only [capInsert, wlp_bind, wlp_read, wlp_bugOn, wlp_store]
  intro hin
  obtain ⟨idx, rfl⟩ : ∃ j : ℕ, i = j := ⟨i.toNat, by omega⟩
  have hi : idx < (m.table g).slotsSize := by omega
  have hres : Reserved g idx (m.setTable g ((m.table g).mark idx)) :=
    ⟨h.mark (fun _ => hi) hright, fun _ => by
      simp only [CapMem.setTable_table, update_self]
      exact hi⟩
  rw [wlp_ite]
  refine ⟨fun _ => ?_, fun hold => marked_capInsertInto hres hold⟩
  rw [wlp_ite]
  refine ⟨fun _ => ?_, fun hs => marked_capInsertInto hres hs⟩
  rw [wlp_bind]
  exact wlp_mono (marked_freeSlotId hres) fun _ _ h2 => wlp_pure.mpr h2

theorem marked_capReplace : wlp (capReplace g o i) (fun _ m' => AllMarked m') m := by
  simp only [capReplace, wlp_bind, wlp_read, wlp_bugOn, wlp_ite, wlp_pure, wlp_store]
  refine fun _ _ _ => ⟨fun _ => h, fun _ => ?_⟩
  refine wlp_mono (frame_onLinks _) fun _ m₁ h1 => ?_
  exact wlp_mono frame_refAdd fun _ _ h2 => ((h.setSlot _).frame h1).frame h2

omit h in
theorem group_of_withObject {type : ObjectType} (hg : Group (withObject m o type) g) :
    (g = o ∧ type = .capGroup) ∨ (g ≠ o ∧ Group m g) := by
  by_cases heq : g = o
  · subst heq
    left
    simpa [Group, Live] using hg
  · right
    refine ⟨heq, ?_⟩
    simpa [Group, Live, heq] using hg

theorem marked_createObject {type : ObjectType} :
    wlp (createObject o type a) (fun _ m' => AllMarked m') m := by
  rw [createObject, objectAlloc, wlp_bind, wlp_ite]
  refine ⟨fun _ => ?_, fun h0 => ?_⟩
  · simp only [wlp_pure, wlp_bind, wlp_when, ne_eq, not_true, false_and, false_imp_iff, true_and,
      not_false_eq_true, true_imp_iff]
    exact h
  have hlinks : wlp (onLinks (initListHead (.head o))) (fun _ m' => m' = withObject m o type)
      (m.setObject o ⟨type, 0, false, true⟩) := by
    simp only [wlp_onLinks, initListHead, wlp_bind, wlp_store]
    rfl
  simp only [wlp_bind, wlp_store, wlp_pure, wlp_when, capGroupInit, ne_eq, h0, not_false_eq_true,
    true_and]
  refine wlp_mono hlinks fun _ m₁ h1 => ?_
  subst h1
  refine ⟨?_, fun htype => ?_⟩
  · rintro rfl
    have hbits : (init baseObjectNum a).Bits fun _ => False := bits_init (by decide) (by decide)
    refine ⟨fun g hg => ?_, fun g hg => ?_⟩
    · obtain ⟨rfl, -⟩ | ⟨hne, hg⟩ := group_of_withObject hg
      · simpa using hbits
      · simpa [hne] using h.tables g hg
    · obtain ⟨rfl, -⟩ | ⟨hne, hg⟩ := group_of_withObject hg
      · simpa using full_init
      · simpa [hne] using h.full g hg
  · refine h.of_table_eq rfl fun g hg => ?_
    obtain ⟨-, hcap⟩ | ⟨-, hg⟩ := group_of_withObject hg
    · exact absurd hcap htype
    · exact hg

end

end calls

/-! ## Runs -/

/-- The calls after which the bitmaps are still right. -/
def Op.Marks : Op → State → Prop
  | .capCopy src dest srcSlotId arrays _, s => ¬ Runaway s.mem src dest srcSlotId arrays
  | .capMove src dest srcSlotId arrays _, s => ¬ Runaway s.mem src dest srcSlotId arrays
  | .capInsert g _ _ slotId _, s => (s.mem.table g).MarksRight slotId.toNat
  | _, _ => True

/-- A step of a run in which the bitmaps stay right. -/
def MarkingStep (s s' : State) : Prop := ∃ op : Op, op.Marks s ∧ Step op s s'

theorem MarkingStep.marked (hstep : MarkingStep s s') (h : AllMarked s.mem) : AllMarked s'.mem := by
  obtain ⟨op, hop, hstep⟩ := hstep
  cases hstep with
  | createObject ho => exact marked_createObject h _ _ ho
  | capAlloc ho => exact marked_capAlloc h _ _ ho
  | capCopy ho => exact marked_capCopy h hop _ _ ho
  | capMove ho => exact marked_capMove h hop _ _ ho
  | capFree ho => exact marked_capFree h _ _ ho
  | capFreeAll ho => exact marked_capFreeAll h _ _ ho
  | capInsert ho => exact marked_capInsert h hop _ _ ho
  | capReplace ho => exact marked_capReplace h _ _ ho
  | objGetNull ho | objGet ho => exact h.frame (frame_getOpaque _ _ ho)
  | objPut ho => exact h.frame (frame_objPut _ _ ho)

/-- What a slot table should be, and what follows for `alloc_slot_id`. -/
structure TableRight (t : SlotTable) : Prop where
  slotsBmp : ∀ i < t.slotsSize, getBit i t.slotsBmp = true ↔ t.slots i ≠ 0
  fullSlotsBmp : ∀ w < t.slotsSize / 64, getBit w t.fullSlotsBmp = true ↔ t.slotsBmp w = ones
  /-- The slot id is the smallest free one. -/
  least : ∀ (arrays : List (Option Around)) (idx : ℕ) (t' : SlotTable),
    SlotTable.allocSlotId arrays t = (↑idx, t') → t.getSlot idx = 0 ∧ ∀ j < idx, t.getSlot j ≠ 0
  /-- It gives up only when no slot id is free and the table cannot be expanded. -/
  giveUp : ∀ (arrays : List (Option Around)) (r : ℤ) (t' : SlotTable),
    SlotTable.allocSlotId arrays t = (r, t') → r < 0 →
    (∀ j < t.slotsSize, t.getSlot j ≠ 0) ∧ ∀ a ∈ arrays.head?, t.expandSlotTable a = none
  /-- It needs one expansion at most. -/
  ends : ∀ (a : Option Around) (arrays : List (Option Around)),
    SlotTable.allocSlotId (a :: arrays) t = SlotTable.allocSlotId [a] t
  /-- An expansion keeps what is there. -/
  expand : ∀ (a : Option Around) (t' : SlotTable), t.expandSlotTable a = some t' →
    t.slotsSize < t'.slotsSize ∧
    ∀ i < t.slotsSize, t'.slots i = t.slots i ∧ getBit i t'.slotsBmp = getBit i t.slotsBmp

theorem SlotTable.Bits.tableRight (h : t.Bits fun _ => False) (hfull : t.Full) : TableRight t where
  slotsBmp i hi := by simpa using h.bit i hi
  fullSlotsBmp := hfull
  least arrays idx t' heq := by
    obtain ⟨j, u, hj, ha⟩ | ⟨hneg, -, -⟩ := allocSlotId_spec h arrays
    · obtain ⟨hidx, rfl⟩ := Prod.mk.inj (hj.symm.trans heq)
      obtain rfl : j = idx := by omega
      exact ⟨ha.free, ha.least hfull⟩
    · obtain ⟨hidx, -⟩ := Prod.mk.inj (hneg.symm.trans heq)
      exact absurd hidx (by unfold enomem; omega)
  giveUp arrays r t' heq hr := by
    obtain ⟨j, u, hj, -⟩ | ⟨-, hnone, hexp⟩ := allocSlotId_spec h arrays
    · obtain ⟨hidx, -⟩ := Prod.mk.inj (hj.symm.trans heq)
      omega
    · exact ⟨full_of_search_none h hfull hnone, hexp⟩
  ends a arrays := by
    cases hs : t.search with
    | some idx => simp [allocSlotId, hs]
    | none =>
      cases hexp : t.expandSlotTable a with
      | none => simp [allocSlotId, hs, hexp]
      | some u =>
        -- the expanded table has something to find
        obtain ⟨hb, b, rfl, rfl⟩ := expandSlotTable_some hexp
        obtain ⟨idx, hidx⟩ := search_expand (a := b) h (by simp) hb
        cases arrays <;> simp [allocSlotId, hs, hexp, hidx]
  expand a t' hexp := by
    obtain ⟨hb, b, rfl, rfl⟩ := expandSlotTable_some hexp
    refine ⟨by simp, fun i hi => ⟨slots_expand_of_lt hi, ?_⟩⟩
    rw [getBit_slotsBmp_expand h.aligned (by omega)]
    simp [hi]

theorem allMarked_of_run (h0 : ∀ o, ¬ Live m₀ o)
    (hrun : Relation.ReflTransGen MarkingStep ⟨m₀, refs0⟩ s) : AllMarked s.mem := by
  induction hrun with
  | refl => exact ⟨fun g hg => absurd hg.1 (h0 g), fun g hg => absurd hg.1 (h0 g)⟩
  | tail _ hstep ih => exact hstep.marked ih

/-- **The slot tables** are right in every state of a run in which `cap_insert` always
tells full words from others and `cap_copy` never goes on after a failed expansion. -/
theorem slot_tables_right {m₀ : CapMem} (h₀ : ∀ o, ¬ Live m₀ o) {refs₀ : ℕ → ℕ} {s : State}
    (hrun : Relation.ReflTransGen MarkingStep ⟨m₀, refs₀⟩ s) {g : ℕ} (hg : Group s.mem g) :
    TableRight (s.mem.table g) := by
  have h := allMarked_of_run h₀ hrun
  exact (h.tables g hg).tableRight (h.full g hg)

/-- The root cap group with the capability to itself. -/
theorem slot_tables_right_root_group :
    TableRight ((after (capAlloc 1 1 0 [] 10) rootMem).table 1) := by
  have hstep1 : MarkingStep ⟨bootMem, fun _ => 0⟩ ⟨rootMem, fun _ => 0⟩ :=
    ⟨.createObject 1 .capGroup zeroes, trivial, .createObject createObject_root⟩
  have hstep2 : MarkingStep ⟨rootMem, fun _ => 0⟩
      ⟨after (capAlloc 1 1 0 [] 10) rootMem, fun _ => 0⟩ :=
    ⟨.capAlloc 1 1 0 [] 10, trivial, .capAlloc capAlloc_root⟩
  exact slot_tables_right bootMem_dead ((Relation.ReflTransGen.single hstep1).tail hstep2)
    (by decide +kernel)

/-! ## A word that is filled by `cap_insert` -/

theorem wp_capInsert_empty {g o s rights idx : ℕ} (hi : idx < (m.table g).slotsSize)
    (hempty : (m.table g).slots idx = 0) (hs : s ≠ 0) :
    wp (capInsert g o rights idx s) (fun _ m' =>
      m'.table = update m.table g (((m.table g).mark idx).setSlot idx s) ∧
      (∀ x, x ≠ s → m'.slot x = m.slot x) ∧
      SameKinds m m') (fun _ => True) m := by
  have hset : getBit (toU32 idx) ((m.table g).mark idx).slotsBmp = true := by
    simp [mark]
  have hnull : ((m.setTable g ((m.table g).mark idx)).table g).slots idx = 0 := by
    simpa [mark] using hempty
  have hin : ¬ ((idx : ℤ) < 0 ∨ (idx : ℤ) ≥ (m.table g).slotsSize) := by omega
  have hlinks : ∀ {m₁ : CapMem} {n n' : CapNode} {Q : Unit → CapMem → Prop},
      (∀ L, Q () (m₁.setLinks L)) → wp (onLinks (listAdd n n')) Q (fun _ => True) m₁ := by
    intro m₁ n n' Q hQ
    simp only [wp_onLinks, listAdd, wp_bind, wp_store, true_and]
    exact hQ _
  simp only [capInsert, wp_bind, wp_read, wp_bugOn, wp_store, hin, not_false_eq_true, true_and,
    hnull, if_true, hs, if_false, capInsertInto, wp_pure]
  refine hlinks fun L => ?_
  simp only [refAdd, installSlot, wp_bind, wp_read, wp_store, wp_bugOn, true_and,
    CapMem.setObject_table, CapMem.setLinks_table, CapMem.setSlot_table, CapMem.setTable_table,
    update_self, hset, Bool.true_eq_false, not_false_eq_true, update_idem]
  refine ⟨fun x hx => ?_, kept_of_update rfl rfl rfl⟩
  simp [hx]

/-- The slot ids below `n` of the root cap group are taken, and no word is marked as
full. -/
structure Filled (n : ℕ) (m : CapMem) : Prop where
  group : Group m 1
  object : Live m 2
  size : (m.table 1).slotsSize = 64
  taken : ∀ i < n, getBit i (m.table 1).slotsBmp = true
  free : ∀ i : ℕ, n ≤ i → i < 64 → (m.table 1).slots i = 0
  notFull : (m.table 1).fullSlotsBmp 0 = 0
  fresh : ∀ x, 100 + n ≤ x → (m.slot x).live = false

theorem Filled.insert {m : CapMem} (h : Filled n m) (hn : n < 64) :
    ∃ m', AnyStep ⟨m, fun _ => 0⟩ ⟨m', fun _ => 0⟩ ∧ Filled (n + 1) m' := by
  have hi : n < (m.table 1).slotsSize := by rw [h.size]; exact hn
  have hb : n < maxSlots := Nat.lt_of_lt_of_le hn (by decide)
  have hslot0 : 100 + n ≠ 0 := by omega
  obtain ⟨r, m', ho, htable, hslot, hobj⟩ := wp_outcome
    (@wp_capInsert_empty m 1 2 (100 + n) 0 n hi (h.free n (Nat.le_refl n) hn) hslot0)
  have htab : m'.table 1 = ((m.table 1).mark n).setSlot n (100 + n) := by simp [htable]
  have hword : n / 64 = 0 := by omega
  have hfull : ¬ (m.table 1).fullSlotsBmp 0 = ones := by
    rw [h.notFull]
    decide
  refine ⟨m', ⟨.capInsert 1 2 0 n (100 + n), ⟨h.group, h.object, fun _ => h.fresh _ (Nat.le_refl _)⟩,
    .capInsert ho⟩, ?_, ?_, ?_, ?_, ?_, ?_, ?_⟩
  · rw [group_iff_of_kept hobj]
    exact h.group
  · rw [Live, (hobj 2).1]
    exact h.object
  · rw [htab]
    exact h.size
  · intro i hin
    rw [htab]
    simp only [setSlot, mark, toU32_of_lt hb, getBit_setBit, Bool.or_eq_true, decide_eq_true_eq]
    by_cases heq : i = n
    · exact .inl heq
    · exact .inr (h.taken i (by omega))
  · intro i hni hi'
    rw [htab]
    have hne : (i : ℤ) ≠ n := by omega
    simpa [setSlot, mark, hne] using h.free i (by omega) hi'
  · rw [htab]
    simp only [setSlot, mark, Int.toNat_natCast, bitsPerLong, hword, hfull, if_false]
    exact h.notFull
  · intro x hx
    rw [hslot x (by omega)]
    exact h.fresh x (by omega)

/-- The root cap group and an object. -/
def oneObject : CapMem := after (createObject 2 .pmo zeroes) rootMem

theorem filled_oneObject : Filled 0 oneObject where
  group := by decide +kernel
  object := by decide +kernel
  size := rfl
  taken := fun i hi => absurd hi (by omega)
  free := fun i _ hi => by
    rw [← getSlot_of_lt (t := oneObject.table 1) hi]
    exact getSlot_init i
  notFull := rfl
  fresh := fun _ _ => rfl

theorem exists_filled (n : ℕ) (hn : n ≤ 64) :
    ∃ m, Relation.ReflTransGen AnyStep ⟨bootMem, fun _ => 0⟩ ⟨m, fun _ => 0⟩ ∧ Filled n m := by
  induction n with
  | zero => exact ⟨oneObject, run_oneObject, filled_oneObject⟩
  | succ n ih =>
    obtain ⟨m, hrun, hfilled⟩ := ih (by omega)
    obtain ⟨m', hstep, hfilled'⟩ := hfilled.insert (by omega)
    exact ⟨m', hrun.tail hstep, hfilled'⟩

/-- `cap_insert` fills the first word and does not mark it as full. -/
theorem filled_word_not_marked_full :
    ∃ (m₀ : CapMem) (s : State) (g : ℕ), (∀ o, ¬ Live m₀ o) ∧
      Relation.ReflTransGen AnyStep ⟨m₀, fun _ => 0⟩ s ∧ Group s.mem g ∧
      ¬ TableRight (s.mem.table g) := by
  obtain ⟨m, hrun, h⟩ := exists_filled 64 (Nat.le_refl _)
  refine ⟨bootMem, ⟨m, fun _ => 0⟩, 1, bootMem_dead, hrun, h.group, fun hright => ?_⟩
  have hones : (m.table 1).slotsBmp 0 = ones :=
    (eq_ones_iff _ _).mpr fun i hi => h.taken i (by omega)
  have hbit := (hright.fullSlotsBmp 0 (by rw [h.size]; decide)).mpr hones
  rw [getBit, h.notFull] at hbit
  exact absurd hbit (by decide)

end Starfish.Object
