import Starfish.Object.Invariant

/-!
# Starfish.Object.Spec

What the parts of the capability functions do to the invariant, one rule for each
stretch of code between two locks.
-/

namespace Starfish.Object

open Function SlotTable CapNode Prog List

variable {G loose : ℕ → Prop} {J : ℕ → ℕ → Prop} {refs : ℕ → ℕ} {xs : ℕ → List ℕ} {m : CapMem}
  {g o s idx : ℕ} {i : ℤ}

attribute [local simp] copyNodes total

/-- `J` and one more reserved slot id. -/
@[simp] def also (J : ℕ → ℕ → Prop) (g idx : ℕ) : ℕ → ℕ → Prop := fun g' i => (g' = g ∧ i = idx) ∨ J g' i

/-! ## List operations -/

section

variable {α : Type}

theorem wp_onLinks : wp (onLinks c) Q (fun _ => True) m ↔
      wp c (fun a L => Q a (m.setLinks L)) (fun _ => True) m.links :=
  wp_zoom (fun _ _ => rfl) (fun _ _ _ => rfl) fun _ => rfl

theorem wlp_onLinks : wlp (onLinks c) Q m ↔ wlp c (fun a L => Q a (m.setLinks L)) m.links :=
  wlp_zoom (fun _ _ => rfl) (fun _ _ _ => rfl) fun _ => rfl

end

/-- A new slot behind the slots `as` of the list of `o`. -/
theorem wp_listAdd_copies (h : Caps G loose xs m) (ho : Live m o) (hxs : xs o = as ++ bs)
    (hs : ∀ o, s ∉ xs o)
    (hQ : ∀ L, CopyFwds m L (update xs o (as ++ s :: bs)) →
      CopyBwds m L (update xs o (as ++ s :: bs)) →
      Q () (m.setLinks L)) :
    wp (onLinks (listAdd (.copy s) ((as.map copy).getLastD (.head o)))) Q (fun _ => True)
      m := by
  have hnodes : copyNodes xs o = as.map .copy ++ bs.map .copy := by simp [hxs]
  have hfresh : Fresh head (Live m) (copyNodes xs) (.copy s) := by
    intro o' _ hmem
    simp [hs o'] at hmem
  rw [wp_onLinks]
  refine wp_listAdd_at h.apart h.fwd h.bwd ho hnodes hfresh (fun _ _ _ => trivial)
    (fun _ _ _ _ _ => trivial) fun L hF hB => ⟨trivial, hQ L ?_ ?_⟩
  · rw [CopyFwds, copyNodes_update, map_append, map_cons]
    exact hF
  · rw [CopyBwds, copyNodes_update, map_append, map_cons]
    exact hB

theorem wp_listDel_copies (h : Caps G loose xs m) (hxs : xs o = as ++ s :: bs)
    (hQ : ∀ L, CopyFwds m L (update xs o (as ++ bs)) → CopyBwds m L (update xs o (as ++ bs)) →
      Q () (m.setLinks L)) :
    wp (onLinks (listDel (.copy s))) Q (fun _ => True) m := by
  have ho : Live m o := h.live_of_mem (s := s) (by simp [hxs])
  have hnodes : copyNodes xs o = as.map .copy ++ .copy s :: bs.map .copy := by
    simp [hxs]
  rw [wp_onLinks]
  refine wp_listDel_at h.apart h.fwd h.bwd ho hnodes (fun _ _ _ _ _ => trivial)
    fun L hF hB => ⟨trivial, hQ L ?_ ?_⟩
  · rw [CopyFwds, copyNodes_update, map_append]
    exact hF
  · rw [CopyBwds, copyNodes_update, map_append]
    exact hB

/-! ## Slot ids -/

theorem Tables.set (h : Tables G J m)
    (ht : G g → t.Bits (J' g)) (hJ : ∀ g', g' ≠ g → J' g' = J g') :
    Tables G J' (m.setTable g t) := by
  intro g' hg'
  by_cases heq : g' = g
  · subst heq
    simpa using ht hg'
  · simpa [heq, hJ g' heq] using h g' hg'

theorem also_of_ne (h : g' ≠ g) : also J g idx g' = J g' := by
  funext i
  simp [h]

namespace Tables

/-- `alloc_slot_id` reserves a slot id. -/
theorem reserve (h : Tables G J m) (hJ : ∀ i, ¬ J g i)
    (ha : G g → (m.table g).Alloc idx t) : Tables G (also J g idx) (m.setTable g t) := by
  refine h.set (fun hg => (ha hg).bits.congr fun i => ?_) fun g' hg' => also_of_ne hg'
  simp [hJ i]

theorem release (h : Tables G (also J g idx) m) (hJ : ¬ J g idx)
    (hi : G g → idx < (m.table g).slotsSize) :
    Tables G J (m.setTable g ((m.table g).freeSlotId idx)) := by
  refine h.set (fun hg => ((h g hg).freeSlotId (hi hg)).congr fun i => ?_)
    fun g' hg' => (also_of_ne hg').symm
  by_cases heq : i = idx
  · simp [heq, hJ]
  · simp [heq]

theorem takeOut (h : Tables G J m) (hJ : ∀ i, ¬ J g i) (hi : m.getSlot g i ≠ 0) :
    Tables G J (m.setTable g ((m.table g).freeSlotId i)) := by
  obtain ⟨j, rfl, hj⟩ := lt_of_getSlot (t := m.table g) (i := i) hi
  refine h.set (fun hg => ((h g hg).freeSlotId hj).congr fun k => ?_) fun _ _ => rfl
  simp [hJ k]

theorem install (h : Tables G (also J g idx) m) (hJ : ∀ i, ¬ J g i) (hs : s ≠ 0)
    (hi : G g → idx < (m.table g).slotsSize) :
    Tables G J (m.setTable g ((m.table g).setSlot idx s)) := by
  refine h.set (fun hg => ?_) fun g' hg' => (also_of_ne hg').symm
  have hset : getBit idx (m.table g).slotsBmp = true :=
    ((h g hg).bit idx (hi hg)).mpr (.inr (.inl ⟨rfl, rfl⟩))
  refine ((h g hg).setSlot hs hset).congr fun i => ?_
  simp [hJ i]

/-- `cap_insert` marks a slot id. -/
theorem mark (h : Tables G J m) (hi : G g → idx < (m.table g).slotsSize) :
    Tables G (also J g idx) (m.setTable g ((m.table g).mark idx)) := by
  refine h.set (fun hg => ((h g hg).mark (hi hg)).congr fun i => ?_) fun g' hg' => also_of_ne hg'
  simp

end Tables

namespace Inv

section

variable (h : Inv G J loose refs xs m)
include h

theorem reserve (hJ : ∀ i, ¬ J g i)
    (ha : (m.table g).Alloc idx t) : Inv G (also J g idx) loose refs xs (m.setTable g t) where
  tables := h.tables.reserve hJ fun _ => ha
  caps := h.caps.grow ha.grew.slot
  counts := h.counts.of_eq rfl

omit h in
theorem release (h : Inv G (also J g idx) loose refs xs m) (hJ : ¬ J g idx)
    (hi : idx < (m.table g).slotsSize) (hfree : m.getSlot g idx = 0) :
    Inv G J loose refs xs (m.setTable g ((m.table g).freeSlotId idx)) where
  tables := h.tables.release hJ fun _ => hi
  caps := by
    refine h.caps.grow fun i => ?_
    rw [getSlot_freeSlotId]
    split
    · next heq => rw [heq, hfree]
    · rfl
  counts := h.counts.of_eq rfl

/-- The first step of `__cap_free`. -/
theorem takeOut (hg : G g) (hJ : ∀ i, ¬ J g i) (hi : m.getSlot g i = s) (hs : s ≠ 0) :
    Inv G J (fun x => x = s ∨ loose x) refs xs (m.setTable g ((m.table g).freeSlotId i)) where
  tables := h.tables.takeOut hJ (hi.trans_ne hs)
  caps := h.caps.uninstall hg hi hs
  counts := h.counts.of_eq rfl

/-- A slot that is filled is linked to the others of its object. -/
theorem link (ho : Live m o)
    (hxs : xs o = as ++ bs) (hs : ∀ o, s ∉ xs o) (hs0 : s ≠ 0) (hobj : (m.slot s).object = o)
    (hvalid : (m.slot s).isvalid = true) (hlive : (m.slot s).live = true) (hrefs : 0 < refs o)
    (hF : CopyFwds m L (update xs o (as ++ s :: bs)))
    (hB : CopyBwds m L (update xs o (as ++ s :: bs))) :
    Inv G J (fun x => x = s ∨ loose x) (update refs o (refs o - 1))
      (update xs o (as ++ s :: bs)) (m.setLinks L) where
  tables := h.tables
  caps := h.caps.link ho hxs hs hs0 hobj hvalid hlive hF hB
  counts := by
    rw [total_link hxs hrefs]
    exact h.counts.of_eq rfl

omit h in
/-- A loose slot is taken off its list and freed; its reference is still there. -/
theorem unlink (h : Inv G J (fun x => x = s ∨ loose x) refs xs m)
    (hxs : xs o = as ++ s :: bs) (v : ObjectSlot)
    (hF : CopyFwds m L (update xs o (as ++ bs)))
    (hB : CopyBwds m L (update xs o (as ++ bs))) :
    Inv G J loose (update refs o (refs o + 1)) (update xs o (as ++ bs))
      ((m.setLinks L).setSlot s v) where
  tables := h.tables
  caps := h.caps.unlink hxs v hF hB
  counts := by
    rw [total_unlink hxs]
    exact h.counts.of_eq rfl

omit h in
/-- `install_slot` on a reserved slot id. -/
theorem install (h : Inv G (also J g idx) (fun x => x = s ∨ loose x) refs xs m) (hl : ¬ loose s)
    (hs : s ∈ xs o) (hJ : ∀ i, ¬ J g i) (hg : G g) (hgrp : (m.slot s).capGroup = g)
    (hid : (m.slot s).slotId = idx) (hfree : m.getSlot g idx = 0)
    (hi : idx < (m.table g).slotsSize) :
    Inv G J loose refs xs (m.setTable g ((m.table g).setSlot idx s)) where
  tables := h.tables.install hJ (h.caps.slot o s hs).1 fun _ => hi
  caps := h.caps.install hl hs hg hgrp hid hfree (by omega) (by exact_mod_cast hi)
  counts := h.counts.of_eq rfl

omit h in
/-- The bit that `install_slot` asks for. -/
theorem bit_reserved (h : Inv G (also J g idx) loose refs xs m) (hg : G g)
    (hi : idx < (m.table g).slotsSize) : getBit (toU32 idx) (m.table g).slotsBmp = true := by
  have hbits := h.tables g hg
  rw [toU32_of_lt (Nat.lt_of_lt_of_le hi hbits.bound)]
  exact (hbits.bit idx hi).mpr (.inr (.inl ⟨rfl, rfl⟩))

theorem setSlot (hs : ∀ o, s ∉ xs o) (v : ObjectSlot) : Inv G J loose refs xs (m.setSlot s v) where
  tables := h.tables
  caps := h.caps.setSlot hs v
  counts := h.counts.of_eq rfl

theorem setObject (ho : Live m o)
    (hv : v.live = true) (hn : v.refcount = (xs o).length + n) (hb : v.refcount < 2 ^ 64) :
    Inv G J loose (update refs o n) xs (m.setObject o v) where
  tables := h.tables
  caps := h.caps.setObject (hv.trans ho.symm)
  counts := by
    rw [total_update]
    exact h.counts.set hv hn (hn ▸ hb)

theorem free (h0 : total refs xs o = 0)
    (hv : v.live = false) : Inv G J loose refs xs (m.setObject o v) where
  tables := h.tables
  caps := h.caps.free (eq_nil_of_length_eq_zero (by unfold total at h0; omega)) hv
  counts := h.counts.free hv h0

/-- The copies list of an object without capabilities is empty. -/
theorem listEmpty (ho : Live m o) (hxs : xs o = []) : m.links.listEmpty (.head o) := by
  have hpath := h.caps.fwd o ho
  rw [copyNodes, hxs] at hpath
  exact hpath

end

end Inv

theorem wp_allocSlotId (h : Inv G J loose refs xs m) (hg : G g) (hJ : ∀ i, ¬ J g i)
    (arrays : List (Option Around)) :
    wp (allocSlotId g arrays) (fun r m' => r = (SlotTable.allocSlotId arrays (m.table g)).1 ∧
        ((∃ (idx : ℕ) (t : SlotTable), r = idx ∧ (m.table g).Alloc idx t ∧ m' = m.setTable g t) ∨
          (r = -enomem ∧ m' = m))) (fun _ => True) m := by
  have hbits : (m.table g).Bits fun _ => False := (h.tables g hg).congr fun i => by simp [hJ i]
  rw [allocSlotId, wp_act, wp_ret]
  refine ⟨rfl, trivial, rfl, ?_⟩
  obtain ⟨idx, t, heq, ha⟩ | ⟨heq, -, -⟩ := allocSlotId_spec hbits arrays
  · exact .inl ⟨idx, t, by rw [heq], ha, by rw [heq]⟩
  · exact .inr ⟨by rw [heq], by rw [heq]; simp [CapMem.setTable]⟩

/-! ## References -/

/-- The counts of a memory, and what becomes of the objects: none comes up from
nothing, and one that goes was referred to. -/
structure Steady (tot : ℕ → ℕ) (m : CapMem) (tot' : ℕ → ℕ) (m' : CapMem) : Prop where
  live : ∀ o, Live m' o → Live m o
  type : ∀ o, (m'.object o).type = (m.object o).type
  kept : ∀ o, Live m o → Live m' o → (tot o = 0 ↔ tot' o = 0)
  died : ∀ o, Live m o → ¬ Live m' o → 0 < tot o

namespace Steady

variable {tot tot' tot'' : ℕ → ℕ} {m' m'' : CapMem}

theorem of_object_eq (h : m'.object = m.object) : Steady tot m tot m' := by
  have hlive : Live m' = Live m := by
    funext o
    rw [Live, Live, h]
  exact ⟨fun o ho => hlive ▸ ho, fun o => by rw [h], fun _ _ _ => Iff.rfl,
    fun o ho ho' => absurd ho (hlive ▸ ho')⟩

theorem trans (h : Steady tot m tot' m') (h' : Steady tot' m' tot'' m'') :
    Steady tot m tot'' m'' where
  live o ho := h.live o (h'.live o ho)
  type o := (h'.type o).trans (h.type o)
  kept o ho ho'' := by
    have ho' := h'.live o ho''
    exact (h.kept o ho ho').trans (h'.kept o ho' ho'')
  died o ho ho'' := by
    by_cases ho' : Live m' o
    · have hpos := h'.died o ho' ho''
      have hiff := h.kept o ho ho'
      omega
    · exact h.died o ho ho'

section

variable {v : KObject} (hobj : m'.object = update m.object o v) (hv : v.live = true)
  (ht : v.type = (m.object o).type) (ho : Live m o)
include hobj hv ht ho

/-- The record of a live object changes. -/
theorem of_update (hkept : tot o = 0 ↔ tot' o = 0) (hother : ∀ o', o' ≠ o → tot' o' = tot o') :
    Steady tot m tot' m' := by
  have hlive : ∀ o', Live m' o' ↔ Live m o' := by
    intro o'
    rw [Live, hobj]
    by_cases heq : o' = o
    · subst heq
      simpa [hv] using ho
    · simp [Live, heq]
  refine ⟨fun o' ho' => (hlive o').mp ho', fun o' => ?_, fun o' _ _ => ?_,
    fun o' ho' hn => absurd ((hlive o').mpr ho') hn⟩
  · rw [hobj]
    by_cases heq : o' = o
    · subst heq
      simp [ht]
    · simp [heq]
  · by_cases heq : o' = o
    · rw [heq]
      exact hkept
    · rw [hother o' heq]

/-- An object that has a capability gets one more reference. -/
theorem addRef (hs : s ∈ xs o) :
    Steady (total refs xs) m (total (update refs o (refs o + 1)) xs) m' := by
  have hpos := length_pos_of_mem hs
  refine of_update hobj hv ht ho ?_ fun o' ho' => by simp [ho']
  simp only [total, update_self]
  omega

end

theorem of_freed (hdead : ¬ Live m' o)
    (ht : (m'.object o).type = (m.object o).type) (hpos : 0 < tot o)
    (hobj : ∀ o', o' ≠ o → m'.object o' = m.object o') (hother : ∀ o', o' ≠ o → tot' o' = tot o') :
    Steady tot m tot' m' := by
  have hne : ∀ o', Live m' o' → o' ≠ o := fun o' ho' heq => hdead (heq ▸ ho')
  refine ⟨fun o' ho' => ?_, fun o' => ?_, fun o' _ ho' => ?_, fun o' ho' hn => ?_⟩
  · rw [Live, ← hobj o' (hne o' ho')]
    exact ho'
  · by_cases heq : o' = o
    · rw [heq, ht]
    · rw [hobj o' heq]
  · rw [hother o' (hne o' ho')]
  · by_cases heq : o' = o
    · exact heq ▸ hpos
    · refine absurd ?_ hn
      rw [Live, hobj o' heq]
      exact ho'

end Steady

section

variable (h : Inv G J loose refs xs m)
include h

theorem wp_objPut (hrefs : 0 < refs o) :
    wp (objPut o) (fun _ m' => Inv G J loose (update refs o (refs o - 1)) xs m' ∧
      Steady (total refs xs) m (total (update refs o (refs o - 1)) xs) m' ∧
      m'.table = m.table ∧ m'.slot = m.slot) (fun _ => True) m := by
  have ho : Live m o := by
    by_contra hdead
    have h0 := h.counts.dead o hdead
    unfold total at h0
    omega
  have hcount := h.counts.count o ho
  have hbound := h.counts.bound o
  unfold total at hcount hbound
  have hsub : ((m.object o).refcount + (2 ^ 64 - 1)) % 2 ^ 64 = (xs o).length + (refs o - 1) := by
    rw [hcount]
    omega
  have hinv := h.setObject ho (n := refs o - 1)
    (v := { m.object o with refcount := ((m.object o).refcount + (2 ^ 64 - 1)) % 2 ^ 64 }) ho hsub
    (Nat.mod_lt _ (by decide))
  have hother : ∀ o', o' ≠ o → total (update refs o (refs o - 1)) xs o' =
      total refs xs o' := fun o' ho' => by simp [ho']
  simp only [objPut, refSub, wp_bind, wp_act, wp_ret, wp_when, true_and]
  constructor
  · -- the last reference
    intro hone
    have hlast : (xs o).length + (refs o - 1) = 0 := by omega
    have hnil : xs o = [] := eq_nil_of_length_eq_zero (by omega)
    simp only [freeObject, wp_bind, wp_read, wp_bugOn, wp_store, not_not, true_and]
    refine ⟨h.listEmpty ho hnil, hinv.free (by simp [hlast]) rfl, ?_, rfl, rfl⟩
    refine Steady.of_freed (o := o) (by simp [Live]) (by simp) (by unfold total; omega)
      (fun o' ho' => ?_) hother
    simp [ho']
  · intro hmore
    refine ⟨hinv, Steady.of_update rfl ho rfl ho ?_ hother, rfl, rfl⟩
    simp only [total, update_self]
    omega

/-- `atomic_fetch_add_64` of the reference count. -/
theorem Inv.addRef (ho : Live m o) (hmax : total refs xs o + 1 < 2 ^ 64) :
    Inv G J loose (update refs o (refs o + 1)) xs
      (m.setObject o { m.object o with refcount := ((m.object o).refcount + 1) % 2 ^ 64 }) := by
  refine h.setObject ho ho ?_ (Nat.mod_lt _ (by decide))
  have hcount := h.counts.count o ho
  unfold total at hcount hmax
  simp only
  rw [hcount]
  omega

theorem wlp_getOpaque (hg : G g)
    (type : Option ObjectType) (hmax : ∀ o, Live m o → total refs xs o + 1 < 2 ^ 64) :
    wlp (getOpaque g i type) (fun r m' => (r = none ∧ m' = m) ∨
      ∃ o, r = some o ∧ Live m' o ∧ m.getSlot g i ∈ xs o ∧
        Inv G J loose (update refs o (refs o + 1)) xs m' ∧
        Steady (total refs xs) m (total (update refs o (refs o + 1)) xs) m' ∧
        m'.table = m.table ∧ m'.slot = m.slot) m := by
  simp only [getOpaque, refAdd, wlp_bind, wlp_read, wlp_ite, wlp_bugOn, wlp_pure, wlp_store]
  refine ⟨fun _ => .inl ⟨trivial, trivial⟩,
    fun hin => ⟨fun _ => .inl ⟨trivial, trivial⟩, fun _ hne _ _ => ?_⟩⟩
  refine ⟨fun _ => .inr ?_, fun _ => .inl ⟨trivial, trivial⟩⟩
  have hget : m.getSlot g i = (m.table g).slots i := by
    rw [CapMem.getSlot, getSlot, if_neg hin]
  obtain ⟨hmem, -, -, -⟩ := h.caps.listed g i hg (hget ▸ hne)
  have ho := h.caps.live_of_mem hmem
  refine ⟨_, rfl, ?_, hmem, h.addRef ho (hmax _ ho), Steady.addRef rfl ho rfl ho hmem, rfl, rfl⟩
  rw [Counts.live_setObject, if_pos rfl]
  exact ho

/-! ## Capabilities -/

omit h in
theorem wp_capFreeUnlink (h : Inv G J (fun x => x = s ∨ loose x) refs xs m)
    (hxs : xs o = as ++ s :: bs) :
    wp (capFreeUnlink s) (fun _ m' =>
      Inv G J loose (update refs o (refs o + 1)) (update xs o (as ++ bs)) m' ∧
      m'.table = m.table ∧ m'.object = m.object ∧ ∀ x, x ≠ s → m'.slot x = m.slot x)
      (fun _ => True) m := by
  simp only [capFreeUnlink, kfreeSlot, wp_bind, wp_store, true_and]
  refine wp_listDel_copies h.caps hxs fun L hF hB => ⟨h.unlink hxs _ hF hB, rfl, rfl, ?_⟩
  intro x hx
  simp [hx]

theorem wp_capFree (hg : G g) (hJ : ∀ i, ¬ J g i) :
    wp (capFree g i) (fun r m' => (m.getSlot g i = 0 ∧ r = -ecapbility ∧ m' = m) ∨
      ∃ (o : ℕ) (as bs : List ℕ), r = 0 ∧ xs o = as ++ m.getSlot g i :: bs ∧
        Inv G J loose refs (update xs o (as ++ bs)) m' ∧
        Steady (total refs xs) m (total refs (update xs o (as ++ bs))) m' ∧
        m'.table = update m.table g ((m.table g).freeSlotId i) ∧
        ∀ x, x ≠ m.getSlot g i → m'.slot x = m.slot x) (fun _ => True) m := by
  rw [capFree, wp_bind, capFreeTable, wp_bind, wp_read, wp_ite]
  constructor
  · intro hv
    have hs := (h.caps.validSlot_iff hg).mp hv
    obtain ⟨hmem, -, -, -⟩ := h.caps.listed g i hg hs
    obtain ⟨as, bs, hxs⟩ := append_of_mem hmem
    simp only [freeSlotId, wp_bind, wp_store, wp_pure, wp_read, true_and, id_eq,
      CapMem.setTable_slot]
    refine wp_post (wp_capFreeUnlink (h.takeOut hg hJ rfl hs) hxs) fun _ m₁ h1 => ?_
    obtain ⟨hinv1, htable1, hobj1, hslot1⟩ := h1
    refine wp_post (wp_objPut hinv1 (by simp)) fun _ m2 h2 => .inr ?_
    obtain ⟨hinv2, hsteady, htable2, hslot2⟩ := h2
    rw [total_unlink hxs] at hsteady
    simp only [update_self, Nat.add_sub_cancel, update_idem, update_eq_self] at hinv2 hsteady
    have hsteady1 : Steady (total refs xs) m (total refs xs) m₁ := Steady.of_object_eq hobj1
    refine ⟨_, as, bs, hxs, hinv2, hsteady1.trans hsteady, htable2.trans htable1, fun x hx => ?_⟩
    rw [hslot2, hslot1 x hx]
    rfl
  · intro hv
    have h0 : m.getSlot g i = 0 := by
      by_contra hne
      exact hv ((h.caps.validSlot_iff hg).mpr hne)
    rw [wp_pure, wp_pure]
    exact .inl ⟨h0, rfl, rfl⟩

omit h in
theorem wp_installSlot (h : Inv G (also J g idx) (fun x => x = s ∨ loose x) refs xs m)
    (hl : ¬ loose s) (hs : s ∈ xs o) (hJ : ∀ i, ¬ J g i) (hg : G g)
    (hgrp : (m.slot s).capGroup = g) (hid : (m.slot s).slotId = idx)
    (hfree : m.getSlot g idx = 0) (hi : idx < (m.table g).slotsSize) :
    wp (installSlot g idx s) (fun _ m' => Inv G J loose refs xs m' ∧
      m' = m.setTable g ((m.table g).setSlot idx s)) (fun _ => True) m := by
  have hbit := h.bit_reserved hg hi
  simp only [installSlot, wp_bind, wp_read, wp_bugOn, wp_store, hbit, Bool.true_eq_false,
    not_false_eq_true, true_and, and_true]
  exact h.install hl hs hJ hg hgrp hid hfree hi

omit h in
theorem total_cons (s : ℕ) : total refs (update xs o (s :: xs o)) =
    update (total refs xs) o (total refs xs o + 1) := by
  funext o'
  by_cases ho : o' = o
  · subst ho
    simp only [total, update_self, length_cons]
    omega
  · simp [ho]

/-- What `cap_alloc` and `cap_insert` do between the choice of a slot and
`install_slot`: the slot comes first on the list, and the count goes up. -/
theorem Inv.linkFirst (ho : Live m o) (hs : ∀ o, s ∉ xs o) (hs0 : s ≠ 0) (hobj : v.object = o)
    (hvalid : v.isvalid = true) (hlive : v.live = true) (hw : w.live = true)
    (hn : w.refcount = total refs xs o + 1) (hb : w.refcount < 2 ^ 64)
    (hF : CopyFwds m L (update xs o (s :: xs o)))
    (hB : CopyBwds m L (update xs o (s :: xs o))) :
    Inv G J (fun x => x = s ∨ loose x) refs (update xs o (s :: xs o))
      (((m.setSlot s v).setLinks L).setObject o w) where
  tables := h.tables
  caps := ((h.caps.setSlot hs v).link ho (show xs o = [] ++ xs o from rfl) hs hs0 (by simpa using hobj)
    (by simpa using hvalid) (by simpa using hlive) hF hB).setObject (hw.trans ho.symm)
  counts := by
    rw [total_cons]
    exact Counts.set (m := (m.setSlot s v).setLinks L) (h.counts.of_eq rfl) hw hn (hn ▸ hb)

/-- The objects are there as before, with the types they had. -/
abbrev SameKinds (m m' : CapMem) : Prop :=
  ∀ o, (m'.object o).live = (m.object o).live ∧ (m'.object o).type = (m.object o).type

omit h in
/-- What stays of the objects when one of them gets its record changed. -/
theorem kept_of_update (hobj : m'.object = update m.object o w) (hlive : w.live = (m.object o).live)
    (htype : w.type = (m.object o).type) : SameKinds m m' := by
  intro o'
  rw [hobj]
  by_cases heq : o' = o
  · subst heq
    simp [hlive, htype]
  · simp [heq]

section into

omit h

variable (hres : Inv G (also J g idx) loose refs xs m) (hg : G g) (hJ : ∀ i, ¬ J g i) (ho : Live m o)
  (hs0 : s ≠ 0) (hs : (m.slot s).live = false) (hl : ¬ loose s) (hfree : m.getSlot g idx = 0)
  (hi : idx < (m.table g).slotsSize)

include hres hg hJ ho hs0 hs hl hfree hi

/-- The last part of `cap_alloc` gives an object its first capability. -/
theorem wlp_capAllocInto :
    wlp (capAllocInto g o rights idx s) (fun r m' => r = idx ∧ total refs xs o = 0 ∧
      Inv G J loose refs (update xs o (s :: xs o)) m' ∧
      SameKinds m m') m := by
  have hnot := hres.caps.notMem_of_free hs
  simp only [capAllocInto, wlp_bind, wlp_store, wlp_read, wlp_bugOn, wlp_pure, not_not]
  refine wlp_of_wp (wp_listAdd_copies (hres.caps.setSlot hnot ⟨idx, g, true, rights, o, true⟩) ho
    (show xs o = [] ++ xs o from rfl) hnot ?_)
  intro L hF hB hzero
  have h0 : total refs xs o = 0 := (hres.counts.count o ho).symm.trans hzero
  have hinv := hres.linkFirst (v := ⟨idx, g, true, rights, o, true⟩)
    (w := { m.object o with refcount := 1, inuse := true }) ho hnot hs0 rfl rfl rfl ho
    (by rw [h0]) (show 1 < 2 ^ 64 by decide) hF hB
  refine wlp_mono (wlp_of_wp (wp_installSlot hinv hl (o := o) (by simp) hJ hg (by simp) (by simp)
    hfree hi)) fun _ m' hpost => ⟨trivial, h0, hpost.1, ?_⟩
  rw [hpost.2]
  exact kept_of_update rfl rfl rfl

theorem wlp_capInsertInto (hmax : total refs xs o + 1 < 2 ^ 64) :
    wlp (capInsertInto g o rights idx s) (fun _ m' =>
      Inv G J loose refs (update xs o (s :: xs o)) m' ∧
      SameKinds m m') m := by
  have hnot := hres.caps.notMem_of_free hs
  have hcount : ((m.object o).refcount + 1) % 2 ^ 64 = total refs xs o + 1 := by
    rw [hres.counts.count o ho, Nat.mod_eq_of_lt hmax]
  simp only [capInsertInto, refAdd, wlp_bind, wlp_store, wlp_pure]
  refine wlp_of_wp (wp_listAdd_copies (hres.caps.setSlot hnot ⟨idx, g, true, rights, o, true⟩) ho
    (show xs o = [] ++ xs o from rfl) hnot ?_)
  intro L hF hB
  have hinv := hres.linkFirst (v := ⟨idx, g, true, rights, o, true⟩)
    (w := { m.object o with refcount := ((m.object o).refcount + 1) % 2 ^ 64 }) ho hnot hs0 rfl rfl
    rfl ho hcount (Nat.mod_lt _ (by decide)) hF hB
  refine wlp_mono (wlp_of_wp (wp_installSlot hinv hl (o := o) (by simp) hJ hg (by simp) (by simp)
    hfree hi)) fun _ m' hpost => ⟨hpost.1, ?_⟩
  rw [hpost.2]
  exact kept_of_update rfl rfl rfl

end into

variable {arrays : List (Option Around)}

theorem wlp_capAlloc (hg : G g) (hJ : ∀ i, ¬ J g i) (ho : Live m o)
    (hs : s ≠ 0 → (m.slot s).live = false) (hl : ¬ loose s) :
    wlp (capAlloc g o rights arrays s) (fun r m' =>
      (r = -enomem ∧ Inv G J loose refs xs m' ∧ m'.object = m.object) ∨
      (0 ≤ r ∧ total refs xs o = 0 ∧ Inv G J loose refs (update xs o (s :: xs o)) m' ∧
        SameKinds m m')) m := by
  rw [capAlloc, wlp_bind]
  refine wlp_mono (wlp_of_wp (wp_allocSlotId h hg hJ arrays)) fun r m₁ h1 => ?_
  obtain ⟨-, ⟨idx, t, rfl, ha, rfl⟩ | ⟨rfl, rfl⟩⟩ := h1
  · have hinv := h.reserve hJ ha
    have hi : idx < ((m.setTable g t).table g).slotsSize := by simpa using ha.lt
    have hfree : (m.setTable g t).getSlot g idx = 0 := by
      rw [Caps.getSlot_setTable, if_pos rfl, ha.grew.slot]
      exact ha.free
    have hneg : ¬ (idx : ℤ) < 0 := by omega
    rw [if_neg hneg, wlp_ite]
    constructor
    · intro _
      simp only [freeSlotId, wlp_bind, wlp_store, wlp_pure]
      exact .inl ⟨trivial, hinv.release (hJ idx) hi hfree, rfl⟩
    · intro hs0
      refine wlp_mono (wlp_capAllocInto hinv hg hJ ho hs0 (hs hs0) hl hfree hi)
        fun r m' hpost => .inr ?_
      obtain ⟨rfl, hrest⟩ := hpost
      exact ⟨by omega, hrest⟩
  · have hneg : -enomem < 0 := by decide
    rw [if_pos hneg, wlp_pure]
    exact .inl ⟨rfl, h, rfl⟩

/-- `cap_insert` marks a slot id without a slot. -/
theorem Inv.mark (hi : idx < (m.table g).slotsSize) :
    Inv G (also J g idx) loose refs xs (m.setTable g ((m.table g).mark idx)) where
  tables := h.tables.mark fun _ => hi
  caps := h.caps.grow fun _ => rfl
  counts := h.counts.of_eq rfl

theorem wlp_capInsert (hg : G g) (hJ : ∀ i, ¬ J g i)
    (ho : Live m o) (hs : s ≠ 0 → (m.slot s).live = false) (hl : ¬ loose s)
    (hempty : m.getSlot g i = 0) (hmax : total refs xs o + 1 < 2 ^ 64) :
    wlp (capInsert g o rights i s) (fun _ m' =>
      (Inv G J loose refs xs m' ∧ m'.object = m.object) ∨
      (Inv G J loose refs (update xs o (s :: xs o)) m' ∧ SameKinds m m')) m := by
  simp only [capInsert, wlp_bind, wlp_read, wlp_bugOn, wlp_store]
  intro hin
  obtain ⟨idx, rfl⟩ : ∃ j : ℕ, i = j := ⟨i.toNat, by omega⟩
  have hi : idx < (m.table g).slotsSize := by omega
  have hinv := h.mark hi
  have hi' : idx < ((m.setTable g ((m.table g).mark idx)).table g).slotsSize := by
    simp only [CapMem.setTable_table, update_self]
    exact hi
  have hfree : (m.setTable g ((m.table g).mark idx)).getSlot g idx = 0 := by
    rw [Caps.getSlot_setTable, if_pos rfl]
    exact hempty
  have hnull : ((m.setTable g ((m.table g).mark idx)).table g).slots idx = 0 := by
    rw [← getSlot_of_lt hi']
    exact hfree
  rw [if_pos hnull, wlp_ite]
  constructor
  · intro _
    simp only [freeSlotId, wlp_bind, wlp_store, wlp_pure]
    exact .inl ⟨hinv.release (hJ idx) hi' hfree, rfl⟩
  · intro hs0
    exact wlp_mono (wlp_capInsertInto hinv hg hJ ho hs0 (hs hs0) hl hfree hi' hmax)
      fun _ _ hpost => .inr hpost

/-- `cap_copy` goes on with the error code of a failed expansion as a slot id. -/
def Runaway (m : CapMem) (src dest : ℕ) (srcSlotId : ℤ) (arrays : List (Option Around)) : Prop :=
  m.ValidSlot (m.getSlot src srcSlotId) ∧ (SlotTable.allocSlotId arrays (m.table dest)).1 < 0

variable {src dest : ℕ}

section copy

variable (hsrc : G src) (hdest : G dest) (hs : s ≠ 0 → (m.slot s).live = false)
  (hsafe : ¬ Runaway m src dest i arrays) (hmax : ∀ o, Live m o → total refs xs o + 1 < 2 ^ 64)
include hsrc hdest hs hsafe hmax

/-- The part of `cap_copy` before the lock of the copies list. -/
theorem wp_copyBegin (hJ : ∀ i, ¬ J dest i) : wp (copyBegin src dest i arrays s) (fun r m' =>
      (∃ e < 0, r = .error e ∧ Inv G J loose refs xs m' ∧ m'.object = m.object) ∨
      ∃ (idx o : ℕ), r = .ok (↑idx, m.getSlot src i) ∧ m.getSlot src i ∈ xs o ∧ s ≠ 0 ∧
        Inv G (also J dest idx) loose (update refs o (refs o + 1)) xs m' ∧
        Steady (total refs xs) m (total (update refs o (refs o + 1)) xs) m' ∧
        (∀ o, s ∉ xs o) ∧
        m'.slot s = ⟨idx, dest, true, (m.slot s).rights, o, true⟩ ∧
        m'.getSlot dest idx = 0 ∧ idx < (m'.table dest).slotsSize) (fun _ => True) m := by
  rw [copyBegin, wp_bind, wp_read, wp_ite]
  refine ⟨fun _ => ?_, fun hv => ?_⟩
  · rw [wp_pure]
    exact .inl ⟨-ecapbility, by decide, rfl, h, rfl⟩
  rw [not_not, id_eq] at hv
  have hne := (h.caps.validSlot_iff hsrc).mp hv
  obtain ⟨hmem, -, -, -⟩ := h.caps.listed src i hsrc hne
  rw [wp_bind]
  refine wp_post (wp_allocSlotId h hdest hJ arrays) fun r m₁ h1 => ?_
  obtain ⟨hr, ⟨idx, t, rfl, ha, rfl⟩ | ⟨rfl, rfl⟩⟩ := h1
  · have hinv := h.reserve hJ ha
    have hi : idx < ((m.setTable dest t).table dest).slotsSize := by simpa using ha.lt
    have hfree : (m.setTable dest t).getSlot dest idx = 0 := by
      rw [Caps.getSlot_setTable, if_pos rfl, ha.grew.slot]
      exact ha.free
    have hone : ¬ (idx : ℤ) = -1 := by omega
    rw [if_neg hone, wp_ite]
    refine ⟨fun _ => ?_, fun hs0 => ?_⟩
    · simp only [freeSlotId, wp_bind, wp_store, wp_pure, true_and]
      exact .inl ⟨-enomem, by decide, rfl, hinv.release (hJ idx) hi hfree, rfl⟩
    · have hnot := h.caps.notMem_of_free (hs hs0)
      have hsame : m.getSlot src i ≠ s := fun heq => hnot _ (heq ▸ hmem)
      have hget : ((m.setTable dest t).setSlot s { m.slot s with live := true }).getSlot src i =
          m.getSlot src i := by
        show (m.setTable dest t).getSlot src i = _
        rw [Caps.getSlot_setTable]
        split
        · next heq => rw [ha.grew.slot, heq]; rfl
        · rfl
      have hvalid : ((m.setTable dest t).setSlot s { m.slot s with live := true }).ValidSlot
          (m.getSlot src i) := by
        simpa [CapMem.ValidSlot, hsame] using hv
      have hkm := hinv.setSlot hnot { m.slot s with live := true }
      have ho := h.caps.live_of_mem hmem
      have href := hkm.addRef (o := (m.slot (m.getSlot src i)).object) ho (hmax _ ho)
      have hfill := href.setSlot hnot
        ⟨idx, dest, true, (m.slot s).rights, (m.slot (m.getSlot src i)).object, true⟩
      simp only [kmallocSlot, wp_bind, wp_store, wp_read, true_and, id_eq, hget, hvalid, not_true,
        if_false, refAdd, wp_pure, CapMem.setTable_slot, CapMem.setSlot_slot,
        CapMem.setObject_slot, update_self, update_of_ne hsame]
      exact .inr ⟨idx, (m.slot (m.getSlot src i)).object, rfl, hmem, hs0, hfill,
        Steady.addRef rfl ho rfl ho hmem, hnot, by simp, hfree, hi⟩
  · exact absurd ⟨hv, hr ▸ by decide⟩ hsafe

theorem wp_capCopy (hJ : ∀ i, ¬ J dest i) (hl : ¬ loose s) :
    wp (capCopy src dest i arrays s) (fun r m' =>
      (r < 0 ∧ Inv G J loose refs xs m' ∧ m'.object = m.object) ∨
      (0 ≤ r ∧ ∃ xs', Inv G J loose refs xs' m' ∧
        Steady (total refs xs) m (total refs xs') m')) (fun _ => True) m := by
  rw [capCopy, wp_bind]
  refine wp_post (wp_copyBegin h hsrc hdest hs hsafe hmax hJ) fun r m₁ h1 => ?_
  obtain ⟨e, he, rfl, hinv, hobj⟩ | ⟨idx, o, rfl, hmem, hs0, hinv, hsteady, hnot, hslot, hfree, hi⟩ :=
    h1
  · rw [wp_pure]
    exact .inl ⟨he, hinv, hobj⟩
  obtain ⟨as, bs, hxs⟩ := append_of_mem hmem
  have hxs' : xs o = (as ++ [m.getSlot src i]) ++ bs := by simp [hxs]
  have ho := hinv.caps.live_of_mem hmem
  -- the new slot comes right behind the one that is copied
  have hlast : ((as ++ [m.getSlot src i]).map copy).getLastD (.head o) =
      .copy (m.getSlot src i) := by simp
  show wp (onLinks (listAdd (.copy s) (.copy (m.getSlot src i))) >>= fun _ => _) _ _ m₁
  rw [wp_bind, ← hlast]
  refine wp_listAdd_copies hinv.caps ho hxs' hnot fun L hF hB => ?_
  have hlink := hinv.link ho hxs' hnot hs0 (by rw [hslot]) (by rw [hslot]) (by rw [hslot])
    (by simp) hF hB
  rw [wp_bind]
  refine wp_post (wp_installSlot hlink hl (o := o) (by simp) hJ hdest
    (by simp [hslot]) (by simp [hslot]) hfree hi) fun _ m' hpost => ?_
  obtain ⟨hinv', rfl⟩ := hpost
  rw [wp_pure]
  have hpos : 0 < update refs o (refs o + 1) o := by simp
  have htotal := total_link (s := s) hxs' hpos
  simp only [update_self, Nat.add_sub_cancel, update_idem, update_eq_self] at hinv' htotal
  refine .inr ⟨by omega, _, hinv', ?_⟩
  rw [htotal]
  exact hsteady.trans (Steady.of_object_eq rfl)

/-! ## Whole operations -/

theorem wlp_capMove (hJ : ∀ g i, ¬ J g i) (hl : ¬ loose s) :
    wlp (capMove src dest i arrays s) (fun _ m' => ∃ xs', Inv G J loose refs xs' m' ∧
      Steady (total refs xs) m (total refs xs') m') m := by
  rw [capMove, wlp_bind]
  refine wlp_mono (wlp_of_wp (wp_capCopy h hsrc hdest hs hsafe hmax (hJ dest) hl)) fun r m₁ h1 => ?_
  obtain ⟨hr, hinv, hobj⟩ | ⟨hr, xs1, hinv, hsteady⟩ := h1
  · rw [if_pos hr, wlp_pure]
    exact ⟨xs, hinv, Steady.of_object_eq hobj⟩
  · rw [if_neg (by omega), wlp_bind]
    refine wlp_mono (wlp_of_wp (wp_capFree hinv hsrc (hJ src))) fun r' m2 h2 => ?_
    rw [wlp_bind, wlp_bugOn, wlp_pure]
    intro hzero
    obtain ⟨-, hneg, -⟩ | ⟨o, as, bs, -, -, hinv2, hsteady2, -, -⟩ := h2
    · rw [hneg] at hzero
      exact absurd hzero (by decide)
    · exact ⟨_, hinv2, hsteady.trans hsteady2⟩

end copy

end

theorem eq_of_append_cons_eq (h : as ++ s :: bs = s :: l) (hnd : (s :: l).Nodup)
    (hl' : l' = as ++ bs) : l' = l := by
  cases as with
  | nil => simp_all
  | cons a as =>
    simp only [cons_append, cons.injEq] at h
    obtain ⟨rfl, rfl⟩ := h
    simp at hnd

/-- The loop of `cap_free_all`. -/
theorem wp_freeCopies (hJ : ∀ g i, ¬ J g i)
    (h : Inv G J (fun _ => False) refs xs m) (hrs : xs o = rs) (hfuel : rs.length < fuel) :
    wp (freeCopies o fuel ((rs.map copy).headD (.head o))
        (m.links.next ((rs.map copy).headD (.head o))))
      (fun _ m' => ∃ xs', xs' o = [] ∧ Inv G J (fun _ => False) refs xs' m' ∧
        Steady (total refs xs) m (total refs xs') m') (fun _ => True) m := by
  induction rs generalizing fuel m xs with
  | nil =>
    obtain ⟨fuel, rfl⟩ : ∃ f, fuel = f + 1 := ⟨fuel - 1, by simp at hfuel; omega⟩
    simp only [freeCopies, map_nil, headD_nil, if_true, wp_pure]
    exact ⟨xs, hrs, h, Steady.of_object_eq rfl⟩
  | cons s rs ih =>
    obtain ⟨fuel, rfl⟩ : ∃ f, fuel = f + 1 := ⟨fuel - 1, by simp at hfuel; omega⟩
    have hmem : s ∈ xs o := by simp [hrs]
    have ho := h.caps.live_of_mem hmem
    obtain ⟨hg, hget⟩ := h.caps.placed o s hmem (by simp)
    have hpath := h.caps.fwd o ho
    have hnext : m.links.next (.copy s) = (rs.map copy).headD (.head o) := by
      rw [copyNodes, hrs, map_cons] at hpath
      exact hpath.2.apply_start
    simp only [freeCopies, map_cons, headD_cons, reduceCtorEq, if_false, wp_bind, wp_read, hnext]
    refine wp_post (wp_capFree h hg (hJ _)) fun r m₁ h1 => ?_
    obtain ⟨h0, -, -⟩ | ⟨o1, as, bs, rfl, hxs, hinv1, hsteady1, -, -⟩ := h1
    · exact absurd (hget.symm.trans h0) (h.caps.slot o s hmem).1
    rw [hget] at hxs
    obtain rfl : o1 = o := (h.caps.object_eq (by simp [hxs])).symm.trans (h.caps.object_eq hmem)
    have hrest : update xs o1 (as ++ bs) o1 = rs :=
      eq_of_append_cons_eq (hxs.symm.trans hrs) (hrs ▸ h.caps.nodup ho) (by simp)
    rw [wp_bugOn]
    refine ⟨by simp, wp_post (ih hinv1 hrest (by simpa using hfuel)) fun _ m2 h2 => ?_⟩
    obtain ⟨xs', hnil, hinv', hsteady'⟩ := h2
    exact ⟨xs', hnil, hinv', hsteady1.trans hsteady'⟩

theorem wlp_capFreeAll (hJ : ∀ g i, ¬ J g i) (h : Inv G J (fun _ => False) refs xs m) (hg : G g)
    (hmax : ∀ o, Live m o → total refs xs o + 1 < 2 ^ 64) :
    wlp (capFreeAll g i) (fun _ m' => ∃ xs', Inv G J (fun _ => False) refs xs' m' ∧
      Steady (total refs xs) m (total refs xs') m') m := by
  rw [capFreeAll, wlp_bind]
  refine wlp_mono (wlp_getOpaque h hg none hmax) fun r m₁ h1 => ?_
  obtain ⟨rfl, rfl⟩ | ⟨o, rfl, ho, hmem, hinv, hsteady, -, -⟩ := h1
  · rw [wlp_pure]
    exact ⟨xs, h, Steady.of_object_eq rfl⟩
  have hpath := hinv.caps.fwd o ho
  have hcount := hinv.counts.count o ho
  simp only [wlp_bind, wlp_read, hpath.apply_start]
  have hfuel : (xs o).length < (m₁.object o).refcount + 1 := by
    rw [hcount, total]
    omega
  refine wlp_mono (wlp_of_wp (wp_freeCopies hJ hinv rfl hfuel)) fun _ m2 h2 => ?_
  obtain ⟨xs', hnil, hinv2, hsteady2⟩ := h2
  refine wlp_mono (wlp_of_wp (wp_objPut hinv2 (o := o) (by simp))) fun _ m3 h3 => ?_
  obtain ⟨hinv3, hsteady3, -, -⟩ := h3
  simp only [update_self, Nat.add_sub_cancel, update_idem, update_eq_self] at hinv3 hsteady3
  rw [wlp_pure]
  exact ⟨xs', hinv3, (hsteady.trans hsteady2).trans hsteady3⟩

theorem wlp_capReplace (hsame : (m.slot (m.getSlot g i)).object = o) :
    wlp (capReplace g o i) (fun _ m' => m' = m) m := by
  simp only [capReplace, wlp_bind, wlp_read, wlp_bugOn, wlp_ite, wlp_pure, wlp_store]
  intro hin _ _
  have hget : m.getSlot g i = (m.table g).slots i := by
    rw [CapMem.getSlot, getSlot, if_neg hin]
  rw [hget] at hsame
  exact ⟨fun _ => trivial, fun hne => absurd hsame hne⟩

end Starfish.Object
