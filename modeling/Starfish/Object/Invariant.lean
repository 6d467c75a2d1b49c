import Mathlib.Data.List.Nodup
import Starfish.Object.Model

/-!
# Starfish.Object.Invariant

What holds of the capabilities at every point where a lock is taken or dropped.
Three things are kept apart: the slot tables (`Tables`), where each slot is
(`Caps`), and the reference counts (`Counts`).

Between two locks a slot can be *loose*: it is on the copies list of its object but
not in a slot table, because it has left the table or has not reached it yet.  A
reference count covers the slots on the copies list and the references that are
held otherwise, `refs`.
-/

namespace Starfish.Object

open List CapMem CapNode Function

/-- The memory of the object is allocated. -/
@[simp] def Live (m : CapMem) (o : ℕ) : Prop := (m.object o).live = true

/-- The cap groups that there are. -/
def Group (m : CapMem) (g : ℕ) : Prop := Live m g ∧ (m.object g).type = .capGroup

/-- The slot tables of the groups `G` mark what is in them and what is reserved. -/
def Tables (G : ℕ → Prop) (J : ℕ → ℕ → Prop) (m : CapMem) : Prop :=
  ∀ g, G g → (m.table g).Bits (J g)

/-- The nodes of the copies lists. -/
def copyNodes (xs : ℕ → List ℕ) (o : ℕ) : List CapNode := (xs o).map .copy

/-- The copies lists are `xs`, seen forwards. -/
abbrev CopyFwds (m : CapMem) (L : Links CapNode) (xs : ℕ → List ℕ) : Prop :=
  Fwds CapNode.head (Live m) L (copyNodes xs)

/-- The copies lists are `xs`, seen backwards. -/
abbrev CopyBwds (m : CapMem) (L : Links CapNode) (xs : ℕ → List ℕ) : Prop :=
  Bwds CapNode.head (Live m) L (copyNodes xs)

/-- The copies list of object `o` holds the slots `xs o`.  They are those in the
tables of the groups `G` that point to `o`, and loose ones. -/
structure Caps (G loose : ℕ → Prop) (xs : ℕ → List ℕ) (m : CapMem) : Prop where
  apart : Apart CapNode.head (Live m) (copyNodes xs)
  fwd : Fwds CapNode.head (Live m) m.links (copyNodes xs)
  bwd : Bwds CapNode.head (Live m) m.links (copyNodes xs)
  dead : ∀ o, ¬ Live m o → xs o = []
  slot : ∀ o, ∀ s ∈ xs o,
    s ≠ 0 ∧ (m.slot s).object = o ∧ (m.slot s).isvalid = true ∧ (m.slot s).live = true
  placed : ∀ o, ∀ s ∈ xs o, ¬ loose s →
    G (m.slot s).capGroup ∧ m.getSlot (m.slot s).capGroup (m.slot s).slotId = s
  listed : ∀ g i, G g → m.getSlot g i ≠ 0 →
    m.getSlot g i ∈ xs (m.slot (m.getSlot g i)).object ∧ ¬ loose (m.getSlot g i) ∧
      (m.slot (m.getSlot g i)).capGroup = g ∧ (m.slot (m.getSlot g i)).slotId = i

/-- All that the reference count of `o` should count. -/
@[simp] def total (refs : ℕ → ℕ) (xs : ℕ → List ℕ) (o : ℕ) : ℕ := (xs o).length + refs o

/-- The reference counts are right. -/
structure Counts (tot : ℕ → ℕ) (m : CapMem) : Prop where
  count : ∀ o, Live m o → (m.object o).refcount = tot o
  bound : ∀ o, tot o < 2 ^ 64
  dead : ∀ o, ¬ Live m o → tot o = 0

/-- The three together, for the groups `G` with the reserved slot ids `J`. -/
structure Inv (G : ℕ → Prop) (J : ℕ → ℕ → Prop) (loose : ℕ → Prop) (refs : ℕ → ℕ)
    (xs : ℕ → List ℕ) (m : CapMem) : Prop where
  tables : Tables G J m
  caps : Caps G loose xs m
  counts : Counts (total refs xs) m

/-! ## Copies lists -/

section copyNodes

variable {xs : ℕ → List ℕ}

theorem copyNodes_update : copyNodes (update xs o l) = update (copyNodes xs) o (l.map .copy) := by
  funext o'
  by_cases h : o' = o
  · subst h
    simp [copyNodes]
  · simp [copyNodes, update_of_ne h]

theorem copy_mem_copyNodes : copy s ∈ copyNodes xs o ↔ s ∈ xs o := by
  simp [copyNodes]

theorem mem_update_insert (h : xs o = as ++ bs) :
    s' ∈ update xs o (as ++ s :: bs) o' ↔ s' ∈ xs o' ∨ (o' = o ∧ s' = s) := by
  by_cases ho : o' = o
  · subst ho
    simp only [update_self, h, mem_append, mem_cons, true_and]
    tauto
  · simp [ho]

end copyNodes

namespace Caps

variable {G loose : ℕ → Prop} {xs : ℕ → List ℕ} {m : CapMem}

section

variable (h : Caps G loose xs m)
include h

/-- What the lists and the slots on them depend on. -/
theorem of_eq (hlive : ∀ o, Live m' o ↔ Live m o)
    (hlinks : m'.links = m.links) (hslot : ∀ o, ∀ s ∈ xs o, m'.slot s = m.slot s)
    (htable : ∀ g, G g → ∀ i, m'.getSlot g i = m.getSlot g i) : Caps G loose xs m' := by
  have hlive' : Live m' = Live m := funext fun o => propext (hlive o)
  refine ⟨hlive' ▸ h.apart, hlive' ▸ hlinks ▸ h.fwd, hlive' ▸ hlinks ▸ h.bwd,
    fun o ho => h.dead o (hlive' ▸ ho), fun o s hs => ?_, fun o s hs hl => ?_, fun g i hg hi => ?_⟩
  · rw [hslot o s hs]
    exact h.slot o s hs
  · obtain ⟨hg, hp⟩ := h.placed o s hs hl
    rw [hslot o s hs]
    exact ⟨hg, (htable _ hg _).trans hp⟩
  · rw [htable g hg] at hi ⊢
    have hlisted := h.listed g i hg hi
    rwa [hslot _ _ hlisted.1]

theorem object_eq (hs : s ∈ xs o) : (m.slot s).object = o := (h.slot o s hs).2.1

theorem live_of_mem (hs : s ∈ xs o) : Live m o := by
  by_contra hdead
  simp [h.dead o hdead] at hs

theorem notMem_of_free (hs : (m.slot s).live = false) (o : ℕ) : s ∉ xs o := by
  intro hmem
  have hlive := (h.slot o s hmem).2.2.2
  rw [hs] at hlive
  exact absurd hlive (by decide)

theorem validSlot_iff (hg : G g) : m.ValidSlot (m.getSlot g i) ↔ m.getSlot g i ≠ 0 := by
  constructor
  · exact fun hv => hv.1
  · intro hne
    exact ⟨hne, (h.slot _ _ (h.listed g i hg hne).1).2.2.1⟩

/-! ### Tables -/

omit h in
theorem getSlot_setTable (t : SlotTable) (g g' : ℕ) (i : ℤ) :
    (m.setTable g t).getSlot g' i = if g' = g then t.getSlot i else m.getSlot g' i := by
  by_cases h : g' = g
  · subst h
    simp [getSlot]
  · simp [getSlot, h]

/-- The table of a group grows, or its bitmaps change. -/
theorem grow (ht : ∀ i, t.getSlot i = m.getSlot g i) : Caps G loose xs (m.setTable g t) := by
  refine h.of_eq (fun _ => Iff.rfl) rfl (fun _ _ _ => rfl) fun g' _ i => ?_
  rw [getSlot_setTable]
  split
  · next heq => rw [ht, heq]
  · rfl

theorem uninstall (hg : G g) (hi : m.getSlot g i = s) (hs : s ≠ 0) :
    Caps G (fun x => x = s ∨ loose x) xs (m.setTable g ((m.table g).freeSlotId i)) := by
  have hget : ∀ g' j, (m.setTable g ((m.table g).freeSlotId i)).getSlot g' j =
      if g' = g ∧ j = i then 0 else m.getSlot g' j := by
    intro g' j
    rw [getSlot_setTable, SlotTable.getSlot_freeSlotId]
    by_cases hg' : g' = g
    · subst hg'
      simp [getSlot]
    · simp [hg']
  -- no other slot id stands for this slot
  have hother : ∀ g' j, G g' → m.getSlot g' j = s → g' = g ∧ j = i := by
    intro g' j hg' hj
    obtain ⟨-, -, hgrp, hid⟩ := h.listed g' j hg' (hj ▸ hs)
    obtain ⟨-, -, hgrp', hid'⟩ := h.listed g i hg (hi ▸ hs)
    rw [hj] at hgrp hid
    rw [hi] at hgrp' hid'
    exact ⟨hgrp.symm.trans hgrp', hid.symm.trans hid'⟩
  refine ⟨h.apart, h.fwd, h.bwd, h.dead, h.slot, fun o x hx hl => ?_, fun g' j hg' hj => ?_⟩
  · have hl' : ¬ loose x := fun hlx => hl (.inr hlx)
    obtain ⟨hgx, hpx⟩ := h.placed o x hx hl'
    refine ⟨hgx, ?_⟩
    rw [hget, if_neg]
    · exact hpx
    · rintro ⟨hgrp, hid⟩
      apply hl
      left
      rw [← hpx, ← hi]
      simp only [setTable_slot] at hgrp hid ⊢
      rw [hgrp, hid]
  · rw [hget] at hj ⊢
    split at hj
    · exact absurd rfl hj
    · next hne =>
      rw [if_neg hne]
      obtain ⟨hmem, hl, hgrp, hid⟩ := h.listed g' j hg' hj
      refine ⟨hmem, ?_, hgrp, hid⟩
      rintro (heq | hloose)
      · exact hne (hother g' j hg' heq)
      · exact hl hloose

omit h in
theorem install (h : Caps G (fun x => x = s ∨ loose x) xs m) (hl : ¬ loose s) (hs : s ∈ xs o)
    (hg : G g) (hgrp : (m.slot s).capGroup = g) (hid : (m.slot s).slotId = i)
    (hfree : m.getSlot g i = 0) (h0 : 0 ≤ i) (hi : i < (m.table g).slotsSize) :
    Caps G loose xs (m.setTable g ((m.table g).setSlot i s)) := by
  have hget : ∀ g' j, (m.setTable g ((m.table g).setSlot i s)).getSlot g' j =
      if g' = g ∧ j = i then s else m.getSlot g' j := by
    intro g' j
    rw [getSlot_setTable, SlotTable.getSlot_setSlot h0 hi]
    by_cases hg' : g' = g
    · subst hg'
      simp [getSlot]
    · simp [hg']
  refine ⟨h.apart, h.fwd, h.bwd, h.dead, h.slot, fun o' x hx hlx => ?_, fun g' j hg' hj => ?_⟩
  · by_cases hxs : x = s
    · subst hxs
      simp only [setTable_slot]
      rw [hget, if_pos ⟨hgrp, hid⟩, hgrp]
      exact ⟨hg, rfl⟩
    · have hl' : ¬ (x = s ∨ loose x) := fun hor => hor.elim hxs hlx
      obtain ⟨hgx, hpx⟩ := h.placed o' x hx hl'
      simp only [setTable_slot]
      refine ⟨hgx, ?_⟩
      rw [hget, if_neg]
      · exact hpx
      · rintro ⟨hgrp', hid'⟩
        rw [hgrp', hid', hfree] at hpx
        exact (h.slot o' x hx).1 hpx.symm
  · rw [hget] at hj ⊢
    split at hj
    · next heq =>
      rw [if_pos heq]
      simp only [setTable_slot]
      exact ⟨(h.object_eq hs).symm ▸ hs, hl, hgrp.trans heq.1.symm, hid.trans heq.2.symm⟩
    · next hne =>
      rw [if_neg hne]
      obtain ⟨hmem, hlx, hrest⟩ := h.listed g' j hg' hj
      exact ⟨hmem, fun hloose => hlx (.inr hloose), hrest⟩

/-! ### Lists -/

/-- What is written to a slot that is on no list does not matter. -/
theorem setSlot (hs : ∀ o, s ∉ xs o) (v : ObjectSlot) : Caps G loose xs (m.setSlot s v) := by
  refine h.of_eq (fun _ => Iff.rfl) rfl (fun o x hx => ?_) fun _ _ _ => rfl
  have hne : x ≠ s := fun heq => hs o (heq ▸ hx)
  simp [update_of_ne hne]

/-- A slot that is filled is put on the list of its object. -/
theorem link (ho : Live m o) (hxs : xs o = as ++ bs)
    (hs : ∀ o, s ∉ xs o) (hs0 : s ≠ 0) (hobj : (m.slot s).object = o)
    (hvalid : (m.slot s).isvalid = true) (hlive : (m.slot s).live = true)
    (hF : CopyFwds m L (update xs o (as ++ s :: bs)))
    (hB : CopyBwds m L (update xs o (as ++ s :: bs))) :
    Caps G (fun x => x = s ∨ loose x) (update xs o (as ++ s :: bs)) (m.setLinks L) := by
  have hmem : ∀ o' x, x ∈ update xs o (as ++ s :: bs) o' ↔
      x ∈ xs o' ∨ (o' = o ∧ x = s) := fun o' x => mem_update_insert hxs
  have hfresh : Fresh head (Live m) (copyNodes xs) (.copy s) := by
    intro o' _ hin
    rcases mem_cons.mp hin with heq | hin
    · exact absurd heq (by simp)
    · exact hs o' (copy_mem_copyNodes.mp hin)
  refine ⟨?_, hF, hB, fun o' ho' => ?_, fun o' x hx => ?_, fun o' x hx hl => ?_,
    fun g i hg hi => ?_⟩
  · have hnodes : copyNodes xs o = as.map .copy ++ bs.map .copy := by simp [copyNodes, hxs]
    have hA := h.apart.insert hnodes hfresh
    rw [copyNodes_update, map_append, map_cons]
    exact hA
  · have hne : o' ≠ o := fun heq => ho' (heq ▸ ho)
    rw [update_of_ne hne]
    exact h.dead o' ho'
  · rcases (hmem o' x).mp hx with hx | ⟨rfl, rfl⟩
    · exact h.slot o' x hx
    · exact ⟨hs0, hobj, hvalid, hlive⟩
  · rcases (hmem o' x).mp hx with hx | ⟨-, rfl⟩
    · exact h.placed o' x hx fun hloose => hl (.inr hloose)
    · exact absurd (.inl rfl) hl
  · obtain ⟨hin, hl, hrest⟩ := h.listed g i hg hi
    refine ⟨(hmem _ _).mpr (.inl hin), ?_, hrest⟩
    rintro (heq | hloose)
    · exact hs _ (heq ▸ hin)
    · exact hl hloose

omit h in
theorem mem_of_mem_update_erase (hxs : xs o = as ++ s :: bs)
    (hx : x ∈ update xs o (as ++ bs) o') : x ∈ xs o' := by
  by_cases ho : o' = o
  · subst ho
    rw [update_self] at hx
    rw [hxs]
    simp only [mem_append, mem_cons] at hx ⊢
    tauto
  · rwa [update_of_ne ho] at hx

theorem nodup (ho : Live m o) : (xs o).Nodup :=
  List.Nodup.of_map copy (nodup_cons.mp (h.apart.nodup o ho)).2

theorem notMem_erased (hxs : xs o = as ++ s :: bs) (o' : ℕ) : s ∉ update xs o (as ++ bs) o' := by
  have hs : s ∈ xs o := by simp [hxs]
  by_cases ho : o' = o
  · subst ho
    have hnd := h.nodup (h.live_of_mem hs)
    rw [hxs] at hnd
    rw [update_self]
    exact (nodup_cons.mp (perm_middle.nodup_iff.mp hnd)).1
  · rw [update_of_ne ho]
    intro hmem
    exact ho ((h.object_eq hmem).symm.trans (h.object_eq hs))

omit h in
theorem unlink (h : Caps G (fun x => x = s ∨ loose x) xs m)
    (hxs : xs o = as ++ s :: bs) (v : ObjectSlot)
    (hF : CopyFwds m L (update xs o (as ++ bs)))
    (hB : CopyBwds m L (update xs o (as ++ bs))) :
    Caps G loose (update xs o (as ++ bs)) ((m.setLinks L).setSlot s v) := by
  have hnot := h.notMem_erased hxs
  have hslot : ∀ o' x, x ∈ update xs o (as ++ bs) o' →
      ((m.setLinks L).setSlot s v).slot x = m.slot x := by
    intro o' x hx
    have hne : x ≠ s := fun heq => hnot o' (heq ▸ hx)
    simp [update_of_ne hne]
  have hsub : ∀ o' x, x ∈ update xs o (as ++ bs) o' → x ∈ xs o' :=
    fun o' x hx => mem_of_mem_update_erase hxs hx
  refine ⟨?_, hF, hB, fun o' ho' => ?_, fun o' x hx => ?_, fun o' x hx hl => ?_,
    fun g i hg hi => ?_⟩
  · have hnodes : copyNodes xs o = as.map .copy ++ .copy s :: bs.map .copy := by
      simp [copyNodes, hxs]
    have hA := h.apart.erase hnodes
    rw [copyNodes_update, map_append]
    exact hA
  · have hold := h.dead o' ho'
    refine eq_nil_iff_forall_not_mem.mpr fun x hx => ?_
    have hx' := hsub o' x hx
    rw [hold] at hx'
    simp at hx'
  · rw [hslot o' x hx]
    exact h.slot o' x (hsub o' x hx)
  · have hne : x ≠ s := fun heq => hnot o' (heq ▸ hx)
    rw [hslot o' x hx]
    exact h.placed o' x (hsub o' x hx) fun hor => hor.elim hne hl
  · obtain ⟨hin, hl, hrest⟩ := h.listed g i hg hi
    have hne : m.getSlot g i ≠ s := fun heq => hl (.inl heq)
    have hsame : ((m.setLinks L).setSlot s v).slot (m.getSlot g i) = m.slot (m.getSlot g i) := by
      simp [update_of_ne hne]
    have hmem : m.getSlot g i ∈ update xs o (as ++ bs) (m.slot (m.getSlot g i)).object := by
      by_cases ho : (m.slot (m.getSlot g i)).object = o
      · rw [ho] at hin ⊢
        rw [hxs] at hin
        rw [update_self]
        simp only [mem_append, mem_cons] at hin ⊢
        tauto
      · rwa [update_of_ne ho]
    have hget : ((m.setLinks L).setSlot s v).getSlot g i = m.getSlot g i := rfl
    rw [hget, hsame]
    exact ⟨hmem, fun hloose => hl (.inr hloose), hrest⟩

/-! ### Objects -/

/-- The record of an object changes, but it stays allocated or not. -/
theorem setObject (hv : v.live = (m.object o).live) : Caps G loose xs (m.setObject o v) := by
  refine h.of_eq (fun o' => ?_) rfl (fun _ _ _ => rfl) fun _ _ _ => rfl
  by_cases ho : o' = o
  · subst ho
    simp [hv]
  · simp [update_of_ne ho]

theorem free (hxs : xs o = []) (hv : v.live = false) : Caps G loose xs (m.setObject o v) := by
  have hlive : ∀ o', Live (m.setObject o v) o' → Live m o' := by
    intro o' ho'
    by_cases ho : o' = o
    · subst ho
      simp [hv] at ho'
    · simpa [update_of_ne ho] using ho'
  refine ⟨⟨fun o' ho' => h.apart.nodup o' (hlive o' ho'), fun j k hj hk => ?_⟩,
    fun o' ho' => h.fwd o' (hlive o' ho'), fun o' ho' => h.bwd o' (hlive o' ho'),
    fun o' ho' => ?_, h.slot, h.placed, h.listed⟩
  · exact h.apart.disj j k (hlive j hj) (hlive k hk)
  · by_cases ho : o' = o
    · exact ho ▸ hxs
    · refine h.dead o' fun hl => ho' ?_
      simpa [update_of_ne ho] using hl

theorem create (ho : ¬ Live m o) (hv : v.live = true) : Caps G loose xs ((m.setObject o v).setLinks
      ((m.links.setNext (.head o) (.head o)).setPrev (.head o) (.head o))) := by
  have hxs := h.dead o ho
  have hlive : ∀ o', Live ((m.setObject o v).setLinks
      ((m.links.setNext (.head o) (.head o)).setPrev (.head o) (.head o))) o' ↔
      o' = o ∨ Live m o' := by
    intro o'
    by_cases heq : o' = o
    · subst heq
      simp [hv]
    · simp [heq]
  have hnil : copyNodes xs o = [] := by simp [copyNodes, hxs]
  have hfresh : ∀ o', o' ≠ o → head o ∉ head o' :: copyNodes xs o' := by
    intro o' ho' hmem
    rcases mem_cons.mp hmem with heq | hmem
    · exact ho' (by simpa using heq.symm)
    · simp [copyNodes] at hmem
  have hnodup : ∀ o', o' = o ∨ Live m o' → (head o' :: copyNodes xs o').Nodup := by
    rintro o' (rfl | hl)
    · simp [hnil]
    · exact h.apart.nodup o' hl
  refine ⟨⟨fun o' ho' => hnodup o' ((hlive o').mp ho'), fun j k hj hk hjk n hn => ?_⟩,
    fun o' ho' => ?_, fun o' ho' => ?_, fun o' ho' => h.dead o' fun hl => ho' ((hlive o').mpr (.inr hl)),
    h.slot, h.placed, h.listed⟩
  · rcases (hlive j).mp hj with rfl | hj
    · rw [hnil, mem_singleton] at hn
      subst hn
      exact hfresh k (Ne.symm hjk)
    · rcases (hlive k).mp hk with rfl | hk
      · rw [hnil, mem_singleton]
        rintro rfl
        exact hfresh j hjk hn
      · exact h.apart.disj j k hj hk hjk n hn
  · by_cases heq : o' = o
    · subst heq
      rw [hnil]
      show update _ _ _ _ = _
      simp
    · exact (h.fwd o' (((hlive o').mp ho').resolve_left heq)).update (hfresh o' heq) _
  · by_cases heq : o' = o
    · subst heq
      rw [hnil]
      show update _ _ _ _ = _
      simp
    · refine (h.bwd o' (((hlive o').mp ho').resolve_left heq)).update (fun hmem => ?_) _
      exact hfresh o' heq (by simpa using hmem)

/-- A cap group without capabilities goes, or one comes. -/
theorem groups (hgone : ∀ g, G g → ¬ G' g → ∀ i, m.getSlot g i = 0)
    (hnew : ∀ g, G' g → ¬ G g → ∀ i, m.getSlot g i = 0) : Caps G' loose xs m := by
  refine ⟨h.apart, h.fwd, h.bwd, h.dead, h.slot, fun o s hs hl => ?_, fun g i hg hi => ?_⟩
  · obtain ⟨hg, hp⟩ := h.placed o s hs hl
    refine ⟨?_, hp⟩
    by_contra hg'
    rw [hgone _ hg hg'] at hp
    exact (h.slot o s hs).1 hp.symm
  · have hold : G g := by
      by_contra hg'
      exact hi (hnew g hg hg' i)
    exact h.listed g i hold hi

end

end Caps

/-! ## Counts -/

section total

theorem total_link (hxs : xs o = as ++ bs) (hrefs : 0 < refs o) :
    total (update refs o (refs o - 1)) (update xs o (as ++ s :: bs)) =
      total refs xs := by
  funext o'
  by_cases ho : o' = o
  · subst ho
    simp only [total, update_self, hxs, length_append, length_cons]
    omega
  · simp [ho]

theorem total_unlink (hxs : xs o = as ++ s :: bs) :
    total (update refs o (refs o + 1)) (update xs o (as ++ bs)) =
      total refs xs := by
  funext o'
  by_cases ho : o' = o
  · subst ho
    simp only [total, update_self, hxs, length_append, length_cons]
    omega
  · simp [ho]

theorem total_update (n : ℕ) :
    total (update refs o n) xs = update (total refs xs) o ((xs o).length + n) := by
  funext o'
  by_cases ho : o' = o
  · subst ho
    simp
  · simp [ho]

end total

namespace Counts

theorem of_eq (h : Counts tot m) (hobj : m'.object = m.object) : Counts tot m' := by
  have hlive : Live m' = Live m := by
    funext o
    rw [Live, Live, hobj]
  refine ⟨fun o ho => ?_, h.bound, fun o ho => h.dead o (hlive ▸ ho)⟩
  rw [hobj]
  exact h.count o (hlive ▸ ho)

theorem live_setObject : Live (m.setObject o v) n ↔ if n = o then v.live = true else Live m n := by
  by_cases h : n = o
  · subst h
    simp
  · simp [h]

/-- The count of an object is set to what it should be. -/
theorem set (h : Counts tot m) (hv : v.live = true) (hn : v.refcount = n) (hb : n < 2 ^ 64) :
    Counts (update tot o n) (m.setObject o v) := by
  refine ⟨fun o' ho' => ?_, fun o' => ?_, fun o' ho' => ?_⟩
  · rw [live_setObject] at ho'
    by_cases ho : o' = o
    · subst ho
      simp [hn]
    · simpa [ho] using h.count o' (by simpa [ho] using ho')
  · by_cases ho : o' = o
    · subst ho
      simpa using hb
    · simpa [ho] using h.bound o'
  · rw [live_setObject] at ho'
    by_cases ho : o' = o
    · simp [ho, hv] at ho'
    · simpa [ho] using h.dead o' (by simpa [ho] using ho')

theorem free (h : Counts tot m) (hv : v.live = false) (h0 : tot o = 0) :
    Counts tot (m.setObject o v) := by
  refine ⟨fun o' ho' => ?_, h.bound, fun o' ho' => ?_⟩
  · rw [live_setObject] at ho'
    by_cases ho : o' = o
    · simp [ho, hv] at ho'
    · simpa [ho] using h.count o' (by simpa [ho] using ho')
  · rw [live_setObject] at ho'
    by_cases ho : o' = o
    · exact ho ▸ h0
    · exact h.dead o' (by simpa [ho] using ho')

end Counts

end Starfish.Object
