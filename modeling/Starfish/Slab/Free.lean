import Starfish.Slab.Alloc

/-!
# Starfish.Slab.Free

Free on the owning machine: a full slab moves to the partial list before the
log record is opened, and a slab whose slots are all free goes back to the page
allocator after the record is closed.
-/

namespace Starfish.Slab

open Function (update update_of_ne update_self)
open Prog List SlabMem

variable {M mid cpu order s a : ℕ} {m : SlabMem} {k : PoolKey} {on : SlabNode → List ℕ}
  {fr : ℕ → List ℕ} {live : List ℕ}

section

variable (h : Inv M m on fr live) (hs : s ∈ m.taken) (hk : m.owner s = k)
include h hs hk

/-- `try_insert_full_slab_to_partial`: afterwards the slab is where a slab with
free slots belongs. -/
theorem wp_tryInsertFullSlabToPartial : wp (tryInsertFullSlabToPartial k.machine s)
      (fun _ t => ∃ L on', t = m.setLinks L ∧ SlabFwds M L on' ∧ SlabBwds M L on' ∧
        Placed M (slabsOf m.currentSlab on') m.owner (· ∈ m.taken) ∧ SameLists k on on' ∧
        ∀ xs, xs ≠ [] → Sorted M m.currentSlab on' (update fr s xs))
      (fun _ => True) m := by
  obtain ⟨hs0, hv, hplace⟩ := h.placed.all s hs
  rw [hk] at hv hplace
  have hpool : m.poolOf k.machine s = k := by
    rw [← hk]
    rfl
  simp only [tryInsertFullSlabToPartial, wp_bind, wp_read, wp_when, wp_bugOn, hpool]
  have hcnt := h.stocked.cnt s hs
  refine ⟨fun h0 => ?_, fun hne => ?_⟩
  · have hfr : fr s = [] := eq_nil_of_length_eq_zero (hcnt ▸ h0)
    -- a slab without free slots is on the full list
    have hfull : s ∈ on (.fullList k) := by
      cases mem_slabsOf.mp hplace with
      | inl hcur => exact absurd hfr (hcur.1 ▸ (h.sorted k hv).2.2 (hcur.1 ▸ hs0))
      | inr hlist => exact hlist.resolve_left fun hp => (h.sorted k hv).2.1 s hp hfr
    obtain ⟨as, bs, hon⟩ := append_of_mem hfull
    have hp1 := h.placed.erase_listed hv (.inr rfl) hon
    have hout {j : PoolKey} {l : SlabNode} (hj : ValidPool M j) (hl : HeadOf j l) :
        s ∉ update on (.fullList k) (as ++ bs) l := fun hm =>
      (hp1.owned j hj s (hl.sublist.subset hm)).1.2 rfl
    have hso : Sorted M m.currentSlab (update on (.fullList k) (as ++ bs)) fr :=
      h.sorted.setFull fun x hx => .inl (by
        rw [hon]
        simp only [mem_append, mem_cons] at hx ⊢
        tauto)
    refine ⟨by have := hv.2.1; omega, ?_⟩
    refine wp_listDel_slab h.placed.apart h.fwd h.bwd hv (.inr rfl) hon fun L hF hB => ?_
    refine wp_listAppend_slab hp1.apart hF hB hv (.inl rfl) (hp1.fresh fun hm => hm.2 rfl)
      fun L' hF hB => ?_
    have hp2 := (hp1.insert_listed hv (.inl rfl) (fun hm => hm.2 rfl) hs0 hk).back hs
    refine ⟨L', _, rfl, hF, hB, hp2,
      .trans (.update (.inr rfl)) (.update (.inl rfl)), fun xs hxs => ?_⟩
    refine (hso.restock (fun j hj => hout hj (.inr rfl)) hxs).setPartial fun x hx => ?_
    cases mem_append.mp hx with
    | inl hx => exact .inl hx
    | inr hx =>
      rw [mem_singleton.mp hx, update_self]
      exact .inr hxs
  · refine ⟨m.links, on, rfl, h.fwd, h.bwd, h.placed, fun _ _ => rfl, fun xs hxs => ?_⟩
    refine h.sorted.restock (fun j hj hm => hne ?_) hxs
    rw [hcnt, (h.sorted j hj).1 s hm, length_nil]

theorem wp_unlinkSlab
    (hQ : ∀ cur L on', SlabFwds M L on' → SlabBwds M L on' →
      Placed M (slabsOf cur on') m.owner (fun x => x ∈ m.taken ∧ x ≠ s) → Sorted M cur on' fr →
      SameLists k on on' → (∀ j, j ≠ k → cur j = m.currentSlab j) →
      Q () { m with currentSlab := cur, links := L }) :
    wp (unlinkSlab k s) Q (fun _ => True) m := by
  obtain ⟨hs0, hv, hplace⟩ := h.placed.all s hs
  rw [hk] at hv hplace
  simp only [unlinkSlab, wp_bind, wp_read, wp_ite]
  refine ⟨fun hcur => ?_, fun hcur => ?_⟩
  · have hp0 := h.placed.erase_current hv (hcur ▸ hs0)
    rw [← hcur] at hp0
    exact wp_chooseNewCurrentSlab h.fwd h.bwd hp0 (h.sorted.setCurrent fun h0 => absurd rfl h0) hv
      fun v L on' hF hB hp hso hon => hQ _ L on' hF hB hp hso hon fun j hj => update_of_ne hj _ _
  · obtain ⟨l, hl, hon⟩ : ∃ l, HeadOf k l ∧ s ∈ on l := by
      cases (mem_slabsOf.mp hplace).resolve_left fun he => hcur he.1 with
      | inl hp => exact ⟨_, .inl rfl, hp⟩
      | inr hf => exact ⟨_, .inr rfl, hf⟩
    obtain ⟨as, bs, hon⟩ := append_of_mem hon
    have hp1 := h.placed.erase_listed hv hl hon
    have hsub : ∀ x ∈ as ++ bs, x ∈ on l := by
      intro x hx
      rw [hon]
      simp only [mem_append, mem_cons] at hx ⊢
      tauto
    have hso : Sorted M m.currentSlab (update on l (as ++ bs)) fr := by
      cases hl with
      | inl hl =>
        subst hl
        exact h.sorted.setPartial fun x hx => .inl (hsub x hx)
      | inr hl =>
        subst hl
        exact h.sorted.setFull fun x hx => .inl (hsub x hx)
    exact wp_listDel_slab h.placed.apart h.fwd h.bwd hv hl hon
      fun L hF hB => hQ _ L _ hF hB hp1 hso (.update hl) fun _ _ => rfl

/-- `try_return_slab_to_buddy` gives back a slab only when all its slots are
free. -/
theorem wp_tryReturnSlabToBuddy : wp (tryReturnSlabToBuddy k.machine s k.order)
      (fun _ t => t.locks = m.locks ∧ (t.taken = m.taken ∨ t.taken = m.taken.erase s ∧
          (fr s).length = slotCount (m.header s).order) ∧
        ∃ on', Inv M t on' fr live ∧ Frame k (fun _ => True) m t on on' fr fr)
      (fun _ => True) m := by
  have hv := (h.placed.all s hs).2.1
  have hcpu : (m.header s).ownerCpu = k.cpu := hk ▸ rfl
  have hnd := h.stocked.nodup
  rw [hk] at hv
  simp only [tryReturnSlabToBuddy, wp_bind, wp_read, wp_when, wp_bugOn, hcpu]
  refine ⟨by have := hv.2.1; omega, fun hall => ?_, fun _ => ⟨trivial, .inl trivial, on, h, .refl ..⟩⟩
  rw [h.stocked.cnt s hs, h.stocked.total s hs] at hall
  refine wp_unlinkSlab h hs hk fun cur L on' hF hB hp hso hon hcur => ?_
  refine wp_post wp_setOrClearSlabInPage fun _ t ht => ?_
  subst ht
  have hinv : Inv M { m with
      currentSlab := cur, links := L, taken := m.taken.erase s
      pageSlab := stamp m.pageSlab (s / pageSize) (sizeOfOneSlab / pageSize)
        (if false then s else 0) } on' fr live :=
    ⟨hF, hB, hp.congr fun x => by rw [hnd.mem_erase_iff, and_comm],
      h.stocked.remove hs hall fun p hp => stamp_out hp, hso, h.noLog⟩
  refine wp_store.mpr ⟨trivial, rfl, .inr ⟨rfl, hall⟩, _, hinv, fun _ _ => rfl, fun _ _ _ => rfl,
    fun _ _ _ => rfl, fun x hx hne => ?_, hcur, hon, fun _ _ => rfl⟩
  have hxs : x ≠ s := fun he => hne (he ▸ hk)
  exact (mem_erase_of_ne hxs).mpr hx

end

/-- Putting a slot back into a slab that is where a slab with free slots
belongs. -/
theorem wp_putSlot (hF : SlabFwds M m.links on) (hB : SlabBwds M m.links on)
    (hp : Placed M (slabsOf m.currentSlab on) m.owner (· ∈ m.taken))
    (hst : Stocked m.header m.nextFree m.pageSlab m.taken fr live) (hn : NoLog M m)
    (ha : a ∈ live) (hs : s ∈ m.taken) (hin : InSlab s a) (hk : m.owner s = k) (hfr' : fr' = update fr s (a :: fr s))
    (hso : Sorted M m.currentSlab on fr') :
    wp (putSlot k s a) (fun _ t => t.locks = m.locks ∧ t.taken = m.taken ∧ t.owner = m.owner ∧
      t.header s = (m.header s).withFree a (a :: fr s).length ∧ Inv M t on fr' (live.erase a) ∧
      Frame k (· ≠ a) m t on on fr fr')
      (fun _ => True) m := by
  subst hfr'
  have hput := hst.put hs ha hin
  have hinc : ((m.header s).currentFreeCnt + 1) % 2 ^ 16 = (a :: fr s).length := by
    have hlen := (hput.slots s hs).length_eq
    rw [length_append, length_slotsOf, update_self] at hlen
    have hsmall := (slot_facts (hput.order s hs)).2.2.1
    have hcons : (a :: fr s).length = (fr s).length + 1 := length_cons
    rw [hst.cnt s hs, ← hcons]
    exact Nat.mod_eq_of_lt (by omega)
  rw [putSlot, wp_bind, wp_slabLogBegin]
  set b := m.setCpuLog k.machine k.cpu
    ⟨.free, (m.header s).currentFreeCnt, s, (m.header s).freeListHead⟩
  have hb : b.header = m.header := rfl
  simp only [wp_bind, wp_store, setHeader_freeListHead, setHeader_currentFreeCnt,
    setFree_setFree]
  simp only [setNextFree_header, setFree_header, update_self, hb, hinc]
  refine ⟨trivial, trivial, trivial, ?_⟩
  set b1 := (b.setNextFree a (m.header s).freeListHead).setFree s a (a :: fr s).length
  have howner : b1.owner = m.owner := owner_setFree _ _ _ _
  have hinv : Inv M (b1.setCpuLog k.machine k.cpu
      { b1.cpuLogs k.machine k.cpu with op := .none }) on (update fr s (a :: fr s))
      (live.erase a) := by
    refine ⟨hF, hB, ?_, hput, hso, noLog_slabLogEnd (only_setCpuLog hn _)⟩
    rw [owner_setCpuLog, howner]
    exact hp
  refine wp_store.mpr ⟨trivial, rfl, rfl, howner, update_self _ _ _, hinv,
    frame_setFree hk (fun _ _ => rfl) (fun _ _ => rfl) rfl rfl fun x hx => ?_⟩
  exact update_of_ne hx _ _

/-- `free_in_cxl_slab_local` on the machine that owns the slab of the object. -/
theorem wp_freeInCxlSlabLocal (h : Inv M m on fr live) (hfree : Unlocked M m)
    (ha : a ∈ live) (hs : s ∈ m.taken) (hin : InSlab s a) (hk : m.owner s = k) :
    wp (freeInCxlSlabLocal k.machine a) (fun _ t => Unlocked M t ∧
        (t.taken = m.taken ∨ t.taken = m.taken.erase s ∧ (live.erase a).filter (InSlab s ·) = []) ∧
        ∃ on' fr', Inv M t on' fr' (live.erase a) ∧ Frame k (· ≠ a) m t on on' fr fr')
      (fun _ => True) m := by
  have hpool : m.poolOf k.machine s = k := by
    rw [← hk]
    rfl
  have hv := (h.placed.all s hs).2.1
  rw [hk] at hv
  have hlocked := h.setLock k true
  simp only [freeInCxlSlabLocal, wp_bind, wp_read, wp_bugOn, h.stocked.page_eq hs hin, hpool,
    wp_lock (hfree _ hv)]
  refine ⟨by have := hv.2.1; omega, trivial, ?_⟩
  refine wp_post (wp_tryInsertFullSlabToPartial hlocked hs hk) fun _ t ht => ?_
  obtain ⟨L, on', rfl, hF, hB, hp, hon, hso⟩ := ht
  refine wp_post (wp_putSlot hF hB hp h.stocked h.noLog ha hs hin hk rfl
    (hso _ (cons_ne_nil _ _))) fun _ t ht => ?_
  obtain ⟨hlocks, htaken, howner, -, hinv, hframe⟩ := ht
  have hs' : s ∈ t.taken := htaken ▸ hs
  refine wp_post (wp_tryReturnSlabToBuddy hinv hs' (howner ▸ hk)) fun _ t' ht' => ?_
  obtain ⟨hlocks', htaken', on'', hinv', hframe'⟩ := ht'
  refine wp_store.mpr ⟨trivial,
    hfree.of_update (k := k) ?_, ?_, _, _, hinv'.setLock k false, ?_⟩
  · rw [setLock_locks, hlocks', hlocks]
    rfl
  · rw [htaken] at htaken'
    exact htaken'.imp id fun hback => ⟨hback.1, hinv.stocked.filter_live_eq_nil hs' hback.2⟩
  · have hput : Frame k (· ≠ a) m t on on' fr (update fr s (a :: fr s)) :=
      ⟨hframe.owner, hframe.header, hframe.free, hframe.taken, hframe.current, hon, hframe.contents⟩
    exact (hput.trans (hframe'.mono fun _ _ => trivial) fun x hx => htaken ▸ hx).setLock_right

end Starfish.Slab
