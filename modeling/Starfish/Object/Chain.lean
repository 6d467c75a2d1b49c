import Starfish.Object.Copy

/-!
# Starfish.Object.Chain

Delegation: the capabilities that come from one `cap_alloc` by `cap_copy`,
`cap_move` and `sys_transfer_caps`.  A chain is the set of these capabilities, each
given by its cap group and slot id.

`cap_copy` does not write the rights of the new slot, so they are what `kmalloc`
returns.  A chain is therefore described with the rights `W` that this memory may
hold.
-/

namespace Starfish.Object

open Prog Function SlotTable

/-! ## Chains -/

/-- The copy `(src, i)` to `q` adds to a chain if it copies a capability of it and
succeeds. -/
def copied (D : Set (ℕ × ℤ)) (p q : ℕ × ℤ) : Set (ℕ × ℤ) := {x | x ∈ D ∨ (p ∈ D ∧ 0 ≤ q.2 ∧ x = q)}

/-- What the callers and the allocators promise for a copy, and that it does not go on
after a failed expansion. -/
structure GoodCopy (W : ℕ → Prop) (m : CapMem) (D : Set (ℕ × ℤ)) (src dest : ℕ) (i : ℤ)
    (arrays : List (Option Around)) (s : ℕ) : Prop where
  group : Group m dest
  fresh : FreshSlot m s
  safe : ¬ Runaway m src dest i arrays
  rights : (src, i) ∈ D → s ≠ 0 → W (m.slot s).rights

/-- All copies of `sys_transfer_caps` are good ones. -/
def GoodCopies (W : ℕ → Prop) (src dest : ℕ) : List Transfer → CapMem → Set (ℕ × ℤ) → Prop
  | [], _, _ => True
  | c :: caps, m, D => GoodCopy W m D src dest c.slotId c.arrays c.destSlot ∧
    ∀ r m', (capCopy src dest c.slotId c.arrays c.destSlot).outcome m = .ok r m' →
      GoodCopies W src dest caps m' (copied D (src, c.slotId) (dest, r))

/-- The chain after the copies of `sys_transfer_caps` with the results `rs`. -/
def transferred (src dest : ℕ) : List Transfer → List ℤ → Set (ℕ × ℤ) → Set (ℕ × ℤ)
  | c :: caps, r :: rs, D => transferred src dest caps rs (copied D (src, c.slotId) (dest, r))
  | _, _, D => D

/-- The chain `D` in memory `m`, which starts with a capability for `o` with rights
`R`. -/
inductive Chain (o R : ℕ) (W : ℕ → Prop) : CapMem → Set (ℕ × ℤ) → Prop
  | alloc {m m' g arrays s r} (hm : AllMarked m) (hg : Group m g) (hs : FreshSlot m s)
      (h : (capAlloc g o R arrays s).outcome m = .ok r m') (hr : 0 ≤ r) : Chain o R W m' {(g, r)}
  | copy {m m' D src dest i arrays s r} (hc : Chain o R W m D)
      (hgood : GoodCopy W m D src dest i arrays s)
      (h : (capCopy src dest i arrays s).outcome m = .ok r m') :
      Chain o R W m' (copied D (src, i) (dest, r))
  | move {m m₁ m' D src dest i arrays s r₁ r} (hc : Chain o R W m D) (hsrc : (src, i) ∈ D)
      (hgood : GoodCopy W m D src dest i arrays s)
      (hcopy : (capCopy src dest i arrays s).outcome m = .ok r₁ m₁)
      (h : (capMove src dest i arrays s).outcome m = .ok r m') :
      Chain o R W m' {p ∈ copied D (src, i) (dest, r₁) | 0 ≤ r₁ → p ≠ (src, i)}
  | transfer {m m₁ m' D g destCap srcCaps nrCaps dest r rs} (hc : Chain o R W m D)
      (hget : (objGet g destCap .capGroup).outcome m = .ok (some dest) m₁)
      (hgood : GoodCopies W g dest ((List.range nrCaps.toNat).map srcCaps) m₁ D)
      (h : (sysTransferCaps g destCap srcCaps nrCaps).outcome m = .ok (r, rs) m') (hr : 0 ≤ r) :
      Chain o R W m' (transferred g dest ((List.range nrCaps.toNat).map srcCaps) rs D)
  | transferFailed {m m' D g destCap srcCaps nrCaps r rs} (hc : Chain o R W m D)
      (h : (sysTransferCaps g destCap srcCaps nrCaps).outcome m = .ok (r, rs) m') (hr : r < 0) :
      Chain o R W m' D

/-! ## What the capabilities of a chain are -/

/-- `p` is a capability for `o`, with the rights `R` or rights from memory. -/
structure Denotes (o R : ℕ) (W : ℕ → Prop) (m : CapMem) (p : ℕ × ℤ) : Prop where
  ne : m.getSlot p.1 p.2 ≠ 0
  object : (m.slot (m.getSlot p.1 p.2)).object = o
  rights : (m.slot (m.getSlot p.1 p.2)).rights = R ∨ W (m.slot (m.getSlot p.1 p.2)).rights
  live : (m.slot (m.getSlot p.1 p.2)).live = true
  group : (m.slot (m.getSlot p.1 p.2)).capGroup = p.1
  slotId : (m.slot (m.getSlot p.1 p.2)).slotId = p.2

variable {o R : ℕ} {W : ℕ → Prop} {m m' : CapMem} {D : Set (ℕ × ℤ)} {p : ℕ × ℤ} {src dest g s : ℕ}
  {i r : ℤ} {arrays : List (Option Around)}

theorem Denotes.of_eq (h : Denotes o R W m p) (htable : m'.getSlot p.1 p.2 = m.getSlot p.1 p.2)
    (hslot : m'.slot (m.getSlot p.1 p.2) = m.slot (m.getSlot p.1 p.2)) : Denotes o R W m' p := by
  obtain ⟨h1, h2, h3, h4, h5, h6⟩ := h
  constructor <;> rw [htable] <;> first | rw [hslot] <;> assumption | assumption

theorem Denotes.frame (h : Denotes o R W m p) (hf : Frame m m') : Denotes o R W m' p :=
  h.of_eq (by rw [CapMem.getSlot, hf.table]; rfl) (by rw [hf.slot])

/-- The invariant of a chain. -/
structure Sound (o R : ℕ) (W : ℕ → Prop) (m : CapMem) (D : Set (ℕ × ℤ)) : Prop where
  marked : AllMarked m
  denotes : ∀ p ∈ D, Denotes o R W m p

theorem Sound.frame (h : Sound o R W m D) (hf : Frame m m') : Sound o R W m' D :=
  ⟨h.marked.frame hf, fun p hp => (h.denotes p hp).frame hf⟩

/-- A new capability beside those that are there. -/
theorem Denotes.add (h : Denotes o R W m p)
    (hfree : m.getSlot g idx = 0) (hs : (m.slot s).live = false)
    (hget : ∀ g' j, m'.getSlot g' j = if g' = g ∧ j = idx then s else m.getSlot g' j)
    (hslot : m'.slot = update m.slot s v) : Denotes o R W m' p := by
  have hne : ¬ (p.1 = g ∧ p.2 = idx) := by
    rintro ⟨hg, hi⟩
    exact h.ne (by rw [hg, hi, hfree])
  have hslot' : m.getSlot p.1 p.2 ≠ s := by
    intro heq
    have hlive := h.live
    rw [heq, hs] at hlive
    exact absurd hlive (by decide)
  exact h.of_eq (by rw [hget, if_neg hne]) (by rw [hslot, update_of_ne hslot'])

theorem getSlot_installed (ha : (m.table g).Alloc idx t)
    (htable : m'.table = update m.table g (t.setSlot idx s)) (g' : ℕ) (j : ℤ) :
    m'.getSlot g' j = if g' = g ∧ j = idx then s else m.getSlot g' j := by
  have hlt := ha.lt
  rw [CapMem.getSlot, htable]
  by_cases hg : g' = g
  · subst hg
    rw [update_self, getSlot_setSlot (by omega) (by exact_mod_cast hlt)]
    by_cases hj : j = idx
    · simp [hj]
    · simp [hj, CapMem.getSlot, ha.grew.slot]
  · simp [hg, CapMem.getSlot]

/-- A slot that is installed is the capability that its fields say. -/
theorem denotes_installed
    (hget : ∀ g' j, m'.getSlot g' j = if g' = g ∧ j = idx then s else m.getSlot g' j)
    (hslot : m'.slot = update m.slot s v) (hs : s ≠ 0) (hobj : v.object = o)
    (hrights : v.rights = R ∨ W v.rights) (hlive : v.live = true) (hg : v.capGroup = g)
    (hid : v.slotId = idx) : Denotes o R W m' (g, idx) := by
  have hself : m'.getSlot g idx = s := by rw [hget, if_pos ⟨rfl, rfl⟩]
  have hv : m'.slot s = v := by rw [hslot, update_self]
  constructor <;> rw [hself] <;> first | rw [hv] <;> assumption | assumption

theorem sound_capAlloc (hm : AllMarked m) (hg : Group m g) :
    wlp (capAlloc g o R arrays s) (fun r m' => 0 ≤ r → Sound o R W m' {(g, r)}) m := by
  have hspec : wlp (capAlloc g o R arrays s) (fun r m' => 0 ≤ r → Denotes o R W m' (g, r)) m := by
    rw [capAlloc, wlp_bind, allocSlotId, wlp_act, wlp_ret]
    intro _
    obtain ⟨idx, t, heq, ha⟩ | ⟨heq, -, -⟩ := allocSlotId_spec (hm.tables g hg) arrays
    · have hneg : ¬ (idx : ℤ) < 0 := by omega
      rw [heq]
      simp only [hneg, if_false, wlp_ite]
      refine ⟨fun _ => ?_, fun hs => ?_⟩
      · simp only [freeSlotId, wlp_bind, wlp_store, wlp_pure]
        exact fun hpos => absurd hpos (by decide)
      · simp only [capAllocInto, installSlot, wlp_bind, wlp_store, wlp_read, wlp_bugOn, wlp_pure,
          wlp_onLinks]
        intro _ L _ _ _ _
        exact denotes_installed (v := ⟨idx, g, true, R, o, true⟩)
          (getSlot_installed (m := m) ha (by simp)) (by simp) hs rfl (.inl rfl) rfl rfl rfl
    · rw [heq]
      simp only [show -enomem < 0 by decide, if_true, wlp_pure]
      exact fun hpos => absurd hpos (by decide)
  intro r m' ho hr
  refine ⟨marked_capAlloc hm r m' ho, ?_⟩
  rintro p rfl
  exact hspec r m' ho hr

theorem sound_capCopy (h : Sound o R W m D) (hgood : GoodCopy W m D src dest i arrays s) :
    wlp (capCopy src dest i arrays s)
      (fun r m' => Sound o R W m' (copied D (src, i) (dest, r))) m := by
  have hbits := h.marked.tables dest hgood.group
  have hfull := h.marked.full dest hgood.group
  obtain ⟨slotId, t, ha⟩ : ∃ r t, SlotTable.allocSlotId arrays (m.table dest) = (r, t) := ⟨_, _, rfl⟩
  intro r m' ho
  refine ⟨marked_capCopy h.marked hgood.safe r m' ho, fun p hp => ?_⟩
  obtain ⟨hv, rfl, rfl⟩ | ⟨hv, hs, rfl, rfl⟩ | ⟨hv, hs, rfl, L, hm'⟩ := wlp_capCopy_eq hbits ha r m' ho
  · obtain hp | ⟨-, hneg, -⟩ := hp
    · exact h.denotes p hp
    · exact absurd hneg (show ¬ 0 ≤ -ecapbility by decide)
  · obtain hp | ⟨-, hneg, -⟩ := hp
    · refine (h.denotes p hp).of_eq ?_ rfl
      rw [Caps.getSlot_setTable]
      split
      · next heq =>
        have hid : 0 ≤ slotId :=
          Int.not_lt.mp fun hneg => hgood.safe ⟨hv, by rw [ha]; exact hneg⟩
        rw [heq, (sameSlots_undone hbits hfull ha hid).slot]
        rfl
      · rfl
    · exact absurd hneg (show ¬ 0 ≤ -enomem by decide)
  · have hpos : ¬ r < 0 := fun hneg => hgood.safe ⟨hv, by rw [ha]; exact hneg⟩
    obtain ⟨idx, u, heq, halloc⟩ | ⟨heq, -, -⟩ := allocSlotId_spec hbits arrays
    · obtain ⟨rfl, rfl⟩ := Prod.mk.inj (heq.symm.trans ha)
      have htable : m'.table = update m.table dest (u.setSlot idx s) := by
        simp [hm', copying]
      have hget := getSlot_installed halloc htable
      have hslot : m'.slot = update m.slot s
          ⟨idx, dest, true, (m.slot s).rights, (m.slot (m.getSlot src i)).object, true⟩ := by
        simp [hm', copying]
      obtain hp | ⟨hsrc, -, rfl⟩ := hp
      · exact (h.denotes p hp).add halloc.free (hgood.fresh hs) hget hslot
      · exact denotes_installed hget hslot hs (h.denotes _ hsrc).object
          (.inr (hgood.rights hsrc hs)) rfl rfl rfl
    · obtain ⟨rfl, -⟩ := Prod.mk.inj (heq.symm.trans ha)
      exact absurd (by decide) hpos

theorem sound_capFree (h : Sound o R W m D) (hp : (g, i) ∈ D) :
    wlp (capFree g i) (fun _ m' => Sound o R W m' {p ∈ D | p ≠ (g, i)}) m := by
  have hspec : wlp (capFree g i) (fun _ m' => ∀ p ∈ D, p ≠ (g, i) → Denotes o R W m' p) m := by
    rw [capFree, wlp_bind, capFreeTable, wlp_bind, wlp_read, wlp_ite]
    refine ⟨fun _ => ?_, fun _ => ?_⟩
    · simp only [freeSlotId, capFreeUnlink, kfreeSlot, wlp_bind, wlp_store, wlp_pure, wlp_read,
        wlp_onLinks]
      intro _ L _
      refine wlp_mono frame_objPut fun _ m' hf p hpD hne => ?_
      have hden := h.denotes p hpD
      -- the slots of different capabilities differ
      have hslot : m.getSlot p.1 p.2 ≠ m.getSlot g i := by
        intro heq
        have hgrp := (h.denotes _ hp).group
        have hid := (h.denotes _ hp).slotId
        rw [← heq, hden.group] at hgrp
        rw [← heq, hden.slotId] at hid
        exact hne (Prod.ext hgrp hid)
      refine Denotes.frame (hden.of_eq ?_ ?_) hf
      · show (m.setTable g ((m.table g).freeSlotId i)).getSlot p.1 p.2 = _
        rw [Caps.getSlot_setTable]
        split
        · next heq =>
          have hi : p.2 ≠ i := fun hi => hne (Prod.ext heq hi)
          rw [getSlot_freeSlotId, if_neg hi, heq]
          rfl
        · rfl
      · simp [hslot]
    · rw [wlp_pure, wlp_pure]
      exact fun p hpD _ => h.denotes p hpD
  intro r m' ho
  exact ⟨marked_capFree h.marked r m' ho, fun p hp => hspec r m' ho p hp.1 hp.2⟩

theorem sound_capMove (h : Sound o R W m D) (hsrc : (src, i) ∈ D)
    (hgood : GoodCopy W m D src dest i arrays s)
    (hcopy : (capCopy src dest i arrays s).outcome m = .ok r₁ m₁) :
    wlp (capMove src dest i arrays s) (fun _ m' =>
      Sound o R W m' {p ∈ copied D (src, i) (dest, r₁) | 0 ≤ r₁ → p ≠ (src, i)}) m := by
  have h1 := sound_capCopy h hgood r₁ m₁ hcopy
  rw [capMove, wlp_bind]
  intro r2 m2 hcopy'
  obtain ⟨rfl, rfl⟩ : r₁ = r2 ∧ m₁ = m2 := by
    rw [hcopy] at hcopy'
    injection hcopy' with hr hm
    exact ⟨hr, hm⟩
  rw [wlp_ite]
  refine ⟨fun _ => wlp_pure.mpr ⟨h1.marked, fun p hp => h1.denotes p hp.1⟩, fun hpos => ?_⟩
  simp only [wlp_bind, wlp_bugOn, wlp_pure]
  refine wlp_mono (sound_capFree h1 (.inl hsrc)) fun _ m' h' _ => ⟨h'.marked, fun p hp => ?_⟩
  exact h'.denotes p ⟨hp.1, hp.2 (by omega)⟩

theorem sound_transferCaps (h : Sound o R W m D) (hgood : GoodCopies W src dest caps m D) :
    wlp (transferCaps src dest caps) (fun rs m' =>
      Sound o R W m' (transferred src dest caps rs D)) m := by
  induction caps generalizing m D with
  | nil => exact wlp_pure.mpr h
  | cons c caps ih =>
    rw [transferCaps, wlp_bind]
    intro r m₁ hcopy
    rw [wlp_bind]
    have h1 := sound_capCopy h hgood.1 r m₁ hcopy
    exact wlp_mono (ih h1 (hgood.2 r m₁ hcopy)) fun rs m' h' => wlp_pure.mpr h'

/-- `sys_transfer_caps`, when it fails and when it does not. -/
theorem sound_sysTransferCaps (h : Sound o R W m D) :
    wlp (sysTransferCaps g destCap srcCaps nrCaps) (fun res m' =>
      (res.1 < 0 → Sound o R W m' D) ∧
      ∀ dest m₁, (objGet g destCap .capGroup).outcome m = .ok (some dest) m₁ → 0 ≤ res.1 →
        GoodCopies W g dest ((List.range nrCaps.toNat).map srcCaps) m₁ D →
        Sound o R W m' (transferred g dest ((List.range nrCaps.toNat).map srcCaps) res.2 D)) m := by
  rw [sysTransferCaps, wlp_bind]
  intro found m₁ hget
  have h1 : Sound o R W m₁ D := h.frame (frame_getOpaque _ _ hget)
  cases found with
  | none =>
    refine wlp_pure.mpr ⟨fun _ => h1, fun dest m2 hget' => ?_⟩
    rw [hget] at hget'
    simp at hget'
  | some dest =>
    rw [wlp_ite]
    refine ⟨fun _ => ?_, fun _ => ?_⟩
    · rw [wlp_bind]
      refine wlp_mono frame_objPut fun _ m2 h2 => wlp_pure.mpr ⟨fun _ => h1.frame h2, ?_⟩
      exact fun _ _ _ hpos => absurd hpos (by decide)
    · rw [wlp_bind]
      intro rs m2 htransfer
      rw [wlp_bind]
      refine wlp_mono frame_objPut fun _ m3 h3 => wlp_pure.mpr ⟨fun hneg => ?_, ?_⟩
      · exact absurd hneg (show ¬ (0 : ℤ) < 0 by decide)
      · intro dest' m1' hget' _ hgood
        rw [hget] at hget'
        injection hget' with hdest hm
        obtain rfl := Option.some.inj hdest
        subst hm
        exact (sound_transferCaps h1 hgood rs m2 htransfer).frame h3

theorem Chain.sound (h : Chain o R W m D) : Sound o R W m D := by
  induction h with
  | alloc hm hg _ h hr => exact sound_capAlloc hm hg _ _ h hr
  | copy _ hgood h ih => exact sound_capCopy ih hgood _ _ h
  | move _ hsrc hgood hcopy h ih => exact sound_capMove ih hsrc hgood hcopy _ _ h
  | transfer _ hget hgood h hr ih => exact (sound_sysTransferCaps ih _ _ h).2 _ _ hget hr hgood
  | transferFailed _ h hr ih => exact (sound_sysTransferCaps ih _ _ h).1 hr

/-- **Delegation** keeps the object: every capability of a chain denotes the object of
the first one.  It keeps the rights in every chain in which the memory for each new
slot holds them already. -/
theorem chain_same_object_and_rights (o R : ℕ) :
    (∀ W m D, Chain o R W m D → ∀ p ∈ D,
      m.getSlot p.1 p.2 ≠ 0 ∧ (m.slot (m.getSlot p.1 p.2)).object = o) ∧
    ∀ m D, Chain o R (· = R) m D → ∀ p ∈ D, (m.slot (m.getSlot p.1 p.2)).rights = R := by
  constructor
  · intro W m D h p hp
    have hden := h.sound.denotes p hp
    exact ⟨hden.ne, hden.object⟩
  · intro m D h p hp
    exact (h.sound.denotes p hp).rights.elim id id

theorem allMarked_rootMem : AllMarked rootMem := by
  refine marked_createObject ?_ _ _ createObject_root
  exact ⟨fun g hg => absurd hg.1 (bootMem_dead g), fun g hg => absurd hg.1 (bootMem_dead g)⟩

instance : Decidable (Runaway m src dest i arrays) := inferInstanceAs (Decidable (_ ∧ _))

/-- The root cap group after `cap_alloc` of a capability to itself with rights `R`. -/
def selfMem (R : ℕ) : CapMem := after (capAlloc 1 1 R [] 10) rootMem

/-- The capability is copied within the group. -/
def sharedMem (R : ℕ) : CapMem := after (capCopy 1 1 0 [] 20) (selfMem R)

/-- A chain of two capabilities. -/
theorem chain_shared (halloc : ((capAlloc 1 1 R [] 10).outcome rootMem).result? = some 0)
    (hcopy : ((capCopy 1 1 0 [] 20).outcome (selfMem R)).result? = some 1)
    (hgood : GoodCopy W (selfMem R) {(1, 0)} 1 1 0 [] 20) :
    Chain 1 R W (sharedMem R) (copied {(1, 0)} (1, 0) (1, 1)) := by
  have hself : Chain 1 R W (selfMem R) {(1, 0)} :=
    .alloc allMarked_rootMem (by decide +kernel) (by decide +kernel) (outcome_eq_after halloc)
      (by decide)
  exact hself.copy hgood (outcome_eq_after hcopy)

/-- Without rights the copy is right, because the memory for its slot is zero. -/
theorem chain_same_object_and_rights_zero :
    ((sharedMem 0).slot ((sharedMem 0).getSlot 1 1)).object = 1 ∧
      ((sharedMem 0).slot ((sharedMem 0).getSlot 1 1)).rights = 0 := by
  have hchain : Chain 1 0 (· = 0) (sharedMem 0) (copied {(1, 0)} (1, 0) (1, 1)) := by
    refine chain_shared (by decide +kernel) (by decide +kernel) ⟨by decide +kernel,
      by decide +kernel, by decide +kernel, fun _ _ => by decide +kernel⟩
  have hmem : ((1, 1) : ℕ × ℤ) ∈ copied {(1, 0)} (1, 0) (1, 1) := .inr ⟨rfl, by decide, rfl⟩
  exact ⟨((chain_same_object_and_rights 1 0).1 _ _ _ hchain _ hmem).2,
    (chain_same_object_and_rights 1 0).2 _ _ hchain _ hmem⟩

/-- A copy of a capability with rights 7 has none. -/
theorem copy_loses_rights :
    ∃ (o R : ℕ) (m : CapMem) (D : Set (ℕ × ℤ)), Chain o R (fun _ => True) m D ∧
      ∃ p ∈ D, (m.slot (m.getSlot p.1 p.2)).rights ≠ R := by
  refine ⟨1, 7, sharedMem 7, copied {(1, 0)} (1, 0) (1, 1), ?_, (1, 1), .inr ⟨rfl, by decide, rfl⟩,
    by decide +kernel⟩
  exact chain_shared (by decide +kernel) (by decide +kernel) ⟨by decide +kernel, by decide +kernel,
    by decide +kernel, fun _ _ => trivial⟩

end Starfish.Object
