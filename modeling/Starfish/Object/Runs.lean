import Mathlib.Data.Set.Card
import Starfish.Object.Spec

/-!
# Starfish.Object.Runs

Sequences of calls on the capabilities, by one thread after the other.  Beside the
memory a state has the references that `obj_get` has given out and that nobody has
put back.

The callers promise what the code cannot check (`Op.Allowed`): they name cap groups
and objects that exist, they put back what they got, and the allocators return memory
that is not in use.  Under these promises the reference counts go wrong in a few
ways; `Op.Safe` and `Emptied` say that none of them happens.
-/

namespace Starfish.Object

open Relation Function SlotTable Prog

attribute [local simp] Live

/-! ## Sequences of calls -/

/-- The calls. -/
inductive Op where
  | createObject (object : ℕ) (type : ObjectType) (a : Around)
  | capAlloc (g object rights : ℕ) (arrays : List (Option Around)) (slot : ℕ)
  | capCopy (src dest : ℕ) (srcSlotId : ℤ) (arrays : List (Option Around)) (destSlot : ℕ)
  | capMove (src dest : ℕ) (srcSlotId : ℤ) (arrays : List (Option Around)) (destSlot : ℕ)
  | capFree (g : ℕ) (slotId : ℤ)
  | capFreeAll (g : ℕ) (slotId : ℤ)
  | capInsert (g object rights : ℕ) (slotId : ℤ) (slot : ℕ)
  | capReplace (g object : ℕ) (slotId : ℤ)
  | objGet (g : ℕ) (slotId : ℤ) (type : ObjectType)
  | objPut (object : ℕ)

/-- The memory, and the references that are held. -/
structure State where
  mem : CapMem
  refs : ℕ → ℕ

/-- A call that returns. -/
inductive Step : Op → State → State → Prop
  | createObject {object type a m refs r m'}
      (h : (createObject object type a).outcome m = .ok r m') :
      Step (.createObject object type a) ⟨m, refs⟩ ⟨m', refs⟩
  | capAlloc {g object rights arrays slot m refs r m'}
      (h : (capAlloc g object rights arrays slot).outcome m = .ok r m') :
      Step (.capAlloc g object rights arrays slot) ⟨m, refs⟩ ⟨m', refs⟩
  | capCopy {src dest srcSlotId arrays destSlot m refs r m'}
      (h : (capCopy src dest srcSlotId arrays destSlot).outcome m = .ok r m') :
      Step (.capCopy src dest srcSlotId arrays destSlot) ⟨m, refs⟩ ⟨m', refs⟩
  | capMove {src dest srcSlotId arrays destSlot m refs r m'}
      (h : (capMove src dest srcSlotId arrays destSlot).outcome m = .ok r m') :
      Step (.capMove src dest srcSlotId arrays destSlot) ⟨m, refs⟩ ⟨m', refs⟩
  | capFree {g slotId m refs r m'} (h : (capFree g slotId).outcome m = .ok r m') :
      Step (.capFree g slotId) ⟨m, refs⟩ ⟨m', refs⟩
  | capFreeAll {g slotId m refs r m'} (h : (capFreeAll g slotId).outcome m = .ok r m') :
      Step (.capFreeAll g slotId) ⟨m, refs⟩ ⟨m', refs⟩
  | capInsert {g object rights slotId slot m refs r m'}
      (h : (capInsert g object rights slotId slot).outcome m = .ok r m') :
      Step (.capInsert g object rights slotId slot) ⟨m, refs⟩ ⟨m', refs⟩
  | capReplace {g object slotId m refs r m'}
      (h : (capReplace g object slotId).outcome m = .ok r m') :
      Step (.capReplace g object slotId) ⟨m, refs⟩ ⟨m', refs⟩
  | objGetNull {g slotId type m refs m'} (h : (objGet g slotId type).outcome m = .ok none m') :
      Step (.objGet g slotId type) ⟨m, refs⟩ ⟨m', refs⟩
  | objGet {g slotId type m refs o m'} (h : (objGet g slotId type).outcome m = .ok (some o) m') :
      Step (.objGet g slotId type) ⟨m, refs⟩ ⟨m', Function.update refs o (refs o + 1)⟩
  | objPut {o m refs r m'} (h : (objPut o).outcome m = .ok r m') :
      Step (.objPut o) ⟨m, refs⟩ ⟨m', Function.update refs o (refs o - 1)⟩

/-- `kmalloc` returns memory that is not in use. -/
def FreshSlot (m : CapMem) (slot : ℕ) : Prop := slot ≠ 0 → (m.slot slot).live = false

/-- What the callers and the allocators promise. -/
def Op.Allowed : Op → State → Prop
  | .createObject object _ _, s => ¬ Live s.mem object
  | .capAlloc g object _ _ slot, s => Group s.mem g ∧ Live s.mem object ∧ FreshSlot s.mem slot
  | .capCopy src dest _ _ destSlot, s =>
    Group s.mem src ∧ Group s.mem dest ∧ FreshSlot s.mem destSlot
  | .capMove src dest _ _ destSlot, s =>
    Group s.mem src ∧ Group s.mem dest ∧ FreshSlot s.mem destSlot
  | .capFree g _, s => Group s.mem g
  | .capFreeAll g _, s => Group s.mem g
  | .capInsert g object _ _ slot, s => Group s.mem g ∧ Live s.mem object ∧ FreshSlot s.mem slot
  | .capReplace g object _, s => Group s.mem g ∧ Live s.mem object
  | .objGet g _ _, s => Group s.mem g
  | .objPut object, s => 0 < s.refs object

/-- No reference count is about to overflow. -/
def Room (m : CapMem) : Prop := ∀ o, Live m o → (m.object o).refcount + 1 < 2 ^ 64

/-- The calls after which the counts are still right: `cap_copy` does not go on
after a failed expansion, `cap_insert` does not find a slot where it puts its own,
and `cap_replace` does not change the object. -/
def Op.Safe : Op → State → Prop
  | .capCopy src dest srcSlotId arrays _, s =>
    ¬ Runaway s.mem src dest srcSlotId arrays ∧ Room s.mem
  | .capMove src dest srcSlotId arrays _, s =>
    ¬ Runaway s.mem src dest srcSlotId arrays ∧ Room s.mem
  | .capFreeAll _ _, s => Room s.mem
  | .capInsert g _ _ slotId _, s => s.mem.getSlot g slotId = 0 ∧ Room s.mem
  | .capReplace g object slotId, s => (s.mem.slot (s.mem.getSlot g slotId)).object = object
  | .objGet _ _ _, s => Room s.mem
  | _, _ => True

/-- A cap group that is destroyed in a step has no capabilities left. -/
def Emptied (s s' : State) : Prop :=
  ∀ g, Group s.mem g → ¬ Group s'.mem g → ∀ i, s'.mem.getSlot g i = 0

/-- A step of a run in which the counts stay right. -/
def SafeStep (s s' : State) : Prop := ∃ op : Op, op.Allowed s ∧ op.Safe s ∧ Emptied s s' ∧ Step op s s'

/-- A step of any run. -/
def AnyStep (s s' : State) : Prop := ∃ op : Op, op.Allowed s ∧ Step op s s'

/-! ## What the counts should be -/

/-- The places, over all cap groups, where a slot that points to `o` is. -/
def slotsOf (m : CapMem) (o : ℕ) : Set (ℕ × ℤ) :=
  {p | Group m p.1 ∧ m.getSlot p.1 p.2 ≠ 0 ∧ (m.slot (m.getSlot p.1 p.2)).object = o}

/-- The slots of `o` and the references to it. -/
noncomputable def counted (s : State) (o : ℕ) : ℕ := (slotsOf s.mem o).ncard + s.refs o

/-- The reference count of `o` and its copies list are right. -/
structure CountRight (s : State) (o : ℕ) : Prop where
  refcount : (s.mem.object o).refcount = counted s o
  copies : ∃ xs : List ℕ, xs.Nodup ∧
    Path s.mem.links.next (.head o) (xs.map CapNode.copy) (.head o) ∧
    Path s.mem.links.prev (.head o) (xs.map CapNode.copy).reverse (.head o) ∧
    ∀ x, x ∈ xs ↔ ∃ p ∈ slotsOf s.mem o, s.mem.getSlot p.1 p.2 = x

/-! ## Steps -/

section

variable {refs refs' : ℕ → ℕ}
  {xs xs' : ℕ → List ℕ} {m m' : CapMem} {o : ℕ}

/-- The invariant between two calls. -/
abbrev Settled (refs : ℕ → ℕ) (xs : ℕ → List ℕ) (m : CapMem) : Prop :=
  Inv (Group m) (fun _ _ => False) (fun _ => False) refs xs m

/-- `o` is destroyed if and only if its total comes down to zero. -/
def Fate (tot : ℕ → ℕ) (m : CapMem) (tot' : ℕ → ℕ) (m' : CapMem) : Prop :=
  ∀ o, Live m o → (¬ Live m' o ↔ 0 < tot o ∧ tot' o = 0)

theorem Steady.fate (h : Steady tot m tot' m') (hc : Counts tot' m') : Fate tot m tot' m' := by
  intro o ho
  constructor
  · intro hdead
    exact ⟨h.died o ho hdead, hc.dead o hdead⟩
  · rintro ⟨hpos, hzero⟩ hlive
    have hiff := h.kept o ho hlive
    omega

/-- Nothing is destroyed while the totals do not fall. -/
theorem fate_of_le (hlive : ∀ o, Live m o → Live m' o)
    (hle : ∀ o, tot o ≤ tot' o) : Fate tot m tot' m' := by
  intro o ho
  have hl := hlive o ho
  have hle := hle o
  constructor
  · exact fun hdead => absurd hl hdead
  · rintro ⟨hpos, hzero⟩
    omega

/-- After a step the invariant is about the cap groups that are left. -/
theorem Inv.regroup (h : Inv (Group m) J loose refs xs m') (hlive : ∀ o, Live m' o → Live m o)
    (htype : ∀ o, (m'.object o).type = (m.object o).type)
    (hempty : ∀ g, Group m g → ¬ Group m' g → ∀ i, m'.getSlot g i = 0) :
    Inv (Group m') J loose refs xs m' := by
  have hsub : ∀ g, Group m' g → Group m g := fun g hg => ⟨hlive g hg.1, (htype g).symm.trans hg.2⟩
  exact ⟨fun g hg => h.tables g (hsub g hg),
    h.caps.groups hempty fun g hg hn => absurd (hsub g hg) hn, h.counts⟩

theorem group_iff_of_kept (h : SameKinds m m') : Group m' = Group m := by
  funext g
  simp only [Group, Live, (h g).1, (h g).2]

theorem total_le_cons (s : ℕ) (o' : ℕ) :
    total refs xs o' ≤ total refs (update xs o (s :: xs o)) o' := by
  rw [total_cons]
  by_cases h : o' = o
  · subst h
    simp
  · simp [h]

theorem Inv.room (h : Inv G J loose refs xs m) (hroom : Room m) (o : ℕ) (ho : Live m o) :
    total refs xs o + 1 < 2 ^ 64 := by
  have hcount := h.counts.count o ho
  have hr := hroom o ho
  omega

/-- The memory after `object_alloc`. -/
@[simp] def withObject (m : CapMem) (o : ℕ) (type : ObjectType) : CapMem :=
  (m.setObject o ⟨type, 0, false, true⟩).setLinks
    ((m.links.setNext (.head o) (.head o)).setPrev (.head o) (.head o))

variable {type : ObjectType}

theorem live_withObject : Live (withObject m o type) o' ↔ o' = o ∨ Live m o' := by
  by_cases heq : o' = o
  · subst heq
    simp
  · simp [heq]

theorem group_withObject (ho : ¬ Live m o) :
    Group (withObject m o type) g ↔ (g = o ∧ type = .capGroup) ∨ Group m g := by
  by_cases heq : g = o
  · subst heq
    have hdead : (m.object g).live = false := by simpa using ho
    simp [Group, hdead]
  · simp [Group, heq]

theorem settled_withObject (h : Settled refs xs m) (ho : ¬ Live m o) :
    Caps (Group m) (fun _ => False) xs (withObject m o type) ∧
      Counts (total refs xs) (withObject m o type) := by
  refine ⟨h.caps.create ho rfl, ?_⟩
  have hcounts := h.counts.set (o := o) (v := ⟨type, 0, false, true⟩) rfl rfl
    (show 0 < 2 ^ 64 by decide)
  have hzero : update (total refs xs) o 0 = total refs xs := by
    rw [← h.counts.dead o ho, update_eq_self]
  rw [← hzero]
  exact hcounts.of_eq rfl

/-- A new object. -/
theorem wp_createObject (h : Settled refs xs m) (ho : ¬ Live m o) :
    wp (createObject o type a) (fun _ m' => Settled refs xs m' ∧ ∀ o, Live m o → Live m' o)
      (fun _ => True) m := by
  rw [createObject, objectAlloc, wp_bind, wp_ite]
  refine ⟨fun h0 => ?_, fun h0 => ?_⟩
  · simp only [wp_pure, wp_bind, wp_when, ne_eq, not_true, false_and, false_imp_iff, true_and,
      not_false_eq_true, true_imp_iff]
    exact ⟨h, fun _ ho => ho⟩
  simp only [wp_bind, wp_store, wp_onLinks, wp_initListHead, wp_pure, wp_when, capGroupInit,
    true_and, ne_eq, h0, not_false_eq_true]
  have hcaps : Caps (Group m) (fun _ => False) xs (withObject m o type) :=
    (settled_withObject h ho).1
  have hcounts : Counts (total refs xs) (withObject m o type) := (settled_withObject h ho).2
  have hlive : ∀ o', Live m o' → Live (withObject m o type) o' :=
    fun o' ho' => live_withObject.mpr (.inr ho')
  constructor
  · rintro rfl
    -- the new group starts with an empty table
    refine ⟨⟨fun g hg => ?_, ?_, hcounts.of_eq rfl⟩, hlive⟩
    · rcases (group_withObject ho).mp hg with ⟨rfl, -⟩ | hg
      · have hinit : (init baseObjectNum a).Bits fun _ => False :=
          bits_init (by decide) (by decide)
        simpa using hinit
      · have hne : g ≠ o := fun heq => ho (heq ▸ hg.1)
        simpa [hne] using h.tables g hg
    · have hkeep : Caps (Group m) (fun _ => False) xs
          ((withObject m o .capGroup).setTable o (init baseObjectNum a)) := by
        refine hcaps.of_eq (fun _ => Iff.rfl) rfl (fun _ _ _ => rfl) fun g hg i => ?_
        have hne : g ≠ o := fun heq => ho (heq ▸ hg.1)
        rw [Caps.getSlot_setTable, if_neg hne]
      refine hkeep.groups (fun g hg hn => absurd ((group_withObject ho).mpr (.inr hg)) hn)
        fun g hg hn i => ?_
      obtain ⟨rfl, -⟩ := ((group_withObject ho).mp hg).resolve_right hn
      rw [Caps.getSlot_setTable, if_pos rfl, getSlot_init]
  · intro htype
    have hsame : Group (withObject m o type) = Group m := by
      funext g
      rw [eq_iff_iff, group_withObject ho]
      exact or_iff_right fun heq => htype heq.2
    have hinv : Inv (Group m) _ _ refs xs (withObject m o type) := ⟨h.tables, hcaps, hcounts⟩
    rw [← hsame] at hinv
    exact ⟨hinv, hlive⟩

theorem SafeStep.settled (hstep : SafeStep s s') (h : Settled s.refs xs s.mem) :
    ∃ xs', Settled s'.refs xs' s'.mem ∧
      Fate (total s.refs xs) s.mem (total s'.refs xs') s'.mem := by
  obtain ⟨op, hallow, hsafe, hempty, hstep⟩ := hstep
  -- the calls that destroy at the end, and those that do not
  have hfinish : ∀ {xs' : ℕ → List ℕ}, Inv (Group s.mem) (fun _ _ => False) (fun _ => False)
      s'.refs xs' s'.mem → Steady (total s.refs xs) s.mem (total s'.refs xs') s'.mem →
      ∃ xs', Settled s'.refs xs' s'.mem ∧ Fate (total s.refs xs) s.mem (total s'.refs xs') s'.mem :=
    fun hinv hsteady => ⟨_, hinv.regroup hsteady.live hsteady.type hempty, hsteady.fate hinv.counts⟩
  have hgrow : ∀ {o slot : ℕ}, Inv (Group s.mem) (fun _ _ => False) (fun _ => False) s'.refs
      (update xs o (slot :: xs o)) s'.mem → s'.refs = s.refs →
      (∀ o, (s'.mem.object o).live = (s.mem.object o).live ∧
        (s'.mem.object o).type = (s.mem.object o).type) →
      ∃ xs', Settled s'.refs xs' s'.mem ∧
        Fate (total s.refs xs) s.mem (total s'.refs xs') s'.mem := by
    intro o slot hinv hrefs hkept
    refine ⟨_, (group_iff_of_kept hkept).symm ▸ hinv, fate_of_le (fun o ho => ?_) fun o' => ?_⟩
    · rw [Live, (hkept o).1]
      exact ho
    · rw [hrefs]
      exact total_le_cons slot o'
  cases hstep with
  | createObject ho =>
    obtain ⟨hs, hl⟩ := wlp_of_wp (wp_createObject h hallow) _ _ ho
    exact ⟨xs, hs, fate_of_le hl fun _ => Nat.le_refl _⟩
  | capAlloc ho =>
    obtain ⟨hg, hobj, hslot⟩ := hallow
    rcases wlp_capAlloc h hg (fun _ hf => hf) hobj hslot (fun hf => hf) _ _ ho with
      ⟨-, hinv, heq⟩ | ⟨-, -, hinv, hkept⟩
    · exact hfinish hinv (Steady.of_object_eq heq)
    · exact hgrow hinv rfl hkept
  | capCopy ho =>
    obtain ⟨hsrc, hdest, hslot⟩ := hallow
    rcases wlp_of_wp (wp_capCopy h hsrc hdest hslot hsafe.1 (h.room hsafe.2) (fun _ hf => hf)
      (fun hf => hf)) _ _ ho with ⟨-, hinv, heq⟩ | ⟨-, xs', hinv, hsteady⟩
    · exact hfinish hinv (Steady.of_object_eq heq)
    · exact hfinish hinv hsteady
  | capMove ho =>
    obtain ⟨hsrc, hdest, hslot⟩ := hallow
    obtain ⟨xs', hinv, hsteady⟩ := wlp_capMove h hsrc hdest hslot hsafe.1 (h.room hsafe.2)
      (fun _ _ hf => hf) (fun hf => hf) _ _ ho
    exact hfinish hinv hsteady
  | capFree ho =>
    rcases wlp_of_wp (wp_capFree h hallow (fun _ hf => hf)) _ _ ho with
      ⟨-, -, rfl⟩ | ⟨o, as, bs, -, -, hinv, hsteady, -, -⟩
    · exact hfinish h (Steady.of_object_eq rfl)
    · exact hfinish hinv hsteady
  | capFreeAll ho =>
    obtain ⟨xs', hinv, hsteady⟩ := wlp_capFreeAll (fun _ _ hf => hf) h hallow (h.room hsafe) _ _ ho
    exact hfinish hinv hsteady
  | capInsert ho =>
    obtain ⟨hg, hobj, hslot⟩ := hallow
    rcases wlp_capInsert h hg (fun _ hf => hf) hobj hslot (fun hf => hf) hsafe.1
      (h.room hsafe.2 _ hobj) _ _ ho with ⟨hinv, heq⟩ | ⟨hinv, hkept⟩
    · exact hfinish hinv (Steady.of_object_eq heq)
    · exact hgrow hinv rfl hkept
  | capReplace ho =>
    obtain rfl := wlp_capReplace hsafe _ _ ho
    exact hfinish h (Steady.of_object_eq rfl)
  | objGetNull ho =>
    rcases wlp_getOpaque h hallow _ (h.room hsafe) _ _ ho with ⟨-, rfl⟩ | ⟨o, hsome, -⟩
    · exact hfinish h (Steady.of_object_eq rfl)
    · exact absurd hsome (by simp)
  | objGet ho =>
    rcases wlp_getOpaque h hallow _ (h.room hsafe) _ _ ho with
      ⟨hnone, -⟩ | ⟨o, hsome, -, -, hinv, hsteady, -, -⟩
    · exact absurd hnone (by simp)
    · obtain rfl := Option.some.inj hsome
      exact hfinish hinv hsteady
  | objPut ho =>
    obtain ⟨hinv, hsteady, -, -⟩ := wlp_of_wp (wp_objPut h hallow) _ _ ho
    exact hfinish hinv hsteady

/-! ## Runs -/

theorem settled_init (h : ∀ o, ¬ Live m o) : Settled (fun _ => 0) (fun _ => []) m where
  tables := fun g hg => absurd hg.1 (h g)
  caps := ⟨⟨fun o ho => absurd ho (h o), fun j _ hj => absurd hj (h j)⟩,
    fun o ho => absurd ho (h o), fun o ho => absurd ho (h o), fun _ _ => rfl,
    fun _ _ hs => absurd hs (by simp), fun _ _ hs => absurd hs (by simp),
    fun g _ hg => absurd hg.1 (h g)⟩
  counts := ⟨fun o ho => absurd ho (h o), fun _ => by simp [total], fun _ _ => rfl⟩

section

variable (h : Settled refs xs m)
include h

/-- The slots on the copies list are those in the tables. -/
theorem Inv.mem_iff (x : ℕ) : x ∈ xs o ↔ ∃ p ∈ slotsOf m o, m.getSlot p.1 p.2 = x := by
  constructor
  · intro hx
    obtain ⟨hg, hget⟩ := h.caps.placed o x hx (by simp)
    obtain ⟨h0, hobj, -, -⟩ := h.caps.slot o x hx
    exact ⟨((m.slot x).capGroup, (m.slot x).slotId), ⟨hg, by rw [hget]; exact h0,
      by rw [hget]; exact hobj⟩, hget⟩
  · rintro ⟨p, ⟨hg, hne, hobj⟩, rfl⟩
    have hlisted := (h.caps.listed p.1 p.2 hg hne).1
    rwa [hobj] at hlisted

theorem Inv.ncard_slotsOf : (slotsOf m o).ncard = (xs o).length := by
  have himage : slotsOf m o =
      (fun x => ((m.slot x).capGroup, (m.slot x).slotId)) '' {x | x ∈ xs o} := by
    ext ⟨g, i⟩
    constructor
    · rintro ⟨hg, hne, hobj⟩
      obtain ⟨hmem, -, hgrp, hid⟩ := h.caps.listed g i hg hne
      refine ⟨m.getSlot g i, ?_, Prod.ext hgrp hid⟩
      rwa [hobj] at hmem
    · rintro ⟨x, hx, heq⟩
      obtain ⟨hg, hget⟩ := h.caps.placed o x hx (by simp)
      obtain ⟨h0, hobj, -, -⟩ := h.caps.slot o x hx
      obtain ⟨rfl, rfl⟩ := Prod.mk.inj heq
      exact ⟨hg, by rw [hget]; exact h0, by rw [hget]; exact hobj⟩
  have hinj : Set.InjOn (fun x => ((m.slot x).capGroup, (m.slot x).slotId)) {x | x ∈ xs o} := by
    intro x hx y hy heq
    obtain ⟨hg, hi⟩ := Prod.mk.inj heq
    obtain ⟨-, hgetx⟩ := h.caps.placed o x hx (by simp)
    obtain ⟨-, hgety⟩ := h.caps.placed o y hy (by simp)
    rw [← hgetx, ← hgety, hg, hi]
  have hnd : (xs o).Nodup := by
    by_cases ho : Live m o
    · exact h.caps.nodup ho
    · rw [h.caps.dead o ho]
      exact List.nodup_nil
  rw [himage, hinj.ncard_image, ← List.coe_toFinset, Set.ncard_coe_finset,
    List.toFinset_card_of_nodup hnd]

theorem Inv.counted_eq : counted ⟨m, refs⟩ o = total refs xs o := by
  rw [counted, total, h.ncard_slotsOf]

theorem Inv.countRight (ho : Live m o) : CountRight ⟨m, refs⟩ o where
  refcount := (h.counts.count o ho).trans h.counted_eq.symm
  copies := ⟨xs o, h.caps.nodup ho, h.caps.fwd o ho, h.caps.bwd o ho, h.mem_iff⟩

end

/-- The invariant along a run. -/
theorem exists_settled (h0 : ∀ o, ¬ Live m₀ o)
    (hrun : ReflTransGen SafeStep ⟨m₀, fun _ => 0⟩ s) : ∃ xs, Settled s.refs xs s.mem := by
  induction hrun with
  | refl => exact ⟨_, settled_init h0⟩
  | tail _ hstep ih =>
    obtain ⟨xs, h⟩ := ih
    obtain ⟨xs', h', -⟩ := hstep.settled h
    exact ⟨xs', h'⟩

end

/-- **The reference counts** are right in every state of a run whose steps are all
safe: the count of an object is the number of slots and references to it, its copies
list holds these slots, and an object goes in the step in which that number comes
down to zero, and in no other. -/
theorem counts_right_in_safe_runs {m₀ : CapMem} (h₀ : ∀ o, ¬ Live m₀ o) {s : State}
    (hrun : ReflTransGen SafeStep ⟨m₀, fun _ => 0⟩ s) :
    (∀ o, Live s.mem o → CountRight s o) ∧
      ∀ s', SafeStep s s' → ∀ o, Live s.mem o →
        (¬ Live s'.mem o ↔ 0 < counted s o ∧ counted s' o = 0) := by
  obtain ⟨xs, h⟩ := exists_settled h₀ hrun
  refine ⟨fun o ho => h.countRight ho, fun s' hstep o ho => ?_⟩
  obtain ⟨xs', h', hfate⟩ := hstep.settled h
  have heq : counted s o = total s.refs xs o := h.counted_eq
  have heq' : counted s' o = total s'.refs xs' o := h'.counted_eq
  rw [heq, heq']
  exact hfate o ho

/-! ## The root cap group, and a capability that is replaced -/

/-- Memory after boot. -/
def bootMem : CapMem where
  table := fun _ => ⟨0, fun _ => 0, fun _ => 0, fun _ => 0⟩
  slot := fun _ => ⟨0, 0, false, 0, 0, false⟩
  object := fun _ => ⟨.capGroup, 0, false, false⟩
  links := ⟨id, id⟩

/-- Zeroes around the arrays. -/
def zeroes : Around := ⟨fun _ => 0, fun _ => 0, fun _ => 0⟩

theorem bootMem_dead (o : ℕ) : ¬ Live bootMem o := by simp [bootMem]

instance (m : CapMem) (o : ℕ) : Decidable (Live m o) := inferInstanceAs (Decidable (_ = _))

instance (m : CapMem) (g : ℕ) : Decidable (Group m g) := inferInstanceAs (Decidable (_ ∧ _))

instance (m : CapMem) (slot : ℕ) : Decidable (FreshSlot m slot) :=
  inferInstanceAs (Decidable (_ → _))

instance : (op : Op) → (s : State) → Decidable (op.Allowed s)
  | .createObject _ _ _, _ => inferInstanceAs (Decidable (¬ _))
  | .capAlloc _ _ _ _ _, _ => inferInstanceAs (Decidable (_ ∧ _ ∧ _))
  | .capCopy _ _ _ _ _, _ => inferInstanceAs (Decidable (_ ∧ _ ∧ _))
  | .capMove _ _ _ _ _, _ => inferInstanceAs (Decidable (_ ∧ _ ∧ _))
  | .capFree _ _, _ => inferInstanceAs (Decidable (Group _ _))
  | .capFreeAll _ _, _ => inferInstanceAs (Decidable (Group _ _))
  | .capInsert _ _ _ _ _, _ => inferInstanceAs (Decidable (_ ∧ _ ∧ _))
  | .capReplace _ _ _, _ => inferInstanceAs (Decidable (_ ∧ _))
  | .objGet _ _ _, _ => inferInstanceAs (Decidable (Group _ _))
  | .objPut _, _ => inferInstanceAs (Decidable (_ < _))

/-- The memory after a call. -/
def after {α : Type} (c : Prog CapMem α) (m : CapMem) : CapMem := (c.outcome m).final

theorem outcome_eq_after {α : Type} {c : Prog CapMem α} {r : α}
    (h : (c.outcome m).result? = some r) : c.outcome m = .ok r (after c m) :=
  Outcome.eq_ok_of_result? h

/-- `create_root_cap_group`, before the group gets a capability to itself. -/
def rootMem : CapMem := after (createObject 1 .capGroup zeroes) bootMem

theorem createObject_root : (createObject 1 .capGroup zeroes).outcome bootMem = .ok 1 rootMem :=
  outcome_eq_after (by decide +kernel)

theorem capAlloc_root : (capAlloc 1 1 0 [] 10).outcome rootMem =
    .ok 0 (after (capAlloc 1 1 0 [] 10) rootMem) :=
  outcome_eq_after (by decide +kernel)

theorem rootMem_group (h : Group rootMem g) : g = 1 := by
  have hlive : Live (withObject bootMem 1 .capGroup) g := h.1
  exact (live_withObject.mp hlive).resolve_right (bootMem_dead g)

/-- The run that creates the root cap group, with a capability to itself. -/
theorem safe_run_root : ReflTransGen SafeStep ⟨bootMem, fun _ => 0⟩
    ⟨after (capAlloc 1 1 0 [] 10) rootMem, fun _ => 0⟩ := by
  have hstep1 : SafeStep ⟨bootMem, fun _ => 0⟩ ⟨rootMem, fun _ => 0⟩ :=
    ⟨.createObject 1 .capGroup zeroes, bootMem_dead 1, trivial,
      fun g hg => absurd hg.1 (bootMem_dead g), .createObject createObject_root⟩
  have hstep2 : SafeStep ⟨rootMem, fun _ => 0⟩ ⟨after (capAlloc 1 1 0 [] 10) rootMem, fun _ => 0⟩ := by
    refine ⟨.capAlloc 1 1 0 [] 10, by decide +kernel, trivial, ?_, .capAlloc capAlloc_root⟩
    intro g hg hn
    obtain rfl := rootMem_group hg
    exact absurd (by decide +kernel) hn
  exact (ReflTransGen.single hstep1).tail hstep2

theorem counts_right_root_group :
    CountRight ⟨after (capAlloc 1 1 0 [] 10) rootMem, fun _ => 0⟩ 1 :=
  (counts_right_in_safe_runs bootMem_dead safe_run_root).1 1 (by decide +kernel)

/-- Two objects beside the root cap group. -/
def twoObjects : CapMem :=
  after (createObject 3 .pmo zeroes) (after (createObject 2 .pmo zeroes) rootMem)

/-- The first of them has a capability. -/
def shared : CapMem := after (capAlloc 1 2 0 [] 10) twoObjects

theorem run_oneObject : ReflTransGen AnyStep ⟨bootMem, fun _ => 0⟩
    ⟨after (createObject 2 .pmo zeroes) rootMem, fun _ => 0⟩ := by
  have h2 := outcome_eq_after (c := createObject 2 .pmo zeroes) (m := rootMem) (r := 2)
    (by decide +kernel)
  have hrun1 : AnyStep ⟨bootMem, fun _ => 0⟩ ⟨rootMem, fun _ => 0⟩ :=
    ⟨.createObject 1 .capGroup zeroes, bootMem_dead 1, .createObject createObject_root⟩
  have hrun2 : AnyStep ⟨rootMem, fun _ => 0⟩ _ :=
    ⟨.createObject 2 .pmo zeroes, by decide +kernel, .createObject h2⟩
  exact (ReflTransGen.single hrun1).tail hrun2

theorem run_shared : ReflTransGen AnyStep ⟨bootMem, fun _ => 0⟩ ⟨shared, fun _ => 0⟩ := by
  have h3 := outcome_eq_after (c := createObject 3 .pmo zeroes)
    (m := after (createObject 2 .pmo zeroes) rootMem) (r := 3) (by decide +kernel)
  have h4 := outcome_eq_after (c := capAlloc 1 2 0 [] 10) (m := twoObjects) (r := 0)
    (by decide +kernel)
  have hrun3 : AnyStep _ ⟨twoObjects, fun _ => 0⟩ :=
    ⟨.createObject 3 .pmo zeroes, by decide +kernel, .createObject h3⟩
  have hrun4 : AnyStep ⟨twoObjects, fun _ => 0⟩ ⟨shared, fun _ => 0⟩ :=
    ⟨.capAlloc 1 2 0 [] 10, by decide +kernel, .capAlloc h4⟩
  exact (run_oneObject.tail hrun3).tail hrun4

/-- The capability is replaced by one for the second object. -/
def replaced : CapMem := after (capReplace 1 3 0) (after (capAlloc 1 2 0 [] 10) twoObjects)

/-- `cap_replace` takes a capability away from an object and leaves it on the copies
list of that object. -/
theorem replaced_capability_stays_listed :
    ∃ (m₀ : CapMem) (s : State), (∀ o, ¬ Live m₀ o) ∧
      ReflTransGen AnyStep ⟨m₀, fun _ => 0⟩ s ∧
      ∃ o, Live s.mem o ∧ ¬ CountRight s o := by
  have h5 := outcome_eq_after (c := capReplace 1 3 0) (m := shared) (r := 0) (by decide +kernel)
  refine ⟨bootMem, ⟨replaced, fun _ => 0⟩, bootMem_dead, ?_, 2, by decide +kernel, fun hright => ?_⟩
  · have hstep : AnyStep ⟨shared, fun _ => 0⟩ ⟨replaced, fun _ => 0⟩ :=
      ⟨.capReplace 1 3 0, by decide +kernel, .capReplace h5⟩
    exact run_shared.tail hstep
  · obtain ⟨xs, -, hpath, -, hmem⟩ := hright.copies
    -- the list of the first object still leads to the slot
    have hnext : replaced.links.next (.head 2) = .copy 10 := by decide +kernel
    have hobj : (replaced.slot 10).object = 3 := by decide +kernel
    have hten : 10 ∈ xs := by
      have hstart := hpath.apply_start
      cases xs with
      | nil => simp [hnext] at hstart
      | cons x xs => simp_all
    obtain ⟨p, ⟨-, -, htwo⟩, hp⟩ := (hmem 10).mp hten
    rw [hp, hobj] at htwo
    exact absurd htwo (by decide)

end Starfish.Object
