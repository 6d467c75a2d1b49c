import Mathlib.Data.List.Perm.Subperm
import Mathlib.Tactic.IntervalCases
import Starfish.Slab.Model

/-!
# Starfish.Slab.Invariant

What the slab memory stands for.  The invariant has two halves that different
stores touch:

* `Placed` is about where slabs are: each slab is the current slab of its
  pool, or on the partial or the full list of it, in exactly one of these
  places;
* `Stocked` is about what is in a slab: its free slots are a chain as long as
  the counter says, and they and the objects handed out are exactly the slots
  behind the header.

Both are stated of the components of the memory they depend on, so that a
store elsewhere leaves them alone.
-/

namespace Starfish.Slab

open Function (update update_eq_self update_of_ne update_self)
open Prog List

/-! ## Slots and regions -/

/-- Number of slots behind the header. -/
def slotCount (order : ℕ) : ℕ := totalSlots order - metaSlots order

/-- The slots of a slab, in address order. -/
def slotsOf (slab order : ℕ) : List ℕ :=
  (List.range (slotCount order)).map fun i =>
    slab + metaSlots order * orderToSize order + i * orderToSize order

/-- The memory of a slab. -/
def InSlab (slab a : ℕ) : Prop := slab ≤ a ∧ a < slab + sizeOfOneSlab

instance (slab a : ℕ) : Decidable (InSlab slab a) := inferInstanceAs (Decidable (_ ∧ _))

/-- Two slabs have no memory in common. -/
def Disjoint (s s' : ℕ) : Prop := s + sizeOfOneSlab ≤ s' ∨ s' + sizeOfOneSlab ≤ s

/-- The orders that have a slab. -/
def ValidOrder (order : ℕ) : Prop := slabMinOrder ≤ order ∧ order ≤ slabMaxOrder

theorem slot_facts (h : ValidOrder order) :
    0 < metaSlots order ∧ metaSlots order < totalSlots order ∧ slotCount order < 2 ^ 16 ∧
      totalSlots order * orderToSize order = sizeOfOneSlab := by
  obtain ⟨h1, h2⟩ := h
  unfold slabMinOrder slabMaxOrder at *
  interval_cases order <;> decide

theorem slotCount_pos (h : ValidOrder order) : 0 < slotCount order := by
  have := (slot_facts h).2.1
  unfold slotCount
  omega

theorem orderToSize_pos (order : ℕ) : 0 < orderToSize order := by
  rw [orderToSize, Nat.one_shiftLeft]
  exact Nat.two_pow_pos order

/-- A slot lies behind the first byte of the slab and inside it. -/
theorem inSlab_of_mem (h : ValidOrder order) (ha : a ∈ slotsOf slab order) :
    InSlab slab a ∧ slab < a := by
  obtain ⟨i, hi, rfl⟩ := mem_map.mp ha
  rw [mem_range] at hi
  obtain ⟨hm, hlt, -, htot⟩ := slot_facts h
  have hsz := orderToSize_pos order
  unfold slotCount at hi
  have hmul : (metaSlots order + i + 1) * orderToSize order ≤
      totalSlots order * orderToSize order := Nat.mul_le_mul_right _ (by omega)
  have hpos : 0 < metaSlots order * orderToSize order := Nat.mul_pos hm hsz
  rw [Nat.add_mul, Nat.add_mul, Nat.one_mul, htot] at hmul
  simp only [InSlab]
  omega

theorem nodup_slotsOf (slab order : ℕ) : (slotsOf slab order).Nodup := by
  refine List.Nodup.map (fun i j hij => ?_) nodup_range
  have hmul : i * orderToSize order = j * orderToSize order := by omega
  exact Nat.eq_of_mul_eq_mul_right (orderToSize_pos order) hmul

theorem length_slotsOf (slab order : ℕ) : (slotsOf slab order).length = slotCount order := by
  simp [slotsOf]

/-! ## Pools and their lists -/

/-- The pools of a cluster of `M` machines. -/
def ValidPool (M : ℕ) (k : PoolKey) : Prop :=
  k.machine < M ∧ k.cpu < platCpuNum ∧ ValidOrder k.order

/-- The two list heads of a pool. -/
def HeadOf (k : PoolKey) (l : SlabNode) : Prop := l = .partialList k ∨ l = .fullList k

/-- The list heads of all pools. -/
def IsHead (M : ℕ) (l : SlabNode) : Prop := ∃ k, ValidPool M k ∧ HeadOf k l

/-- The pool a slab belongs to. -/
def SlabMem.owner (m : SlabMem) (slab : ℕ) : PoolKey :=
  ⟨(m.header slab).ownerMachine, (m.header slab).ownerCpu, (m.header slab).order⟩

/-- An object of a slab of pool `k`. -/
def SlabMem.Holds (m : SlabMem) (k : PoolKey) (a : ℕ) : Prop :=
  ∃ s ∈ m.taken, InSlab s a ∧ m.owner s = k

/-- The list nodes of the slabs on each list. -/
def nodesOn (on : SlabNode → List ℕ) (l : SlabNode) : List SlabNode := (on l).map .slab

/-- The lists of the slabs are `on`, seen forwards. -/
abbrev SlabFwds (M : ℕ) (L : Links SlabNode) (on : SlabNode → List ℕ) : Prop :=
  Fwds id (IsHead M) L (nodesOn on)

/-- The lists of the slabs are `on`, seen backwards. -/
abbrev SlabBwds (M : ℕ) (L : Links SlabNode) (on : SlabNode → List ℕ) : Prop :=
  Bwds id (IsHead M) L (nodesOn on)

/-- The slabs of a pool: the current one, the partial and the full ones. -/
def slabsOf (cur : PoolKey → ℕ) (on : SlabNode → List ℕ) (k : PoolKey) : List ℕ :=
  (if cur k = 0 then [] else [cur k]) ++ (on (.partialList k) ++ on (.fullList k))

/-- `sl k` are the slabs of pool `k`: each of the slabs `T` is in its own pool,
once, and nothing else is in a pool. -/
structure Placed (M : ℕ) (sl : PoolKey → List ℕ) (own : ℕ → PoolKey) (T : ℕ → Prop) : Prop where
  nodup : ∀ k, ValidPool M k → (sl k).Nodup
  owned : ∀ k, ValidPool M k → ∀ s ∈ sl k, T s ∧ own s = k
  all : ∀ s, T s → s ≠ 0 ∧ ValidPool M (own s) ∧ s ∈ sl (own s)

/-- What is in the slabs: `fr s` are the free slots of `s`, `live` the objects
handed out. -/
structure Stocked (hdr : ℕ → SlabHeader) (nf pg : ℕ → ℕ) (taken : List ℕ) (fr : ℕ → List ℕ)
    (live : List ℕ) : Prop where
  nodup : taken.Nodup
  apart : ∀ s ∈ taken, ∀ s' ∈ taken, s ≠ s' → Disjoint s s'
  aligned : ∀ s ∈ taken, pageSize ∣ s
  pages : ∀ s ∈ taken, ∀ i < sizeOfOneSlab / pageSize, pg (s / pageSize + i) = s
  order : ∀ s ∈ taken, ValidOrder (hdr s).order
  total : ∀ s ∈ taken, (hdr s).totalFreeCnt = slotCount (hdr s).order
  chain : ∀ s ∈ taken, Chain nf 0 (hdr s).freeListHead (fr s)
  cnt : ∀ s ∈ taken, (hdr s).currentFreeCnt = (fr s).length
  slots : ∀ s ∈ taken, (fr s ++ live.filter (InSlab s ·)).Perm (slotsOf s (hdr s).order)
  liveIn : ∀ a ∈ live, ∃ s ∈ taken, InSlab s a

/-- Full slabs are on the full list of pool `k`, and only they. -/
def SortedAt (cur : PoolKey → ℕ) (on : SlabNode → List ℕ) (fr : ℕ → List ℕ) (k : PoolKey) : Prop :=
  (∀ s ∈ on (.fullList k), fr s = []) ∧ (∀ s ∈ on (.partialList k), fr s ≠ []) ∧
    (cur k ≠ 0 → fr (cur k) ≠ [])

/-- Full slabs are on the full lists, and only they. -/
def Sorted (M : ℕ) (cur : PoolKey → ℕ) (on : SlabNode → List ℕ) (fr : ℕ → List ℕ) : Prop :=
  ∀ k, ValidPool M k → SortedAt cur on fr k

/-- No log record is open. -/
def NoLog (M : ℕ) (m : SlabMem) : Prop :=
  ∀ mid < M, ∀ cpu < platCpuNum, (m.cpuLogs mid cpu).op = .none

/-- No pool is locked. -/
def Unlocked (M : ℕ) (m : SlabMem) : Prop := ∀ k, ValidPool M k → m.locks k = false

/-- The invariant of the slab allocators between two calls. -/
structure Inv (M : ℕ) (m : SlabMem) (on : SlabNode → List ℕ) (fr : ℕ → List ℕ)
    (live : List ℕ) : Prop where
  fwd : Fwds id (IsHead M) m.links (nodesOn on)
  bwd : Bwds id (IsHead M) m.links (nodesOn on)
  placed : Placed M (slabsOf m.currentSlab on) m.owner (· ∈ m.taken)
  stocked : Stocked m.header m.nextFree m.pageSlab m.taken fr live
  sorted : Sorted M m.currentSlab on fr
  noLog : NoLog M m

/-! ## Moving slabs between places -/

section Places

variable {M : ℕ} {cur : PoolKey → ℕ} {on : SlabNode → List ℕ} {own : ℕ → PoolKey}
  {T T' : ℕ → Prop} {sl sl' : PoolKey → List ℕ} {fr : ℕ → List ℕ}

attribute [local simp] slabsOf

@[simp] theorem mem_slabsOf : s ∈ slabsOf cur on k ↔
      (s = cur k ∧ s ≠ 0) ∨ s ∈ on (.partialList k) ∨ s ∈ on (.fullList k) := by
  by_cases h : cur k = 0
  · simp [h]
  · have hiff : s = cur k ↔ s = cur k ∧ s ≠ 0 := ⟨fun he => ⟨he, he ▸ h⟩, And.left⟩
    rw [← hiff]
    simp [h]

theorem nodesOn_update (on : SlabNode → List ℕ) (l : SlabNode) (ss : List ℕ) :
    nodesOn (update on l ss) = update (nodesOn on) l (ss.map .slab) := by
  funext j
  by_cases hj : j = l
  · subst hj
    simp [nodesOn]
  · simp [nodesOn, update_of_ne hj]

theorem slabsOf_setCurrent (hs : s ≠ 0) :
    slabsOf (update cur k s) on k = s :: slabsOf (update cur k 0) on k := by
  simp [hs]

theorem slabsOf_setCurrent_of_ne (h : j ≠ k) (s s' : ℕ) :
    slabsOf (update cur k s) on j = slabsOf (update cur k s') on j := by
  simp [update_of_ne h]

theorem slabsOf_setList (hl : HeadOf k l) : (slabsOf cur (update on l (as ++ s :: bs)) k).Perm
      (s :: slabsOf cur (update on l (as ++ bs)) k) := by
  cases hl with
  | inl h =>
    subst h
    have hp : ((if cur k = 0 then [] else [cur k]) ++ as ++ s :: (bs ++ on (.fullList k))).Perm
        (s :: ((if cur k = 0 then [] else [cur k]) ++ as ++ (bs ++ on (.fullList k)))) :=
      perm_middle
    simpa using hp
  | inr h =>
    subst h
    simp [← append_assoc]

theorem HeadOf.unique (h : HeadOf k l) (h' : HeadOf j l) : j = k := by
  cases h with
  | inl | inr => cases h' <;> simp_all

theorem slabsOf_setList_of_ne (hl : HeadOf k l) (hj : j ≠ k) (xs ys : List ℕ) :
    slabsOf cur (update on l xs) j = slabsOf cur (update on l ys) j := by
  have hp : .partialList j ≠ l := fun h => hj (hl.unique (.inl h.symm))
  have hf : .fullList j ≠ l := fun h => hj (hl.unique (.inr h.symm))
  simp [update_of_ne hp, update_of_ne hf]

theorem Placed.congr (h : Placed M sl own T) (hT : ∀ x, T x ↔ T' x) : Placed M sl own T' := by
  obtain rfl : T = T' := funext fun x => propext (hT x)
  exact h

/-- A slab that left and came back. -/
theorem Placed.back (h : Placed M sl own fun x => (T x ∧ x ≠ s) ∨ x = s) (hs : T s) :
    Placed M sl own T := by
  refine h.congr fun x => ?_
  by_cases hx : x = s <;> simp [hx, hs]

theorem Placed.congr_own (h : Placed M sl own T)
    (ho : ∀ s, T s → own' s = own s) : Placed M sl own' T where
  nodup := h.nodup
  owned := fun k hk s hs =>
    ⟨(h.owned k hk s hs).1, (ho s (h.owned k hk s hs).1).trans (h.owned k hk s hs).2⟩
  all := fun s hs => by
    rw [ho s hs]
    exact h.all s hs

theorem Placed.erase (h : Placed M sl own T) (hk : ValidPool M k)
    (hp : (sl k).Perm (s :: sl' k)) (hne : ∀ j, j ≠ k → sl j = sl' j) :
    Placed M sl' own fun x => T x ∧ x ≠ s := by
  have hnd : (s :: sl' k).Nodup := hp.nodup_iff.mp (h.nodup k hk)
  have hs : own s = k := (h.owned k hk s (hp.mem_iff.mpr mem_cons_self)).2
  constructor
  case nodup =>
    intro j hj
    by_cases hjk : j = k
    · exact hjk ▸ (nodup_cons.mp hnd).2
    · exact hne j hjk ▸ h.nodup j hj
  case owned =>
    intro j hj x hx
    by_cases hjk : j = k
    · subst hjk
      obtain ⟨hT, ho⟩ := h.owned j hj x (hp.mem_iff.mpr (mem_cons_of_mem s hx))
      exact ⟨⟨hT, fun he => (nodup_cons.mp hnd).1 (he ▸ hx)⟩, ho⟩
    · obtain ⟨hT, ho⟩ := h.owned j hj x (hne j hjk ▸ hx)
      exact ⟨⟨hT, fun he => hjk (ho.symm.trans (he ▸ hs))⟩, ho⟩
  case all =>
    rintro x ⟨hT, hxs⟩
    obtain ⟨h0, hv, hm⟩ := h.all x hT
    refine ⟨h0, hv, ?_⟩
    by_cases hjk : own x = k
    · rw [hjk] at hm ⊢
      exact (mem_cons.mp (hp.mem_iff.mp hm)).resolve_left hxs
    · exact hne _ hjk ▸ hm

theorem Placed.insert (h : Placed M sl own T) (hk : ValidPool M k)
    (hp : (sl' k).Perm (s :: sl k)) (hne : ∀ j, j ≠ k → sl' j = sl j) (hs : ¬ T s)
    (h0 : s ≠ 0) (ho : own s = k) : Placed M sl' own fun x => T x ∨ x = s := by
  constructor
  case nodup =>
    intro j hj
    by_cases hjk : j = k
    · subst hjk
      exact hp.nodup_iff.mpr (nodup_cons.mpr ⟨fun hm => hs (h.owned j hj s hm).1, h.nodup j hj⟩)
    · exact hne j hjk ▸ h.nodup j hj
  case owned =>
    intro j hj x hx
    by_cases hjk : j = k
    · subst hjk
      cases mem_cons.mp (hp.mem_iff.mp hx) with
      | inl he => exact ⟨.inr he, he ▸ ho⟩
      | inr hm => exact ⟨.inl (h.owned j hj x hm).1, (h.owned j hj x hm).2⟩
    · obtain ⟨hT, hox⟩ := h.owned j hj x (hne j hjk ▸ hx)
      exact ⟨.inl hT, hox⟩
  case all =>
    rintro x (hT | rfl)
    · obtain ⟨hx0, hv, hm⟩ := h.all x hT
      refine ⟨hx0, hv, ?_⟩
      by_cases hjk : own x = k
      · rw [hjk] at hm ⊢
        exact hp.mem_iff.mpr (mem_cons_of_mem s hm)
      · exact (hne _ hjk).symm ▸ hm
    · exact ⟨h0, ho.symm ▸ hk, ho.symm ▸ hp.mem_iff.mpr mem_cons_self⟩

section

variable (h : Placed M (slabsOf cur on) own T)
include h

theorem Placed.erase_current (hk : ValidPool M k) (h0 : cur k ≠ 0) :
    Placed M (slabsOf (update cur k 0) on) own fun x => T x ∧ x ≠ cur k := by
  refine h.erase hk ?_ fun j hj => ?_
  · rw [← slabsOf_setCurrent h0, update_eq_self]
  · rw [← slabsOf_setCurrent_of_ne hj (cur k), update_eq_self]

omit h in
/-- A slab becomes the current slab of its pool, which had none. -/
theorem Placed.insert_current
    (h : Placed M (slabsOf (update cur k 0) on) own T) (hk : ValidPool M k)
    (hs : ¬ T s) (h0 : s ≠ 0) (ho : own s = k) :
    Placed M (slabsOf (update cur k s) on) own fun x => T x ∨ x = s := by
  refine h.insert hk ?_ (fun j hj => ?_) hs h0 ho
  · rw [slabsOf_setCurrent h0]
  · exact slabsOf_setCurrent_of_ne hj s 0

theorem Placed.erase_listed (hk : ValidPool M k) (hl : HeadOf k l) (hon : on l = as ++ s :: bs) :
    Placed M (slabsOf cur (update on l (as ++ bs))) own fun x => T x ∧ x ≠ s := by
  have hself : on = update on l (as ++ s :: bs) := by rw [← hon, update_eq_self]
  refine h.erase hk ?_ fun j hj => ?_
  · nth_rewrite 1 [hself]
    exact slabsOf_setList hl
  · nth_rewrite 1 [hself]
    exact slabsOf_setList_of_ne hl hj _ _

theorem Placed.insert_listed (hk : ValidPool M k)
    (hl : HeadOf k l) (hs : ¬ T s) (h0 : s ≠ 0) (ho : own s = k) :
    Placed M (slabsOf cur (update on l (on l ++ [s]))) own fun x => T x ∨ x = s := by
  refine h.insert hk ?_ (fun j hj => ?_) hs h0 ho
  · have hp : (slabsOf cur (update on l (on l ++ [s])) k).Perm
        (s :: slabsOf cur (update on l (on l ++ [])) k) := slabsOf_setList hl
    rwa [append_nil, update_eq_self] at hp
  · rw [slabsOf_setList_of_ne hl hj _ (on l), update_eq_self]

omit h in
theorem HeadOf.sublist (hl : HeadOf k l) : (on l).Sublist (slabsOf cur on k) := by
  cases hl with
  | inl h => exact h ▸ (sublist_append_left _ _).trans (sublist_append_right _ _)
  | inr h => exact h ▸ (sublist_append_right _ _).trans (sublist_append_right _ _)

omit h in
theorem HeadOf.ne_slab (hl : HeadOf k l) : l ≠ .slab s := by
  cases hl <;> simp_all

theorem Placed.apart : Apart id (IsHead M) (nodesOn on) := by
  have hhead : ∀ l, IsHead M l → l ∉ nodesOn on l ∧ ∀ j, l ∉ nodesOn on j := by
    rintro l ⟨k, -, hl⟩
    have hout (j : SlabNode) : l ∉ nodesOn on j := by
      intro hm
      obtain ⟨s, -, he⟩ := mem_map.mp hm
      exact hl.ne_slab he.symm
    exact ⟨hout l, hout⟩
  constructor
  case nodup =>
    rintro l ⟨k, hk, hl⟩
    refine nodup_cons.mpr ⟨(hhead l ⟨k, hk, hl⟩).1, ?_⟩
    exact ((h.nodup k hk).sublist hl.sublist).map fun a b hab => by simpa using hab
  case disj =>
    rintro i j ⟨k, hk, hi⟩ ⟨k', hk', hj⟩ hij n hni hnj
    cases mem_cons.mp hni with
    | inl hn =>
      cases mem_cons.mp hnj with
      | inl hn' => exact hij (hn.symm.trans hn')
      | inr hn' => exact (hhead i ⟨k, hk, hi⟩).2 j ((show n = i from hn) ▸ hn')
    | inr hn =>
      cases mem_cons.mp hnj with
      | inl hn' => exact (hhead j ⟨k', hk', hj⟩).2 i ((show n = j from hn') ▸ hn)
      | inr hn' =>
        obtain ⟨s, hs, rfl⟩ := mem_map.mp hn
        obtain ⟨s', hs', he⟩ := mem_map.mp hn'
        obtain rfl : s' = s := by simpa using he
        have hkk : k = k' := (h.owned k hk s' (hi.sublist.subset hs)).2.symm.trans
          (h.owned k' hk' s' (hj.sublist.subset hs')).2
        subst hkk
        -- one pool: the slab would be on the partial and on the full list
        have hnd := (nodup_append.mp (h.nodup k hk)).2.1
        have hdisj := (nodup_append.mp hnd).2.2
        cases hi with
        | inl hi =>
          cases hj with
          | inl hj => exact hij (hi.trans hj.symm)
          | inr hj => exact hdisj s' (hi ▸ hs) s' (hj ▸ hs') rfl
        | inr hi =>
          cases hj with
          | inl hj => exact hdisj s' (hj ▸ hs') s' (hi ▸ hs) rfl
          | inr hj => exact hij (hi.trans hj.symm)

theorem Placed.fresh (hs : ¬ T s) : Fresh id (IsHead M) (nodesOn on) (.slab s) := by
  rintro l ⟨k, hk, hl⟩ hm
  cases mem_cons.mp hm with
  | inl he => exact hl.ne_slab he.symm
  | inr hm =>
    obtain ⟨s', hs', he⟩ := mem_map.mp hm
    obtain rfl : s' = s := by simpa using he
    exact hs (h.owned k hk s' (hl.sublist.subset hs')).1

end

/-! ## Full and partial lists -/

theorem Sorted.setCurrent (h : Sorted M cur on fr) (hv : v ≠ 0 → fr v ≠ []) :
    Sorted M (update cur k v) on fr := by
  intro j hj
  obtain ⟨h1, h2, h3⟩ := h j hj
  refine ⟨h1, h2, ?_⟩
  by_cases hjk : j = k
  · subst hjk
    rwa [update_self]
  · rwa [update_of_ne hjk]

section

variable (h : Sorted M cur on fr)
include h

theorem Sorted.setPartial (hxs : ∀ x ∈ xs, x ∈ on (.partialList k) ∨ fr x ≠ []) :
    Sorted M cur (update on (.partialList k) xs) fr := by
  intro j hj
  obtain ⟨h1, h2, h3⟩ := h j hj
  refine ⟨by simpa using h1, ?_, h3⟩
  by_cases hjk : j = k
  · subst hjk
    rw [update_self]
    exact fun x hx => (hxs x hx).elim (h2 x) id
  · rwa [update_of_ne (by simpa using hjk)]

theorem Sorted.setFull (hxs : ∀ x ∈ xs, x ∈ on (.fullList k) ∨ fr x = []) :
    Sorted M cur (update on (.fullList k) xs) fr := by
  intro j hj
  obtain ⟨h1, h2, h3⟩ := h j hj
  refine ⟨?_, by simpa using h2, h3⟩
  by_cases hjk : j = k
  · subst hjk
    rw [update_self]
    exact fun x hx => (hxs x hx).elim (h1 x) id
  · rwa [update_of_ne (by simpa using hjk)]

/-- The free slots of a slab outside the pools do not matter. -/
theorem Sorted.setFree (hout : ∀ k, ValidPool M k → s ∉ slabsOf cur on k) (xs : List ℕ) :
    Sorted M cur on (update fr s xs) := by
  have hfr : ∀ j, ValidPool M j → ∀ x ∈ slabsOf cur on j, update fr s xs x = fr x := by
    intro j hj x hx
    refine update_of_ne ?_ _ _
    rintro rfl
    exact hout j hj hx
  intro j hj
  obtain ⟨h1, h2, h3⟩ := h j hj
  refine ⟨fun x hx => ?_, fun x hx => ?_, fun h0 => ?_⟩
  · rw [hfr j hj x (by simp [hx])]
    exact h1 x hx
  · rw [hfr j hj x (by simp [hx])]
    exact h2 x hx
  · rw [hfr j hj _ (by simp [h0])]
    exact h3 h0

theorem Sorted.restock (hs : ∀ k, ValidPool M k → s ∉ on (.fullList k)) (hxs : xs ≠ []) :
    Sorted M cur on (update fr s xs) := by
  have hne (x : ℕ) (hx : fr x ≠ []) : update fr s xs x ≠ [] := by
    by_cases hxs' : x = s
    · rwa [hxs', update_self]
    · rwa [update_of_ne hxs']
  intro j hj
  obtain ⟨h1, h2, h3⟩ := h j hj
  refine ⟨fun x hx => ?_, fun x hx => hne x (h2 x hx), fun h0 => hne _ (h3 h0)⟩
  have hxs' : x ≠ s := fun he => hs j hj (he ▸ hx)
  rw [update_of_ne hxs']
  exact h1 x hx

end

end Places

/-! ## Changing what is in a slab -/

/-- A header with another free list. -/
@[simps]
def SlabHeader.withFree (h : SlabHeader) (head cnt : ℕ) : SlabHeader :=
  { h with freeListHead := head, currentFreeCnt := cnt }

section Stock

variable {hdr : ℕ → SlabHeader} {nf nf' pg : ℕ → ℕ} {taken : List ℕ} {fr : ℕ → List ℕ}
  {live live' xs : List ℕ} {s s' a head : ℕ}

theorem Disjoint.not_inSlab (h : Disjoint s s') (ha : InSlab s a) : ¬ InSlab s' a := by
  simp only [Disjoint, InSlab] at *
  omega

/-- The pages of two slabs are different. -/
theorem Disjoint.page_ne (h : Disjoint s s') (hs : pageSize ∣ s) (hs' : pageSize ∣ s')
    (hi : i < sizeOfOneSlab / pageSize) (hj : j < sizeOfOneSlab / pageSize) :
    s / pageSize + i ≠ s' / pageSize + j := by
  simp only [Disjoint, pageSize, sizeOfOneSlab] at *
  omega

section

variable (h : Stocked hdr nf pg taken fr live)
include h

section

variable (hs : s ∈ taken)
include hs

theorem Stocked.disjoint
    (hs' : s' ∈ taken) (hne : s' ≠ s) : Disjoint s s' := h.apart s hs s' hs' hne.symm

theorem Stocked.mem_slots (ha : a ∈ fr s) : a ∈ slotsOf s (hdr s).order :=
  (h.slots s hs).mem_iff.mp (mem_append_left _ ha)

theorem Stocked.free_inSlab
    (ha : a ∈ fr s) : InSlab s a := (inSlab_of_mem (h.order s hs) (h.mem_slots hs ha)).1

theorem Stocked.live_mem_slots (ha : a ∈ live) (hin : InSlab s a) : a ∈ slotsOf s (hdr s).order :=
  (h.slots s hs).mem_iff.mp (mem_append_right _ (mem_filter.mpr ⟨ha, decide_eq_true hin⟩))

theorem Stocked.nodup_slots : (fr s ++ live.filter (InSlab s ·)).Nodup :=
  (h.slots s hs).nodup_iff.mpr (nodup_slotsOf s _)

theorem Stocked.free_not_live (ha : a ∈ fr s) : a ∉ live := by
  intro hl
  have hm : a ∈ live.filter (InSlab s ·) :=
    mem_filter.mpr ⟨hl, decide_eq_true (h.free_inSlab hs ha)⟩
  exact (nodup_append.mp (h.nodup_slots hs)).2.2 a ha a hm rfl

end

theorem Stocked.nodup_live : live.Nodup := by
  refine nodup_iff_count_le_one.mpr fun a => ?_
  by_cases ha : a ∈ live
  · obtain ⟨s, hs, hin⟩ := h.liveIn a ha
    have hnd := (nodup_append.mp (h.nodup_slots hs)).2.1
    have hcount := nodup_iff_count_le_one.mp hnd a
    rwa [count_filter (p := (InSlab s ·)) (decide_eq_true hin)] at hcount
  · simp [count_eq_zero_of_not_mem ha]

/-- The page of an address leads to its slab. -/
theorem Stocked.page_eq (hs : s ∈ taken) (hin : InSlab s a) : pg (a / pageSize) = s := by
  have halign := h.aligned s hs
  have hpage : a / pageSize = s / pageSize + (a / pageSize - s / pageSize) := by
    have := Nat.div_le_div_right (c := pageSize) hin.1
    omega
  rw [hpage]
  refine h.pages s hs _ ?_
  simp only [InSlab, pageSize, sizeOfOneSlab] at *
  omega

attribute [local simp] SlabHeader.withFree

/-- The free list and the objects of one slab change. -/
theorem Stocked.restock (hs : s ∈ taken)
    (hnf : ∀ x, ¬ InSlab s x → nf' x = nf x) (hchain : Chain nf' 0 head xs)
    (hperm : (xs ++ live'.filter (InSlab s ·)).Perm (fr s ++ live.filter (InSlab s ·)))
    (hother : ∀ s' ∈ taken, s' ≠ s → live'.filter (InSlab s' ·) = live.filter (InSlab s' ·))
    (hin : ∀ x ∈ live', ∃ s ∈ taken, InSlab s x) :
    Stocked (update hdr s ((hdr s).withFree head xs.length)) nf' pg taken
      (update fr s xs) live' := by
  have horder (x : ℕ) :
      (update hdr s ((hdr s).withFree head xs.length) x).order = (hdr x).order := by
    by_cases hx : x = s
    · subst hx
      simp
    · rw [update_of_ne hx]
  constructor
  case nodup => exact h.nodup
  case apart => exact h.apart
  case aligned => exact h.aligned
  case pages => exact h.pages
  case order =>
    intro x hx
    rw [horder]
    exact h.order x hx
  case total =>
    intro x hx
    rw [horder, ← h.total x hx]
    by_cases hxs : x = s
    · subst hxs
      simp
    · rw [update_of_ne hxs]
  case chain =>
    intro x hx
    by_cases hxs : x = s
    · subst hxs
      simpa using hchain
    · rw [update_of_ne hxs, update_of_ne hxs]
      refine (h.chain x hx).congr fun y hy => hnf y ?_
      exact (h.disjoint hx hs (Ne.symm hxs)).not_inSlab (h.free_inSlab hx hy)
  case cnt =>
    intro x hx
    by_cases hxs : x = s
    · subst hxs
      simp
    · rw [update_of_ne hxs, update_of_ne hxs]
      exact h.cnt x hx
  case slots =>
    intro x hx
    rw [horder]
    by_cases hxs : x = s
    · subst hxs
      rw [update_self]
      exact hperm.trans (h.slots x hx)
    · rw [update_of_ne hxs, hother x hx hxs]
      exact h.slots x hx
  case liveIn => exact hin

theorem Stocked.take (hs : s ∈ taken) (hfr : fr s = a :: xs) :
    Stocked (update hdr s ((hdr s).withFree (nf a) xs.length)) nf pg taken
      (update fr s xs) (a :: live) := by
  have hmem : a ∈ fr s := hfr ▸ mem_cons_self
  have hin := h.free_inSlab hs hmem
  have hchain := h.chain s hs
  rw [hfr] at hchain
  refine h.restock hs (fun _ _ => rfl) hchain.2.2 ?_ (fun s' hs' hne => ?_) fun x hx => ?_
  · rw [filter_cons_of_pos (by simpa using hin), hfr]
    exact perm_middle
  · have hout := (h.disjoint hs hs' hne).not_inSlab hin
    rw [filter_cons_of_neg (by simpa using hout)]
  · cases mem_cons.mp hx with
    | inl hxa => exact ⟨s, hs, hxa ▸ hin⟩
    | inr hx => exact h.liveIn x hx

theorem Stocked.put (hs : s ∈ taken) (ha : a ∈ live) (hin : InSlab s a) :
    Stocked (update hdr s ((hdr s).withFree a (a :: fr s).length))
      (update nf a (hdr s).freeListHead) pg taken (update fr s (a :: fr s))
      (live.erase a) := by
  have hfree : a ∉ fr s := fun hm => h.free_not_live hs hm ha
  have hne : a ≠ 0 := by
    have := (inSlab_of_mem (h.order s hs) (h.live_mem_slots hs ha hin)).2
    omega
  have hmem : a ∈ live.filter (InSlab s ·) := mem_filter.mpr ⟨ha, decide_eq_true hin⟩
  refine h.restock hs (fun x hx => update_of_ne ?_ _ _)
    ((h.chain s hs).push hfree hne) ?_ (fun s' hs' hss => ?_) fun x hx => ?_
  · rintro rfl
    exact hx hin
  · rw [← erase_filter, cons_append]
    exact perm_middle.symm.trans ((perm_cons_erase hmem).symm.append_left (fr s))
  · have hout := (h.disjoint hs hs' hss).not_inSlab hin
    rw [← erase_filter, erase_of_not_mem]
    simp [hout]
  · exact h.liveIn x (mem_of_mem_erase hx)

theorem Stocked.use (ha : a ∈ live) (v : ℕ) : Stocked hdr (update nf a v) pg taken fr live := by
  refine { h with chain := fun s hs => ?_ }
  exact (h.chain s hs).update (fun hm => h.free_not_live hs hm ha) v

theorem Stocked.filter_live_eq_nil (hs : s ∈ taken)
    (hall : (fr s).length = slotCount (hdr s).order) : live.filter (InSlab s ·) = [] := by
  have hlen := (h.slots s hs).length_eq
  rw [length_append, length_slotsOf] at hlen
  exact eq_nil_of_length_eq_zero (by omega)

theorem Stocked.add (halign : pageSize ∣ s)
    (hdis : ∀ s' ∈ taken, Disjoint s s') (hv : ValidOrder hd.order)
    (htotal : hd.totalFreeCnt = slotCount hd.order)
    (hcnt : hd.currentFreeCnt = slotCount hd.order)
    (hnf : ∀ x, x ∉ slotsOf s hd.order → nf' x = nf x)
    (hchain : Chain nf' 0 hd.freeListHead (slotsOf s hd.order))
    (hpg : ∀ i < sizeOfOneSlab / pageSize, pg' (s / pageSize + i) = s)
    (hpg' : ∀ p, (∀ i < sizeOfOneSlab / pageSize, p ≠ s / pageSize + i) → pg' p = pg p) :
    Stocked (update hdr s hd) nf' pg' (s :: taken) (update fr s (slotsOf s hd.order)) live := by
  have hself : ¬ Disjoint s s := by simp [Disjoint, sizeOfOneSlab]
  have hnew : s ∉ taken := fun hs => hself (hdis s hs)
  have hne {x : ℕ} (hx : x ∈ taken) : x ≠ s := fun he => hnew (he ▸ hx)
  -- what holds of the old slabs and of the new one holds of all
  have hboth {P : ℕ → Prop} (h1 : P s) (h2 : ∀ x ∈ taken, P x) : ∀ x ∈ s :: taken, P x := by
    intro x hx
    cases mem_cons.mp hx with
    | inl hxs => exact hxs ▸ h1
    | inr hx => exact h2 x hx
  have hsym {x : ℕ} (hx : Disjoint s x) : Disjoint x s := Or.symm hx
  have hhdr {x : ℕ} (hx : x ∈ taken) : update hdr s hd x = hdr x := update_of_ne (hne hx) _ _
  have hhd : update hdr s hd s = hd := update_self _ _ _
  constructor
  case nodup => exact nodup_cons.mpr ⟨hnew, h.nodup⟩
  case apart =>
    refine hboth (hboth (fun he => absurd rfl he) fun x hx _ => hdis x hx) fun x hx => ?_
    exact hboth (fun _ => hsym (hdis x hx)) (h.apart x hx)
  case aligned => exact hboth halign h.aligned
  case pages =>
    refine hboth hpg fun x hx i hi => ?_
    rw [hpg' _ fun j hj => (hsym (hdis x hx)).page_ne (h.aligned x hx) halign hi hj]
    exact h.pages x hx i hi
  case order => exact hboth (hhd.symm ▸ hv) fun x hx => (hhdr hx).symm ▸ h.order x hx
  case total => exact hboth (hhd.symm ▸ htotal) fun x hx => (hhdr hx).symm ▸ h.total x hx
  case chain =>
    refine hboth (by simpa using hchain) fun x hx => ?_
    rw [hhdr hx, update_of_ne (hne hx)]
    refine (h.chain x hx).congr fun y hy => hnf y fun hm => ?_
    exact (hsym (hdis x hx)).not_inSlab (h.free_inSlab hx hy) (inSlab_of_mem hv hm).1
  case cnt =>
    refine hboth (by simpa [length_slotsOf] using hcnt) fun x hx => ?_
    rw [hhdr hx, update_of_ne (hne hx)]
    exact h.cnt x hx
  case slots =>
    refine hboth ?_ fun x hx => ?_
    · have hnone : live.filter (InSlab s ·) = [] := by
        refine filter_eq_nil_iff.mpr fun a ha => ?_
        obtain ⟨x, hx, hin⟩ := h.liveIn a ha
        simpa using (hsym (hdis x hx)).not_inSlab hin
      rw [hnone, update_self, append_nil, hhd]
    · rw [hhdr hx, update_of_ne (hne hx)]
      exact h.slots x hx
  case liveIn =>
    intro a ha
    obtain ⟨x, hx, hin⟩ := h.liveIn a ha
    exact ⟨x, mem_cons_of_mem s hx, hin⟩

/-- A slab with all its slots free goes back to the page allocator. -/
theorem Stocked.remove (hs : s ∈ taken) (hall : (fr s).length = slotCount (hdr s).order)
    (hpg' : ∀ p, (∀ i < sizeOfOneSlab / pageSize, p ≠ s / pageSize + i) → pg' p = pg p) :
    Stocked hdr nf pg' (taken.erase s) fr live := by
  have hsub {x : ℕ} (hx : x ∈ taken.erase s) : x ∈ taken ∧ x ≠ s :=
    (h.nodup.mem_erase_iff.mp hx).symm
  constructor
  case nodup => exact h.nodup.erase s
  case apart => exact fun x hx y hy => h.apart x (hsub hx).1 y (hsub hy).1
  case aligned => exact fun x hx => h.aligned x (hsub hx).1
  case pages =>
    intro x hx i hi
    obtain ⟨hx, hne⟩ := hsub hx
    rw [hpg' _ fun j hj =>
      (h.disjoint hx hs hne.symm).page_ne (h.aligned x hx) (h.aligned s hs) hi hj]
    exact h.pages x hx i hi
  case order => exact fun x hx => h.order x (hsub hx).1
  case total => exact fun x hx => h.total x (hsub hx).1
  case chain => exact fun x hx => h.chain x (hsub hx).1
  case cnt => exact fun x hx => h.cnt x (hsub hx).1
  case slots => exact fun x hx => h.slots x (hsub hx).1
  case liveIn =>
    intro a ha
    obtain ⟨x, hx, hin⟩ := h.liveIn a ha
    refine ⟨x, h.nodup.mem_erase_iff.mpr ⟨?_, hx⟩, hin⟩
    rintro rfl
    have hm : a ∈ live.filter (InSlab x ·) := mem_filter.mpr ⟨ha, decide_eq_true hin⟩
    rw [h.filter_live_eq_nil hs hall] at hm
    exact absurd hm not_mem_nil

end

end Stock

end Starfish.Slab
