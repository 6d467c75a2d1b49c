import Starfish.Slab.Free

/-!
# Starfish.Slab.Runs

The slab allocators over whole runs: machines boot, allocate on any of their
CPUs, free objects of their own slabs and use the memory they were given, in
any order.  What the page allocator hands out for a new slab is arbitrary, as
long as it is no part of a slab.
-/

namespace Starfish.Slab

open Function (update update_of_ne)

open Prog List

variable {M mid : ℕ} {m : SlabMem} {k : PoolKey} {live : List ℕ}

/-! ## Initialization -/

/-- A pool as `init_cxl_slab` leaves it. -/
def Ready (m : SlabMem) (k : PoolKey) : Prop :=
  m.locks k = false ∧ m.currentSlab k = 0 ∧ ∀ l, HeadOf k l → m.links.next l = l ∧ m.links.prev l = l

theorem wp_initPool :
    wp (initPool k) (fun _ t => Ready t k ∧ (∀ j, Ready m j → Ready t j) ∧ t.taken = m.taken ∧
      t.cpuLogs = m.cpuLogs) (fun _ => True) m := by
  simp only [initPool, wp_bind, wp_store, wp_onLinks, wp_initListHead, true_and]
  have hself : ∀ l, HeadOf k l → update (update m.links.next (.partialList k)
      (.partialList k)) (.fullList k) (.fullList k) l = l ∧ update
      (update m.links.prev (.partialList k) (.partialList k)) (.fullList k)
      (.fullList k) l = l := by
    rintro l (rfl | rfl) <;> simp
  refine ⟨⟨by simp, by simp, hself⟩, fun j hj => ?_, rfl, rfl⟩
  by_cases hjk : j = k
  · subst hjk
    exact ⟨by simp, by simp, hself⟩
  · obtain ⟨h1, h2, h3⟩ := hj
    refine ⟨by simpa [update_of_ne hjk] using h1,
      by simpa [update_of_ne hjk] using h2, fun l hl => ?_⟩
    have hp : l ≠ .partialList k := fun he => hjk (hl.unique (.inl he)).symm
    have hf : l ≠ .fullList k := fun he => hjk (hl.unique (.inr he)).symm
    simpa [update_of_ne hp, update_of_ne hf] using h3 l hl

/-- `init_cxl_slab` makes the pools of its machine ready and closes its logs;
the other machines are not touched. -/
theorem wp_initCxlSlab : wp (initCxlSlab mid) (fun _ t => (∀ k, Ready m k → Ready t k) ∧
      (∀ k, k.machine = mid → k.cpu < platCpuNum → ValidOrder k.order → Ready t k) ∧
      t.taken = m.taken ∧ (∀ mid', mid' ≠ mid → t.cpuLogs mid' = m.cpuLogs mid') ∧
      ∀ cpu < platCpuNum, (t.cpuLogs mid cpu).op = .none) (fun _ => True) m := by
  refine wp_forUpTo (I := fun c t => (∀ k, Ready m k → Ready t k) ∧
      (∀ k, k.machine = mid → k.cpu < c → ValidOrder k.order → Ready t k) ∧
      t.taken = m.taken ∧ (∀ mid', mid' ≠ mid → t.cpuLogs mid' = m.cpuLogs mid') ∧
      ∀ cpu < c, (t.cpuLogs mid cpu).op = .none) ?_ fun c t _ ht => ?_
  · exact ⟨fun _ h => h, fun k _ hk => absurd hk (by omega), rfl, fun _ _ => rfl,
      fun c hc => absurd hc (by omega)⟩
  obtain ⟨hkeep, hdone, htaken, hlogs, hnone⟩ := ht
  rw [wp_bind]
  refine wp_post (wp_forFrom (I := fun o t' => (∀ k, Ready t k → Ready t' k) ∧
      (∀ o', slabMinOrder ≤ o' → o' < o → Ready t' ⟨mid, c, o'⟩) ∧ t'.taken = t.taken ∧
      t'.cpuLogs = t.cpuLogs) _ _ ?_ fun o t' _ _ ht' => ?_) fun _ t' ht' => ?_
  · exact ⟨fun _ h => h, fun o' h1 h2 => absurd h1 (by omega), rfl, rfl⟩
  · obtain ⟨hkeep', hdone', htaken', hlogs'⟩ := ht'
    refine wp_post wp_initPool fun _ t'' ht'' => ?_
    obtain ⟨hk, hkeep'', htaken'', hlogs''⟩ := ht''
    refine ⟨fun k h => hkeep'' k (hkeep' k h), fun o' h1 h2 => ?_, htaken''.trans htaken',
      hlogs''.trans hlogs'⟩
    by_cases ho : o' = o
    · exact ho ▸ hk
    · exact hkeep'' _ (hdone' o' h1 (by omega))
  · obtain ⟨hkeep', hdone', htaken', hlogs'⟩ := ht'
    refine wp_store.mpr ⟨trivial, fun k h => hkeep' k (hkeep k h), fun k hm hc ho => ?_,
      htaken'.trans htaken, fun mid' hne => ?_, fun cpu hcpu => ?_⟩
    · by_cases hkc : k.cpu = c
      · subst hm hkc
        exact hdone' k.order ho.1 (by have := ho.2; unfold slabMinOrder slabMaxOrder at *; omega)
      · exact hkeep' k (hdone k hm (by omega) ho)
    · rw [SlabMem.setCpuLog_cpuLogs, update_of_ne hne, hlogs', hlogs mid' hne]
    · by_cases hc : cpu = c
      · rw [hc, SlabMem.setCpuLog_self]
      · rw [SlabMem.setCpuLog_of_ne _ _ fun h => hc h.2, hlogs']
        exact hnone cpu (by omega)

/-- All machines of the cluster boot. -/
def bootSlabs (M : ℕ) : Prog SlabMem Unit := forUpTo M initCxlSlab

theorem wp_bootSlabs (h : m.taken = []) : wp (bootSlabs M) (fun _ t => t.taken = [] ∧ Unlocked M t ∧
      Inv M t (fun _ => []) (fun _ => []) []) (fun _ => True) m := by
  refine wp_post (wp_forUpTo (I := fun i t => t.taken = [] ∧
      (∀ k, ValidPool i k → Ready t k) ∧ NoLog i t) ?_ fun i t _ ht => ?_) fun _ t ht => ?_
  · exact ⟨h, fun k hk => absurd hk.1 (by omega), fun mid hmid => absurd hmid (by omega)⟩
  · obtain ⟨htaken, hready, hlog⟩ := ht
    refine wp_post wp_initCxlSlab fun _ t' ht' => ?_
    obtain ⟨hkeep, hnew, htaken', hlogs, hnone⟩ := ht'
    refine ⟨htaken'.trans htaken, fun k hk => ?_, fun mid hmid cpu hcpu => ?_⟩
    · by_cases hki : k.machine = i
      · exact hnew k hki hk.2.1 hk.2.2
      · exact hkeep k (hready k ⟨by have := hk.1; omega, hk.2⟩)
    · by_cases hmi : mid = i
      · exact hmi ▸ hnone cpu hcpu
      · rw [hlogs mid hmi]
        exact hlog mid (by omega) cpu hcpu
  · obtain ⟨htaken, hready, hlog⟩ := ht
    have hnil (k : PoolKey) (hk : ValidPool M k) : slabsOf t.currentSlab (fun _ => []) k = [] := by
      simp [slabsOf, (hready k hk).2.1]
    refine ⟨htaken, fun k hk => (hready k hk).1, ?_⟩
    constructor
    case fwd =>
      rintro l ⟨k, hk, hl⟩
      exact ((hready k hk).2.2 l hl).1
    case bwd =>
      rintro l ⟨k, hk, hl⟩
      exact ((hready k hk).2.2 l hl).2
    case placed =>
      constructor
      · exact fun k hk => by rw [hnil k hk]; exact nodup_nil
      · exact fun k hk s hs => by simp [hnil k hk] at hs
      · exact fun s hs => by simp [htaken] at hs
    case stocked => constructor <;> simp [htaken]
    case sorted => exact fun k hk => ⟨by simp, by simp, fun h0 => absurd (hready k hk).2.1 h0⟩
    case noLog => exact hlog

/-! ## Runs -/

/-- The machine that frees an object is the owner of its slab. -/
def OwnedBy (m : SlabMem) (a mid : ℕ) : Prop :=
  (m.header (m.pageSlab (a / pageSize))).ownerMachine = mid

/-- The memories that calls of the slab allocators reach, with the objects that
are handed out. -/
inductive Reachable (M : ℕ) : SlabMem → List ℕ → Prop
  | boot {m t : SlabMem} : m.taken = [] → (bootSlabs M).outcome m = .ok () t → Reachable M t []
  | alloc {m t : SlabMem} {live : List ℕ} {pages : Option ℕ} {mid cpu size r : ℕ} :
      Reachable M m live → mid < M → PagesOK m pages →
      (allocInCxlSlab pages mid cpu size).outcome m = .ok r t → Reachable M t (afterAlloc r live)
  | free {m t : SlabMem} {live : List ℕ} {a mid : ℕ} :
      Reachable M m live → a ∈ live → OwnedBy m a mid →
      (freeInCxlSlabLocal mid a).outcome m = .ok () t → Reachable M t (live.erase a)
  | use {m : SlabMem} {live : List ℕ} {a v : ℕ} :
      Reachable M m live → a ∈ live → Reachable M (m.setNextFree a v) live

variable {on : SlabNode → List ℕ} {fr : ℕ → List ℕ}

theorem Inv.use (h : Inv M m on fr live)
    (ha : a ∈ live) (v : ℕ) : Inv M (m.setNextFree a v) on fr live :=
  ⟨h.fwd, h.bwd, h.placed, h.stocked.use ha v, h.sorted, h.noLog⟩

/-- The slab of an object of machine `mid`. -/
theorem Inv.slab_of_live (h : Inv M m on fr live) (ha : a ∈ live) (hmid : OwnedBy m a mid) :
    ∃ s ∈ m.taken, InSlab s a ∧ (m.owner s).machine = mid := by
  obtain ⟨s, hs, hin⟩ := h.stocked.liveIn a ha
  rw [OwnedBy, h.stocked.page_eq hs hin] at hmid
  exact ⟨s, hs, hin, hmid⟩

variable {t : SlabMem}

/-- A call that returns was made with a size and on a CPU that exist. -/
theorem alloc_args (h : (allocInCxlSlab pages mid cpu size).outcome m = .ok r t) :
    size ≤ orderToSize slabMaxOrder ∧ cpu < platCpuNum := by
  have hwp : wp (allocInCxlSlab pages mid cpu size) (fun _ _ => True) (fun _ => True) m :=
    wp_of_outcome h trivial
  simp only [allocInCxlSlab, allocInCxlSlabImpl, wp_bind, wp_bugOn] at hwp
  omega

theorem Inv.alloc (h : Inv M m on fr live) (hfree : Unlocked M m)
    (hmid : mid < M) (hpages : PagesOK m pages)
    (ho : (allocInCxlSlab pages mid cpu size).outcome m = .ok r t) :
    Unlocked M t ∧ (r ≠ 0 → r ∉ live ∧ t.Holds ⟨mid, cpu, slabOrder size⟩ r) ∧
      ∃ on' fr', Inv M t on' fr' (afterAlloc r live) ∧
        Frame ⟨mid, cpu, slabOrder size⟩ (· ∈ live) m t on on' fr fr' := by
  obtain ⟨hsize, hcpu⟩ := alloc_args ho
  obtain ⟨r', hr, -, hwp⟩ := wp_allocInCxlSlab h hfree hmid hcpu hsize hpages
  obtain ⟨rfl, hfree', -, hholds, hinv⟩ := wlp_of_wp hwp _ _ ho
  exact ⟨hfree', fun h0 => ⟨hr h0, hholds h0⟩, hinv⟩

theorem Inv.free
    (h : Inv M m on fr live) (hfree : Unlocked M m) (ha : a ∈ live) (hmid : OwnedBy m a mid)
    (ho : (freeInCxlSlabLocal mid a).outcome m = .ok () t) :
    Unlocked M t ∧ ∃ k on' fr', k.machine = mid ∧ m.Holds k a ∧ Inv M t on' fr' (live.erase a) ∧
      Frame k (· ≠ a) m t on on' fr fr' := by
  obtain ⟨s, hs, hin, rfl⟩ := h.slab_of_live ha hmid
  obtain ⟨hfree', -, on', fr', hinv', hframe⟩ :=
    wlp_of_wp (wp_freeInCxlSlabLocal h hfree ha hs hin rfl) _ _ ho
  exact ⟨hfree', m.owner s, on', fr', rfl, ⟨s, hs, hin, rfl⟩, hinv', hframe⟩

theorem Reachable.inv (h : Reachable M m live) : Unlocked M m ∧ ∃ on fr, Inv M m on fr live := by
  induction h with
  | boot htaken ho =>
    obtain ⟨-, hfree, hinv⟩ := wlp_of_wp (wp_bootSlabs (M := M) htaken) _ _ ho
    exact ⟨hfree, _, _, hinv⟩
  | alloc _ hmid hpages ho ih =>
    obtain ⟨hfree, on, fr, hinv⟩ := ih
    obtain ⟨hfree', -, on', fr', hinv', -⟩ := hinv.alloc hfree hmid hpages ho
    exact ⟨hfree', on', fr', hinv'⟩
  | free _ ha hmid ho ih =>
    obtain ⟨hfree, on, fr, hinv⟩ := ih
    obtain ⟨hfree', -, on', fr', -, -, hinv', -⟩ := hinv.free hfree ha hmid ho
    exact ⟨hfree', on', fr', hinv'⟩
  | use _ ha ih =>
    obtain ⟨hfree, on, fr, hinv⟩ := ih
    exact ⟨hfree, on, fr, hinv.use ha _⟩

/-! ## What a walk over the memory sees -/

/-- The places of a pool that a slab can be in. -/
inductive Place where
  | current
  | partialList
  | fullList

/-- The nodes on a list, as a walk from its head meets them. -/
def nodesAt (m : SlabMem) (l : SlabNode) : Option (List SlabNode) :=
  walk m.links.next l (m.taken.length + 1) (m.links.next l)

/-- The slab `s` is at place `p` of pool `k`. -/
def At (m : SlabMem) (k : PoolKey) (s : ℕ) : Place → Prop
  | .current => m.currentSlab k = s
  | .partialList => ∃ ns, nodesAt m (.partialList k) = some ns ∧ .slab s ∈ ns
  | .fullList => ∃ ns, nodesAt m (.fullList k) = some ns ∧ .slab s ∈ ns

/-- Every slot and every slab is accounted for. -/
structure Accounted (M : ℕ) (m : SlabMem) (live : List ℕ) : Prop where
  /-- The counter is the length of the free list, and the free slots and the
  objects handed out are the slots behind the header. -/
  counted : ∀ s ∈ m.taken, ∃ fs,
    follow m.nextFree 0 (2 ^ 16) (m.header s).freeListHead = some fs ∧
    (m.header s).currentFreeCnt = fs.length ∧
    (fs ++ live.filter (InSlab s ·)).Perm (slotsOf s (m.header s).order)
  /-- A slab is in one place of its own pool and in no other place. -/
  placed : ∀ s ∈ m.taken, ValidPool M (m.owner s) ∧ ∃ p, At m (m.owner s) s p ∧
    ∀ k p', ValidPool M k → At m k s p' → k = m.owner s ∧ p' = p
  /-- The lists are finite and meet no slab twice. -/
  listed : ∀ l, IsHead M l → ∃ ns, nodesAt m l = some ns ∧ ns.Nodup
  full : ∀ s ∈ m.taken, At m (m.owner s) s .fullList ↔ (m.header s).currentFreeCnt = 0
  /-- No slab that went back to the page allocator is in a pool. -/
  kept : ∀ k, ValidPool M k → ∀ s p, s ≠ 0 → At m k s p → s ∈ m.taken
  nodup_live : live.Nodup
  live_slot : ∀ a ∈ live, ∃ s ∈ m.taken, a ∈ slotsOf s (m.header s).order

section walks

variable {on : SlabNode → List ℕ} {k : PoolKey}
  {own : ℕ → PoolKey} {T : ℕ → Prop}

section

variable (hF : SlabFwds M m.links on) (hp : Placed M (slabsOf m.currentSlab on) own T)
  (hT : ∀ x, T x → x ∈ m.taken) (hk : ValidPool M k)
include hF hp hT hk

theorem nodesAt_eq (hl : HeadOf k l) : nodesAt m l = some (nodesOn on l) := by
  refine walk_eq_of_path (hF l ⟨k, hk, hl⟩) (hp.apart.head_notMem ⟨k, hk, hl⟩) ?_
  have hnd : (on l).Nodup := (hp.nodup k hk).sublist hl.sublist
  have hsub : on l ⊆ m.taken := fun s hs => hT s (hp.owned k hk s (hl.sublist.subset hs)).1
  have hlen := (hnd.subperm hsub).length_le
  simp only [nodesOn, length_map]
  omega

/-- Each place of a pool in terms of what the lists hold. -/
theorem at_iff (p : Place) :
    At m k s p ↔ match p with
      | .current => m.currentSlab k = s
      | .partialList => s ∈ on (.partialList k)
      | .fullList => s ∈ on (.fullList k) := by
  cases p with
  | current => exact Iff.rfl
  | partialList => simp [At, nodesAt_eq hF hp hT hk (.inl rfl), nodesOn]
  | fullList => simp [At, nodesAt_eq hF hp hT hk (.inr rfl), nodesOn]

theorem mem_slabsOf_of_at (hs : s ≠ 0) (hat : At m k s p) : s ∈ slabsOf m.currentSlab on k := by
  rw [at_iff hF hp hT hk] at hat
  rw [mem_slabsOf]
  cases p with
  | current => exact .inl ⟨hat.symm, hs⟩
  | partialList => exact .inr (.inl hat)
  | fullList => exact .inr (.inr hat)

end

theorem Inv.at_iff (h : Inv M m on fr live) (hk : ValidPool M k) (p : Place) :
    At m k s p ↔ match p with
      | .current => m.currentSlab k = s
      | .partialList => s ∈ on (.partialList k)
      | .fullList => s ∈ on (.fullList k) := Slab.at_iff h.fwd h.placed (fun _ hx => hx) hk p

theorem Inv.at_unique (h : Inv M m on fr live) (hk : ValidPool M k) (hs : s ≠ 0)
    (hp : At m k s p) (hp' : At m k s p') : p' = p := by
  have hnd := h.placed.nodup k hk
  rw [h.at_iff hk] at hp hp'
  have hcur : m.currentSlab k = s → s ∉ on (.partialList k) ∧ s ∉ on (.fullList k) := by
    rintro rfl
    simp only [slabsOf, hs, if_false, cons_append, nil_append, nodup_cons,
      mem_append, not_or] at hnd
    exact hnd.1
  have hlists : s ∈ on (.partialList k) → s ∉ on (.fullList k) := fun h1 h2 =>
    (nodup_append.mp (nodup_append.mp hnd).2.1).2.2 s h1 s h2 rfl
  cases p <;> cases p' <;> simp_all

theorem Inv.accounted (h : Inv M m on fr live) : Accounted M m live := by
  have hst := h.stocked
  constructor
  case counted =>
    intro s hs
    refine ⟨fr s, (hst.chain s hs).follow_eq ?_, hst.cnt s hs, hst.slots s hs⟩
    have hlen := (hst.slots s hs).length_eq
    rw [length_append, length_slotsOf] at hlen
    have := (slot_facts (hst.order s hs)).2.2.1
    omega
  case placed =>
    intro s hs
    obtain ⟨hs0, hv, hm⟩ := h.placed.all s hs
    obtain ⟨p, hp⟩ : ∃ p, At m (m.owner s) s p := by
      rw [mem_slabsOf] at hm
      obtain ⟨hc, -⟩ | hp | hf := hm
      · exact ⟨.current, hc.symm⟩
      · exact ⟨.partialList, (h.at_iff hv .partialList).mpr hp⟩
      · exact ⟨.fullList, (h.at_iff hv .fullList).mpr hf⟩
    refine ⟨hv, p, hp, fun k p' hk hp' => ?_⟩
    have hm' := mem_slabsOf_of_at h.fwd h.placed (fun _ hx => hx) hk hs0 hp'
    obtain rfl : k = m.owner s := (h.placed.owned k hk s hm').2.symm
    exact ⟨rfl, h.at_unique hv hs0 hp hp'⟩
  case listed =>
    rintro l ⟨k, hk, hl⟩
    have hA := h.placed.apart
    exact ⟨_, nodesAt_eq h.fwd h.placed (fun _ hx => hx) hk hl,
      (nodup_cons.mp (hA.nodup l ⟨k, hk, hl⟩)).2⟩
  case full =>
    intro s hs
    obtain ⟨hs0, hv, hm⟩ := h.placed.all s hs
    rw [h.at_iff hv, hst.cnt s hs, length_eq_zero_iff]
    obtain ⟨h1, h2, h3⟩ := h.sorted _ hv
    refine ⟨h1 s, fun hfr => ?_⟩
    rw [mem_slabsOf] at hm
    obtain ⟨hc, -⟩ | hp | hf := hm
    · exact absurd hfr (hc ▸ h3 (hc ▸ hs0))
    · exact absurd hfr (h2 s hp)
    · exact hf
  case kept =>
    intro k hk s p hs hp
    exact (h.placed.owned k hk s (mem_slabsOf_of_at h.fwd h.placed (fun _ hx => hx) hk hs hp)).1
  case nodup_live => exact hst.nodup_live
  case live_slot =>
    intro a ha
    obtain ⟨s, hs, hin⟩ := hst.liveIn a ha
    exact ⟨s, hs, hst.live_mem_slots hs ha hin⟩

end walks

/-! ## The main result -/

/-- In every reachable memory the slots and slabs are accounted for; every
allocation returns, with a slot that was not handed out or with nothing when
the page allocator has nothing; every free returns, and it gives a slab back
only when none of its slots is handed out any more. -/
theorem slabs_accounted (h : Reachable M m live) :
    Accounted M m live ∧
    (∀ pages mid cpu size, mid < M → cpu < platCpuNum → size ≤ orderToSize slabMaxOrder →
      PagesOK m pages → ∃ r t, (allocInCxlSlab pages mid cpu size).outcome m = .ok r t ∧
        (r ≠ 0 → r ∉ live) ∧ (r = 0 → pages = none) ∧ m.taken ⊆ t.taken) ∧
    (∀ a mid, a ∈ live → OwnedBy m a mid → ∃ t, (freeInCxlSlabLocal mid a).outcome m = .ok () t ∧
      t.taken ⊆ m.taken ∧ ∀ s ∈ m.taken, s ∉ t.taken → ∀ x ∈ live.erase a, ¬ InSlab s x) := by
  obtain ⟨hfree, on, fr, hinv⟩ := h.inv
  refine ⟨hinv.accounted, fun pages mid cpu size hmid hcpu hsize hpages => ?_,
    fun a mid ha hmid => ?_⟩
  · obtain ⟨r, hr, hr0, hwp⟩ := wp_allocInCxlSlab hinv hfree hmid hcpu hsize hpages
    obtain ⟨r', t, ho, rfl, -, htaken, -⟩ := wp_outcome hwp
    refine ⟨r', t, ho, hr, hr0, ?_⟩
    obtain htaken | ⟨p, -, htaken⟩ := htaken
    · exact fun s hs => htaken ▸ hs
    · exact fun s hs => htaken ▸ mem_cons_of_mem p hs
  · obtain ⟨s, hs, hin, rfl⟩ := hinv.slab_of_live ha hmid
    obtain ⟨_, t, ho, -, htaken, -⟩ := wp_outcome (wp_freeInCxlSlabLocal hinv hfree ha hs hin rfl)
    refine ⟨t, ho, ?_⟩
    obtain htaken | ⟨htaken, hnone⟩ := htaken
    · exact ⟨fun x hx => htaken ▸ hx, fun x hx hx' => absurd (htaken ▸ hx) hx'⟩
    · refine ⟨fun x hx => mem_of_mem_erase (htaken ▸ hx), fun x hx hx' y hy hxy => ?_⟩
      -- the only slab that left is the one of the object
      have hxs : x = s := by
        by_contra hne
        exact hx' (htaken ▸ (mem_erase_of_ne hne).mpr hx)
      have hm : y ∈ (live.erase a).filter (InSlab s ·) :=
        mem_filter.mpr ⟨hy, decide_eq_true (hxs ▸ hxy)⟩
      rw [hnone] at hm
      exact absurd hm not_mem_nil

theorem Reachable.alloc_pages (h : Reachable M m live) (hmid : mid < M)
    (hcpu : cpu < platCpuNum) (hsize : size ≤ orderToSize slabMaxOrder)
    (hpages : PagesOK m (some p)) :
    ∃ r t, r ≠ 0 ∧ Reachable M t (r :: live) ∧ t.Holds ⟨mid, cpu, slabOrder size⟩ r ∧
      (t.taken = m.taken ∨ t.taken = p :: m.taken) ∧
      ∀ j a, j ≠ ⟨mid, cpu, slabOrder size⟩ → m.Holds j a → t.Holds j a := by
  obtain ⟨hfree, on, fr, hinv⟩ := h.inv
  obtain ⟨r, -, hr0, hwp⟩ := wp_allocInCxlSlab hinv hfree hmid hcpu hsize hpages
  obtain ⟨r', t, ho, rfl, -, htaken, hholds, on', fr', -, hframe⟩ := wp_outcome hwp
  have hne : r' ≠ 0 := fun h0 => absurd (hr0 h0) (by simp)
  have hreach := h.alloc hmid hpages ho
  rw [afterAlloc_of_ne hne] at hreach
  have htaken' : t.taken = m.taken ∨ t.taken = p :: m.taken := by
    obtain ht | ⟨q, hq, ht⟩ := htaken
    · exact .inl ht
    · obtain rfl : p = q := by simpa using hq
      exact .inr ht
  refine ⟨r', t, hne, hreach, hholds hne, htaken', fun j a hj hja => ?_⟩
  obtain ⟨s, hs, hin, hown⟩ := hja
  exact ⟨s, hframe.taken s hs (hown ▸ hj), hin, (hframe.owner s hs).trans hown⟩

/-- Memory full of zeros. -/
def zeroMem : SlabMem where
  header := fun _ => ⟨0, 0, 0, 0, 0, 0⟩
  links := ⟨fun _ => .collect, fun _ => .collect⟩
  nextFree := fun _ => 0
  pageSlab := fun _ => 0
  currentSlab := fun _ => 0
  locks := fun _ => false
  cpuLogs := fun _ _ => ⟨.none, 0, 0, 0⟩
  taken := []

theorem reachable_booted (M : ℕ) : ∃ m, Reachable M m [] ∧ m.taken = [] := by
  obtain ⟨_, t, ho, htaken, -⟩ := wp_outcome (wp_bootSlabs (M := M) (m := zeroMem) rfl)
  exact ⟨t, .boot rfl ho, htaken⟩

theorem pagesOK_of_nil (h : m.taken = []) (hp : p ≠ 0) (ha : pageSize ∣ p) :
    PagesOK m (some p) := by
  rintro _ ⟨⟩
  exact ⟨hp, ha, by simp [h]⟩

/-- Two machines boot, and CPU 3 of the second one allocates 48 bytes. -/
theorem reachable_one_object : ∃ m a, a ≠ 0 ∧ Reachable 2 m [a] := by
  obtain ⟨m, hm, htaken⟩ := reachable_booted 2
  obtain ⟨a, t, ha, ht, -⟩ := hm.alloc_pages (show 1 < 2 by decide) (show 3 < platCpuNum by decide)
    (show 48 ≤ orderToSize slabMaxOrder by decide)
    (pagesOK_of_nil htaken (show 0x200000 ≠ 0 by decide) (by decide))
  exact ⟨t, a, ha, ht⟩

theorem slabs_accounted_one_object : ∃ m a, a ≠ 0 ∧ Reachable 2 m [a] ∧ Accounted 2 m [a] := by
  obtain ⟨m, a, ha, h⟩ := reachable_one_object
  exact ⟨m, a, ha, h, (slabs_accounted h).1⟩

end Starfish.Slab
