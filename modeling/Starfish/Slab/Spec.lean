import Starfish.Slab.Invariant

/-!
# Starfish.Slab.Spec

What a call leaves alone, and one rule for each function of the slab allocator
that the calls share: the log record, the lists of slabs and the choice of a new
current slab.
-/

namespace Starfish.Slab

open Function (update update_eq_self update_idem update_of_ne update_self)
open Prog SlabMem

attribute [local simp] SlabHeader.withFree Links.listEmpty nodesOn

/-! ## What a call leaves alone -/

/-- The lists of the other pools are the same. -/
def SameLists (k : PoolKey) (on on' : SlabNode → List ℕ) : Prop :=
  ∀ l, ¬ HeadOf k l → on' l = on l

theorem SameLists.update (hl : HeadOf k l) : SameLists k on (update on l ss) := by
  intro j hj
  have hne : j ≠ l := fun he => hj (he ▸ hl)
  rw [update_of_ne hne]

theorem SameLists.trans (h : SameLists k on on')
    (h' : SameLists k on' on'') : SameLists k on on'' :=
  fun l hl => (h' l hl).trans (h l hl)

/-- What a call on pool `k` leaves alone: the slabs and lists of the other pools,
the owners of all slabs, and the objects `kept`, whose contents belong to the
callers. -/
structure Frame (k : PoolKey) (kept : ℕ → Prop) (m t : SlabMem) (on on' : SlabNode → List ℕ)
    (fr fr' : ℕ → List ℕ) : Prop where
  owner : ∀ s ∈ m.taken, t.owner s = m.owner s
  header : ∀ s ∈ m.taken, m.owner s ≠ k → t.header s = m.header s
  free : ∀ s ∈ m.taken, m.owner s ≠ k → fr' s = fr s
  taken : ∀ s ∈ m.taken, m.owner s ≠ k → s ∈ t.taken
  current : ∀ j, j ≠ k → t.currentSlab j = m.currentSlab j
  lists : SameLists k on on'
  contents : ∀ x, kept x → t.nextFree x = m.nextFree x

section frames

theorem Frame.refl (k : PoolKey) (kept : ℕ → Prop) (m : SlabMem) (on : SlabNode → List ℕ)
    (fr : ℕ → List ℕ) : Frame k kept m m on on fr fr :=
  ⟨fun _ _ => rfl, fun _ _ _ => rfl, fun _ _ _ => rfl, fun _ hs _ => hs, fun _ _ => rfl,
    fun _ _ => rfl, fun _ _ => rfl⟩

theorem Frame.trans (h : Frame k kept m m' on on' fr fr')
    (h' : Frame k kept m' t on' on'' fr' fr'') (hsub : m.taken ⊆ m'.taken) :
    Frame k kept m t on on'' fr fr'' where
  owner := fun s hs => (h'.owner s (hsub hs)).trans (h.owner s hs)
  header := fun s hs hk =>
    (h'.header s (hsub hs) (h.owner s hs ▸ hk)).trans (h.header s hs hk)
  free := fun s hs hk => (h'.free s (hsub hs) (h.owner s hs ▸ hk)).trans (h.free s hs hk)
  taken := fun s hs hk => h'.taken s (hsub hs) (h.owner s hs ▸ hk)
  current := fun j hj => (h'.current j hj).trans (h.current j hj)
  lists := h.lists.trans h'.lists
  contents := fun x hx => (h'.contents x hx).trans (h.contents x hx)

theorem Frame.mono (h : Frame k kept m t on on' fr fr') (hk : ∀ x, kept' x → kept x) :
    Frame k kept' m t on on' fr fr' :=
  ⟨h.owner, h.header, h.free, h.taken, h.current, h.lists, fun x hx => h.contents x (hk x hx)⟩

/-- Locks are no part of what a frame speaks of. -/
theorem Frame.setLock_right (h : Frame k kept m t on on' fr fr') :
    Frame k kept m (t.setLock j b) on on' fr fr' :=
  ⟨h.owner, h.header, h.free, h.taken, h.current, h.lists, h.contents⟩

theorem Frame.of_setLock_left
    (h : Frame k kept (m.setLock j b) t on on' fr fr') : Frame k kept m t on on' fr fr' :=
  ⟨h.owner, h.header, h.free, h.taken, h.current, h.lists, h.contents⟩

end frames

/-! ## Small facts about the memory -/

namespace SlabMem

variable (m : SlabMem)

/-- The two stores to a header that change its free list, as one. -/
@[simps! -fullyApplied header links nextFree pageSlab currentSlab locks cpuLogs taken]
def setFree (s head cnt : ℕ) : SlabMem := m.setHeader s ((m.header s).withFree head cnt)

theorem setHeader_freeListHead (s v : ℕ) : m.setHeader s { m.header s with freeListHead := v } =
      m.setFree s v (m.header s).currentFreeCnt := rfl

theorem setHeader_currentFreeCnt (s c : ℕ) : m.setHeader s { m.header s with currentFreeCnt := c } =
      m.setFree s (m.header s).freeListHead c := rfl

@[simp] theorem setFree_setFree (s head cnt head' cnt' : ℕ) :
    (m.setFree s head cnt).setFree s head' cnt' = m.setFree s head' cnt' := by
  simp [setFree, setHeader]

@[simp] theorem owner_setFree (s head cnt : ℕ) : (m.setFree s head cnt).owner = m.owner := by
  funext x
  by_cases h : x = s
  · subst h
    simp [owner]
  · simp [owner, update_of_ne h]

@[simp] theorem owner_setCpuLog (mid cpu : ℕ) (log : SlabCpuLog) :
    (m.setCpuLog mid cpu log).owner = m.owner := rfl

@[simp] theorem setCpuLog_self (mid cpu : ℕ) (log : SlabCpuLog) :
    (m.setCpuLog mid cpu log).cpuLogs mid cpu = log := by simp

@[simp] theorem setCpuLog_setCpuLog (mid cpu : ℕ) (log log' : SlabCpuLog) :
    (m.setCpuLog mid cpu log).setCpuLog mid cpu log' = m.setCpuLog mid cpu log' := by
  simp [setCpuLog]

/-- The other log records are untouched. -/
theorem setCpuLog_of_ne (log : SlabCpuLog) (h : ¬ (mid' = mid ∧ cpu' = cpu)) :
    (m.setCpuLog mid cpu log).cpuLogs mid' cpu' = m.cpuLogs mid' cpu' := by
  by_cases hm : mid' = mid
  · subst hm
    have hc : cpu' ≠ cpu := fun hc => h ⟨rfl, hc⟩
    simp [update_of_ne hc]
  · simp [update_of_ne hm]

end SlabMem

variable {op : SlabOp}

theorem wp_onLinks {α : Type} {c : Prog (Links SlabNode) α} {Q : α → SlabMem → Prop}
    {C : SlabMem → Prop} :
    wp (onLinks c) Q C m ↔
      wp c (fun a L => Q a (m.setLinks L)) (fun L => C (m.setLinks L)) m.links :=
  wp_zoom (fun _ _ => rfl) (fun _ _ _ => rfl) fun _ => rfl

section rules

variable {M s : ℕ} {m : SlabMem} {k : PoolKey} {l : SlabNode} {on : SlabNode → List ℕ}
  {fr : ℕ → List ℕ} {T : ℕ → Prop} {own : ℕ → PoolKey}
  {Q : Unit → SlabMem → Prop}

/-! ## The log -/

/-- The four stores that fill and open the record. -/
theorem wp_slabLogBegin : wp (slabLogBegin mid cpu s op) Q (fun _ => True) m ↔
    Q () (m.setCpuLog mid cpu ⟨op, (m.header s).currentFreeCnt, s, (m.header s).freeListHead⟩) := by
  simp only [slabLogBegin, wp_bind, wp_store, setCpuLog_setCpuLog, setCpuLog_self, setCpuLog_header,
    true_and]

theorem only_setCpuLog (h : NoLog M m) (log : SlabCpuLog) (mid' : ℕ) (hmid : mid' < M) (cpu' : ℕ)
    (hcpu : cpu' < platCpuNum) (hop : ((m.setCpuLog mid cpu log).cpuLogs mid' cpu').op ≠ .none) :
    mid' = mid ∧ cpu' = cpu := by
  by_contra hne
  rw [m.setCpuLog_of_ne log hne] at hop
  exact hop (h mid' hmid cpu' hcpu)

/-! ## Lists of slabs -/

section

variable (hA : Apart id (IsHead M) (nodesOn on)) (hF : SlabFwds M m.links on)
  (hB : SlabBwds M m.links on) (hk : ValidPool M k) (hl : HeadOf k l)
include hA hF hB hk hl

theorem wp_listDel_slab (hon : on l = as ++ s :: bs)
    (hQ : ∀ L, SlabFwds M L (update on l (as ++ bs)) →
      SlabBwds M L (update on l (as ++ bs)) → Q () (m.setLinks L)) :
    wp (onLinks (listDel (.slab s))) Q (fun _ => True) m := by
  have hxs : nodesOn on l = as.map .slab ++ .slab s :: bs.map .slab := by simp [hon]
  simp only [SlabFwds, SlabBwds, nodesOn_update, List.map_append] at hQ
  rw [wp_onLinks]
  exact wp_listDel_at hA hF hB ⟨k, hk, hl⟩ hxs (fun _ _ _ _ _ => trivial)
    fun L h1 h2 => ⟨trivial, hQ L h1 h2⟩

theorem wp_listAppend_slab (hs : Fresh id (IsHead M) (nodesOn on) (.slab s))
    (hQ : ∀ L, SlabFwds M L (update on l (on l ++ [s])) → SlabBwds M L (update on l (on l ++ [s])) →
      Q () (m.setLinks L)) :
    wp (onLinks (listAppend (.slab s) l)) Q (fun _ => True) m := by
  simp only [SlabFwds, SlabBwds, nodesOn_update, List.map_append] at hQ
  rw [wp_onLinks]
  exact wp_listAppend hA hF hB ⟨k, hk, hl⟩ hs (fun _ _ _ => trivial) (fun _ _ _ => trivial)
    fun L h1 h2 => ⟨trivial, hQ L h1 h2⟩

end

/-- `choose_new_current_slab` in a pool whose current slab has left. -/
theorem wp_chooseNewCurrentSlab (hF : SlabFwds M m.links on) (hB : SlabBwds M m.links on)
    (hp : Placed M (slabsOf (update m.currentSlab k 0) on) own T)
    (hs : Sorted M (update m.currentSlab k 0) on fr) (hk : ValidPool M k)
    (hQ : ∀ v L on', SlabFwds M L on' → SlabBwds M L on' →
      Placed M (slabsOf (update m.currentSlab k v) on') own T →
      Sorted M (update m.currentSlab k v) on' fr → SameLists k on on' →
      Q () ((m.setCurrentSlab k v).setLinks L)) :
    wp (chooseNewCurrentSlab k) Q (fun _ => True) m := by
  have hhead : IsHead M (.partialList k) := ⟨k, hk, .inl rfl⟩
  have hnext := (hF _ hhead).apply_start
  simp only [chooseNewCurrentSlab, wp_bind, wp_read, wp_ite]
  cases hon : on (.partialList k) with
  | nil =>
    have hempty : m.links.listEmpty (.partialList k) := by
      simpa [hon] using hnext
    refine ⟨fun _ => wp_store.mpr ⟨trivial, ?_⟩, fun hne => absurd hempty hne⟩
    exact hQ 0 m.links on hF hB hp hs fun _ _ => rfl
  | cons s' bs =>
    have hfirst : m.links.next (.partialList k) = .slab s' := by
      simpa [hon] using hnext
    have hs' : T s' ∧ own s' = k := hp.owned k hk s' (by simp [hon])
    have hs0 : s' ≠ 0 := (hp.all s' hs'.1).1
    have hon' : on (.partialList k) = [] ++ s' :: bs := hon
    have hrest := hp.erase_listed hk (.inl rfl) hon'
    have hp' := (hrest.insert_current hk (fun h => h.2 rfl) hs0 hs'.2).back hs'.1
    refine ⟨fun he => by simp [hfirst] at he, fun _ => ?_⟩
    simp only [hfirst, listEntry, wp_pure, wp_store]
    refine ⟨trivial, wp_listDel_slab hp.apart hF hB hk (.inl rfl) hon' fun L h1 h2 => ?_⟩
    refine hQ s' L _ h1 h2 hp' ?_ (.update (.inl rfl))
    have hs1 := hs.setCurrent (k := k) (v := s') fun _ => (hs k hk).2.1 s' (by simp [hon])
    rw [update_idem] at hs1
    exact hs1.setPartial fun x hx => .inl (hon ▸ List.mem_cons_of_mem s' hx)

end rules

/-! ## Locks and log records between two calls -/

section records

variable {M mid cpu : ℕ} {m : SlabMem} {on : SlabNode → List ℕ}
  {fr : ℕ → List ℕ} {live : List ℕ}

theorem wp_lock (hk : m.locks k = false) :
    wp (lock k) Q C m ↔ C (m.setLock k true) ∧ Q () (m.setLock k true) := by
  simp [lock, wp_await, hk]

variable {t : SlabMem}

theorem Unlocked.of_update (h : Unlocked M m)
    (ht : t.locks = update (m.setLock k true).locks k false) : Unlocked M t := by
  intro j hj
  rw [ht, setLock_locks, update_idem]
  by_cases hjk : j = k
  · rw [hjk, update_self]
  · rw [update_of_ne hjk]
    exact h j hj

theorem Inv.setLock (h : Inv M m on fr live) (k : PoolKey) (b : Bool) :
    Inv M (m.setLock k b) on fr live :=
  ⟨h.fwd, h.bwd, h.placed, h.stocked, h.sorted, h.noLog⟩

theorem noLog_slabLogEnd (h : ∀ mid' < M, ∀ cpu' < platCpuNum, (t.cpuLogs mid' cpu').op ≠ .none →
      mid' = mid ∧ cpu' = cpu) :
    NoLog M (t.setCpuLog mid cpu { t.cpuLogs mid cpu with op := .none }) := by
  intro mid' hmid cpu' hcpu
  by_cases he : mid' = mid ∧ cpu' = cpu
  · obtain ⟨rfl, rfl⟩ := he
    rw [setCpuLog_self]
  · rw [t.setCpuLog_of_ne _ he]
    by_contra hop
    exact he (h mid' hmid cpu' hcpu hop)

end records

end Starfish.Slab
