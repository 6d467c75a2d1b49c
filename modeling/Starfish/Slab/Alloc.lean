import Starfish.Slab.Spec

/-!
# Starfish.Slab.Alloc

Allocation: making a slab out of fresh pages, taking the first free slot of the
current slab, and moving a slab to the full list with its last slot.
-/

namespace Starfish.Slab

open Function (update update_eq_self update_idem update_of_ne update_self)
open Prog List SlabMem

/-! ## Making a slab -/

section make

variable {pages mid order cpu : ℕ}

/-- `n` pages from `base` on get the slab pointer `v`. -/
def stamp (pg : ℕ → ℕ) (base n v : ℕ) : ℕ → ℕ :=
  fun p => if base ≤ p ∧ p < base + n then v else pg p

theorem stamp_zero (pg : ℕ → ℕ) (base v : ℕ) : stamp pg base 0 v = pg := by
  funext p
  exact if_neg (by omega)

theorem stamp_succ (pg : ℕ → ℕ) (base n v : ℕ) :
    update (stamp pg base n v) (base + n) v = stamp pg base (n + 1) v := by
  funext p
  by_cases hp : p = base + n
  · subst hp
    simp [stamp]
  · simp only [update_of_ne hp, stamp]
    congr 1
    exact propext (by omega)

theorem stamp_out (h : ∀ i < n, p ≠ base + i) : stamp pg base n v p = pg p := by
  refine if_neg fun hp => h (p - base) (by omega) (by omega)

theorem wp_setOrClearSlabInPage {set : Bool} : wp (setOrClearSlabInPage pages set)
      (fun _ t => t = { m with
        pageSlab := stamp m.pageSlab (pages / pageSize) (sizeOfOneSlab / pageSize)
          (if set then pages else 0) })
      (fun _ => True) m := by
  have hnum : orderToSize (sizeToOrder (sizeOfOneSlab / pageSize)) = sizeOfOneSlab / pageSize := by
    decide
  rw [setOrClearSlabInPage, hnum]
  refine wp_forUpTo (I := fun i t => t = { m with
    pageSlab := stamp m.pageSlab (pages / pageSize) i (if set then pages else 0) }) ?_
    fun i t _ ht => ?_
  · rw [stamp_zero]
  · subst ht
    have hpage : (pages + i * pageSize) / pageSize = pages / pageSize + i :=
      Nat.add_mul_div_right _ _ (by decide)
    rw [wp_store, hpage]
    refine ⟨trivial, ?_⟩
    rw [← stamp_succ]
    rfl

/-- Slots that are linked one to the next are a chain. -/
theorem chain_of_linked (n slot : ℕ) (h0 : 0 < slot)
    (hlink : ∀ i < n, nf (slot + i * sz) = slot + i * sz + sz) (hlast : nf (slot + n * sz) = 0) :
    Chain nf 0 slot ((List.range (n + 1)).map fun i => slot + i * sz) := by
  induction n generalizing slot with
  | zero => simpa using ⟨by omega, by simpa using hlast⟩
  | succ n ih =>
    have hnext : nf slot = slot + sz := by simpa using hlink 0 (by omega)
    have hshift (i : ℕ) : slot + (i + 1) * sz = slot + sz + i * sz := by
      rw [Nat.add_mul, Nat.one_mul]
      omega
    have hrest := ih (slot + sz) (by omega)
      (fun i hi => by rw [← hshift]; exact hlink (i + 1) (by omega)) (by rwa [← hshift])
    rw [range_succ_eq_map, map_cons, map_map, chain_cons]
    refine ⟨by simp, by simp; omega, ?_⟩
    simpa [hnext, hshift, Function.comp_def] using hrest

theorem wp_linkSlots (hn : 0 < n) (h0 : 0 < slot) (hsz : 0 < sz) : wp (linkSlots sz slot n)
      (fun _ t => ∃ nf, t = { m with nextFree := nf } ∧
        (∀ x, (∀ i < n, x ≠ slot + i * sz) → nf x = m.nextFree x) ∧
        Chain nf 0 slot ((List.range n).map fun i => slot + i * sz))
      (fun _ => True) m := by
  have hinj {i j : ℕ} (h : slot + i * sz = slot + j * sz) : i = j :=
    Nat.eq_of_mul_eq_mul_right hsz (by omega)
  rw [linkSlots, wp_bind]
  refine wp_post (wp_forUpTo (I := fun i t => ∃ nf, t = { m with nextFree := nf } ∧
    (∀ x, (∀ i < n, x ≠ slot + i * sz) → nf x = m.nextFree x) ∧
    ∀ j < i, nf (slot + j * sz) = slot + j * sz + sz) ?_ fun i t hi ht => ?_) fun _ t ht => ?_
  · exact ⟨m.nextFree, rfl, fun _ _ => rfl, fun j hj => absurd hj (by omega)⟩
  · obtain ⟨nf, rfl, hout, hlink⟩ := ht
    refine wp_store.mpr ⟨trivial, _, rfl, fun x hx => ?_, fun j hj => ?_⟩
    · rw [update_of_ne (hx i (by omega))]
      exact hout x hx
    · by_cases hji : j = i
      · rw [hji, update_self]
      · rw [update_of_ne fun h => hji (hinj h)]
        exact hlink j (by omega)
  · obtain ⟨nf, rfl, hout, hlink⟩ := ht
    refine wp_store.mpr ⟨trivial, _, rfl, fun x hx => ?_, ?_⟩
    · rw [update_of_ne (hx (n - 1) (by omega))]
      exact hout x hx
    · obtain ⟨n, rfl⟩ : ∃ j, n = j + 1 := ⟨n - 1, by omega⟩
      refine chain_of_linked n slot h0 (fun i hi => ?_) ?_
      · rw [update_of_ne fun h => by have := hinj h; omega]
        exact hlink i hi
      · exact update_self _ _ _

theorem initSlabCache_none : initSlabCache none mid order cpu = pure 0 := rfl

/-- The header that `init_slab_cache` writes. -/
@[simp] def newHeader (pages mid order cpu : ℕ) : SlabHeader where
  freeListHead := pages + metaSlots order * orderToSize order
  order := order
  ownerCpu := cpu
  ownerMachine := mid
  totalFreeCnt := slotCount order
  currentFreeCnt := slotCount order

/-- `init_slab_cache` with the pages at `pages`. -/
theorem wp_initSlabCache (h0 : pages ≠ 0) (hv : ValidOrder order) :
    wp (initSlabCache (some pages) mid order cpu)
      (fun r t => r = pages ∧ ∃ nf, t = { m with
          header := update m.header pages (newHeader pages mid order cpu)
          nextFree := nf
          pageSlab := stamp m.pageSlab (pages / pageSize) (sizeOfOneSlab / pageSize) pages
          taken := pages :: m.taken } ∧
        (∀ x, x ∉ slotsOf pages order → nf x = m.nextFree x) ∧
        Chain nf 0 (newHeader pages mid order cpu).freeListHead (slotsOf pages order))
      (fun _ => True) m := by
  obtain ⟨hmeta, hlt, hsmall, -⟩ := slot_facts hv
  have hcnt : (totalSlots order - metaSlots order) % 2 ^ 16 = slotCount order :=
    Nat.mod_eq_of_lt hsmall
  rw [initSlabCache, wp_bind, allocSlabMemory, wp_bind, getCxlPages, wp_bind, wp_store]
  refine ⟨trivial, ?_⟩
  simp only [wp_pure, if_neg h0, wp_bind, wp_bugOn, wp_store, hcnt, true_and]
  refine wp_post wp_setOrClearSlabInPage fun _ t ht => ?_
  subst ht
  refine ⟨by omega, wp_post (wp_linkSlots (slotCount_pos hv) (by omega) (orderToSize_pos order))
    fun _ t ht => ?_⟩
  obtain ⟨nf, rfl, hout, hchain⟩ := ht
  refine ⟨nf, ?_, fun x hx => hout x fun i hi he => hx ?_, hchain⟩
  · simp [setHeader]
  · exact mem_map.mpr ⟨i, mem_range.mpr hi, he.symm⟩

end make

/-! ## Taking a slot -/

section calls

variable {M mid cpu order s a : ℕ} {m : SlabMem} {live : List ℕ}

/-- The current slab is replaced and goes to the full list. -/
theorem wp_retire (hF : SlabFwds M m.links on) (hB : SlabBwds M m.links on)
    (hp : Placed M (slabsOf m.currentSlab on) own (· ∈ m.taken)) (hk : ValidPool M k)
    (hs : m.currentSlab k = s) (hs0 : s ≠ 0)
    (hso : Sorted M (update m.currentSlab k 0) on fr) (hfr : fr s = [])
    (hQ : ∀ v L on', SlabFwds M L on' → SlabBwds M L on' →
      Placed M (slabsOf (update m.currentSlab k v) on') own (· ∈ m.taken) →
      Sorted M (update m.currentSlab k v) on' fr → SameLists k on on' →
      Q () ((m.setCurrentSlab k v).setLinks L)) :
    wp (do chooseNewCurrentSlab k; onLinks (listAppend (.slab s) (.fullList k))) Q (fun _ => True)
      m := by
  subst hs
  obtain ⟨hmem, howner⟩ := hp.owned k hk (m.currentSlab k) (by simp [hs0])
  have hp0 := hp.erase_current hk hs0
  rw [wp_bind]
  refine wp_chooseNewCurrentSlab hF hB hp0 hso hk fun v L on' h1 h2 hp' hs' hon => ?_
  refine wp_listAppend_slab hp'.apart h1 h2 hk (.inr rfl) (hp'.fresh fun h => h.2 rfl)
    fun L' h1 h2 => hQ v L' _ h1 h2 ?_ ?_ (hon.trans (.update (.inr rfl)))
  · exact (hp'.insert_listed hk (.inr rfl) (fun h => h.2 rfl) hs0 howner).back hmem
  · refine hs'.setFull fun x hx => ?_
    cases mem_append.mp hx with
    | inl hx => exact .inl hx
    | inr hx => exact .inr (mem_singleton.mp hx ▸ hfr)

theorem Inv.current_out (h : Inv M m on fr live) (hk : ValidPool M k) (h0 : m.currentSlab k ≠ 0)
    (j : PoolKey) (hj : ValidPool M j) :
    m.currentSlab k ∉ slabsOf (update m.currentSlab k 0) on j :=
  fun hm => ((h.placed.erase_current hk h0).owned j hj _ hm).1.2 rfl

theorem frame_setFree {head cnt : ℕ} (hs : m.owner s = k) (hon : SameLists k on on')
    (hcur : ∀ j, j ≠ k → t.currentSlab j = m.currentSlab j)
    (hhdr : t.header = (m.setFree s head cnt).header) (htaken : t.taken = m.taken)
    (hnf : ∀ x, kept x → t.nextFree x = m.nextFree x) :
    Frame k kept m t on on' fr (update fr s xs) where
  owner := fun x _ => by
    have howner : t.owner x = (m.setFree s head cnt).owner x := by simp [owner, hhdr]
    rw [howner, m.owner_setFree]
  header := fun x _ hx => by
    have hne : x ≠ s := fun he => hx (he ▸ hs)
    rw [hhdr, setFree_header, update_of_ne hne]
  free := fun x _ hx => by
    have hne : x ≠ s := fun he => hx (he ▸ hs)
    rw [update_of_ne hne]
  taken := fun x hx _ => htaken ▸ hx
  current := hcur
  lists := hon
  contents := hnf

theorem wp_takeSlot (h : Inv M m on fr live) (hk : ValidPool M k) (hs : m.currentSlab k = s)
    (hs0 : s ≠ 0) (ha : (m.header s).freeListHead = a) :
    a ∉ live ∧ a ≠ 0 ∧ s ∈ m.taken ∧ m.owner s = k ∧ InSlab s a ∧ wp (takeSlot k s)
        (fun r t => r = a ∧ t.taken = m.taken ∧ t.locks = update m.locks k false ∧
          ∃ on' fr', Inv M t on' fr' (a :: live) ∧ Frame k (fun _ => True) m t on on' fr fr')
        (fun _ => True) m := by
  subst hs
  set s := m.currentSlab k with hsdef
  obtain ⟨hmem, howner⟩ := h.placed.owned k hk s (by simp [← hsdef, hs0])
  have hst := h.stocked
  -- the current slab is not full
  obtain ⟨a', xs, hfr⟩ := exists_cons_of_ne_nil ((h.sorted k hk).2.2 hs0)
  have hchain := hst.chain s hmem
  rw [hfr, ha] at hchain
  obtain ⟨rfl, ha0, -⟩ := hchain
  have hcnt : (m.header s).currentFreeCnt = xs.length + 1 := by
    rw [hst.cnt s hmem, hfr, length_cons]
  have hsmall : xs.length + 1 < 2 ^ 16 := by
    have hlen := (hst.slots s hmem).length_eq
    rw [length_append, length_slotsOf, hfr, length_cons] at hlen
    have := (slot_facts (hst.order s hmem)).2.2.1
    omega
  have hdec : ((m.header s).currentFreeCnt + (2 ^ 16 - 1)) % 2 ^ 16 = xs.length := by omega
  have htake := hst.take hmem hfr
  have hin : InSlab s a := (inSlab_of_mem (hst.order s hmem) ((hst.slots s hmem).subset
    (mem_append_left _ (hfr ▸ mem_cons_self)))).1
  refine ⟨hst.free_not_live hmem (hfr ▸ mem_cons_self), ha0, hmem, howner, hin, ?_⟩
  simp only [takeSlot, wp_bind, wp_read, wp_bugOn, ha]
  refine ⟨ha0, wp_slabLogBegin.mpr ?_⟩
  simp only [wp_store, wp_when, setHeader_freeListHead, setHeader_currentFreeCnt, setFree_setFree]
  simp only [setCpuLog_header, setCpuLog_nextFree, setFree_header, update_self, hdec]
  set m₀ := m.setCpuLog k.machine k.cpu
    ⟨.alloc, (m.header s).currentFreeCnt, s, (m.header s).freeListHead⟩
  have hend (cur : PoolKey → ℕ) (L : Links SlabNode) (on' : SlabNode → List ℕ)
      (hF : SlabFwds M L on') (hB : SlabBwds M L on')
      (hp : Placed M (slabsOf cur on') m.owner (· ∈ m.taken))
      (hso : Sorted M cur on' (update fr s xs)) (hlists : SameLists k on on')
      (hcur : ∀ j, j ≠ k → cur j = m.currentSlab j) :
      ∀ t, t = { m₀.setFree s (m.nextFree a) xs.length with currentSlab := cur, links := L } →
      wp (slabLogEnd k.machine k.cpu) (fun _ t => wp (unlock k) (fun _ t => wp (pure a)
        (fun r t => r = a ∧ t.taken = m.taken ∧ t.locks = update m.locks k false ∧
          ∃ on' fr', Inv M t on' fr' (a :: live) ∧ Frame k (fun _ => True) m t on on' fr fr')
        (fun _ => True) t) (fun _ => True) t) (fun _ => True) t := by
    intro t ht
    have hinv : Inv M (t.setCpuLog k.machine k.cpu
        { t.cpuLogs k.machine k.cpu with op := .none }) on' (update fr s xs)
        (a :: live) := by
      subst ht
      refine ⟨hF, hB, ?_, htake, hso, noLog_slabLogEnd (only_setCpuLog h.noLog _)⟩
      rwa [← m.owner_setFree s (m.nextFree a) xs.length] at hp
    simp only [slabLogEnd, unlock, wp_store, wp_pure]
    refine ⟨trivial, trivial, trivial, ?_, ?_, _, _, hinv.setLock k false, ?_⟩
    · simp [ht, m₀]
    · simp [ht, m₀]
    · subst ht
      exact frame_setFree howner hlists hcur rfl rfl fun _ _ => rfl
  have hso : Sorted M (update m.currentSlab k 0) on (update fr s xs) :=
    (h.sorted.setCurrent fun h0 => absurd rfl h0).setFree (h.current_out hk hs0) xs
  refine ⟨trivial, trivial, fun hxs => ?_, fun hxs => ?_⟩
  · -- the last slot: the slab moves to the full list
    refine wp_retire (m := m₀.setFree s (m.nextFree a) xs.length) h.fwd h.bwd h.placed hk rfl hs0
      hso ?_ fun v L on' h1 h2 hp' hs' hon => ?_
    · rw [update_self]
      exact eq_nil_of_length_eq_zero hxs
    · refine hend _ L on' h1 h2 hp' hs' hon (fun j hj => ?_) _ rfl
      exact update_of_ne hj _ _
  · have hso' := hso.setCurrent (k := k) (v := s) fun _ => by
      rw [update_self]
      exact fun he => hxs (he ▸ rfl)
    rw [update_idem, hsdef, update_eq_self] at hso'
    exact hend _ _ on h.fwd h.bwd h.placed hso' (fun _ _ => rfl) (fun _ _ => rfl) _ rfl

/-- What the slab allocator may be given as pages: a slab's worth of them that
is in no slab. -/
def PagesOK (m : SlabMem) (pages : Option ℕ) : Prop :=
  ∀ p, pages = some p → p ≠ 0 ∧ pageSize ∣ p ∧ ∀ s ∈ m.taken, Disjoint p s

/-- The objects that are handed out when a call has returned `r`. -/
def afterAlloc (r : ℕ) (live : List ℕ) : List ℕ := if r = 0 then live else r :: live

theorem validOrder_slabOrder (h : size ≤ orderToSize slabMaxOrder) :
    ValidOrder (slabOrder size) := by
  have hmax : size ≤ 2 ^ 11 := h
  have horder : sizeToOrder size ≤ slabMaxOrder := by
    by_cases h0 : size = 0
    · subst h0
      decide
    · have hlog : size.log2 < 12 := (Nat.log2_lt h0).mpr (by omega)
      have hle : 2 ^ size.log2 ≤ size := Nat.log2_self_le h0
      simp only [sizeToOrder, slabMaxOrder, Nat.one_shiftLeft]
      -- only the largest size has logarithm 11, and it is not rounded up
      by_cases h11 : size.log2 = 11
      · rw [h11] at hle ⊢
        rw [if_neg (by omega)]
      · split <;> omega
  by_cases hlt : sizeToOrder size < slabMinOrder
  · simp only [slabOrder, if_pos hlt]
    exact ⟨Nat.le_refl slabMinOrder, by decide⟩
  · simp only [slabOrder, if_neg hlt]
    exact ⟨by omega, horder⟩

/-- The memory with a new current slab of pool `k`. -/
theorem Inv.newSlab (h : Inv M m on fr live) (hk : ValidPool M k)
    (hcur : m.currentSlab k = 0) (hp0 : p ≠ 0) (hpa : pageSize ∣ p)
    (hdis : ∀ s ∈ m.taken, Disjoint p s)
    (hout : ∀ x, x ∉ slotsOf p k.order → nf x = m.nextFree x)
    (hchain : Chain nf 0 (newHeader p k.machine k.order k.cpu).freeListHead (slotsOf p k.order)) :
    Inv M { m with
      header := update m.header p (newHeader p k.machine k.order k.cpu)
      nextFree := nf
      pageSlab := stamp m.pageSlab (p / pageSize) (sizeOfOneSlab / pageSize) p
      taken := p :: m.taken
      currentSlab := update m.currentSlab k p } on
      (update fr p (slotsOf p k.order)) live := by
  have hnew : p ∉ m.taken := fun hm => by
    have := hdis p hm
    simp [Disjoint, sizeOfOneSlab] at this
  have hv : ValidOrder k.order := hk.2.2
  have hcur0 : update m.currentSlab k 0 = m.currentSlab := by
    rw [← hcur, update_eq_self]
  have hdefault : Sorted M (update m.currentSlab k 0) on fr := hcur0.symm ▸ h.sorted
  constructor
  case fwd => exact h.fwd
  case bwd => exact h.bwd
  case placed =>
    have hown : ∀ s ∈ m.taken, owner { m with
        header := update m.header p (newHeader p k.machine k.order k.cpu) } s =
        m.owner s := by
      intro s hs
      have hne : s ≠ p := fun he => hnew (he ▸ hs)
      simp [owner, update_of_ne hne]
    have hp := h.placed.congr_own hown
    rw [← hcur0] at hp
    refine (hp.insert_current hk hnew hp0 ?_).congr fun x => by simp [or_comm]
    simp [owner]
  case stocked =>
    refine h.stocked.add hpa hdis hv rfl rfl hout hchain (fun i hi => if_pos (by omega))
      fun q hq => stamp_out hq
  case sorted =>
    have hso := (hdefault.setFree (s := p) (fun j hj hm => ?_) (slotsOf p k.order)).setCurrent
      (k := k) (v := p) fun _ => ?_
    · rwa [update_idem] at hso
    · rw [hcur0] at hm
      exact hnew (h.placed.owned j hj p hm).1
    · rw [update_self]
      intro he
      have := length_slotsOf p k.order
      rw [he, length_nil] at this
      exact absurd (slotCount_pos hv) (by omega)
  case noLog => exact h.noLog

theorem afterAlloc_of_ne (ha : a ≠ 0) : afterAlloc a live = a :: live := if_neg ha

/-- A new slab of pool `k` leaves everything else alone. -/
theorem Inv.frame_newSlab (h : Inv M m on fr live) (hv : ValidOrder k.order)
    (hdis : ∀ s ∈ m.taken, Disjoint p s) (hhdr : ∀ s, s ≠ p → t.header s = m.header s)
    (hcur : ∀ j, j ≠ k → t.currentSlab j = m.currentSlab j) (htaken : t.taken = p :: m.taken)
    (hout : ∀ x, x ∉ slotsOf p k.order → t.nextFree x = m.nextFree x) :
    Frame k (· ∈ live) m t on on fr (update fr p (slotsOf p k.order)) := by
  have hne (s : ℕ) (hs : s ∈ m.taken) : s ≠ p := by
    rintro rfl
    have := hdis s hs
    simp [Disjoint, sizeOfOneSlab] at this
  constructor
  case owner => exact fun s hs => by simp only [owner, hhdr s (hne s hs)]
  case header => exact fun s hs _ => hhdr s (hne s hs)
  case free => exact fun s hs _ => update_of_ne (hne s hs) _ _
  case taken => exact fun s hs _ => htaken ▸ mem_cons_of_mem p hs
  case current => exact hcur
  case lists => exact fun _ _ => rfl
  case contents =>
    intro x hx
    obtain ⟨s, hs, hin⟩ := h.stocked.liveIn x hx
    exact hout x fun hm => (hdis s hs).not_inSlab (inSlab_of_mem hv hm).1 hin

/-- The allocation call on pool `k` returns a slot that was not handed out, or
nothing when the page allocator has nothing to give. -/
theorem wp_allocInCxlSlabImpl (h : Inv M m on fr live)
    (hfree : Unlocked M m) (hk : ValidPool M k) (hpages : PagesOK m pages) :
    ∃ r, (r ≠ 0 → r ∉ live) ∧ (r = 0 → pages = none) ∧
      wp (allocInCxlSlabImpl pages k.machine k.cpu k.order) (fun r' t => r' = r ∧ Unlocked M t ∧
          (t.taken = m.taken ∨ ∃ p, pages = some p ∧ t.taken = p :: m.taken) ∧
          (r ≠ 0 → t.Holds k r) ∧ ∃ on' fr', Inv M t on' fr' (afterAlloc r live) ∧
            Frame k (· ∈ live) m t on on' fr fr')
        (fun _ => True) m := by
  have hlocked := h.setLock k true
  have hcpu : ¬ k.cpu ≥ platCpuNum := by
    have := hk.2.1
    omega
  simp only [allocInCxlSlabImpl, wp_bind, wp_bugOn, wp_lock (hfree _ hk), wp_read, wp_ite]
  by_cases hcur : m.currentSlab k = 0
  · cases pages with
    | none =>
      have hdone := hlocked.setLock k false
      refine ⟨0, fun h0 => absurd rfl h0, fun _ => rfl, hcpu, trivial, fun _ => ?_,
        fun hne => absurd hcur hne⟩
      rw [initSlabCache_none, wp_pure]
      refine ⟨fun _ => ?_, fun hne => absurd rfl hne⟩
      simp only [unlock, wp_store, wp_pure]
      exact ⟨trivial, trivial, hfree.of_update rfl, .inl rfl,
        fun h0 => absurd rfl h0, on, fr, hdone,
        (Frame.refl k _ m on fr).setLock_right.setLock_right⟩
    | some p =>
      obtain ⟨hp0, hpa, hdis⟩ := hpages p rfl
      have hslot : p + metaSlots k.order * orderToSize k.order ≠ 0 := by omega
      refine ⟨p + metaSlots k.order * orderToSize k.order, fun _ => ?_,
        fun h0 => absurd h0 hslot, hcpu, trivial, fun _ => ?_, fun hne => absurd hcur hne⟩
      · intro hm
        obtain ⟨s, hs, hin⟩ := h.stocked.liveIn _ hm
        refine (hdis s hs).not_inSlab (inSlab_of_mem hk.2.2 ?_).1 hin
        exact mem_map.mpr ⟨0, mem_range.mpr (slotCount_pos hk.2.2), by simp⟩
      rw [afterAlloc_of_ne hslot]
      refine wp_post (wp_initSlabCache hp0 hk.2.2) fun r t ht => ?_
      obtain ⟨rfl, nf, rfl, hout, hchain⟩ := ht
      have hinv := hlocked.newSlab hk hcur hp0 hpa hdis hout hchain
      obtain ⟨-, -, hmem, howner, hin, hwp⟩ :=
        wp_takeSlot (a := r + metaSlots k.order * orderToSize k.order)
          hinv hk (update_self _ _ _) hp0 (by simp)
      refine ⟨fun h0 => absurd h0 hp0, fun _ => wp_store.mpr ⟨trivial, ?_⟩⟩
      refine wp_post hwp fun r' t ht => ?_
      obtain ⟨hrt, htaken, hlocks, on', fr', hinv', hframe⟩ := ht
      refine ⟨hrt, hfree.of_update hlocks, .inr ⟨r, rfl, htaken⟩,
        fun _ => ⟨r, htaken ▸ hmem, hin, (hframe.owner r hmem).trans howner⟩, on', fr', hinv',
        .trans (h.frame_newSlab hk.2.2 hdis ?_ ?_ rfl hout) (hframe.mono fun _ _ => trivial)
          fun s hs => mem_cons_of_mem r hs⟩
      · exact fun s hs => update_of_ne hs _ _
      · exact fun j hj => update_of_ne hj _ _
  · obtain ⟨hr, hr0, hmem, howner, hin, hwp⟩ := wp_takeSlot hlocked hk rfl hcur rfl
    refine ⟨_, fun _ => hr, fun h0 => absurd h0 hr0, hcpu, trivial, fun h0 => absurd h0 hcur,
      fun _ => ?_⟩
    rw [afterAlloc_of_ne hr0]
    refine wp_post hwp fun r' t ht => ?_
    obtain ⟨hrt, htaken, hlocks, on', fr', hinv, hframe⟩ := ht
    exact ⟨hrt, hfree.of_update hlocks, .inl htaken,
      fun _ => ⟨_, htaken ▸ hmem, hin, (hframe.owner _ hmem).trans howner⟩, on', fr', hinv,
      (hframe.mono fun _ _ => trivial).of_setLock_left⟩

theorem wp_allocInCxlSlab (h : Inv M m on fr live)
    (hfree : Unlocked M m) (hmid : mid < M) (hcpu : cpu < platCpuNum)
    (hsize : size ≤ orderToSize slabMaxOrder) (hpages : PagesOK m pages) :
    ∃ r, (r ≠ 0 → r ∉ live) ∧ (r = 0 → pages = none) ∧ wp (allocInCxlSlab pages mid cpu size)
        (fun r' t => r' = r ∧ Unlocked M t ∧
          (t.taken = m.taken ∨ ∃ p, pages = some p ∧ t.taken = p :: m.taken) ∧
          (r ≠ 0 → t.Holds ⟨mid, cpu, slabOrder size⟩ r) ∧
          ∃ on' fr', Inv M t on' fr' (afterAlloc r live) ∧
            Frame ⟨mid, cpu, slabOrder size⟩ (· ∈ live) m t on on' fr fr')
        (fun _ => True) m := by
  have hk : ValidPool M ⟨mid, cpu, slabOrder size⟩ := ⟨hmid, hcpu, validOrder_slabOrder hsize⟩
  obtain ⟨r, hr, hr0, hwp⟩ := wp_allocInCxlSlabImpl h hfree hk hpages
  refine ⟨r, hr, hr0, ?_⟩
  rw [allocInCxlSlab, wp_bind, wp_bugOn]
  exact ⟨by omega, hwp⟩

end calls

end Starfish.Slab
