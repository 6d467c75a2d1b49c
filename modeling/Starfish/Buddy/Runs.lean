import Starfish.Buddy.Spec

/-!
# Starfish.Buddy.Runs

Whole histories of a pool: `init_buddy`, then any sequence of
`buddy_get_pages` and `buddy_free_pages` in which only chunks that were
handed out are freed.  Two results about every state such a history reaches:
free and live chunks tile the pool (`pool_partitioned`), and the free chunks
are coalesced as far as the pool allows (`pool_coalesced`).
-/

namespace Starfish.Buddy

open Prog List Nat

/-! ## Histories -/

/-- The states of a pool that starts in memory `m₀`, with the chunks that are
handed out in each. -/
inductive Reachable (build : Build) (startAddr pageNum : ℕ) (m₀ : PhysMemPool) :
    PhysMemPool → List Chunk → Prop
  | init {m : PhysMemPool} (h : (initBuddy build startAddr pageNum).outcome m₀ = .ok () m) :
      Reachable build startAddr pageNum m₀ m []
  | getNull {m m' : PhysMemPool} {live : List Chunk} {order : ℤ}
      (hr : Reachable build startAddr pageNum m₀ m live)
      (h : (buddyGetPages build order).outcome m = .ok none m') :
      Reachable build startAddr pageNum m₀ m' live
  | get {m m' : PhysMemPool} {live : List Chunk} {order : ℤ} {page : ℕ}
      (hr : Reachable build startAddr pageNum m₀ m live)
      (h : (buddyGetPages build order).outcome m = .ok (some page) m') :
      Reachable build startAddr pageNum m₀ m' (⟨page, order.toNat⟩ :: live)
  | free {m m' : PhysMemPool} {live : List Chunk} {c : Chunk}
      (hr : Reachable build startAddr pageNum m₀ m live) (hc : c ∈ live)
      (h : (buddyFreePages build c.head).outcome m = .ok () m') :
      Reachable build startAddr pageNum m₀ m' (live.erase c)

/-- The page a list node belongs to. -/
def Node.page? : Node → Option ℕ
  | .page idx => some idx
  | .freeList _ => none

/-- The chunks of order `k` found by walking free list `k`. -/
def freeListOf (m : PhysMemPool) (k : ℕ) : List ℕ :=
  ((walk m.links.next (.freeList k) (m.poolMemSize / buddyPageSize + 1)
    (m.links.next (.freeList k))).getD []).filterMap Node.page?

/-- All free chunks. -/
def freeChunks (m : PhysMemPool) : List Chunk := chunksOf buddyMaxOrder (freeListOf m)

/-- List `k` is well linked in both directions. -/
def WellLinked (m : PhysMemPool) (k : ℕ) : Prop :=
  Path m.links.next (.freeList k) ((freeListOf m k).map Node.page) (.freeList k) ∧
    Path m.links.prev (.freeList k) ((freeListOf m k).map Node.page).reverse (.freeList k)

/-- The free and the live chunks tile the pool, are aligned to their size,
and the counters and flags agree with them. -/
structure Partitioned (startAddr pageNum : ℕ) (m : PhysMemPool) (live : List Chunk) : Prop where
  linked : ∀ k < buddyMaxOrder, WellLinked m k
  tiling : ∀ i, cover (freeChunks m ++ live) i = if i < pageNum then 1 else 0
  aligned : ∀ c ∈ freeChunks m ++ live,
    2 ^ c.order * buddyPageSize ∣ startAddr + c.head * buddyPageSize
  nrFree : ∀ k < buddyMaxOrder, m.nrFree k = (freeListOf m k).length
  flags : ∀ i < pageNum, m.pageCheckFlag i .allocated = true ↔ ∃ c ∈ live, i ∈ c

/-! ## The invariant along a history -/

section

variable {S n : ℕ} {m : PhysMemPool}
  {free : ℕ → List ℕ} {live : List Chunk}

/-- Every state of a history stands for free lists and the live chunks, and no
log entry is left open. -/
theorem Reachable.rep_settled (h : Reachable build (S * buddyPageSize) n m₀ m live) :
    Settled m₀ m ∧ ∃ free, Rep S n m free [] live := by
  induction h with
  | init h => exact wlp_of_wp (wp_initBuddy build S n m₀) _ _ h
  | @getNull m m' live order _ h ih =>
    obtain ⟨hset, free, r⟩ := ih
    have hr := wlp_of_wp (wp_buddyGetPages build order r) _ _ h
    exact ⟨hset.trans hr.1, free, hr.2.1⟩
  | @get m m' live order page _ h ih =>
    obtain ⟨hset, free, r⟩ := ih
    have hr := wlp_of_wp (wp_buddyGetPages build order r) _ _ h
    exact ⟨hset.trans hr.1, hr.2.2.2⟩
  | @free m m' live c _ hc h ih =>
    obtain ⟨hset, free, r⟩ := ih
    have hr := wlp_of_wp (wp_buddyFreePages build r hc) _ _ h
    exact ⟨hset.trans hr.1, hr.2⟩

theorem Reachable.rep (h : Reachable build (S * buddyPageSize) n m₀ m live) :
    ∃ free, Rep S n m free [] live := h.rep_settled.2

/-- A list of different pages is no longer than the pool. -/
theorem length_le_of_lt {l : List ℕ} (hnd : l.Nodup) (hlt : ∀ i ∈ l, i < n) : l.length ≤ n := by
  have hle := (subperm_of_subset hnd fun i hi => mem_range.mpr (hlt i hi)).length_le
  rwa [length_range] at hle

section

variable (r : Rep S n m free [] live)
include r

theorem Rep.nodup_free (hk : k < buddyMaxOrder) : (free k).Nodup :=
  List.Nodup.of_map Node.page (nodup_cons.mp (r.apart.nodup k hk)).2

theorem Rep.freeListOf_eq {k : ℕ} (hk : k < buddyMaxOrder) : freeListOf m k = free k := by
  have hpos : 0 < buddyPageSize := by decide
  have hlen : (free k).length ≤ n := length_le_of_lt (r.nodup_free hk) fun h hh =>
    r.tiled.lt_of_mem (Rep.mem_free hk hh) (Chunk.head_mem ⟨h, k⟩)
  have hwalk := walk_eq_of_path (r.fwd k hk) (r.apart.head_notMem hk)
    (k := m.poolMemSize / buddyPageSize + 1) (by
      rw [r.size, Nat.mul_div_cancel _ hpos, nodes, length_map]
      omega)
  rw [freeListOf, hwalk, Option.getD_some, nodes, filterMap_map]
  exact filterMap_some

theorem Rep.freeChunks_eq : freeChunks m = chunksOf buddyMaxOrder free :=
  chunksOf_congr fun _ hk => r.freeListOf_eq hk

theorem Rep.partitioned : Partitioned (S * buddyPageSize) n m live := by
  have hall : freeChunks m ++ live = allChunks free [] live := by
    rw [r.freeChunks_eq, allChunks, nil_append]
  refine ⟨fun k hk => ?_, fun i => ?_, fun c hc => ?_, fun k hk => ?_, fun i hi => ?_⟩
  · rw [WellLinked, r.freeListOf_eq hk]
    exact ⟨r.fwd k hk, r.bwd k hk⟩
  · rw [hall]
    exact r.tiled.tiling i
  · rw [hall] at hc
    rw [← add_mul]
    exact mul_dvd_mul_right (r.tiled.aligned c hc) _
  · rw [r.freeListOf_eq hk]
    exact r.nr k hk
  · rw [pageCheckFlag_allocated]
    exact r.alloc i hi

end

end

/-! ## Free and live chunks tile the pool -/

/-- **The pool is partitioned after every call.**  For any page-aligned start
address and any number of pages, `init_buddy` returns, every later call
returns, the free and live chunks tile the pool after each of them, and a
chunk that is handed out overlaps no live one. -/
theorem pool_partitioned (build : Build) (startAddr pageNum : ℕ)
    (halign : buddyPageSize ∣ startAddr) (m₀ : PhysMemPool) :
    (∃ m, (initBuddy build startAddr pageNum).outcome m₀ = .ok () m) ∧
    ∀ m live, Reachable build startAddr pageNum m₀ m live →
      Partitioned startAddr pageNum m live ∧
      (∀ order, ∃ res m', (buddyGetPages build order).outcome m = .ok res m') ∧
      (∀ c ∈ live, ∃ m', (buddyFreePages build c.head).outcome m = .ok () m') ∧
      ∀ order page m', (buddyGetPages build order).outcome m = .ok (some page) m' →
        ∀ c ∈ live, ∀ i ∈ (⟨page, order.toNat⟩ : Chunk), i ∉ c := by
  obtain ⟨S, rfl⟩ := halign
  rw [mul_comm]
  refine ⟨?_, fun m live hm => ?_⟩
  · obtain ⟨_, t, ht, -⟩ := wp_outcome (wp_initBuddy build S pageNum m₀)
    exact ⟨t, ht⟩
  obtain ⟨free, r⟩ := hm.rep
  refine ⟨r.partitioned, fun order => ?_, fun c hc => ?_, fun order page m' h c hc i hi hic => ?_⟩
  · obtain ⟨a, t, ht, -⟩ := wp_outcome (wp_buddyGetPages build order r)
    exact ⟨a, t, ht⟩
  · obtain ⟨_, t, ht, -⟩ := wp_outcome (wp_buddyFreePages build r hc)
    exact ⟨t, ht⟩
  · -- both chunks are live after the call, so a common page would be covered twice
    obtain ⟨free', r'⟩ := (hm.get h).rep
    have hle := r'.tiled.cover_le_one i
    have hpos := cover_pos_iff.mpr ⟨c, hc, hic⟩
    rw [allChunks, nil_append, cover_append, cover_cons, cover_singleton_of_mem hi] at hle
    omega

/-- Zero-filled memory, as a static `struct phys_mem_pool` starts out. -/
def zeroPool : PhysMemPool where
  poolStartAddr := 0
  poolMemSize := 0
  links := ⟨fun _ => .freeList 0, fun _ => .freeList 0⟩
  nrFree _ := 0
  flags _ := 0#32
  order _ := 0
  latestLog := ⟨.init, .addPages, 0, 0, 0, 0⟩

/-- A pool of five pages that starts at page three: two pages are handed out, and the second one
comes back. -/
theorem reachable_one_live : ∃ m, Reachable .sls 0x3000 5 zeroPool m [⟨0, 0⟩] := by
  have hinit : ((initBuddy .sls 0x3000 5).outcome zeroPool).result? = some () := by decide +kernel
  have h₀ := Reachable.init (Outcome.eq_ok_of_result? hinit)
  have h₁ := h₀.get (Outcome.eq_ok_of_result? (r := (buddyGetPages .sls 0).outcome _) (a := some 0)
    (by decide +kernel))
  have h₂ := h₁.get (Outcome.eq_ok_of_result? (r := (buddyGetPages .sls 0).outcome _) (a := some 1)
    (by decide +kernel))
  have h₃ := h₂.free (c := ⟨1, 0⟩) mem_cons_self (Outcome.eq_ok_of_result? (by decide +kernel))
  exact ⟨_, h₃⟩

theorem pool_partitioned_one_live : ∃ m, Reachable .sls 0x3000 5 zeroPool m [⟨0, 0⟩] ∧
    Partitioned 0x3000 5 m [⟨0, 0⟩] := by
  obtain ⟨m, hm⟩ := reachable_one_live
  exact ⟨m, hm, ((pool_partitioned .sls 0x3000 5 (by decide) zeroPool).2 m _ hm).1⟩

/-! ## Free chunks are coalesced -/

/-- The pages of `c` lie in the pool and none of them is allocated. -/
def AllFree (pageNum : ℕ) (m : PhysMemPool) (c : Chunk) : Prop :=
  c.head + 2 ^ c.order ≤ pageNum ∧ ∀ i ∈ c, m.pageCheckFlag i .allocated = false

section

/-- A page that is not allocated is in a free chunk. -/
theorem Rep.covered_of_free (r : Rep S n m free [] live) (hi : i < n)
    (hfree : isAllocated (m.flags i) = false) : 0 < cover (chunksOf buddyMaxOrder free) i := by
  have hone : cover (allChunks free [] live) i = 1 := by
    rw [r.tiled.tiling, if_pos hi]
  have hlive : ¬ 0 < cover live i := by
    rw [cover_pos_iff, ← r.alloc i hi, hfree]
    exact Bool.false_ne_true
  rw [allChunks, nil_append, cover_append] at hone
  omega

/-- An aligned block of free pages lies inside one free chunk. -/
theorem Rep.exists_free_chunk (r : Rep S n m free [] live) (hal : c.Aligned S)
    (hord : c.order < buddyMaxOrder) (hfree : AllFree n m c) :
    ∃ d ∈ chunksOf buddyMaxOrder free, c.Within d := by
  refine exists_chunk_of_covered (fun d hd => r.tiled.aligned d (mem_append_left _ hd))
    r.coalesced hal hord fun i hi => r.covered_of_free ?_ ?_
  · have hin := hfree.1
    rw [Chunk.mem_def] at hi
    omega
  · rw [← pageCheckFlag_allocated]
    exact hfree.2 i hi

/-- With nothing handed out, the free chunks are the maximal aligned blocks
of the pool. -/
theorem Rep.mem_free_iff_maximal (r : Rep S n m free [] []) (c : Chunk) :
    c ∈ freeChunks m ↔ Maximal S buddyMaxOrder n c := by
  have hall : allChunks free [] [] = chunksOf buddyMaxOrder free := by
    rw [allChunks, nil_append, append_nil]
  have t := r.tiled
  rw [hall] at t
  rw [r.freeChunks_eq]
  exact mem_iff_maximal t.aligned t.bound r.coalesced t.tiling c

end

/-- **The free chunks are coalesced after every call.**  In every state of a
history: no two chunks on the free lists are buddies of an order below the
largest; an allocation of a supported order fails only if the pool has no
aligned block of that order that is free; and once nothing is handed out, the
free chunks are those that `init_buddy` left, order by order. -/
theorem pool_coalesced (build : Build) (startAddr pageNum : ℕ)
    (halign : buddyPageSize ∣ startAddr) (m₀ m : PhysMemPool) (live : List Chunk)
    (hm : Reachable build startAddr pageNum m₀ m live) :
    (∀ k, k < buddyMaxOrder - 1 → ∀ h ∈ freeListOf m k, ∀ b ∈ freeListOf m k,
      startAddr + b * buddyPageSize ≠
        (startAddr + h * buddyPageSize) ^^^ (1 <<< (k + buddyPageSizeOrder))) ∧
    (∀ order : ℤ, 0 ≤ order → order < buddyMaxOrder → ∀ m',
      (buddyGetPages build order).outcome m = .ok none m' →
      ¬ ∃ c : Chunk, c.order = order.toNat ∧
        2 ^ c.order * buddyPageSize ∣ startAddr + c.head * buddyPageSize ∧
        AllFree pageNum m c) ∧
    (live = [] → ∀ m₁, (initBuddy build startAddr pageNum).outcome m₀ = .ok () m₁ →
      ∀ k < buddyMaxOrder, ∀ h, h ∈ freeListOf m k ↔ h ∈ freeListOf m₁ k) := by
  obtain ⟨S, rfl⟩ := halign
  rw [mul_comm] at hm ⊢
  have hpos : 0 < buddyPageSize := by decide
  obtain ⟨free, r⟩ := hm.rep
  refine ⟨fun k hk h hh b hb he => ?_, fun order h0 hlt m' hget => ?_, fun hlive m₁ hinit => ?_⟩
  · have hk' : k < buddyMaxOrder := by omega
    rw [r.freeListOf_eq hk'] at hh hb
    rw [← add_mul, ← add_mul, xor_pageSize] at he
    have hbud : IsBuddy S k h b := eq_of_mul_eq_mul_right hpos he
    exact r.coalesced ⟨h, k⟩ (mem_chunksOf.mpr ⟨hk', hh⟩) (by simp only; omega) b hbud
      (mem_chunksOf.mpr ⟨hk', hb⟩)
  · rintro ⟨c, hco, hal, hfree⟩
    have hr := wlp_of_wp (wp_buddyGetPages build order r) _ _ hget
    have hcb : c.order < buddyMaxOrder := by omega
    rw [← Nat.add_mul] at hal
    have hal' : c.Aligned S := Nat.dvd_of_mul_dvd_mul_right hpos hal
    obtain ⟨d, hd, hcd⟩ := r.exists_free_chunk hal' hcb hfree
    -- the chunk around the block is at least as large, but those lists are empty
    have hle : c.order ≤ d.order := by
      by_contra hlt'
      have := Chunk.order_le_of_within hcd (by omega)
      omega
    have hmem := mem_chunksOf.mp hd
    rw [hr.2.2 h0 hlt d.order (by omega) hmem.1] at hmem
    exact absurd hmem.2 (not_mem_nil)
  · subst hlive
    intro k hk h
    obtain ⟨free1, r₁⟩ := (Reachable.init hinit).rep
    have h1 := r.mem_free_iff_maximal ⟨h, k⟩
    have h2 := r₁.mem_free_iff_maximal ⟨h, k⟩
    rw [freeChunks, mem_chunksOf] at h1 h2
    have he := h1.trans h2.symm
    simpa [hk] using he

theorem pool_coalesced_one_live : ∃ m, Reachable .sls 0x3000 5 zeroPool m [⟨0, 0⟩] ∧
    ∀ h ∈ freeListOf m 0, ∀ b ∈ freeListOf m 0,
      0x3000 + b * buddyPageSize ≠ (0x3000 + h * buddyPageSize) ^^^ (1 <<< (0 + buddyPageSizeOrder)) := by
  obtain ⟨m, hm⟩ := reachable_one_live
  exact ⟨m, hm, (pool_coalesced .sls 0x3000 5 (by decide) zeroPool m _ hm).1 0 (by decide)⟩

/-- An order beyond the supported ones is refused although the whole pool, an
aligned block of that order, is free. -/
theorem get_refused_although_free :
    ∃ m m', Reachable .sls 0 (2 ^ 20) zeroPool m [] ∧
      (buddyGetPages .sls 20).outcome m = .ok none m' ∧
      ∃ c : Chunk, c.order = (20 : ℤ).toNat ∧
        2 ^ c.order * buddyPageSize ∣ 0 + c.head * buddyPageSize ∧ AllFree (2 ^ 20) m c := by
  obtain ⟨_, m, hm, -, free, r⟩ := wp_outcome (wp_initBuddy .sls 0 (2 ^ 20) zeroPool)
  rw [zero_mul] at hm
  refine ⟨m, m, .init hm, rfl, ⟨0, 20⟩, rfl, ?_, le_refl _, fun i hi => ?_⟩
  · exact dvd_zero _
  · rw [pageCheckFlag_allocated]
    have hin : i < 2 ^ 20 := hi.2
    have halloc := (r.alloc i hin).not
    simpa using halloc

/-! ## The free lists are known from the flags -/

/-- An aligned block of a supported order that is free. -/
def FreeBlock (startAddr pageNum : ℕ) (m : PhysMemPool) (c : Chunk) : Prop :=
  c.order < buddyMaxOrder ∧ 2 ^ c.order * buddyPageSize ∣ startAddr + c.head * buddyPageSize ∧
    AllFree pageNum m c

section

variable {S n : ℕ} {m : PhysMemPool} {free : ℕ → List ℕ} {live : List Chunk}
  (r : Rep S n m free [] live)
include r

theorem Rep.freeBlock (hc : c ∈ chunksOf buddyMaxOrder free) :
    FreeBlock (S * buddyPageSize) n m c := by
  have hmem : c ∈ allChunks free [] live := mem_append_left _ hc
  refine ⟨r.tiled.bound c hmem, ?_, r.tiled.le_of_mem hmem, fun i hi => ?_⟩
  · rw [← add_mul]
    exact mul_dvd_mul_right (r.tiled.aligned c hmem) _
  · rw [pageCheckFlag_allocated, ← Bool.not_eq_true, r.alloc i (r.tiled.lt_of_mem hmem hi)]
    exact r.not_live_of_free hc hi

theorem Rep.within_of_freeBlock (hc : FreeBlock (S * buddyPageSize) n m c) :
    ∃ d ∈ chunksOf buddyMaxOrder free, c.Within d := by
  obtain ⟨hord, hal, hfree⟩ := hc
  rw [← add_mul] at hal
  exact r.exists_free_chunk (Nat.dvd_of_mul_dvd_mul_right (by decide) hal) hord hfree

end

/-- In every state of a history the free chunks are the largest aligned blocks that the flags
of the pages allow, so they do not depend on the calls that led there. -/
theorem free_chunks_maximal (build : Build) (startAddr pageNum : ℕ)
    (halign : buddyPageSize ∣ startAddr) (m₀ m : PhysMemPool) (live : List Chunk)
    (hm : Reachable build startAddr pageNum m₀ m live) (c : Chunk) :
    c ∈ freeChunks m ↔ FreeBlock startAddr pageNum m c ∧
      ∀ d, FreeBlock startAddr pageNum m d → c.Within d → d = c := by
  obtain ⟨S, rfl⟩ := halign
  rw [mul_comm] at hm ⊢
  obtain ⟨free, r⟩ := hm.rep
  rw [r.freeChunks_eq]
  constructor
  · refine fun hc => ⟨r.freeBlock hc, fun d hd hcd => ?_⟩
    -- the free chunk around `d` has a page of `c`
    obtain ⟨e, he, hde⟩ := r.within_of_freeBlock hd
    obtain rfl : c = e := r.tiled.eq_of_mem (mem_append_left _ hc) (mem_append_left _ he)
      c.head_mem (hde.mem (hcd.mem c.head_mem))
    have hord := Chunk.order_le_of_within hcd
    have hord' := Chunk.order_le_of_within hde
    exact hde.eq (by omega)
  · rintro ⟨hc, hmax⟩
    obtain ⟨d, hd, hcd⟩ := r.within_of_freeBlock hc
    exact hmax d (r.freeBlock hd) hcd ▸ hd

theorem free_chunks_maximal_one_live : ∃ m, Reachable .sls 0x3000 5 zeroPool m [⟨0, 0⟩] ∧
    (⟨1, 2⟩ ∈ freeChunks m ↔ FreeBlock 0x3000 5 m ⟨1, 2⟩ ∧
      ∀ d, FreeBlock 0x3000 5 m d → Chunk.Within ⟨1, 2⟩ d → d = ⟨1, 2⟩) := by
  obtain ⟨m, hm⟩ := reachable_one_live
  exact ⟨m, hm, free_chunks_maximal .sls 0x3000 5 (by decide) zeroPool m _ hm ⟨1, 2⟩⟩

end Starfish.Buddy
