import Mathlib.Data.List.Nodup
import Starfish.Block
import Starfish.Buddy.Pool

/-!
# Starfish.Buddy.Invariant

What a pool in memory stands for: free lists, chunks in the hands of the
running call (`held`) and chunks handed out (`live`), which together tile the
pool.  Every move of the allocator between these three is one lemma:

* `Rep.insert` / `Rep.remove` put a held chunk on a free list or take one off;
* `Rep.split` / `Rep.merge` cut a held chunk or join two held buddies;
* `Rep.hand_out` / `Rep.take_back` move a chunk between `held` and `live`.
-/

namespace Starfish.Buddy

open Function PageFlag Prog List Chunk BitVec

/-! ## The allocated flag -/

/-- `PG_allocated` is set. -/
def isAllocated (flags : BitVec 32) : Bool := flags.getLsbD 0

theorem pageCheckFlag_allocated (m : PhysMemPool) (i : ℕ) :
    m.pageCheckFlag i .allocated = isAllocated (m.flags i) := by
  unfold PhysMemPool.pageCheckFlag isAllocated bit
  generalize m.flags i = f
  rw [shiftLeft_zero]
  cases h : f.getLsbD 0 with
  | false =>
    rw [getLsbD_eq_getElem (by decide)] at h
    have hz : f &&& 1#32 = 0#32 := by
      apply eq_of_getLsbD_eq
      intro j hj
      by_cases hj0 : j = 0
      · subst hj0; simp [h]
      · simp [getLsbD_one, hj0]
    simp [hz]
  | true =>
    rw [getLsbD_eq_getElem (by decide)] at h
    have hz : f &&& 1#32 ≠ 0#32 := by
      intro he
      have hb := congrArg (·.getLsbD 0) he
      simp [h] at hb
    simp [hz]

@[simp] theorem isAllocated_set (f : BitVec 32) :
    isAllocated (f ||| (1#32 <<< allocated.bit)) = true := by
  simp [isAllocated, bit]

@[simp] theorem isAllocated_clear (f : BitVec 32) :
    isAllocated (f &&& ~~~(1#32 <<< allocated.bit)) = false := by
  simp [isAllocated, bit]

@[simp] theorem isAllocated_zero : isAllocated 0#32 = false := by decide

/-! ## Tilings with recorded orders -/

/-- The chunks tile the pool of `n` pages, are aligned, and each is recorded
in the `order` field of its first page. -/
structure Tiled (S n : ℕ) (order : ℕ → ℕ) (cs : List Chunk) : Prop where
  tiling : ∀ i, cover cs i = if i < n then 1 else 0
  aligned : ∀ c ∈ cs, c.Aligned S
  bound : ∀ c ∈ cs, c.order < buddyMaxOrder
  order : ∀ c ∈ cs, order c.head = c.order

namespace Tiled

variable {S n : ℕ} {ord : ℕ → ℕ} {cs : List Chunk}

section

variable (t : Tiled S n ord cs)
include t

theorem perm (hp : cs.Perm ds) : Tiled S n ord ds where
  tiling i := (cover_perm hp i).symm.trans (t.tiling i)
  aligned c hc := t.aligned c (hp.mem_iff.mpr hc)
  bound c hc := t.bound c (hp.mem_iff.mpr hc)
  order c hc := t.order c (hp.mem_iff.mpr hc)

theorem cover_le_one (i : ℕ) : cover cs i ≤ 1 := by
  rw [t.tiling]
  split <;> omega

theorem eq_of_mem (hc : c ∈ cs) (hd : d ∈ cs) (hic : i ∈ c) (hid : i ∈ d) : c = d :=
  eq_of_cover_le_one (t.cover_le_one i) hc hd hic hid

theorem le_of_mem (hc : c ∈ cs) : c.head + 2 ^ c.order ≤ n := le_of_tiling t.tiling hc

theorem lt_of_mem (hc : c ∈ cs) (hi : i ∈ c) : i < n := by
  have h := t.le_of_mem hc
  rw [mem_def] at hi
  omega

end

/-- No other chunk of the tiling contains a page of the first one. -/
theorem not_mem_rest (t : Tiled S n ord (⟨h, k⟩ :: rest)) (hi : i ∈ (⟨h, k⟩ : Chunk))
    (hc : c ∈ rest) : i ∉ c := by
  intro hic
  have hle := t.cover_le_one i
  have hpos := cover_pos_iff.mpr ⟨c, hc, hic⟩
  rw [cover_cons, cover_singleton_of_mem hi] at hle
  omega

theorem replace (old new : List Chunk) (t : Tiled S n ord (old ++ rest))
    (hcover : ∀ i, cover new i = cover old i)
    (hnew : ∀ c ∈ new, c.Aligned S ∧ c.order < buddyMaxOrder ∧ ord' c.head = c.order)
    (hrest : ∀ i, (∀ c ∈ old, i ∉ c) → ord' i = ord i) : Tiled S n ord' (new ++ rest) := by
  have hall : ∀ c ∈ new ++ rest, c.Aligned S ∧ c.order < buddyMaxOrder ∧ ord' c.head = c.order := by
    intro c hc
    rcases mem_append.mp hc with hc | hc
    · exact hnew c hc
    · have hmem : c ∈ old ++ rest := mem_append_right old hc
      refine ⟨t.aligned c hmem, t.bound c hmem, ?_⟩
      rw [hrest c.head fun d hd hdc => ?_, t.order c hmem]
      have hle := t.cover_le_one c.head
      have hpos := cover_pos_iff.mpr ⟨c, hc, c.head_mem⟩
      have hpos' := cover_pos_iff.mpr ⟨d, hd, hdc⟩
      rw [cover_append] at hle
      omega
  refine ⟨fun i => ?_, fun c hc => (hall c hc).1, fun c hc => (hall c hc).2.1,
    fun c hc => (hall c hc).2.2⟩
  rw [cover_append, hcover, ← cover_append, t.tiling]

theorem split (t : Tiled S n ord (⟨h, k + 1⟩ :: rest)) (hl : ord' h = k)
    (hr : ord' (h + 2 ^ k) = k) (hrest : ∀ i, i ≠ h → i ≠ h + 2 ^ k → ord' i = ord i) :
    Tiled S n ord' (⟨h, k⟩ :: ⟨h + 2 ^ k, k⟩ :: rest) := by
  have hal : (⟨h, k + 1⟩ : Chunk).Aligned S := t.aligned _ mem_cons_self
  have hkb : k + 1 < buddyMaxOrder := t.bound _ mem_cons_self
  refine t.replace [⟨h, k + 1⟩] [⟨h, k⟩, ⟨h + 2 ^ k, k⟩] (fun i => ?_) ?_ fun i hi => hrest i ?_ ?_
  · rw [cover_split, cover_cons]
  · simp [hal.left, hal.right, Nat.lt_of_succ_lt hkb, hl, hr]
  · rintro rfl
    exact hi _ mem_cons_self (head_mem _)
  · rintro rfl
    exact hi _ mem_cons_self (mem_split.mpr (.inr (head_mem ⟨h + 2 ^ k, k⟩)))

theorem merge (t : Tiled S n ord (⟨h, k⟩ :: ⟨h + 2 ^ k, k⟩ :: rest))
    (hal : (⟨h, k + 1⟩ : Chunk).Aligned S) (hkb : k + 1 < buddyMaxOrder) (hl : ord' h = k + 1)
    (hrest : ∀ i, i ≠ h → i ≠ h + 2 ^ k → ord' i = ord i) :
    Tiled S n ord' (⟨h, k + 1⟩ :: rest) := by
  refine t.replace [⟨h, k⟩, ⟨h + 2 ^ k, k⟩] [⟨h, k + 1⟩] (fun i => ?_) ?_ fun i hi => hrest i ?_ ?_
  · rw [cover_split, cover_cons ⟨h, k⟩ [_]]
  · simp [hal, hkb, hl]
  · rintro rfl
    exact hi _ mem_cons_self (head_mem _)
  · rintro rfl
    exact hi ⟨h + 2 ^ k, k⟩ (by simp) (head_mem _)

end Tiled

/-! ## What a pool in memory stands for -/

/-- The list nodes of the free chunks of order `k`. -/
def nodes (free : ℕ → List ℕ) (k : ℕ) : List Node := (free k).map Node.page

theorem nodes_update (free : ℕ → List ℕ) (k : ℕ) (l : List ℕ) :
    nodes (update free k l) = update (nodes free) k (l.map Node.page) := by
  funext j
  by_cases hj : j = k
  · subst hj
    simp [nodes]
  · simp [nodes, update_of_ne hj]

/-- All chunks of a pool: on the free lists, held by the running call and
handed out. -/
def allChunks (free : ℕ → List ℕ) (held live : List Chunk) : List Chunk :=
  chunksOf buddyMaxOrder free ++ (held ++ live)

/-- The pool `m` starts at page number `S`, has `n` pages, its free lists
hold `free`, the running call has taken the chunks `held` off the lists and
`live` are the chunks handed out. -/
structure Rep (S n : ℕ) (m : PhysMemPool) (free : ℕ → List ℕ) (held live : List Chunk) :
    Prop where
  start : m.poolStartAddr = S * buddyPageSize
  size : m.poolMemSize = n * buddyPageSize
  fwd : Fwds Node.freeList (· < buddyMaxOrder) m.links (nodes free)
  bwd : Bwds Node.freeList (· < buddyMaxOrder) m.links (nodes free)
  nr : ∀ k < buddyMaxOrder, m.nrFree k = (free k).length
  tiled : Tiled S n m.order (allChunks free held live)
  alloc : ∀ i < n, isAllocated (m.flags i) = true ↔ ∃ c ∈ live, i ∈ c
  coalesced : Coalesced S buddyMaxOrder (chunksOf buddyMaxOrder free)

/-- The free lists are `free`, seen forwards. -/
abbrev FreeFwds (L : Links Node) (free : ℕ → List ℕ) : Prop :=
  Fwds Node.freeList (· < buddyMaxOrder) L (nodes free)

/-- The free lists are `free`, seen backwards. -/
abbrev FreeBwds (L : Links Node) (free : ℕ → List ℕ) : Prop :=
  Bwds Node.freeList (· < buddyMaxOrder) L (nodes free)

section

theorem allChunks_insert (hk : k < buddyMaxOrder) :
    (allChunks (update free k (h :: free k)) held live).Perm
      (allChunks free (⟨h, k⟩ :: held) live) := by
  have hp : (chunksOf buddyMaxOrder (update free k (h :: free k))).Perm
      (⟨h, k⟩ :: chunksOf buddyMaxOrder free) := chunksOf_insert hk (nil_append _).symm
  exact (hp.append_right _).trans perm_middle.symm

theorem allChunks_remove (hk : k < buddyMaxOrder) (hf : free k = as ++ h :: bs) :
    (allChunks free held live).Perm (allChunks (update free k (as ++ bs)) (⟨h, k⟩ :: held) live) :=
  ((chunksOf_erase hk hf).append_right _).trans perm_middle.symm

end

namespace Rep

variable {S n : ℕ} {m : PhysMemPool} {free : ℕ → List ℕ} {held live : List Chunk}

theorem mem_free (hk : k < buddyMaxOrder) (hh : h ∈ free k) :
    (⟨h, k⟩ : Chunk) ∈ allChunks free held live :=
  mem_append_left _ (mem_chunksOf.mpr ⟨hk, hh⟩)

theorem mem_held (hc : c ∈ held) : c ∈ allChunks free held live :=
  mem_append_right _ (mem_append_left _ hc)

theorem mem_live (hc : c ∈ live) : c ∈ allChunks free held live :=
  mem_append_right _ (mem_append_right _ hc)

section

variable (r : Rep S n m free held live)
include r

/-- No page is on the free lists twice. -/
theorem apart : Apart Node.freeList (· < buddyMaxOrder) (nodes free) := by
  have hle : ∀ i, cover (chunksOf buddyMaxOrder free) i ≤ 1 := fun i => by
    have h := r.tiled.cover_le_one i
    rw [allChunks, cover_append] at h
    omega
  have hnd := nodup_of_cover_le_one hle
  refine ⟨fun k hk => nodup_cons.mpr ⟨by simp [nodes], ?_⟩, fun j k hj hk hjk x hx hx' => ?_⟩
  · refine List.Nodup.map (fun a b hab => Node.page.inj hab) ?_
    exact List.Nodup.of_map _ (hnd.sublist (sublist_chunksOf hk))
  · simp only [nodes, mem_cons, mem_map] at hx hx'
    rcases hx with rfl | ⟨a, ha, rfl⟩
    · rcases hx' with hx' | ⟨b, -, hb⟩
      · exact hjk (Node.freeList.inj hx')
      · exact absurd hb (by simp)
    · rcases hx' with hx' | ⟨b, hb, hba⟩
      · exact absurd hx' (by simp)
      · obtain rfl := Node.page.inj hba
        have he := eq_of_cover_le_one (hle b) (mem_chunksOf.mpr ⟨hj, ha⟩)
          (mem_chunksOf.mpr ⟨hk, hb⟩) (head_mem ⟨b, j⟩) (head_mem ⟨b, k⟩)
        exact hjk (mk.inj he).2

theorem notMem_free_of_held (hc : c ∈ held) (hj : j < buddyMaxOrder) : c.head ∉ free j := by
  intro hm
  obtain ⟨as, bs, rfl⟩ := append_of_mem hc
  have hp : (allChunks free (as ++ c :: bs) live).Perm (⟨c.head, c.order⟩ ::
      allChunks free (as ++ bs) live) := by
    refine ((perm_middle.append_right live).append_left _).trans ?_
    exact perm_middle
  exact (r.tiled.perm hp).not_mem_rest c.head_mem (mem_free hj hm) (head_mem ⟨c.head, j⟩)

omit r in
/-- The first page of a held chunk is on no free list. -/
theorem fresh_of_held (r : Rep S n m free (⟨h, k⟩ :: held) live) :
    Fresh Node.freeList (· < buddyMaxOrder) (nodes free) (.page h) := by
  intro j hj hm
  simp only [nodes, mem_cons, mem_map, reduceCtorEq, false_or] at hm
  obtain ⟨a, ha, hah⟩ := hm
  obtain rfl := Node.page.inj hah
  exact r.notMem_free_of_held mem_cons_self hj ha

omit r in
/-- A held chunk lies aligned in the pool and is recorded with its order. -/
theorem of_held (r : Rep S n m free (⟨h, k⟩ :: held) live) : m.order h = k ∧ k < buddyMaxOrder ∧
    (⟨h, k⟩ : Chunk).Aligned S ∧ h + 2 ^ k ≤ n := by
  have hmem : (⟨h, k⟩ : Chunk) ∈ allChunks free (⟨h, k⟩ :: held) live := mem_held mem_cons_self
  exact ⟨r.tiled.order _ hmem, r.tiled.bound _ hmem, r.tiled.aligned _ hmem,
    r.tiled.le_of_mem hmem⟩

omit r in
/-- Putting a held chunk on its free list.  Its buddy must not be there. -/
theorem insert (r : Rep S n m free (⟨h, k⟩ :: held) live)
    (hbud : k + 1 < buddyMaxOrder → ∀ b, IsBuddy S k h b → b ∉ free k)
    (hF : FreeFwds L (update free k (h :: free k)))
    (hB : FreeBwds L (update free k (h :: free k))) :
    Rep S n ((m.setLinks L).setNrFree k (m.nrFree k + 1)) (update free k (h :: free k))
      held live := by
  obtain ⟨-, hk, hal, -⟩ := r.of_held
  refine ⟨r.start, r.size, hF, hB, fun j hj => ?_, r.tiled.perm (allChunks_insert hk).symm,
    r.alloc, ?_⟩
  · by_cases hjk : j = k
    · subst hjk
      simp [r.nr j hj]
    · simp [update_of_ne hjk, r.nr j hj]
  · have hmem : ∀ c, c ∈ chunksOf buddyMaxOrder (update free k (h :: free k)) →
        c = ⟨h, k⟩ ∨ c ∈ chunksOf buddyMaxOrder free := fun c hc =>
      mem_cons.mp ((chunksOf_insert hk (nil_append _).symm).mem_iff.mp hc)
    intro c hc hco b hb hbc
    rcases hmem c hc with rfl | hcf
    · rcases hmem _ hbc with hbh | hbc
      · exact absurd (mk.inj hbh).1.symm (hb.ne hal)
      · exact hbud hco b hb (mem_chunksOf.mp hbc).2
    · rcases hmem _ hbc with hbh | hbc
      · obtain ⟨rfl, hok⟩ := mk.inj hbh
        have hfree := (mem_chunksOf.mp hcf).2
        rw [hok] at hb hfree hco
        exact hbud hco c.head hb.symm hfree
      · exact r.coalesced c hcf hco b hb hbc

theorem remove (hk : k < buddyMaxOrder)
    (hf : free k = as ++ h :: bs) (hF : FreeFwds L (update free k (as ++ bs)))
    (hB : FreeBwds L (update free k (as ++ bs))) :
    Rep S n ((m.setLinks L).setNrFree k (m.nrFree k - 1)) (update free k (as ++ bs))
      (⟨h, k⟩ :: held) live := by
  refine ⟨r.start, r.size, hF, hB, fun j hj => ?_, r.tiled.perm (allChunks_remove hk hf),
    r.alloc, ?_⟩
  · by_cases hjk : j = k
    · subst hjk
      simp [r.nr j hj, hf]
    · simp [update_of_ne hjk, r.nr j hj]
  · have hsub : ∀ c ∈ chunksOf buddyMaxOrder (update free k (as ++ bs)),
        c ∈ chunksOf buddyMaxOrder free := fun c hc =>
      (chunksOf_erase hk hf).mem_iff.mpr (mem_cons_of_mem _ hc)
    exact fun c hc hco b hb hbc => r.coalesced c (hsub c hc) hco b hb (hsub _ hbc)

theorem not_live_of_held (hc : c ∈ held) (hi : i ∈ c) : ¬ ∃ d ∈ live, i ∈ d := by
  rintro ⟨d, hd, hid⟩
  have hle := r.tiled.cover_le_one i
  have hheld := cover_pos_iff.mpr ⟨c, hc, hi⟩
  have hlive := cover_pos_iff.mpr ⟨d, hd, hid⟩
  rw [allChunks, cover_append, cover_append] at hle
  omega

theorem not_live_of_free
    (hc : c ∈ chunksOf buddyMaxOrder free) (hi : i ∈ c) : ¬ ∃ d ∈ live, i ∈ d := by
  rintro ⟨d, hd, hid⟩
  have hle := r.tiled.cover_le_one i
  have hfree := cover_pos_iff.mpr ⟨c, hc, hi⟩
  have hlive := cover_pos_iff.mpr ⟨d, hd, hid⟩
  rw [allChunks, cover_append, cover_append] at hle
  omega

omit r in
theorem split (r : Rep S n m free (⟨h, k + 1⟩ :: held) live) (hf : isAllocated f = false) :
    Rep S n (((m.setOrder h k).setOrder (h + 2 ^ k) k).setFlags (h + 2 ^ k) f) free
      (⟨h + 2 ^ k, k⟩ :: ⟨h, k⟩ :: held) live := by
  have hp : (allChunks free (⟨h, k + 1⟩ :: held) live).Perm
      (⟨h, k + 1⟩ :: allChunks free held live) := perm_middle
  have hp' : (⟨h, k⟩ :: ⟨h + 2 ^ k, k⟩ :: allChunks free held live).Perm
      (allChunks free (⟨h + 2 ^ k, k⟩ :: ⟨h, k⟩ :: held) live) :=
    (List.Perm.swap _ _ _).trans ((perm_middle.symm.cons _).trans perm_middle.symm)
  refine ⟨r.start, r.size, r.fwd, r.bwd, r.nr, ?_, fun i hi => ?_, r.coalesced⟩
  · refine ((r.tiled.perm hp).split ?_ ?_ ?_).perm hp'
    · simp
    · simp
    · intro i h1 h2
      simp [update_of_ne h1, update_of_ne h2]
  · by_cases hib : i = h + 2 ^ k
    · subst hib
      have hmem : h + 2 ^ k ∈ (⟨h, k + 1⟩ : Chunk) := mem_split.mpr (.inr (head_mem ⟨h + 2 ^ k, k⟩))
      have hno := r.not_live_of_held mem_cons_self hmem
      simp only [PhysMemPool.setFlags_flags, update_self, hf, Bool.false_eq_true, false_iff]
      exact hno
    · simp only [PhysMemPool.setFlags_flags, update_of_ne hib]
      exact r.alloc i hi

omit r in
theorem merge (r : Rep S n m free (⟨b, k⟩ :: ⟨h, k⟩ :: held) live)
    (hbud : IsBuddy S k h b) (hk : k + 1 < buddyMaxOrder) :
    Rep S n ((m.setOrder b (k + 1)).setOrder h (k + 1)) free
      (⟨if h > b then b else h, k + 1⟩ :: held) live := by
  have hal : (⟨h, k⟩ : Chunk).Aligned S :=
    r.tiled.aligned _ (mem_held (mem_cons_of_mem _ mem_cons_self))
  have hp : (allChunks free (⟨b, k⟩ :: ⟨h, k⟩ :: held) live).Perm
      (⟨b, k⟩ :: ⟨h, k⟩ :: allChunks free held live) :=
    perm_middle.trans (perm_middle.cons _)
  have hpos : 0 < 2 ^ k := Nat.two_pow_pos k
  refine ⟨r.start, r.size, r.fwd, r.bwd, r.nr, ?_, r.alloc, r.coalesced⟩
  have t := r.tiled.perm hp
  rcases hbud.cases hal with ⟨rfl, hal'⟩ | ⟨rfl, hal'⟩
  · -- the freed chunk is the left half
    rw [if_neg (by omega)]
    refine ((t.perm (List.Perm.swap _ _ _)).merge hal' hk ?_ ?_).perm perm_middle.symm
    · simp
    · intro i h1 h2
      simp [update_of_ne h1, update_of_ne h2]
  · -- the buddy is the left half
    rw [if_pos (by omega)]
    refine (t.merge hal' hk ?_ ?_).perm perm_middle.symm
    · simp
    · intro i h1 h2
      simp [update_of_ne h1, update_of_ne h2]

omit r in
/-- Handing out a held chunk: the flags of its pages get set. -/
theorem hand_out (r : Rep S n m free (⟨h, k⟩ :: held) live)
    (hin : ∀ i ∈ (⟨h, k⟩ : Chunk), isAllocated (fl i) = true)
    (hout : ∀ i, i ∉ (⟨h, k⟩ : Chunk) → fl i = m.flags i) :
    Rep S n { m with flags := fl } free held (⟨h, k⟩ :: live) := by
  have hp : (allChunks free (⟨h, k⟩ :: held) live).Perm (allChunks free held (⟨h, k⟩ :: live)) :=
    perm_middle.symm.append_left _
  refine ⟨r.start, r.size, r.fwd, r.bwd, r.nr, r.tiled.perm hp, fun i hi => ?_, r.coalesced⟩
  by_cases hic : i ∈ (⟨h, k⟩ : Chunk)
  · simp only [hin i hic, true_iff]
    exact ⟨_, mem_cons_self, hic⟩
  · simp only [hout i hic, r.alloc i hi, mem_cons, exists_eq_or_imp, hic, false_or]

/-- Taking back a chunk: the flags of its pages get cleared. -/
theorem take_back (hc : c ∈ live) (hin : ∀ i ∈ c, isAllocated (fl i) = false)
    (hout : ∀ i, i ∉ c → fl i = m.flags i) :
    Rep S n { m with flags := fl } free (c :: held) (live.erase c) := by
  have hpl : live.Perm (c :: live.erase c) := perm_cons_erase hc
  have hp : (allChunks free held live).Perm (allChunks free (c :: held) (live.erase c)) :=
    ((hpl.append_left held).trans perm_middle).append_left _
  have t := r.tiled.perm hp
  refine ⟨r.start, r.size, r.fwd, r.bwd, r.nr, t, fun i hi => ?_, r.coalesced⟩
  by_cases hic : i ∈ c
  · simp only [hin i hic, Bool.false_eq_true, false_iff]
    rintro ⟨d, hd, hid⟩
    have hp' : (allChunks free (c :: held) (live.erase c)).Perm
        (c :: allChunks free held (live.erase c)) := perm_middle
    exact (t.perm hp').not_mem_rest hic (mem_live hd) hid
  · have hiff : (∃ d ∈ live, i ∈ d) ↔ ∃ d ∈ live.erase c, i ∈ d := by
      constructor
      · rintro ⟨d, hd, hid⟩
        rcases mem_cons.mp (hpl.mem_iff.mp hd) with rfl | hd
        · exact absurd hid hic
        · exact ⟨d, hd, hid⟩
      · rintro ⟨d, hd, hid⟩
        exact ⟨d, mem_of_mem_erase hd, hid⟩
    simp only [hout i hic, r.alloc i hi, hiff]

/-- The log entry is not part of what the pool stands for. -/
theorem setLog (log : LogEntry) : Rep S n (m.setLog log) free held live :=
  ⟨r.start, r.size, r.fwd, r.bwd, r.nr, r.tiled, r.alloc, r.coalesced⟩

end

end Rep

end Starfish.Buddy
