import Starfish.Buddy.Runs

/-!
# Starfish.Buddy.Recovery

The recovery code of `kernel/mm/buddy.c`: `apply_latest_log` looks at the log
entry of the pool and undoes an allocation or redoes a free that did not
commit.

A `for_each_in_list` loop over a free list that does not come back to the head
within as many steps as the pool has pages goes around in a cycle; it is
modelled as the endless loop that it is.
-/

namespace Starfish.Buddy

open Function Nat Starfish.Buddy.Rep Prog List PhysMemPool Chunk

attribute [local simp] nodes

/-! ## The recovery functions -/

/-- More steps than a walk over a list of pages can take. -/
def walkFuel (m : PhysMemPool) : ℕ := m.poolMemSize / buddyPageSize + 1

/-- The counting loop of `recover_nr_free`. -/
def countNodes (k : ℕ) : ℕ → Node → Prog PhysMemPool Unit
  | 0, _ => bug
  | fuel + 1, iter =>
    if iter = .freeList k then
      pure ()
    else do
      store fun m => m.setNrFree k (m.nrFree k + 1)
      let next ← read (·.links.next iter)
      countNodes k fuel next

/-- `recover_nr_free` -/
def recoverNrFree (k : ℕ) : Prog PhysMemPool Unit := do
  store (·.setNrFree k 0)
  let fuel ← read walkFuel
  let first ← read (·.links.next (.freeList k))
  countNodes k fuel first

/-- The two search loops that merging and redoing share: remove `chunk` from
free list `k` if it is linked there, completely or not. -/
def unlinkChunk (chunk k : ℕ) : Prog PhysMemPool Unit := do
  let fuel ← read walkFuel
  onLinks (delIfLinked fuel (.page chunk) (.freeList k))

/-- `merge_chunk2` -/
def mergeChunk2 (targetOrder : ℕ) : ℕ → ℕ → Prog PhysMemPool ℕ
  | 0, _ => bug
  | fuel + 1, chunk => do
    let cur ← read (·.order chunk)
    if cur = targetOrder then
      pure chunk
    else do
      let buddyChunk ← getBuddyChunk chunk
      match buddyChunk with
      | none => bug
      | some buddyChunk => do
        unlinkChunk buddyChunk cur
        recoverNrFree cur
        store fun m => m.setOrder chunk (m.order chunk + 1)
        store fun m => m.setOrder buddyChunk (m.order chunk)
        mergeChunk2 targetOrder fuel (if chunk > buddyChunk then buddyChunk else chunk)

/-- `merge_chunk3` -/
def mergeChunk3 : ℕ → ℕ → Prog PhysMemPool ℕ
  | 0, _ => bug
  | fuel + 1, chunk => do
    let cur ← read (·.order chunk)
    if cur = buddyMaxOrder - 1 then
      pure chunk
    else do
      let buddyChunk ← getBuddyChunk chunk
      match buddyChunk with
      | none => pure chunk
      | some buddyChunk => do
        let allocated ← read (·.pageCheckFlag buddyChunk .allocated)
        let buddyOrder ← read (·.order buddyChunk)
        if allocated ∨ buddyOrder < cur then
          pure chunk
        else do
          unlinkChunk buddyChunk cur
          recoverNrFree cur
          store fun m => m.setOrder chunk (m.order chunk + 1)
          store fun m => m.setOrder buddyChunk (m.order chunk)
          mergeChunk3 fuel (if chunk > buddyChunk then buddyChunk else chunk)

/-- `undo_get_pages` -/
def undoGetPages (log : LogEntry) : Prog PhysMemPool Unit := do
  let page := log.page
  when (log.dedicatedOrder ≠ log.curOrder) do
    store (·.setOrder page log.dedicatedOrder)
    let _ ← mergeChunk2 log.curOrder buddyMaxOrder page
    pure ()
  let order ← read (·.order page)
  bugOn (log.curOrder ≠ order)
  forUpTo (1 <<< order) fun i => pageClearFlag (page + i) .allocated
  onLinks (relinkFirst (.page page) (.freeList log.curOrder))
  recoverNrFree log.curOrder
  let nrFree ← read (·.nrFree log.curOrder)
  bugOn (nrFree ≠ log.listCurNum)

/-- `redo_free_pages` -/
def redoFreePages (log : LogEntry) : Prog PhysMemPool Unit := do
  store (·.setOrder log.page log.dedicatedOrder)
  let order ← read (·.order log.page)
  clearPages log.page order
  let page ← mergeChunk3 buddyMaxOrder log.page
  let order ← read (·.order page)
  unlinkChunk page order
  onLinks (listAdd (.page page) (.freeList order))
  recoverNrFree order

/-- What `apply_latest_log` runs for an open log entry. -/
def replayLog (log : LogEntry) : Prog PhysMemPool Unit :=
  match log.type with
  | .addPages => undoGetPages log
  | .removePages => redoFreePages log

/-- `apply_latest_log`.  The `LOG_DONE` case has no `break`: it falls through
into the default case, which is a `BUG`. -/
def applyLatestLog : Prog PhysMemPool Unit := do
  let log ← read (·.latestLog)
  match log.commited with
  | .init => pure ()
  | .commit => pure ()
  | .done => do
    replayLog log
    bug

/-! ## Counting and unlinking -/

variable {S n : ℕ} {m t : PhysMemPool} {free : ℕ → List ℕ} {live : List Chunk}

theorem wp_countNodes (hC : ∀ v, C (t.setNrFree k v)) (hp : Path t.links.next a xs (.freeList k))
    (hh : Node.freeList k ∉ xs) (hfuel : xs.length < fuel) (v : ℕ) :
    wp (countNodes k fuel (t.links.next a))
      (fun _ t' => t' = t.setNrFree k (v + xs.length)) C (t.setNrFree k v) := by
  induction xs generalizing a fuel v with
  | nil =>
    obtain ⟨fuel, rfl⟩ : ∃ f, fuel = f + 1 := ⟨fuel - 1, by omega⟩
    have ha : t.links.next a = .freeList k := hp
    rw [countNodes, if_pos ha]
    exact wp_pure.mpr rfl
  | cons x xs ih =>
    obtain ⟨fuel, rfl⟩ : ∃ f, fuel = f + 1 := ⟨fuel - 1, by omega⟩
    rw [length_cons] at hfuel
    have hx : x ≠ .freeList k := fun he => hh (he ▸ mem_cons_self)
    have hset : (t.setNrFree k v).setNrFree k ((t.setNrFree k v).nrFree k + 1) =
        t.setNrFree k (v + 1) := by
      simp [setNrFree]
    rw [countNodes, hp.1, if_neg hx]
    simp only [wp_bind, wp_store, wp_read, hset, setNrFree_links]
    refine ⟨hC _, ?_⟩
    have hlt : xs.length < fuel := by omega
    have hrest := ih hp.2 (fun hm => hh (mem_cons_of_mem x hm)) hlt (v + 1)
    have hsum : v + 1 + xs.length = v + (xs.length + 1) := by omega
    rwa [hsum] at hrest

/-- `recover_nr_free` sets the counter to the length of the list. -/
theorem wp_recoverNrFree (hp : Path t.links.next (.freeList k) xs (.freeList k))
    (hh : Node.freeList k ∉ xs) (hfuel : xs.length < walkFuel t)
    (hC : ∀ v, C (t.setNrFree k v)) (hQ : Q () (t.setNrFree k xs.length)) :
    wp (recoverNrFree k) Q C t := by
  simp only [recoverNrFree, wp_bind, wp_store, wp_read]
  refine ⟨hC 0, ?_⟩
  have hcount := wp_countNodes hC hp hh hfuel 0
  rw [zero_add] at hcount
  exact wp_post hcount fun _ t' ht => ht ▸ hQ

/-! ## Undoing an allocation -/

section undo

variable {p c d : ℕ} {xs : List ℕ}

theorem nodes_openedPages (free : ℕ → List ℕ) (xs : List ℕ) (hk : d ≤ k ∧ k ≤ c) :
    nodes (openedPages free p xs d c) k =
      .page (frontPage p c k) :: nodes (update free c xs) k := by
  simp [openedPages, hk]

variable (r : Rep S n m free [] live) (hc : c < buddyMaxOrder) (hf : free c = p :: xs)
include r hc hf

/-- A walk over a list in the middle of an allocation ends in time. -/
theorem Rep.length_openedPages (o : Opened m free p xs d c t) (hk : k < buddyMaxOrder) :
    (nodes (openedPages free p xs d c) k).length < walkFuel t := by
  have hpos : 0 < buddyPageSize := by decide
  have hnd : (openedPages free p xs d c k).Nodup :=
    List.Nodup.of_map Node.page (nodup_cons.mp ((r.apart_opened hc hf).nodup k hk)).2
  have hchunk : (⟨p, c⟩ : Chunk) ∈ allChunks free [] live := mem_free hc (hf ▸ mem_cons_self)
  have hrest : ∀ i ∈ update free c xs k, i < n := by
    intro i hi
    have hik : i ∈ free k := by
      by_cases hkc : k = c
      · subst hkc
        rw [update_self] at hi
        exact hf ▸ mem_cons_of_mem p hi
      · rwa [update_of_ne hkc] at hi
    exact r.tiled.lt_of_mem (mem_free hk hik) (head_mem ⟨i, k⟩)
  have hle : (openedPages free p xs d c k).length ≤ n := by
    refine length_le_of_lt hnd fun i hi => ?_
    unfold openedPages at hi
    split at hi
    next h =>
      cases mem_cons.mp hi with
      | inl he => exact r.tiled.lt_of_mem hchunk (he ▸ frontPage_mem h.2)
      | inr hi => exact hrest i hi
    next => exact hrest i hi
  rw [nodes, length_map, walkFuel, o.size, r.size, Nat.mul_div_cancel _ hpos]
  omega

/-- Unlinking the front page of the lowest list takes that list out of the
allocation. -/
theorem Rep.openedLinks_succ (hjc : j < c)
    (w : Walks Node.freeList (· < buddyMaxOrder) L' (update fw j (nodes free j))
      (update bw j (nodes free j)) (nodes (openedPages free p xs j c)))
    (hlev : ∀ k, (j ≤ k ∧ k ≤ c → Front L (.freeList k) (.page (frontPage p c k))
        (nodes (update free c xs) k) (fw k) (bw k)) ∧
      (¬ (j ≤ k ∧ k ≤ c) → fw k = nodes free k ∧ bw k = nodes free k))
    (hnext : ∀ y, y ≠ .freeList j → L'.next y = L.next y)
    (hprev : ∀ y, y ∉ Node.freeList j :: nodes free j → L'.prev y = L.prev y) :
    OpenedLinks free p xs (j + 1) c L' := by
  have hj : j < buddyMaxOrder := by omega
  refine r.openedLinks hc hf hjc w.fwd w.bwd (fun k hjk hkc => ?_) fun k hk => ?_
  · have hkj : k ≠ j := by omega
    have hk : k < buddyMaxOrder := by omega
    have hfr := (hlev k).1 ⟨by omega, hkc⟩
    rw [update_of_ne hkj, update_of_ne hkj]
    refine hfr.congr (fun _ => hnext _ (by simp)) fun _ => hprev _ fun hm => ?_
    -- the front page of list `k` is in list `k` only
    have hk' : Node.page (frontPage p c k) ∈
        Node.freeList k :: nodes (openedPages free p xs j c) k := by
      rw [nodes_openedPages free xs ⟨by omega, hkc⟩]
      exact mem_cons_of_mem _ mem_cons_self
    have hj' : Node.page (frontPage p c k) ∈
        Node.freeList j :: nodes (openedPages free p xs j c) j := by
      have hsub := w.fwdSub j hj
      rw [update_self] at hsub
      exact (hsub.cons_cons _).subset hm
    exact w.apart.disj k j hk hj hkj _ hk' hj'
  · by_cases hkj : k = j
    · subst hkj
      rw [update_self, update_self]
      exact ⟨rfl, rfl⟩
    · rw [update_of_ne hkj, update_of_ne hkj]
      exact (hlev k).2 (by omega)

omit r hc hf in
/-- The memory once the right half of order `j` is back in the chunk. -/
theorem Opened.close (o : Opened m free p xs d c t) (hdc : d < c) (hord : m.order p = c)
    (hL : OpenedLinks free p xs (d + 1) c L) :
    Opened m free p xs (d + 1) c
      ((((t.setLinks L).setNrFree d (m.nrFree d)).setOrder p (d + 1)).setOrder (p + 2 ^ d)
        (d + 1)) := by
  have hpos : 0 < 2 ^ d := Nat.two_pow_pos d
  have hfront : frontPage p c d = p + 2 ^ d := if_neg (by omega)
  have hp : p ∈ (⟨p, c⟩ : Chunk) := head_mem ⟨p, c⟩
  have hb : p + 2 ^ d ∈ (⟨p, c⟩ : Chunk) := hfront ▸ frontPage_mem (by omega)
  refine ⟨o.start, o.size, o.log, o.flagsIn, o.flagsOut, fun i hi => ?_, fun he => ?_,
    fun k hk => ?_, hL⟩
  · have h1 : i ≠ p := fun he => hi (he ▸ hp)
    have h2 : i ≠ p + 2 ^ d := fun he => hi (he ▸ hb)
    simp [update_of_ne h1, update_of_ne h2, o.order i hi]
  · simp [hord, he]
  · by_cases hkd : k = d
    · subst hkd
      simp
    · simp [update_of_ne hkd, o.nr k (by omega)]

theorem Opened.wp_mergeChunk2 (hjc : j ≤ c) (hfuel : c - j < fuel)
    (o : Opened m free p xs j c t) (hord : t.order p = j) :
    wp (mergeChunk2 c fuel p) (fun _ t' => Opened m free p xs c c t') anyCrash t := by
  induction fuel generalizing t j with
  | zero => omega
  | succ fuel ih =>
    rw [mergeChunk2, wp_bind, wp_read, hord, wp_ite]
    refine ⟨fun he => ?_, fun hne => ?_⟩
    · subst he
      exact wp_pure.mpr o
    · have hlt : j < c := by omega
      have hj : j < buddyMaxOrder := by omega
      have hchunk : (⟨p, c⟩ : Chunk) ∈ allChunks free [] live :=
        mem_free hc (hf ▸ mem_cons_self)
      have hin := r.tiled.le_of_mem hchunk
      have hpow : 2 ^ (j + 1) ≤ 2 ^ c := Nat.pow_le_pow_right Nat.zero_lt_two hlt
      have hsum : 2 ^ (j + 1) = 2 ^ j + 2 ^ j := by rw [pow_succ]; ring
      have hpos : 0 < 2 ^ j := Nat.two_pow_pos j
      simp only at hin
      have hal : (⟨p, j + 1⟩ : Chunk).Aligned S :=
        Nat.dvd_trans (Nat.pow_dvd_pow 2 hlt) (r.tiled.aligned _ hchunk)
      have hbuddy : buddyOf S n j p = some (p + 2 ^ j) :=
        buddyOf_eq_some.mpr ⟨isBuddy_of_aligned hal, by omega⟩
      rw [wp_bind]
      refine wp_getBuddyChunk (o.start.trans r.start) (o.size.trans r.size) (by omega) ?_
      rw [hord, hbuddy]
      -- unlink the right half, if it got linked at all
      have hfront : frontPage p c j = p + 2 ^ j := if_neg hne
      have hrest : nodes (update free c xs) j = nodes free j := by
        simp [update_of_ne hne]
      obtain ⟨fw, bw, w, hlev⟩ := o.links
      have hfr := (hlev j).1 ⟨le_refl j, hjc⟩
      have hys := nodes_openedPages (p := p) free xs ⟨le_refl j, hjc⟩
      rw [hfront, hrest] at hfr hys
      have hlen := r.length_openedPages hc hf o hj
      simp only [unlinkChunk, wp_bind, wp_read, wp_onLinks]
      refine w.wp_delIfLinked hj hfr hys hlen (fun _ => trivial) fun L w' hnext hprev => ?_
      -- count what is left of the list
      have hpath := w'.fwd j hj
      rw [update_self] at hpath
      have hcount : (nodes free j).length = m.nrFree j := by
        rw [nodes, length_map, r.nr j hj]
      rw [hys, length_cons] at hlen
      refine wp_recoverNrFree (t := t.setLinks L) hpath (r.apart.head_notMem hj)
        (lt_of_succ_lt hlen) (fun _ => trivial) ?_
      rw [hcount]
      have ho' := o.close hlt (r.tiled.order _ hchunk) (r.openedLinks_succ hc hf hlt w' hlev
        hnext hprev)
      have hself : ((t.setLinks L).setNrFree j (m.nrFree j)).order p = j := hord
      simp only [wp_store, hself, setOrder_order, update_self,
        gt_iff_lt, not_lt.mpr (le_add_right p (2 ^ j)), if_false]
      refine ⟨trivial, trivial, ih hlt (by omega) ho' ?_⟩
      simp

omit r hc hf in
/-- The loop of `undo_get_pages` that resets the flags of the chunk. -/
theorem Opened.wp_resetFlags (o : Opened m free p xs d c t) :
    wp (forUpTo (1 <<< c) fun i => pageClearFlag (p + i) .allocated)
      (fun _ t' => t' = { t with flags := m.flags }) anyCrash t := by
  refine wp_post (wp_forUpTo (I := fun i t' => ∃ fl, t' = { t with flags := fl } ∧
    (∀ x, p ≤ x ∧ x < p + i → fl x = m.flags x) ∧
    ∀ x, ¬ (p ≤ x ∧ x < p + i) → fl x = t.flags x) ?_ fun i t' hi ht => ?_) fun _ t' ht => ?_
  · exact ⟨t.flags, rfl, fun x hx => by omega, fun _ _ => rfl⟩
  · obtain ⟨fl, rfl, hin, hout⟩ := ht
    rw [one_shiftLeft] at hi
    have hpi : p + i ∈ (⟨p, c⟩ : Chunk) := by
      simp only [mem_def]
      omega
    rw [pageClearFlag, wp_store]
    refine ⟨trivial, _, rfl, fun x hx => ?_, fun x hx => ?_⟩
    · by_cases hxi : x = p + i
      · subst hxi
        have hkeep := hout (p + i) (by omega)
        simp only [update_self, hkeep]
        exact o.flagsIn _ hpi
      · rw [update_of_ne hxi]
        exact hin x (by omega)
    · rw [update_of_ne (by omega)]
      exact hout x (by omega)
  · obtain ⟨fl, rfl, hin, hout⟩ := ht
    rw [one_shiftLeft] at hin hout
    have hfl : fl = m.flags := by
      funext x
      by_cases hx : x ∈ (⟨p, c⟩ : Chunk)
      · exact hin x hx
      · exact (hout x hx).trans (o.flagsOut x hx)
    rw [hfl]

/-- The memory `t` has the contents of `m`: the same lists, counters and
flags, and the same orders of all chunks. -/
structure SameContents (m t : PhysMemPool) (live : List Chunk) : Prop where
  lists : ∀ k < buddyMaxOrder, freeListOf t k = freeListOf m k
  nrFree : t.nrFree = m.nrFree
  flags : t.flags = m.flags
  order : ∀ c ∈ freeChunks m ++ live, t.order c.head = m.order c.head

/-- A memory with the links, counters and flags of `m`, and its orders outside
a free chunk and at its head. -/
theorem Rep.of_restored (o : Opened m free p xs c c t) (hF : FreeFwds L free)
    (hB : FreeBwds L free) :
    Rep S n ((({ t with flags := m.flags }).setLinks L).setNrFree c (m.nrFree c)) free [] live ∧
    SameContents m ((({ t with flags := m.flags }).setLinks L).setNrFree c (m.nrFree c)) live := by
  have hchunk : (⟨p, c⟩ : Chunk) ∈ allChunks free [] live := mem_free hc (hf ▸ mem_cons_self)
  have hord : ∀ e ∈ allChunks free [] live, t.order e.head = m.order e.head := by
    intro e he
    by_cases hin : e.head ∈ (⟨p, c⟩ : Chunk)
    · obtain rfl := r.tiled.eq_of_mem he hchunk e.head_mem hin
      exact o.head rfl
    · exact o.order _ hin
  have hnr : update t.nrFree c (m.nrFree c) = m.nrFree := by
    funext k
    by_cases hk : k = c
    · subst hk
      rw [update_self]
    · rw [update_of_ne hk, o.nr k (by omega)]
  have r' : Rep S n ((({ t with flags := m.flags }).setLinks L).setNrFree c (m.nrFree c)) free []
      live := by
    refine ⟨o.start.trans r.start, o.size.trans r.size, hF, hB, fun k hk => ?_, ?_, r.alloc,
      r.coalesced⟩
    · exact (congrFun hnr k).trans (r.nr k hk)
    · exact ⟨r.tiled.tiling, r.tiled.aligned, r.tiled.bound,
        fun e he => (hord e he).trans (r.tiled.order e he)⟩
  refine ⟨r', fun k hk => ?_, hnr, rfl, fun e he => hord e ?_⟩
  · rw [r'.freeListOf_eq hk, r.freeListOf_eq hk]
  · rwa [r.freeChunks_eq, ← nil_append live] at he

/-- `undo_get_pages` in the middle of an allocation puts the chunk back in
front of the list it came from. -/
theorem Opened.wp_undoGetPages (hdc : d ≤ c) (o : Opened m free p xs d c t)
    (hnum : num = m.nrFree c) (kind : LogType) (commited : LogCommit) :
    wp (undoGetPages ⟨commited, kind, p, d, c, num⟩)
      (fun _ t' => Rep S n t' free [] live ∧ SameContents m t' live) anyCrash t := by
  have hchunk : (⟨p, c⟩ : Chunk) ∈ allChunks free [] live := mem_free hc (hf ▸ mem_cons_self)
  have hordc : m.order p = c := r.tiled.order _ hchunk
  have hmerge : wp (when (d ≠ c) do
        store (·.setOrder p d)
        let _ ← mergeChunk2 c buddyMaxOrder p
        pure ())
      (fun _ t' => Opened m free p xs c c t') anyCrash t := by
    refine wp_when.mpr ⟨fun hne => ?_, fun he => ?_⟩
    · have hlt : d < c := by omega
      rw [wp_bind, wp_store, wp_bind]
      refine ⟨trivial, wp_post (Opened.wp_mergeChunk2 r hc hf hdc (by omega)
        (o.setOrder hlt (head_mem ⟨p, c⟩) d) ?_) fun _ t' o' => wp_pure.mpr o'⟩
      simp
    · have he' : d = c := by omega
      exact he' ▸ o
  rw [undoGetPages, wp_bind]
  refine wp_post hmerge fun _ t' o' => ?_
  have hord : t'.order p = c := (o'.head rfl).trans hordc
  simp only [wp_bind, wp_read, wp_bugOn, hord, ne_eq, not_true, not_false_eq_true, true_and]
  refine wp_post o'.wp_resetFlags fun _ t'' ht => ?_
  subst ht
  -- link the chunk in front of its list again
  obtain ⟨fw, bw, w, hlev⟩ := o'.links
  have hfr := (hlev c).1 ⟨le_refl c, le_refl c⟩
  have hys := nodes_openedPages (p := p) free xs ⟨le_refl c, le_refl c⟩
  have hfront : frontPage p c c = p := if_pos rfl
  have hrest : nodes (update free c xs) c = xs.map Node.page := by
    simp
  rw [hfront, hrest] at hfr hys
  rw [wp_onLinks]
  refine w.wp_relinkFirst hc hfr hys (fun _ => trivial) fun L w' => ?_
  have hwhole : ∀ {ls : ℕ → List Node}, (∀ k, ¬ (c ≤ k ∧ k ≤ c) → ls k = nodes free k) →
      update ls c (Node.page p :: xs.map Node.page) = nodes free := by
    intro ls hls
    funext k
    by_cases hk : k = c
    · subst hk
      simp [hf]
    · rw [update_of_ne hk]
      exact hls k (by omega)
  have hF := w'.fwd
  have hB := w'.bwd
  rw [hwhole fun k hk => ((hlev k).2 hk).1] at hF
  rw [hwhole fun k hk => ((hlev k).2 hk).2] at hB
  have hcount : (nodes free c).length = m.nrFree c := by
    rw [nodes, length_map, r.nr c hc]
  have hlen := r.length_openedPages hc hf o' hc
  have hsame : nodes (openedPages free p xs c c) c = nodes free c := by
    rw [hys]
    simp [hf]
  rw [hsame] at hlen
  refine wp_recoverNrFree (hF c hc) (r.apart.head_notMem hc) hlen (fun _ => trivial) ?_
  rw [hcount]
  refine ⟨?_, r.of_restored hc hf o' hF hB⟩
  simp [hnum]

end undo

/-! ## Redoing a free -/

section redo

variable {held : List Chunk}

section

variable (r : Rep S n m free held live)
include r

theorem Rep.walks :
    Walks Node.freeList (· < buddyMaxOrder) m.links (nodes free) (nodes free) (nodes free) :=
  ⟨r.apart, r.fwd, r.bwd, fun _ _ => List.Sublist.refl _, fun _ _ => List.Sublist.refl _⟩

theorem Rep.length_nodes (hk : k < buddyMaxOrder) : (nodes free k).length < walkFuel m := by
  have hpos : 0 < buddyPageSize := by decide
  have hle : (free k).length ≤ n :=
    length_le_of_lt (List.Nodup.of_map Node.page (nodup_cons.mp (r.apart.nodup k hk)).2)
      fun i hi => r.tiled.lt_of_mem (mem_free hk hi) (head_mem ⟨i, k⟩)
  rw [nodes, length_map, walkFuel, r.size, Nat.mul_div_cancel _ hpos]
  omega

/-- On whole lists, unlinking is `list_del` of a linked page. -/
theorem Rep.wp_unlinkChunk (hk : k < buddyMaxOrder) : wp (unlinkChunk h k) Q C m ↔
      (h ∈ free k → wp (onLinks (listDel (.page h))) Q C m) ∧ (h ∉ free k → Q () m) := by
  have hmem : Node.page h ∈ nodes free k ↔ h ∈ free k := by simp
  rw [unlinkChunk, wp_bind, wp_read, wp_onLinks,
    r.walks.wp_delIfLinked_iff hk (r.length_nodes hk), or_self, hmem, wp_onLinks]
  rfl

end

/-- On whole lists, `merge_chunk3` does what `merge_chunk` does. -/
theorem Rep.wp_mergeChunk3 (r : Rep S n m free [⟨h, j⟩] live) (hfuel : buddyMaxOrder ≤ fuel + j) :
    wp (mergeChunk3 fuel h) (fun p t => (mergeChunk fuel h).outcome m = .ok p t) anyCrash m := by
  induction fuel generalizing m free j h with
  | zero =>
    have := r.of_held.2.1
    omega
  | succ fuel ih =>
    obtain ⟨hord, hj, hal, hin⟩ := r.of_held
    have hpos : 0 < 2 ^ j := Nat.two_pow_pos j
    rw [mergeChunk3, mergeChunk, outcome_read_bind, wp_bind, wp_read, hord]
    by_cases hmax : j = buddyMaxOrder - 1
    · rw [if_pos hmax, if_pos hmax]
      exact wp_pure.mpr rfl
    · rw [if_neg hmax, if_neg hmax]
      obtain ⟨-, b, t, hget, hb, ht⟩ := wp_getBuddyChunk (C := anyCrash)
        (Q := fun b t => b = buddyOf S n (m.order h) h ∧ t = m) r.start r.size (by omega)
        ⟨rfl, rfl⟩
      rw [hb, ht] at hget
      rw [outcome_bind hget, hord, wp_bind]
      refine wp_getBuddyChunk r.start r.size (by omega) ?_
      rw [hord]
      cases hbud : buddyOf S n j h with
      | none => exact wp_pure.mpr rfl
      | some b =>
        obtain ⟨hb, hbn⟩ := buddyOf_eq_some.mp hbud
        simp only [outcome_read_bind, wp_bind, wp_read, pageCheckFlag_allocated]
        by_cases hall : isAllocated (m.flags b) = true
        · rw [if_pos (.inl hall), if_pos (.inl hall)]
          exact wp_pure.mpr rfl
        · -- a free buddy is not larger, so the two tests of its order agree
          obtain ⟨hle, hbf⟩ := r.free_buddy hb hbn (Bool.eq_false_iff.mpr hall)
          by_cases hordb : m.order b = j
          · have hgo : ¬ (isAllocated (m.flags b) = true ∨ m.order b ≠ j) := by
              simp [hall, hordb]
            have hgo' : ¬ (isAllocated (m.flags b) = true ∨ m.order b < j) := by
              simp [hall, hordb]
            rw [if_neg hgo, if_neg hgo']
            rw [hordb] at hbf
            obtain ⟨as, bs, hf⟩ := append_of_mem hbf
            obtain ⟨_, _, hdel, L, rfl, hF, hB⟩ := wp_outcome (r.wp_listDel (C := anyCrash) hj hf
              (fun _ _ _ _ _ => trivial) fun _ _ _ => trivial)
            have hbh : h ≠ b := hb.ne hal
            have r₁ := r.remove hj hf hF hB
            have hcount : (nodes (update free j (as ++ bs)) j).length = m.nrFree j - 1 := by
              rw [r.nr j hj, hf]
              simp
            rw [wp_bind]
            refine (r.wp_unlinkChunk hj).mpr ⟨fun _ => wp_of_outcome hdel ?_,
              fun hno => absurd hbf hno⟩
            rw [wp_bind]
            refine wp_recoverNrFree (hF j hj) (r₁.apart.head_notMem hj) (r₁.length_nodes hj)
              (fun _ => trivial) ?_
            rw [hcount, outcome_bind hdel]
            simp only [outcome_store_bind, wp_bind, wp_store, hordb, hord, update_self,
              update_of_ne hbh,
              setNrFree_order, setLinks_order,
              setOrder_order]
            rw [setOrder_comm _ hbh]
            exact ⟨trivial, trivial, ih (r₁.merge hb (by omega)) (by omega)⟩
          · have hlt : m.order b < j := by omega
            rw [if_pos (.inr hlt), if_pos (.inr hordb)]
            exact wp_pure.mpr rfl

/-- `redo_free_pages` in the memory in which a free only has its log entry
does what the free would have done. -/
theorem Rep.wp_redoFreePages (r : Rep S n m free [] live) (hc : (⟨h, k⟩ : Chunk) ∈ live) :
    wp (redoFreePages (freeLogged .sls m h).latestLog)
      (fun _ t => ∃ post, (buddyFreePages .sls h).outcome m = .ok () post ∧
        t = post.setLog (freeLogged .sls m h).latestLog)
      anyCrash (freeLogged .sls m h) := by
  have hord : m.order h = k := r.tiled.order _ (mem_live hc)
  have r₁ := r.of_freeLogged .sls h
  have hlog : (when Build.sls.logsFree (prepareLatestLog .removePages h k 0)).outcome m =
      .ok () (freeLogged .sls m h) := by
    have hprep : wp (when Build.sls.logsFree (prepareLatestLog .removePages h k 0))
        (fun _ t => t = freeLogged .sls m h) anyCrash m := by
      refine wp_when.mpr ⟨fun hb => ?_, fun hb => absurd rfl hb⟩
      refine wp_prepareLatestLog (fun _ _ => trivial) ⟨trivial, ?_⟩
      rw [freeLogged, if_pos hb, hord]
    obtain ⟨_, t, ht, rfl⟩ := wp_outcome hprep
    exact ht
  have hset : (freeLogged .sls m h).setOrder h k = freeLogged .sls m h := by
    have hk : (freeLogged .sls m h).order h = k := hord
    rw [← hk, setOrder, update_eq_self]
  have hentry : (freeLogged .sls m h).latestLog = ⟨.done, .removePages, h, k, 0, m.nrFree 0⟩ :=
    hord ▸ rfl
  obtain ⟨_, t1, hclear, fl, rfl, hin, hkeep⟩ := wp_outcome (r₁.wp_clearPages hc)
  rw [one_shiftLeft] at hin hkeep
  have r2 := r₁.take_back hc (fun i hi => hin i hi.1 hi.2) hkeep
  obtain ⟨p, t2, hmerge, hu, free', j, r3, hbud⟩ :=
    wp_outcome (wp_mergeChunk r2 (le_add_right buddyMaxOrder k) ⟨rfl, rfl⟩)
  obtain ⟨hordp, hj, -, -⟩ := r3.of_held
  obtain ⟨_, _, hadd, L, rfl, hF, hB⟩ := wp_outcome (r3.wp_listAdd (C := anyCrash)
    (fun _ _ _ => trivial) (fun _ _ _ _ _ => trivial) fun _ _ _ => trivial)
  have r4 := r3.insert hbud hF hB
  have hpost : (buddyFreePages .sls h).outcome m =
      .ok () (((t2.setLinks L).setNrFree j (t2.nrFree j + 1)).setLog
        { t2.latestLog with commited := .commit }) := by
    rw [buddyFreePages, outcome_read_bind, hord, outcome_bind hlog, outcome_bind hclear,
      outcome_bind hmerge, outcome_read_bind, hordp, outcome_bind hadd]
    rfl
  have hcount : (nodes (update free' j (p :: free' j)) j).length = t2.nrFree j + 1 := by
    rw [r3.nr j hj]
    simp
  obtain ⟨q, t, hmerge3, hq⟩ := wp_outcome (r2.wp_mergeChunk3 (le_add_right buddyMaxOrder k))
  rw [hmerge] at hq
  injection hq with hpq htt
  subst hpq htt
  rw [hentry, redoFreePages, wp_bind, wp_store, hset, wp_bind, wp_read, wp_bind]
  refine ⟨trivial, wp_of_outcome (hord ▸ hclear) (wp_bind.mpr (wp_of_outcome hmerge3 ?_))⟩
  rw [wp_bind, wp_read, hordp, wp_bind, r3.wp_unlinkChunk hj]
  refine ⟨fun hm => absurd hm (r3.notMem_free_of_held mem_cons_self hj), fun _ => ?_⟩
  rw [wp_bind]
  refine wp_of_outcome hadd (wp_recoverNrFree (hF j hj) (r4.apart.head_notMem hj)
    (r4.length_nodes hj) (fun _ => trivial) ⟨_, hpost, ?_⟩)
  rw [hcount, setLog_setLog, ← hentry, ← hu.2]
  rfl

end redo

/-! ## What recovery finds after a crash -/

theorem applyLatestLog_idle (h : t.latestLog.commited ≠ .done) :
    applyLatestLog.run t = ([], .ok () t) := by
  cases hc : t.latestLog.commited with
  | init | commit => simp [applyLatestLog, Bind.bind, Prog.bind, Prog.read, Prog.run, hc, Pure.pure]
  | done => exact absurd hc h

/-- With an open log entry, `apply_latest_log` ends in a `BUG`. -/
theorem applyLatestLog_done (h : t.latestLog.commited = .done) :
    ∃ t', applyLatestLog.outcome t = .bug t' := by
  rw [applyLatestLog, outcome_read_bind, h]
  exact outcome_bind_bug fun _ => rfl

section

variable {startAddr pageNum : ℕ}

theorem Reachable.not_done (hm : Reachable build (S * buddyPageSize) n m₀ m live)
    (hlog : m₀.latestLog.commited = .init) : m.latestLog.commited ≠ .done := by
  cases hm.rep_settled.1 with
  | inl h =>
    rw [h]
    decide
  | inr h =>
    rw [h, hlog]
    decide

/-- The chunks handed out after an allocation. -/
def liveAfter (live : List Chunk) (order : ℤ) : Option ℕ → List Chunk
  | none => live
  | some page => ⟨page, order.toNat⟩ :: live

theorem Rep.after_get (r : Rep S n m free [] live) {order : ℤ}
    (h : (buddyGetPages build order).outcome m = .ok res t) :
    Settled m t ∧ ∃ free', Rep S n t free' [] (liveAfter live order res) := by
  have hr := wlp_of_wp (wp_buddyGetPages build order r) _ _ h
  cases res with
  | none => exact ⟨hr.1, free, hr.2.1⟩
  | some page => exact ⟨hr.1, hr.2.2.2⟩

theorem Rep.after_free (r : Rep S n m free [] live) (hc : c ∈ live)
    (h : (buddyFreePages build c.head).outcome m = .ok () t) :
    Settled m t ∧ ∃ free', Rep S n t free' [] (live.erase c) :=
  wlp_of_wp (wp_buddyFreePages build r hc) _ _ h

theorem Settled.not_done (h : Settled m t) (hm : m.latestLog.commited ≠ .done) :
    t.latestLog.commited ≠ .done := by
  cases h with
  | inl h =>
    rw [h]
    decide
  | inr h => rwa [h]

/-- Undoing an allocation that was stopped in the middle. -/
theorem Rep.undo_opened (r : Rep S n m free [] live) (hb : build.logsGet = true)
    (hf : free c = p :: xs) (hdc : d ≤ c) (hc : c < buddyMaxOrder)
    (o : Opened (getLogged build m p d c) free p xs d c t) :
    t.latestLog.commited = .done ∧ ∃ t', (undoGetPages t.latestLog).outcome t = .ok () t' ∧
      SameContents m t' live ∧ Partitioned (S * buddyPageSize) n t' live := by
  have hopen := o.log
  rw [getLogged, if_pos hb] at o hopen
  obtain ⟨_, t', ht, r', hsame⟩ := wp_outcome
    (o.wp_undoGetPages (r.setLog _) hc hf hdc rfl .addPages .done)
  rw [hopen]
  exact ⟨rfl, t', ht, ⟨hsame.lists, hsame.nrFree, hsame.flags, hsame.order⟩, r'.partitioned⟩

/-- Redoing a free that was stopped before it changed more than the log. -/
theorem Rep.redo_logged (r : Rep S n m free [] live) (hb : build.logsFree = true)
    (hc : c ∈ live) (ht : t = freeLogged build m c.head) :
    ∃ post t', (buddyFreePages build c.head).outcome m = .ok () post ∧
      (redoFreePages t.latestLog).outcome t = .ok () t' ∧ t' = post.setLog t.latestLog ∧
      Partitioned (S * buddyPageSize) n t' (live.erase c) := by
  obtain rfl : build = .sls := by
    cases build with
    | plain | ssiSls => exact absurd hb (by decide)
    | sls => rfl
  subst ht
  obtain ⟨_, t', hredo, post, hpost, rfl⟩ := wp_outcome (r.wp_redoFreePages hc)
  obtain ⟨-, free', r'⟩ := r.after_free hc hpost
  exact ⟨post, _, hpost, hredo, rfl, (r'.setLog _).partitioned⟩

end

end Starfish.Buddy
