import Starfish.Buddy.Invariant
import Starfish.Halfway

/-!
# Starfish.Buddy.Opened

A pool in the middle of an allocation.  `buddy_get_pages` takes the first
chunk `p` of list `c` and cuts it down to order `d`, putting one right half in
front of each list from `c - 1` down to `d`.  Until it returns, the memory
differs from the one it started with only inside the chunk, in the counters
of these lists, and in how far the front node of each of them is linked
(`Opened`); each store of the call keeps that.
-/

namespace Starfish.Buddy

open Function Prog List Chunk PageFlag

/-! ## The pages that change lists -/

/-- The page that the cutting of the chunk at `p` puts in front of list `k`;
for the list the chunk comes from, the chunk itself. -/
def frontPage (p c k : ℕ) : ℕ := if k = c then p else p + 2 ^ k

/-- The free lists once the chunk at `p` is off list `c`, which leaves `xs`
there, and is cut down to order `j`. -/
def openedLists (free : ℕ → List ℕ) (p : ℕ) (xs : List ℕ) (c j : ℕ) : ℕ → List ℕ := fun k =>
  if k = c then xs else if j ≤ k ∧ k < c then (p + 2 ^ k) :: free k else free k

/-- All pages the lists can hold while the chunk is cut down to order `d`. -/
def openedPages (free : ℕ → List ℕ) (p : ℕ) (xs : List ℕ) (d c : ℕ) : ℕ → List ℕ := fun k =>
  if d ≤ k ∧ k ≤ c then frontPage p c k :: update free c xs k
  else update free c xs k

section

theorem frontPage_mem (hk : k ≤ c) : frontPage p c k ∈ (⟨p, c⟩ : Chunk) := by
  unfold frontPage
  rw [mem_def]
  split
  · have hpos : 0 < 2 ^ c := Nat.two_pow_pos c
    simp only
    omega
  · have hlt : 2 ^ k < 2 ^ c := Nat.pow_lt_pow_right Nat.one_lt_two (by omega)
    have hpos : 0 < 2 ^ k := Nat.two_pow_pos k
    simp only
    omega

theorem frontPage_inj (he : frontPage p c j = frontPage p c k) : j = k := by
  have hj : 0 < 2 ^ j := Nat.two_pow_pos j
  have hk : 0 < 2 ^ k := Nat.two_pow_pos k
  unfold frontPage at he
  split at he <;> split at he
  · omega
  · omega
  · omega
  · exact Nat.pow_right_injective (Nat.le_refl 2) (by simp only; omega)

theorem openedLists_self : openedLists free p xs c c = update free c xs := by
  funext k
  by_cases hk : k = c
  · subst hk
    simp [openedLists]
  · have hno : ¬ (c ≤ k ∧ k < c) := by omega
    rw [openedLists, if_neg hk, if_neg hno, update_of_ne hk]

theorem openedLists_succ (hj : j < c) : update (openedLists free p xs c (j + 1)) j
      ((p + 2 ^ j) :: openedLists free p xs c (j + 1) j) = openedLists free p xs c j := by
  funext k
  by_cases hk : k = j
  · subst hk
    rw [update_self]
    simp [openedLists, hj, Nat.ne_of_lt hj]
  · rw [update_of_ne hk]
    have hiff : (j + 1 ≤ k ∧ k < c) ↔ (j ≤ k ∧ k < c) := by omega
    simp only [openedLists, hiff]

theorem openedLists_of_lt (hk : k < j) (hjc : j ≤ c) : openedLists free p xs c j k = free k := by
  have hkc : k ≠ c := by omega
  have hno : ¬ (j ≤ k ∧ k < c) := by omega
  rw [openedLists, if_neg hkc, if_neg hno]

/-- The rests of the lists hold no page of the chunk. -/
theorem Rep.notMem_chunk_of_rest (r : Rep S n m free [] live) (hc : c < buddyMaxOrder)
    (hf : free c = p :: xs) (hk : k < buddyMaxOrder)
    (hi : i ∈ update free c xs k) : i ∉ (⟨p, c⟩ : Chunk) := by
  intro hic
  have hpc : (⟨p, c⟩ : Chunk) ∈ allChunks free [] live := Rep.mem_free hc (hf ▸ mem_cons_self)
  by_cases hkc : k = c
  · subst hkc
    rw [update_self] at hi
    have hik : (⟨i, k⟩ : Chunk) ∈ allChunks free [] live :=
      Rep.mem_free hk (hf ▸ mem_cons_of_mem p hi)
    obtain rfl := (mk.inj (r.tiled.eq_of_mem hik hpc (head_mem ⟨i, k⟩) hic)).1
    have hnd := List.Nodup.of_map Node.page (nodup_cons.mp (r.apart.nodup k hk)).2
    rw [hf] at hnd
    exact (nodup_cons.mp hnd).1 hi
  · rw [update_of_ne hkc] at hi
    have hik : (⟨i, k⟩ : Chunk) ∈ allChunks free [] live := Rep.mem_free hk hi
    exact hkc (mk.inj (r.tiled.eq_of_mem hik hpc (head_mem ⟨i, k⟩) hic)).2

/-- Lists of pages that share no page give lists of nodes that share no node. -/
theorem apart_nodes {l : ℕ → List ℕ} (hnd : ∀ k < buddyMaxOrder, (l k).Nodup)
    (hdisj : ∀ j k, j < buddyMaxOrder → k < buddyMaxOrder → j ≠ k → ∀ i ∈ l j, i ∉ l k) :
    Apart Node.freeList (· < buddyMaxOrder) (nodes l) := by
  refine ⟨fun k hk => nodup_cons.mpr ⟨by simp [nodes], ?_⟩, fun j k hj hk hjk x hx hx' => ?_⟩
  · exact (hnd k hk).map fun a b hab => Node.page.inj hab
  · simp only [nodes, mem_cons, mem_map] at hx hx'
    cases x with
    | freeList i =>
      simp only [Node.freeList.injEq, reduceCtorEq, and_false, exists_false, or_false] at hx hx'
      exact hjk (hx.symm.trans hx')
    | page i =>
      simp only [Node.page.injEq, reduceCtorEq, false_or, exists_eq_right] at hx hx'
      exact hdisj j k hj hk hjk i hx hx'

theorem Rep.apart_opened (r : Rep S n m free [] live) (hc : c < buddyMaxOrder)
    (hf : free c = p :: xs) :
    Apart Node.freeList (· < buddyMaxOrder) (nodes (openedPages free p xs d c)) := by
  have hsub : ∀ k, (update free c xs k).Sublist (free k) := by
    intro k
    by_cases hkc : k = c
    · subst hkc
      rw [update_self, hf]
      exact sublist_cons_self p xs
    · rw [update_of_ne hkc]
  have hmem : ∀ {k i}, i ∈ openedPages free p xs d c k →
      (k ≤ c ∧ i = frontPage p c k) ∨ i ∈ update free c xs k := by
    intro k i hi
    unfold openedPages at hi
    split at hi
    next h =>
      cases mem_cons.mp hi with
      | inl he => exact .inl ⟨h.2, he⟩
      | inr hi => exact .inr hi
    next => exact .inr hi
  refine apart_nodes (fun k hk => ?_) fun j k hj hk hjk i hi hi' => ?_
  · have hnd : (free k).Nodup := List.Nodup.of_map Node.page (nodup_cons.mp (r.apart.nodup k hk)).2
    unfold openedPages
    split
    next h =>
      refine nodup_cons.mpr ⟨fun hm => ?_, hnd.sublist (hsub k)⟩
      exact r.notMem_chunk_of_rest hc hf hk hm (frontPage_mem h.2)
    next => exact hnd.sublist (hsub k)
  · cases hmem hi with
    | inl h1 =>
      cases hmem hi' with
      | inl h2 => exact hjk (frontPage_inj (h1.2.symm.trans h2.2))
      | inr h2 =>
        exact r.notMem_chunk_of_rest hc hf hk h2 (h1.2 ▸ frontPage_mem h1.1)
    | inr h1 =>
      cases hmem hi' with
      | inl h2 =>
        exact r.notMem_chunk_of_rest hc hf hj h1 (h2.2 ▸ frontPage_mem h2.1)
      | inr h2 =>
        have hn1 : Node.page i ∈ Node.freeList j :: nodes free j :=
          mem_cons_of_mem _ (mem_map_of_mem ((hsub j).subset h1))
        have hn2 : Node.page i ∈ Node.freeList k :: nodes free k :=
          mem_cons_of_mem _ (mem_map_of_mem ((hsub k).subset h2))
        exact r.apart.disj j k hj hk hjk _ hn1 hn2

end

/-! ## Memory in the middle of an allocation -/

/-- A flags word without `PG_allocated`. -/
def clearAllocated (flags : BitVec 32) : BitVec 32 := flags &&& ~~~(1#32 <<< PageFlag.allocated.bit)

theorem clearAllocated_set (f : BitVec 32) :
    clearAllocated (f ||| (1#32 <<< allocated.bit)) = clearAllocated f := by
  unfold clearAllocated
  generalize 1#32 <<< allocated.bit = b
  apply BitVec.eq_of_getLsbD_eq
  intro i hi
  cases hf : f.getLsbD i <;> cases hb : b.getLsbD i <;> simp [hf, hb]

theorem clearAllocated_clear (f : BitVec 32) :
    clearAllocated (f &&& ~~~(1#32 <<< allocated.bit)) = clearAllocated f := by
  unfold clearAllocated
  rw [BitVec.and_assoc, BitVec.and_self]

theorem clearAllocated_eq_self (hf : isAllocated f = false) : clearAllocated f = f := by
  unfold clearAllocated isAllocated bit at *
  rw [BitVec.shiftLeft_zero]
  apply BitVec.eq_of_getLsbD_eq
  intro i hi
  by_cases hi0 : i = 0
  · subst hi0
    rw [BitVec.getLsbD_and, hf, Bool.false_and]
  · rw [BitVec.getLsbD_and, BitVec.getLsbD_not, BitVec.getLsbD_one]
    simp [hi, hi0]

/-- How the lists look while the chunk at `p` is cut down from order `c` to
order `d`: each list in between has its front page linked or not or halfway,
the others are as before. -/
def OpenedLinks (free : ℕ → List ℕ) (p : ℕ) (xs : List ℕ) (d c : ℕ) (L : Links Node) : Prop :=
  ∃ fw bw, Walks Node.freeList (· < buddyMaxOrder) L fw bw (nodes (openedPages free p xs d c)) ∧
    ∀ k,
      (d ≤ k ∧ k ≤ c → Front L (.freeList k) (.page (frontPage p c k))
        (nodes (update free c xs) k) (fw k) (bw k)) ∧
      (¬ (d ≤ k ∧ k ≤ c) → fw k = nodes free k ∧ bw k = nodes free k)

/-- The memory `t` in the middle of an allocation that started in `m`. -/
structure Opened (m : PhysMemPool) (free : ℕ → List ℕ) (p : ℕ) (xs : List ℕ) (d c : ℕ)
    (t : PhysMemPool) : Prop where
  start : t.poolStartAddr = m.poolStartAddr
  size : t.poolMemSize = m.poolMemSize
  log : t.latestLog = m.latestLog
  flagsIn : ∀ i ∈ (⟨p, c⟩ : Chunk), clearAllocated (t.flags i) = m.flags i
  flagsOut : ∀ i, i ∉ (⟨p, c⟩ : Chunk) → t.flags i = m.flags i
  order : ∀ i, i ∉ (⟨p, c⟩ : Chunk) → t.order i = m.order i
  head : d = c → t.order p = m.order p
  nr : ∀ k, ¬ (d ≤ k ∧ k ≤ c) → t.nrFree k = m.nrFree k
  links : OpenedLinks free p xs d c t.links

namespace Opened

variable {S n p d c i k : ℕ} {m t : PhysMemPool} {free : ℕ → List ℕ} {xs : List ℕ}

section

variable (o : Opened m free p xs d c t)
include o

theorem setOrder (hdc : d < c) (hi : i ∈ (⟨p, c⟩ : Chunk))
    (v : ℕ) : Opened m free p xs d c (t.setOrder i v) where
  __ := o
  head he := absurd he (Nat.ne_of_lt hdc)
  order j hj := by
    have hne : j ≠ i := fun he => hj (he ▸ hi)
    simp [update_of_ne hne, o.order j hj]

theorem setFlags (hi : i ∈ (⟨p, c⟩ : Chunk)) (hf : clearAllocated f = clearAllocated (t.flags i)) :
    Opened m free p xs d c (t.setFlags i f) where
  __ := o
  flagsIn j hj := by
    by_cases hji : j = i
    · subst hji
      rw [PhysMemPool.setFlags_flags, update_self, hf, o.flagsIn j hj]
    · simp [update_of_ne hji, o.flagsIn j hj]
  flagsOut j hj := by
    have hne : j ≠ i := fun he => hj (he ▸ hi)
    simp [update_of_ne hne, o.flagsOut j hj]

theorem setNrFree (hk : d ≤ k ∧ k ≤ c) (v : ℕ) : Opened m free p xs d c (t.setNrFree k v) where
  __ := o
  nr j hj := by
    have hne : j ≠ k := fun he => hj (he ▸ hk)
    simp [update_of_ne hne, o.nr j hj]

theorem setLinks (hL : OpenedLinks free p xs d c L) : Opened m free p xs d c (t.setLinks L) where
  __ := o
  links := hL

end

/-- The memory the allocation starts with. -/
theorem refl (r : Rep S n m free [] live) (hc : c < buddyMaxOrder) (hf : free c = p :: xs)
    (hL : OpenedLinks free p xs d c m.links) : Opened m free p xs d c m := by
  have hmem : (⟨p, c⟩ : Chunk) ∈ chunksOf buddyMaxOrder free :=
    mem_chunksOf.mpr ⟨hc, hf ▸ mem_cons_self⟩
  refine ⟨rfl, rfl, rfl, fun i hi => clearAllocated_eq_self ?_, fun _ _ => rfl, fun _ _ => rfl,
    fun _ => rfl, fun _ _ => rfl, hL⟩
  have hin := r.tiled.lt_of_mem (mem_append_left _ hmem) hi
  have hno := r.not_live_of_free hmem hi
  rw [← r.alloc i hin] at hno
  simpa using hno

end Opened

/-! ## The lists along the way -/

section

variable {S n p d c : ℕ} {m : PhysMemPool} {free : ℕ → List ℕ} {live : List Chunk}
  {xs : List ℕ}

section

variable (r : Rep S n m free [] live) (hc : c < buddyMaxOrder) (hf : free c = p :: xs)
include r hc hf

theorem Rep.openedLinks (hdc : d ≤ c) (hF : Fwds Node.freeList (· < buddyMaxOrder) L fw)
    (hB : Bwds Node.freeList (· < buddyMaxOrder) L bw)
    (hin : ∀ k, d ≤ k → k ≤ c → Front L (.freeList k) (.page (frontPage p c k))
      (nodes (update free c xs) k) (fw k) (bw k))
    (hout : ∀ k, ¬ (d ≤ k ∧ k ≤ c) → fw k = nodes free k ∧ bw k = nodes free k) :
    OpenedLinks free p xs d c L := by
  have hys : ∀ k, (fw k).Sublist (nodes (openedPages free p xs d c) k) ∧
      (bw k).Sublist (nodes (openedPages free p xs d c) k) := by
    intro k
    by_cases hk : d ≤ k ∧ k ≤ c
    · have hfr := hin k hk.1 hk.2
      have he : nodes (openedPages free p xs d c) k =
          .page (frontPage p c k) :: nodes (update free c xs) k := by
        simp [nodes, openedPages, hk]
      rw [he]
      exact ⟨hfr.fwd_sublist_bwd.trans hfr.bwd_sublist, hfr.bwd_sublist⟩
    · have he : nodes (openedPages free p xs d c) k = nodes free k := by
        have hkc : k ≠ c := by omega
        rw [nodes, openedPages, if_neg hk, update_of_ne hkc]
        rfl
      rw [he, (hout k hk).1, (hout k hk).2]
      exact ⟨List.Sublist.refl _, List.Sublist.refl _⟩
  exact ⟨fw, bw, ⟨r.apart_opened hc hf, hF, hB, fun k _ => (hys k).1, fun k _ => (hys k).2⟩,
    fun k => ⟨fun hk => hin k hk.1 hk.2, hout k⟩⟩

/-- Before the chunk is taken off its list. -/
theorem Rep.openedLinks_start (hdc : d ≤ c) : OpenedLinks free p xs d c m.links := by
  refine r.openedLinks hc hf hdc r.fwd r.bwd (fun k _ _ => ?_) fun _ _ => ⟨rfl, rfl⟩
  by_cases hkc : k = c
  · subst hkc
    simp only [nodes, update_self, hf, frontPage, if_true, map_cons]
    exact .on
  · simp only [nodes, update_of_ne hkc]
    exact .out

/-- The chunk is off its list for a forward walk only. -/
theorem Rep.openedLinks_taking (hdc : d ≤ c) (hF : FreeFwds L (update free c xs))
    (hB : FreeBwds L free)
    (hnext : L.next (.page p) = (xs.map Node.page).headD (.freeList c))
    (hprev : L.prev (.page p) = .freeList c) : OpenedLinks free p xs d c L := by
  refine r.openedLinks hc hf hdc hF hB (fun k _ _ => ?_) fun k hk => ⟨?_, rfl⟩
  · by_cases hkc : k = c
    · subst hkc
      simp only [nodes, update_self, hf, frontPage, if_true, map_cons]
      exact .half hnext hprev
    · simp only [nodes, update_of_ne hkc]
      exact .out
  · have hkc : k ≠ c := by omega
    simp only [nodes, update_of_ne hkc]

/-- The chunk is cut down to order `j`, and the right half of the last cut is
linked for a backward walk at least. -/
theorem Rep.openedLinks_cutting (hdj : d ≤ j) (hjc : j < c)
    (hF : FreeFwds L (openedLists free p xs c (j + 1)))
    (hB : FreeBwds L (openedLists free p xs c j))
    (hnext : L.next (.page (p + 2 ^ j)) = (nodes free j).headD (.freeList j))
    (hprev : L.prev (.page (p + 2 ^ j)) = .freeList j) : OpenedLinks free p xs d c L := by
  refine r.openedLinks hc hf (by omega) hF hB (fun k hdk hkc => ?_) fun k hk => ?_
  · by_cases hkc : k = c
    · subst hkc
      simp only [nodes, openedLists, update_self, if_true]
      exact .out
    · simp only [nodes, openedLists, update_of_ne hkc, if_neg hkc, frontPage]
      by_cases hkj : k = j
      · subst hkj
        have hlt : k < c := by omega
        simp only [Nat.not_succ_le_self, false_and, if_false, Nat.le_refl, hlt, and_self, if_true,
          map_cons]
        exact .half hnext hprev
      · have hiff : (j + 1 ≤ k ∧ k < c) ↔ (j ≤ k ∧ k < c) := by omega
        simp only [hiff]
        split
        · exact .on
        · exact .out
  · have hkc : k ≠ c := by omega
    have h1 : ¬ (j + 1 ≤ k ∧ k < c) := by omega
    have h2 : ¬ (j ≤ k ∧ k < c) := by omega
    simp only [nodes, openedLists, if_neg hkc, if_neg h1, if_neg h2, and_self]

theorem Rep.openedLinks_cut (hdj : d ≤ j) (hjc : j ≤ c)
    (hF : FreeFwds L (openedLists free p xs c j))
    (hB : FreeBwds L (openedLists free p xs c j)) :
    OpenedLinks free p xs d c L := by
  refine r.openedLinks hc hf (by omega) hF hB (fun k hdk hkc => ?_) fun k hk => ?_
  · by_cases hkc : k = c
    · subst hkc
      simp only [nodes, openedLists, update_self, if_true]
      exact .out
    · simp only [nodes, openedLists, update_of_ne hkc, if_neg hkc, frontPage]
      split
      · exact .on
      · exact .out
  · have hkc : k ≠ c := by omega
    have hno : ¬ (j ≤ k ∧ k < c) := by omega
    simp only [nodes, openedLists, if_neg hkc, if_neg hno, and_self]

end

end

end Starfish.Buddy
