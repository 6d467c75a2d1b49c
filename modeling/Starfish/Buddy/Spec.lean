import Starfish.Buddy.Opened

/-!
# Starfish.Buddy.Spec

One specification for each function of the allocator, in terms of `Rep`:
none of them reaches a `BUG`, and each one moves chunks between the free
lists, the running call and the callers as its name says.
-/

namespace Starfish.Buddy

open Function Starfish.Buddy.Rep Prog List Chunk PhysMemPool

variable {S n : ℕ} {m : PhysMemPool} {free : ℕ → List ℕ} {held live : List Chunk}

/-- The trivial crash condition. -/
def anyCrash : PhysMemPool → Prop := fun _ => True

theorem wp_onLinks {α : Type} {c : Prog (Links Node) α} {Q : α → PhysMemPool → Prop} :
    wp (onLinks c) Q C m ↔
      wp c (fun a L => Q a (m.setLinks L)) (fun L => C (m.setLinks L)) m.links :=
  wp_zoom (fun _ _ => rfl) (fun _ _ _ => rfl) fun _ => rfl

/-! ## Finding the buddy -/

/-- The first page of the buddy, if all of it lies in the pool. -/
def buddyOf (S n k h : ℕ) : Option ℕ :=
  if (S + h) ^^^ 2 ^ k < S ∨ ((S + h) ^^^ 2 ^ k) + 2 ^ k > S + n then none
  else some (((S + h) ^^^ 2 ^ k) - S)

theorem buddyOf_eq_some : buddyOf S n k h = some b ↔ IsBuddy S k h b ∧ b + 2 ^ k ≤ n := by
  unfold buddyOf IsBuddy
  generalize (S + h) ^^^ 2 ^ k = v
  split
  · simp only [reduceCtorEq, false_iff]
    omega
  · simp only [Option.some.injEq]
    omega

theorem buddyOf_eq_none (hn : buddyOf S n k h = none) (hb : IsBuddy S k h b) : n < b + 2 ^ k := by
  by_contra hle
  have hs := buddyOf_eq_some.mpr ⟨hb, Nat.le_of_not_lt hle⟩
  rw [hn] at hs
  contradiction

/-- On page-aligned addresses, flipping an address bit flips a bit of the
page number. -/
theorem xor_pageSize (v k : ℕ) :
    (v * buddyPageSize) ^^^ (1 <<< (k + buddyPageSizeOrder)) = (v ^^^ 2 ^ k) * buddyPageSize := by
  have hv : v * buddyPageSize = v <<< 12 := by rw [Nat.shiftLeft_eq]; rfl
  have hk : 1 <<< (k + buddyPageSizeOrder) = (2 ^ k) <<< 12 := by
    rw [Nat.shiftLeft_eq, Nat.shiftLeft_eq, Nat.one_mul, Nat.pow_add]; rfl
  rw [hv, hk, ← Nat.shiftLeft_xor_distrib, Nat.shiftLeft_eq]
  rfl

theorem wp_getBuddyChunk (hs : m.poolStartAddr = S * buddyPageSize)
    (hn : m.poolMemSize = n * buddyPageSize) (hc : chunk ≤ n)
    (hQ : Q (buddyOf S n (m.order chunk) chunk) m) : wp (getBuddyChunk chunk) Q C m := by
  have haddr : chunk * buddyPageSize + m.poolStartAddr = (S + chunk) * buddyPageSize := by
    rw [hs]; ring
  have hend : m.poolStartAddr + m.poolMemSize = (S + n) * buddyPageSize := by
    rw [hs, hn]; ring
  have hpos : 0 < buddyPageSize := by decide
  have hbug : ¬ (S + chunk) * buddyPageSize > (S + n) * buddyPageSize := by
    rw [gt_iff_lt, Nat.not_lt]
    exact Nat.mul_le_mul_right _ (by omega)
  simp only [getBuddyChunk, pageToVirt, virtToPage, wp_bind, wp_read, wp_bugOn, wp_pure, wp_ite,
    wp_bug, id_eq, haddr, hend, hbug, not_false_eq_true, true_and, xor_pageSize]
  generalize hv : (S + chunk) ^^^ 2 ^ m.order chunk = v at *
  have hone : 1 <<< m.order chunk = 2 ^ m.order chunk := Nat.one_shiftLeft _
  have hsum : v * buddyPageSize + 2 ^ m.order chunk * buddyPageSize =
      (v + 2 ^ m.order chunk) * buddyPageSize := by ring
  have hiff : (v * buddyPageSize < m.poolStartAddr ∨
      v * buddyPageSize + 1 <<< m.order chunk * buddyPageSize > (S + n) * buddyPageSize) ↔
      (v < S ∨ v + 2 ^ m.order chunk > S + n) := by
    rw [hs, hone, hsum, gt_iff_lt, Nat.mul_lt_mul_right hpos, Nat.mul_lt_mul_right hpos]
  rw [hiff]
  unfold buddyOf at hQ
  rw [hv] at hQ
  refine ⟨fun h => ?_, fun h => ?_⟩
  · rwa [if_pos h] at hQ
  · rw [if_neg h] at hQ
    have hpow : 0 < 2 ^ m.order chunk := Nat.two_pow_pos _
    have hsub : (v * buddyPageSize - m.poolStartAddr) / buddyPageSize = v - S := by
      rw [hs, ← Nat.sub_mul, Nat.mul_div_cancel _ hpos]
    refine ⟨fun _ => by rwa [hsub], fun hout => hout ⟨?_, ?_⟩⟩
    · rw [hs]
      exact Nat.mul_le_mul_right _ (by omega)
    · exact Nat.mul_lt_mul_of_pos_right (by omega) hpos

/-! ## The list operations -/

variable {h k : ℕ}

/-- Linking the first page of a held chunk into a free list. -/
theorem Rep.wp_listAdd (r : Rep S n m free (⟨h, k⟩ :: held) live) (hC0 : ∀ L, FreeFwds L free →
      FreeBwds L free → C (m.setLinks L))
    (hC1 : ∀ L, FreeFwds L free → FreeBwds L (update free k (h :: free k)) →
      L.next (.page h) = (nodes free k).headD (.freeList k) → L.prev (.page h) = .freeList k →
      C (m.setLinks L))
    (hC2 : ∀ L, FreeFwds L (update free k (h :: free k)) →
      FreeBwds L (update free k (h :: free k)) →
      C (m.setLinks L)) :
    wp (onLinks (listAdd (.page h) (.freeList k)))
      (fun _ t => ∃ L, t = m.setLinks L ∧ FreeFwds L (update free k (h :: free k)) ∧
        FreeBwds L (update free k (h :: free k)))
      C m := by
  have hk : k < buddyMaxOrder := r.of_held.2.1
  simp only [FreeFwds, FreeBwds, nodes_update] at hC1 hC2 ⊢
  rw [wp_onLinks]
  exact wp_listAdd_at r.apart r.fwd r.bwd hk (nil_append _).symm r.fresh_of_held hC0 hC1
    fun L hF hB => ⟨hC2 L hF hB, L, rfl, hF, hB⟩

theorem Rep.wp_listDel {as bs : List ℕ}
    (r : Rep S n m free held live) (hk : k < buddyMaxOrder) (hf : free k = as ++ h :: bs)
    (hC1 : ∀ L, FreeFwds L (update free k (as ++ bs)) → FreeBwds L free →
      L.next (.page h) = (bs.map Node.page).headD (.freeList k) →
      L.prev (.page h) = (as.map Node.page).getLastD (.freeList k) → C (m.setLinks L))
    (hC2 : ∀ L, FreeFwds L (update free k (as ++ bs)) → FreeBwds L (update free k (as ++ bs)) →
      C (m.setLinks L)) :
    wp (onLinks (listDel (.page h)))
      (fun _ t => ∃ L, t = m.setLinks L ∧ FreeFwds L (update free k (as ++ bs)) ∧
        FreeBwds L (update free k (as ++ bs)))
      C m := by
  have hxs : nodes free k = as.map Node.page ++ Node.page h :: bs.map Node.page := by
    simp [nodes, hf]
  simp only [FreeFwds, FreeBwds, nodes_update, map_append] at hC1 hC2 ⊢
  rw [wp_onLinks]
  exact wp_listDel_at r.apart r.fwd r.bwd hk hxs hC1 fun L hF hB => ⟨hC2 L hF hB, L, rfl, hF, hB⟩

/-! ## Splitting and merging -/

/-- `split_chunk` cuts the chunk at `p`, taken off list `c` and already cut
down to order `j`, down to order `d`. -/
theorem wp_splitChunk (fuel : ℕ)
    (r0 : Rep S n m₀ free [] live) (hc : c < buddyMaxOrder) (hf : free c = p :: xs)
    (hdj : d ≤ j) (hjc : j ≤ c) (hfuel : j - d < fuel)
    (r : Rep S n m (openedLists free p xs c j) [⟨p, j⟩] live)
    (o : Opened m₀ free p xs d c m) :
    wp (splitChunk d fuel p)
      (fun q t => q = p ∧ Rep S n t (openedLists free p xs c d) [⟨p, d⟩] live ∧
        Opened m₀ free p xs d c t)
      (Opened m₀ free p xs d c) m := by
  induction fuel generalizing m j with
  | zero => omega
  | succ fuel ih =>
    obtain ⟨hord, -, hal, hin⟩ := r.of_held
    rw [splitChunk, wp_bind, wp_read, hord, wp_ite]
    refine ⟨fun hj => ?_, fun hj => ?_⟩
    · subst hj
      exact wp_pure.mpr ⟨rfl, r, o⟩
    · obtain ⟨i, rfl⟩ : ∃ i, j = i + 1 := ⟨j - 1, by omega⟩
      have hpow : 2 ^ (i + 1) = 2 ^ i + 2 ^ i := by rw [pow_succ]; ring
      have hpos : 0 < 2 ^ i := Nat.two_pow_pos i
      simp only [hpow] at hin
      have hbuddy : buddyOf S n i p = some (p + 2 ^ i) :=
        buddyOf_eq_some.mpr ⟨isBuddy_of_aligned hal, by omega⟩
      have hfront : frontPage p c i = p + 2 ^ i := if_neg (by omega)
      have hp : p ∈ (⟨p, c⟩ : Chunk) := head_mem ⟨p, c⟩
      have hb : p + 2 ^ i ∈ (⟨p, c⟩ : Chunk) := hfront ▸ frontPage_mem (by omega)
      have hdc : d < c := by omega
      have o1 := o.setOrder hdc hp i
      have o2 := o1.setOrder hdc hb i
      have o3 := o2.setFlags hb (clearAllocated_clear _)
      -- the state in which the right half is ready to be linked
      have r' := r.split (f := m.flags (p + 2 ^ i) &&& ~~~(1#32 <<< PageFlag.allocated.bit))
        (isAllocated_clear _)
      have hpred : m.order p - 1 = i := by omega
      have hself : (m.setOrder p i).order p = i := by simp
      rw [wp_bind, wp_store, hpred]
      refine ⟨o1, ?_⟩
      rw [wp_bind]
      refine wp_getBuddyChunk r.start r.size (by omega) ?_
      rw [hself, hbuddy]
      simp only [pageClearFlag, wp_bind, wp_store, wp_read, hself, setFlags_order,
        setOrder_order, update_self]
      refine ⟨o2, o3, wp_post (r'.wp_listAdd ?_ ?_ ?_) ?_⟩
      · exact fun L hF hB => o3.setLinks (r0.openedLinks_cut hc hf hdj hjc hF hB)
      · intro L hF hB hnext hprev
        rw [openedLists_succ (by omega)] at hB
        rw [nodes, openedLists_of_lt (Nat.lt_succ_self i) hjc] at hnext
        exact o3.setLinks (r0.openedLinks_cutting hc hf (by omega) (by omega) hF hB hnext hprev)
      · intro L hF hB
        rw [openedLists_succ (by omega)] at hF hB
        exact o3.setLinks (r0.openedLinks_cut hc hf (by omega) (by omega) hF hB)
      · rintro - t ⟨L, rfl, hF, hB⟩
        have r'' := r'.insert (fun _ b hb hbf => ?_) hF hB
        · rw [openedLists_succ (by omega)] at r'' hF hB
          have o4 := (o3.setLinks (r0.openedLinks_cut hc hf (by omega) (by omega) hF hB)).setNrFree
            (k := i) (by omega) (m.nrFree i + 1)
          exact ⟨o4, ih (by omega) (by omega) (by omega) r'' o4⟩
        · -- the buddy of the right half is the left half, which is held
          have hbp : b = p := by
            have := (isBuddy_of_aligned hal).symm
            unfold IsBuddy at hb this
            omega
          subst hbp
          exact r'.notMem_free_of_held (c := ⟨b, i⟩) (mem_cons_of_mem _ mem_cons_self)
            r'.of_held.2.1 hbf

section

variable {h b k : ℕ} (r : Rep S n m free [⟨h, k⟩] live) (hb : IsBuddy S k h b) (hin : b + 2 ^ k ≤ n)
  (hfree : isAllocated (m.flags b) = false)
include r hb hin hfree

/-- A free buddy of a held chunk starts a free chunk, which is not larger. -/
theorem Rep.free_buddy : m.order b ≤ k ∧ b ∈ free (m.order b) := by
  have hheld : (⟨h, k⟩ : Chunk) ∈ allChunks free [⟨h, k⟩] live := mem_held mem_cons_self
  have hal : (⟨h, k⟩ : Chunk).Aligned S := r.tiled.aligned _ hheld
  have halb : (⟨b, k⟩ : Chunk).Aligned S := hb.aligned hal
  have hpos : 0 < 2 ^ k := Nat.two_pow_pos k
  have hbn : b < n := by omega
  obtain ⟨c, hc, hbc⟩ : ∃ c ∈ allChunks free [⟨h, k⟩] live, b ∈ c := by
    apply cover_pos_iff.mp
    rw [r.tiled.tiling, if_pos hbn]
    exact Nat.one_pos
  have hch : c ≠ ⟨h, k⟩ := by
    rintro rfl
    rw [mem_def] at hbc
    rcases hb.cases hal with ⟨he, -⟩ | ⟨he, -⟩ <;> simp only at hbc <;> omega
  have hcf : c ∈ chunksOf buddyMaxOrder free := by
    rcases mem_append.mp hc with hc | hc
    · exact hc
    · rcases mem_append.mp hc with hc | hc
      · exact absurd (mem_singleton.mp hc) hch
      · have := (r.alloc b hbn).mpr ⟨c, hc, hbc⟩
        rw [hfree] at this
        contradiction
  -- the chunk around `b` cannot be larger: it would contain `h` as well
  have hck : c.order ≤ k := by
    by_contra hlt
    obtain ⟨q, halq, hbq, hhq⟩ : ∃ q : Chunk, (q.Aligned S ∧ q.order = k + 1) ∧ b ∈ q ∧ h ∈ q := by
      rcases hb.cases hal with ⟨rfl, hq⟩ | ⟨rfl, hq⟩
      · exact ⟨⟨h, k + 1⟩, ⟨hq, rfl⟩, mem_split.mpr (.inr (head_mem ⟨_, k⟩)), head_mem ⟨h, k + 1⟩⟩
      · exact ⟨⟨b, k + 1⟩, ⟨hq, rfl⟩, head_mem ⟨b, k + 1⟩, mem_split.mpr (.inr (head_mem ⟨_, k⟩))⟩
    have hw := nested halq.1 (r.tiled.aligned c hc) hbq hbc (by omega)
    exact hch (r.tiled.eq_of_mem hc hheld (hw.mem hhq) (head_mem ⟨h, k⟩))
  have hw := nested (r.tiled.aligned c hc) halb hbc (head_mem ⟨b, k⟩) hck
  have hhead : c.head = b := by
    have h1 : b ≤ c.head := hw.1
    rw [mem_def] at hbc
    omega
  have hco : m.order b = c.order := by
    rw [← r.tiled.order c hc, hhead]
  have hmem := (mem_chunksOf.mp hcf).2
  rw [hhead] at hmem
  rw [hco]
  exact ⟨hck, hmem⟩

/-- A free buddy of a held chunk that is recorded with the same order is on the
free list: stale `order` fields inside larger chunks are never mistaken for a
free buddy. -/
theorem Rep.buddy_mem_free (hord : m.order b = k) : b ∈ free k := by
  have hmem := (r.free_buddy hb hin hfree).2
  rwa [hord] at hmem

end

/-- The flags and the log entry, which merging leaves alone. -/
def Untouched (fl : ℕ → BitVec 32) (log : LogEntry) (t : PhysMemPool) : Prop :=
  t.flags = fl ∧ t.latestLog = log

theorem wp_mergeChunk (r : Rep S n m free [⟨h, j⟩] live) (hfuel : buddyMaxOrder ≤ fuel + j)
    (hm : Untouched fl log m) :
    wp (mergeChunk fuel h)
      (fun p t => Untouched fl log t ∧ ∃ free' k, Rep S n t free' [⟨p, k⟩] live ∧
        (k + 1 < buddyMaxOrder → ∀ b, IsBuddy S k p b → b ∉ free' k)) (Untouched fl log) m := by
  induction fuel generalizing m free j h with
  | zero =>
    have := r.of_held.2.1
    omega
  | succ fuel ih =>
    obtain ⟨hord, hj, hal, hin⟩ := r.of_held
    have hpos : 0 < 2 ^ j := Nat.two_pow_pos j
    rw [mergeChunk, wp_bind, wp_read, hord, wp_ite]
    refine ⟨fun hmax => ?_, fun hmax => ?_⟩
    · refine wp_pure.mpr ⟨hm, free, j, r, fun hlt => ?_⟩
      omega
    · rw [wp_bind]
      refine wp_getBuddyChunk r.start r.size (by omega) ?_
      rw [hord]
      cases hbud : buddyOf S n j h with
      | none =>
        refine wp_pure.mpr ⟨hm, free, j, r, fun _ b hb hbf => ?_⟩
        have hout := buddyOf_eq_none hbud hb
        have := r.tiled.le_of_mem (mem_free hj hbf)
        simp only at this
        omega
      | some b =>
        obtain ⟨hb, hbn⟩ := buddyOf_eq_some.mp hbud
        have hbn' : b < n := by omega
        simp only [wp_bind, wp_read, wp_ite, pageCheckFlag_allocated]
        refine ⟨fun hstop => ?_, fun hgo => ?_⟩
        · -- the buddy is in use, or free only in part
          refine wp_pure.mpr ⟨hm, free, j, r, fun _ b' hb' hbf => ?_⟩
          have hbb : b' = b := by
            unfold IsBuddy at hb hb'
            omega
          subst hbb
          rcases hstop with hall | hne
          · exact r.not_live_of_free (mem_chunksOf.mpr ⟨hj, hbf⟩) (head_mem ⟨b', j⟩)
              ((r.alloc b' hbn').mp hall)
          · exact hne (r.tiled.order _ (mem_free hj hbf))
        · -- take the buddy off its free list and go on with the joined chunk
          simp only [not_or, Bool.not_eq_true, ne_eq, not_not] at hgo
          obtain ⟨hfree, hordb⟩ := hgo
          obtain ⟨as, bs, hf⟩ := append_of_mem (r.buddy_mem_free hb hbn hfree hordb)
          refine wp_post (r.wp_listDel hj hf (fun _ _ _ _ _ => hm) fun _ _ _ => hm) ?_
          rintro - t ⟨L, rfl, hF, hB⟩
          have hbh : h ≠ b := hb.ne hal
          simp only [wp_store, hordb, setNrFree_order, setLinks_order,
            setOrder_order, update_of_ne hbh, hord]
          exact ⟨hm, hm, hm, ih ((r.remove hj hf hF hB).merge hb (by omega)) (by omega) hm⟩

/-! ## Allocation -/

theorem wp_prepareLatestLog {type : LogType}
    (hC : ∀ log, log.commited = m.latestLog.commited → C (m.setLog log))
    (hQ : C (m.setLog ⟨.done, type, page, d, cur, m.nrFree cur⟩) ∧
      Q () (m.setLog ⟨.done, type, page, d, cur, m.nrFree cur⟩)) :
    wp (prepareLatestLog type page d cur) Q C m := by
  simp only [prepareLatestLog, wp_bind, wp_store, setLog_setLog, setLog_latestLog, setLog_nrFree]
  exact ⟨hC _ rfl, hC _ rfl, hC _ rfl, hC _ rfl, hC _ rfl, hQ⟩

/-- The memory in which an allocation of order `d` starts to take the chunk at
`p` off list `c`. -/
def getLogged (build : Build) (m : PhysMemPool) (p d c : ℕ) : PhysMemPool :=
  if build.logsGet then m.setLog ⟨.done, .addPages, p, d, c, m.nrFree c⟩ else m

theorem Rep.of_getLogged (r : Rep S n m free held live) (build : Build) (p d c : ℕ) :
    Rep S n (getLogged build m p d c) free held live := by
  unfold getLogged
  split
  · exact r.setLog _
  · exact r

/-- What an allocation of order `d` leaves behind when the machine stops in
it: memory untouched but for a log entry under construction, or memory in the
middle of the allocation. -/
inductive GetCrash (build : Build) (m : PhysMemPool) (free : ℕ → List ℕ) (d : ℕ)
    (t : PhysMemPool) : Prop
  | before (h : t = m.setLog t.latestLog) (hlog : t.latestLog.commited = m.latestLog.commited)
  | opened {p c : ℕ} {xs : List ℕ} (hf : free c = p :: xs) (hdc : d ≤ c)
      (hc : c < buddyMaxOrder) (o : Opened (getLogged build m p d c) free p xs d c t)

theorem wp_takeChunk (build : Build) (r : Rep S n m free [] live)
    (hcnt : cur + cnt = buddyMaxOrder) (hd : d ≤ cur) :
    wp (takeChunk build d cnt cur)
      (fun res t => match res with
        | none => t = m ∧ ∀ k, cur ≤ k → k < buddyMaxOrder → free k = []
        | some (p, c) => cur ≤ c ∧ c < buddyMaxOrder ∧ ∃ xs, free c = p :: xs ∧
            Rep S n t (openedLists free p xs c c) [⟨p, c⟩] live ∧
            Opened (getLogged build m p d c) free p xs d c t)
      (GetCrash build m free d) m := by
  induction cnt generalizing cur with
  | zero =>
    refine wp_pure.mpr ⟨rfl, fun k hk hk' => ?_⟩
    omega
  | succ cnt ih =>
    have hcur : cur < buddyMaxOrder := by omega
    have hpath := r.fwd cur hcur
    rw [takeChunk, wp_bind, wp_read, wp_ite]
    cases hf : free cur with
    | nil =>
      have hnext : m.links.next (.freeList cur) = .freeList cur := by
        simpa [nodes, hf, Path] using hpath
      refine ⟨fun _ => ?_, fun hne => absurd hnext hne⟩
      refine wp_post (ih (by omega) (by omega)) ?_
      rintro (_ | ⟨p, c⟩) t h
      · refine ⟨h.1, fun k hk hk' => ?_⟩
        rcases Nat.eq_or_lt_of_le hk with rfl | hlt
        · exact hf
        · exact h.2 k hlt hk'
      · exact ⟨by omega, h.2⟩
    | cons p xs =>
      have hnext : m.links.next (.freeList cur) = .page p := by
        have h := hpath.apply_start
        simpa [nodes, hf] using h
      have hne : ¬ m.links.listEmpty (.freeList cur) := by
        simp [Links.listEmpty, hnext]
      have r₁ := r.of_getLogged build p d cur
      have o1 := Opened.refl r₁ hcur hf (r₁.openedLinks_start hcur hf hd)
      refine ⟨fun he => absurd he hne, fun _ => ?_⟩
      rw [hnext, listEntry, wp_bind, wp_pure, wp_bind]
      refine wp_post (Q := fun _ t => t = getLogged build m p d cur) ?_ ?_
      · refine wp_when.mpr ⟨fun hlogs => ?_, fun hlogs => ?_⟩
        · rw [getLogged, if_pos hlogs] at o1 ⊢
          refine wp_prepareLatestLog (fun log hlog => .before rfl hlog) ⟨?_, rfl⟩
          refine .opened hf hd hcur ?_
          rwa [getLogged, if_pos hlogs]
        · rw [getLogged, if_neg hlogs]
      rintro - t rfl
      have hf' : free cur = [] ++ p :: xs := hf
      rw [wp_bind]
      refine wp_post (r₁.wp_listDel hcur hf' (fun L hF hB hnext hprev => ?_) fun L hF hB => ?_) ?_
      · exact .opened hf hd hcur (o1.setLinks (r₁.openedLinks_taking hcur hf hd hF hB hnext hprev))
      · rw [nil_append, ← openedLists_self] at hF hB
        exact .opened hf hd hcur (o1.setLinks (r₁.openedLinks_cut hcur hf hd (Nat.le_refl _) hF hB))
      · rintro - t ⟨L, rfl, hF, hB⟩
        have r2 := r₁.remove hcur hf' hF hB
        rw [nil_append, ← openedLists_self] at hF hB r2
        have o2 := (o1.setLinks (r₁.openedLinks_cut hcur hf hd (Nat.le_refl _) hF hB)).setNrFree
            ⟨hd, Nat.le_refl _⟩ ((getLogged build m p d cur).nrFree cur - 1)
        simp only [wp_bind, wp_store, wp_pure]
        exact ⟨.opened hf hd hcur o2, Nat.le_refl _, hcur, xs, hf, r2, o2⟩

/-- The loop that marks the pages of a chunk. -/
theorem wp_forUpTo_setFlags (h len : ℕ) (b : Bool)
    (hbody : ∀ i fl, i < len → (∀ x, h ≤ x → x < h + i → isAllocated (fl x) = b) →
      (∀ x, h + i ≤ x → fl x = m.flags x) →
      wp (body i) (fun _ t => ∃ f, isAllocated f = b ∧
        t = { m with flags := update fl (h + i) f }) C { m with flags := fl }) :
    wp (forUpTo len body) (fun _ t => ∃ fl, t = { m with flags := fl } ∧
        (∀ x, h ≤ x → x < h + len → isAllocated (fl x) = b) ∧
        ∀ x, ¬ (h ≤ x ∧ x < h + len) → fl x = m.flags x) C m := by
  refine wp_forUpTo (I := fun i t => ∃ fl, t = { m with flags := fl } ∧
    (∀ x, h ≤ x → x < h + i → isAllocated (fl x) = b) ∧
    ∀ x, ¬ (h ≤ x ∧ x < h + i) → fl x = m.flags x) ?_ ?_
  · exact ⟨m.flags, rfl, fun x h1 h2 => by omega, fun _ _ => rfl⟩
  · rintro i t hi ⟨fl, rfl, hin, hout⟩
    refine wp_post (hbody i fl hi hin fun x hx => hout x (by omega)) ?_
    rintro - t ⟨f, hf, rfl⟩
    refine ⟨_, rfl, fun x h1 h2 => ?_, fun x hx => ?_⟩
    · by_cases hxi : x = h + i
      · subst hxi
        simpa using hf
      · rw [update_of_ne hxi]
        exact hin x h1 (by omega)
    · rw [update_of_ne (by omega)]
      exact hout x (by omega)

/-- Marking pages of the chunk keeps the memory in the middle of the allocation. -/
theorem Opened.wp_setFlags (o : Opened m₀ free p xs d c m) (hdc : d ≤ c) :
    wp (forUpTo (1 <<< d) fun i => pageSetFlag (p + i) .allocated)
      (fun _ t => Opened m₀ free p xs d c t) (Opened m₀ free p xs d c) m := by
  refine wp_forUpTo (I := fun _ t => Opened m₀ free p xs d c t) o fun i t hi ot => ?_
  have hle : 2 ^ d ≤ 2 ^ c := Nat.pow_le_pow_right Nat.zero_lt_two hdc
  rw [Nat.one_shiftLeft] at hi
  have hin : p + i ∈ (⟨p, c⟩ : Chunk) := by
    simp only [mem_def]
    omega
  have ot' := ot.setFlags hin (clearAllocated_set (t.flags (p + i)))
  exact wp_store.mpr ⟨ot', ot'⟩

/-- The log entry is committed, or it is where it was. -/
def Settled (m t : PhysMemPool) : Prop :=
  t.latestLog.commited = .commit ∨ t.latestLog.commited = m.latestLog.commited

theorem Settled.trans (h : Settled m₁ m2) (h' : Settled m2 m3) : Settled m₁ m3 := by
  cases h' with
  | inl h' => exact .inl h'
  | inr h' =>
    unfold Settled
    rw [h']
    exact h

/-- The end of a call that logs if `b`: the entry `m` has is its own then. -/
theorem Rep.wp_commit (r : Rep S n m free held live) (hlog : b = false → m.latestLog = m₀.latestLog)
    (hC : b = true → C (m.setLog { m.latestLog with commited := .commit })) :
    wp (when b commitLatestLog) (fun _ t => Settled m₀ t ∧ Rep S n t free held live) C m :=
  wp_when.mpr ⟨fun hb => wp_store.mpr ⟨hC hb, .inl rfl, r.setLog _⟩,
    fun hb => ⟨.inr (congrArg _ (hlog (Bool.eq_false_iff.mpr hb))), r⟩⟩

/-- `buddy_get_pages` either finds no chunk large enough, or hands one out. -/
theorem wp_buddyGetPages (build : Build) (order : ℤ) (r : Rep S n m free [] live) :
    wp (buddyGetPages build order)
      (fun res t => Settled m t ∧ match res with
        | none => Rep S n t free [] live ∧ (0 ≤ order → order < buddyMaxOrder →
            ∀ k, order.toNat ≤ k → k < buddyMaxOrder → free k = [])
        | some p => 0 ≤ order ∧ order < buddyMaxOrder ∧
            ∃ free', Rep S n t free' [] (⟨p, order.toNat⟩ :: live))
      (fun t => GetCrash build m free order.toNat t ∨
        ∃ res, (buddyGetPages build order).outcome m = .ok res t) m := by
  generalize hC : (fun t => GetCrash build m free order.toNat t ∨
    ∃ res, (buddyGetPages build order).outcome m = .ok res t) = C
  have hcrash : ∀ t, GetCrash build m free order.toNat t → C t := fun t h => hC ▸ .inl h
  have hend : ∀ res t, (buddyGetPages build order).outcome m = .ok res t → C t :=
    fun res t h => hC ▸ .inr ⟨res, h⟩
  rw [buddyGetPages] at hend ⊢
  by_cases hbig : order < 0 ∨ order ≥ buddyMaxOrder
  · rw [if_pos hbig]
    refine wp_pure.mpr ⟨.inr rfl, r, fun h0 hlt => ?_⟩
    omega
  · rw [if_neg hbig] at hend ⊢
    have hrange : 0 ≤ order ∧ order < buddyMaxOrder := by omega
    have hle : order.toNat + (buddyMaxOrder - order.toNat) = buddyMaxOrder := by omega
    have htake := wp_takeChunk build r hle (Nat.le_refl _)
    refine wp_bind_of (wp_mono htake (fun _ _ h => h) hcrash) fun found t hout h => ?_
    simp only [outcome_bind hout] at hend
    cases found with
    | none =>
      obtain ⟨rfl, hempty⟩ := h
      refine wp_bind_of (r.wp_commit (fun _ => rfl) fun hb => ?_) fun _ t _ h => ?_
      · refine hend none _ (outcome_bind (a := ()) ?_)
        simp only [when, if_pos hb]
        rfl
      · exact wp_pure.mpr ⟨h.1, h.2, fun _ _ => hempty⟩
    | some found =>
      obtain ⟨p, c⟩ := found
      obtain ⟨hdc, hc, xs, hf, r₁, o1⟩ := h
      have hopen : ∀ t, Opened (getLogged build m p order.toNat c) free p xs order.toNat c t →
          C t := fun t o => hcrash t (.opened hf hdc hc o)
      have hsplit := wp_splitChunk buddyMaxOrder (r.of_getLogged build p order.toNat c) hc hf hdc
        (Nat.le_refl c) (by omega) r₁ o1
      refine wp_bind_of (wp_mono hsplit (fun _ _ h => h) hopen) fun q t hout h => ?_
      obtain ⟨rfl, r2, o2⟩ := h
      simp only [outcome_bind hout] at hend
      have hset := wp_and (o2.wp_setFlags hdc) (wp_forUpTo_setFlags (C := anyCrash) q _ true
        fun i fl _ _ _ => wp_store.mpr ⟨trivial, _, isAllocated_set _, rfl⟩)
      refine wp_bind_of (wp_mono hset (fun _ _ h => h) fun t h => hopen t h.1) fun _ t hout h => ?_
      obtain ⟨o3, fl, rfl, hin, hkeep⟩ := h
      simp only [outcome_bind hout] at hend
      rw [Nat.one_shiftLeft] at hin hkeep
      have r3 := r2.hand_out (fun i hi => hin i hi.1 hi.2) hkeep
      have hlog : build.logsGet = false → (getLogged build m q order.toNat c).latestLog =
          m.latestLog := fun hb => by simp [getLogged, hb]
      refine wp_bind_of (r3.wp_commit (fun hb => o3.log.trans (hlog hb)) fun hb => ?_)
        fun _ t _ h => ?_
      · refine hend (some q) _ (outcome_bind (a := ()) ?_)
        simp only [when, if_pos hb]
        rfl
      · exact wp_pure.mpr ⟨h.1, hrange.1, hrange.2, _, h.2⟩

/-! ## Free and initialisation -/

/-- The memory in which a free of the chunk at `h` starts to clear flags. -/
def freeLogged (build : Build) (m : PhysMemPool) (h : ℕ) : PhysMemPool :=
  if build.logsFree then m.setLog ⟨.done, .removePages, h, m.order h, 0, m.nrFree 0⟩ else m

theorem Rep.of_freeLogged (r : Rep S n m free held live) (build : Build) (h : ℕ) :
    Rep S n (freeLogged build m h) free held live := by
  unfold freeLogged
  split
  · exact r.setLog _
  · exact r

/-- What a free of the chunk at `h` leaves behind when the machine stops in
it: memory untouched but for the log entry, or memory in which the first page
is no longer allocated. -/
inductive FreeCrash (build : Build) (m : PhysMemPool) (h : ℕ) (t : PhysMemPool) : Prop
  | before (h : t = m.setLog t.latestLog) (hlog : t.latestLog.commited = m.latestLog.commited)
  | logged (h : t = freeLogged build m h)
  | cleared (hlog : t.latestLog = (freeLogged build m h).latestLog)
      (hfl : isAllocated (t.flags h) = false)

/-- The flags of a chunk that was handed out can be cleared. -/
theorem Rep.wp_clearPages (r : Rep S n m free [] live) (hc : (⟨h, k⟩ : Chunk) ∈ live) :
    wp (clearPages h k) (fun _ t => ∃ fl, t = { m with flags := fl } ∧
        (∀ x, h ≤ x → x < h + 1 <<< k → isAllocated (fl x) = false) ∧
        ∀ x, ¬ (h ≤ x ∧ x < h + 1 <<< k) → fl x = m.flags x)
      (fun t => t.latestLog = m.latestLog ∧ isAllocated (t.flags h) = false) m := by
  refine wp_forUpTo_setFlags h _ false fun i fl hi hdone hfl => ?_
  rw [Nat.one_shiftLeft] at hi
  have hin : h + i ∈ (⟨h, k⟩ : Chunk) := by
    simp only [mem_def]
    omega
  have hall : isAllocated (fl (h + i)) = true := by
    rw [hfl (h + i) (Nat.le_refl _)]
    exact (r.alloc _ (r.tiled.lt_of_mem (mem_live hc) hin)).mpr ⟨_, hc, hin⟩
  simp only [wp_bind, wp_read, wp_bugOn, wp_store, pageCheckFlag_allocated, hall, not_true,
    not_false_eq_true, true_and]
  refine ⟨⟨rfl, ?_⟩, _, isAllocated_zero, rfl⟩
  by_cases hi0 : h = h + i
  · simp [← hi0]
  · simp only [setFlags_flags, update_of_ne hi0]
    exact hdone h (Nat.le_refl h) (by omega)

/-- `buddy_free_pages` takes back a chunk that was handed out. -/
theorem wp_buddyFreePages (build : Build) (r : Rep S n m free [] live)
    (hc : (⟨h, k⟩ : Chunk) ∈ live) :
    wp (buddyFreePages build h)
      (fun _ t => Settled m t ∧ ∃ free', Rep S n t free' [] (live.erase ⟨h, k⟩))
      (fun t => FreeCrash build m h t ∨ (buddyFreePages build h).outcome m = .ok () t) m := by
  generalize hC : (fun t => FreeCrash build m h t ∨
    (buddyFreePages build h).outcome m = .ok () t) = C
  have hcrash : ∀ t, FreeCrash build m h t → C t := fun t h => hC ▸ .inl h
  have hend : ∀ t, (buddyFreePages build h).outcome m = .ok () t → C t := fun t h => hC ▸ .inr h
  have hmem : (⟨h, k⟩ : Chunk) ∈ allChunks free [] live := mem_live hc
  have hord : m.order h = k := r.tiled.order _ hmem
  have r₁ := r.of_freeLogged build h
  rw [buddyFreePages] at hend ⊢
  have hread : (read fun m : PhysMemPool => m.order h).outcome m = .ok k m := hord ▸ rfl
  simp only [outcome_bind hread] at hend
  rw [wp_bind, wp_read, hord]
  have hlog : wp (when build.logsFree (prepareLatestLog .removePages h k 0))
      (fun _ t => t = freeLogged build m h) (FreeCrash build m h) m := by
    refine wp_when.mpr ⟨fun hb => ?_, fun hb => ?_⟩
    · refine wp_prepareLatestLog (fun log hlog => .before rfl hlog) ⟨.logged ?_, ?_⟩ <;>
        rw [freeLogged, if_pos hb, hord]
    · rw [freeLogged, if_neg hb]
  refine wp_bind_of (wp_mono hlog (fun _ _ h => h) hcrash) fun _ t hout ht => ?_
  subst ht
  simp only [outcome_bind hout] at hend
  have hcleared : ∀ t, t.latestLog = (freeLogged build m h).latestLog ∧
      isAllocated (t.flags h) = false → C t := fun t ht => hcrash t (.cleared ht.1 ht.2)
  refine wp_bind_of (wp_mono (r₁.wp_clearPages hc) (fun _ _ h => h) hcleared) fun _ t hout ht => ?_
  obtain ⟨fl, rfl, hin, hkeep⟩ := ht
  simp only [outcome_bind hout] at hend
  have hfl : isAllocated (fl h) = false := by
    refine hin h (Nat.le_refl h) ?_
    have hpos : 0 < 2 ^ k := Nat.two_pow_pos k
    rw [Nat.one_shiftLeft]
    omega
  rw [Nat.one_shiftLeft] at hin hkeep
  have r2 := r₁.take_back hc (fun i hi => hin i hi.1 hi.2) hkeep
  -- from here on only links, counters and orders change
  have huntouched : ∀ t, Untouched fl (freeLogged build m h).latestLog t → C t :=
    fun t ht => hcleared t ⟨ht.2, ht.1 ▸ hfl⟩
  have hmerge := wp_mergeChunk r2 (Nat.le_add_right _ _) ⟨rfl, rfl⟩
  refine wp_bind_of (wp_mono hmerge (fun _ _ h => h) huntouched) fun p t hout ht => ?_
  obtain ⟨hu, free', j, r3, hbud⟩ := ht
  have hordp : t.order p = j := r3.of_held.1
  have hread' : (read fun m : PhysMemPool => m.order p).outcome t = .ok j t := hordp ▸ rfl
  simp only [outcome_bind hout, outcome_bind hread'] at hend
  rw [wp_bind, wp_read, hordp]
  refine wp_bind_of (r3.wp_listAdd (fun L _ _ => huntouched _ hu)
    (fun L _ _ _ _ => huntouched _ hu) fun L _ _ => huntouched _ hu) fun _ t' hout ht => ?_
  obtain ⟨L, rfl, hF, hB⟩ := ht
  have r4 := r3.insert hbud hF hB
  have hstore : (store fun m : PhysMemPool => m.setNrFree j (m.nrFree j + 1)).outcome
      (t.setLinks L) = .ok () ((t.setLinks L).setNrFree j (t.nrFree j + 1)) := rfl
  simp only [outcome_bind hout, outcome_bind hstore] at hend
  rw [wp_bind, wp_store]
  have hfl : build.logsFree = false → (freeLogged build m h).latestLog = m.latestLog :=
    fun hb => by simp [freeLogged, hb]
  refine ⟨huntouched _ hu, wp_post (r4.wp_commit (fun hb => hu.2.trans (hfl hb)) fun hb =>
    hend _ ?_) fun _ t h => ⟨h.1, _, h.2⟩⟩
  simp only [when, if_pos hb]
  rfl

/-- The pages from `a` on, one chunk each. -/
def singles (a n : ℕ) : List Chunk := (List.range' a (n - a)).map (⟨·, 0⟩)

theorem singles_cons (h : a < n) : singles a n = ⟨a, 0⟩ :: singles (a + 1) n := by
  obtain ⟨d, hd⟩ : ∃ d, n - a = d + 1 := ⟨n - a - 1, by omega⟩
  have hd' : n - (a + 1) = d := by omega
  rw [singles, singles, hd, hd', range'_succ, map_cons]

theorem singles_self (n : ℕ) : singles n n = [] := by simp [singles]

theorem mem_singles : c ∈ singles a n ↔ c.order = 0 ∧ a ≤ c.head ∧ c.head < n := by
  simp only [singles, mem_map, mem_range'_1]
  constructor
  · rintro ⟨i, hi, rfl⟩
    refine ⟨rfl, hi.1, ?_⟩
    simp only
    omega
  · rintro ⟨ho, h1, h2⟩
    exact ⟨c.head, ⟨h1, by omega⟩, by rw [← ho]⟩

theorem cover_singles (a i : ℕ) : cover (singles a n) i = if a ≤ i ∧ i < n then 1 else 0 := by
  by_cases han : a < n
  · have hone : ∀ x, x ∈ (⟨a, 0⟩ : Chunk) ↔ x = a := fun x => by
      simp only [mem_def, Nat.pow_zero]
      omega
    rw [singles_cons han, cover_cons, cover_singles (a + 1) i]
    by_cases hia : i = a
    · rw [cover_singleton_of_mem ((hone i).mpr hia), if_neg (by omega), if_pos (by omega)]
    · rw [cover_singleton_of_not_mem (fun h => hia ((hone i).mp h))]
      by_cases hai : a ≤ i ∧ i < n
      · rw [if_pos (by omega), if_pos hai]
      · rw [if_neg (by omega), if_neg hai]
  · have h0 : n - a = 0 := by omega
    have hno : ¬ (a ≤ i ∧ i < n) := by omega
    simp [singles, h0, hno]
termination_by n - a

/-- The free lists right after their heads are initialised. -/
theorem Rep.of_init (hs : m.poolStartAddr = S * buddyPageSize)
    (hn : m.poolMemSize = n * buddyPageSize)
    (hL : ∀ k < buddyMaxOrder, m.nrFree k = 0 ∧ m.links.next (.freeList k) = .freeList k ∧
      m.links.prev (.freeList k) = .freeList k)
    (hP : ∀ i < n, isAllocated (m.flags i) = true ∧ m.order i = 0) :
    Rep S n m (fun _ => []) [] (singles 0 n) := by
  have hch : chunksOf buddyMaxOrder (fun _ => ([] : List ℕ)) = [] := by
    simp [chunksOf]
  have hall : allChunks (fun _ => []) [] (singles 0 n) = singles 0 n := by
    rw [allChunks, hch, nil_append, nil_append]
  refine ⟨hs, hn, fun k hk => (hL k hk).2.1, fun k hk => (hL k hk).2.2, fun k hk => (hL k hk).1,
    ?_, fun i hi => ?_, ?_⟩
  · rw [hall]
    refine ⟨fun i => ?_, fun c hc => ?_, fun c hc => ?_, fun c hc => ?_⟩
    · simp [cover_singles]
    · rw [Chunk.Aligned, (mem_singles.mp hc).1]
      exact Nat.one_dvd _
    · rw [(mem_singles.mp hc).1]
      decide
    · rw [(mem_singles.mp hc).1]
      exact (hP _ (mem_singles.mp hc).2.2).2
  · simp only [(hP i hi).1, true_iff]
    refine ⟨⟨i, 0⟩, mem_singles.mpr ⟨rfl, Nat.zero_le _, hi⟩, head_mem _⟩
  · rw [hch]
    intro c hc
    contradiction

/-- `init_buddy` on any memory leaves a pool without live chunks. -/
theorem wp_initBuddy (build : Build) (S n : ℕ) (m : PhysMemPool) :
    wp (initBuddy build (S * buddyPageSize) n)
      (fun _ t => Settled m t ∧ ∃ free, Rep S n t free [] []) anyCrash m := by
  simp only [initBuddy, wp_bind, wp_store]
  refine ⟨trivial, trivial, ?_⟩
  refine wp_post (wp_forUpTo (I := fun k t => t.latestLog = m.latestLog ∧
    t.poolStartAddr = S * buddyPageSize ∧ t.poolMemSize = n * buddyPageSize ∧
    ∀ j < k, t.nrFree j = 0 ∧
      t.links.next (.freeList j) = .freeList j ∧ t.links.prev (.freeList j) = .freeList j)
    ⟨rfl, rfl, rfl, fun j hj => absurd hj (Nat.not_lt_zero j)⟩ ?_) ?_
  · rintro k t - ⟨hlog, hs, hn, hL⟩
    simp only [wp_bind, wp_store, wp_onLinks, wp_initListHead]
    refine ⟨trivial, trivial, trivial, hlog, hs, hn, fun j hj => ?_⟩
    by_cases hjk : j = k
    · subst hjk
      simp
    · have := hL j (by omega)
      simp [hjk, this]
  · rintro - t ⟨hlog, hs, hn, hL⟩
    refine ⟨trivial, ?_⟩
    -- the state after the memset
    refine wp_post (wp_forUpTo (I := fun i t' => t'.latestLog = m.latestLog ∧
      t'.poolStartAddr = S * buddyPageSize ∧
      t'.poolMemSize = n * buddyPageSize ∧ t'.nrFree = t.nrFree ∧ t'.links = t.links ∧
      ∀ x < i, isAllocated (t'.flags x) = true ∧ t'.order x = 0)
      ⟨hlog, hs, hn, rfl, rfl, fun x hx => absurd hx (Nat.not_lt_zero x)⟩ ?_) ?_
    · rintro i t' - ⟨hlog', hs', hn', hnr, hl, hx⟩
      simp only [pageSetFlag, wp_bind, wp_store]
      refine ⟨trivial, trivial, hlog', hs', hn', hnr, hl, fun x hxi => ?_⟩
      by_cases he : x = i
      · subst he
        simp
      · have := hx x (by omega)
        simp [update_of_ne he, this]
    · rintro - t' ⟨hlog', hs', hn', hnr, hl, hx⟩
      have r0 : Rep S n t' (fun _ => []) [] (singles 0 n) :=
        of_init hs' hn' (by rwa [hnr, hl]) hx
      refine wp_post (wp_forUpTo (I := fun i t => Settled m t ∧
        ∃ free, Rep S n t free [] (singles i n)) ⟨.inr (congrArg _ hlog'), _, r0⟩ ?_) ?_
      · rintro i t hi ⟨hset, free, r⟩
        have hmem : (⟨i, 0⟩ : Chunk) ∈ singles i n := mem_singles.mpr ⟨rfl, Nat.le_refl _, hi⟩
        refine wp_mono (wp_buddyFreePages build r hmem) ?_ fun _ _ => trivial
        rintro - t' ⟨hset', free', r'⟩
        rw [singles_cons hi, erase_cons_head] at r'
        exact ⟨hset.trans hset', free', r'⟩
      · rintro - t ⟨hset, free, r⟩
        rw [singles_self] at r
        exact ⟨hset, free, r⟩

end Starfish.Buddy
