import Mathlib.Data.List.Count
import Mathlib.Data.Nat.Bitwise
import Mathlib.Tactic.Linarith
import Mathlib.Tactic.Ring

/-!
# Starfish.Block

Aligned power-of-two blocks of an interval of cells.  Cells are numbered
from `0`; `S` is the absolute number of cell `0`, and alignment is that of
absolute numbers, so the interval itself need not be aligned.

The three facts the buddy allocator rests on are here, over any set of
blocks: two aligned blocks are nested or disjoint (`Chunk.nested`); a block
that is covered by pairwise disjoint aligned blocks, no two of them buddies,
lies inside one of them (`exists_chunk_of_covered`); and such a set of
blocks, if it covers the interval, is the set of maximal aligned blocks
(`mem_iff_maximal`).
-/

namespace Starfish

open List Function Nat

/-! ## Exclusive or with a power of two -/

/-- Clearing bit `k` of a number aligned to `2 ^ (k + 1)` sets it. -/
theorem xor_two_pow_of_dvd (h : 2 ^ (k + 1) ∣ v) : v ^^^ 2 ^ k = v + 2 ^ k := by
  obtain ⟨w, rfl⟩ := h
  have hlt : 2 ^ k < 2 ^ (k + 1) := Nat.pow_lt_pow_right (by decide) (Nat.lt_succ_self k)
  have hor : 2 ^ (k + 1) * w ||| 2 ^ k = 2 ^ (k + 1) * w + 2 ^ k :=
    (Nat.two_pow_add_eq_or_of_lt hlt w).symm
  rw [← hor]
  apply eq_of_testBit_eq
  intro i
  rw [testBit_xor, testBit_or, testBit_two_pow_mul, testBit_two_pow]
  by_cases hik : k = i
  · subst hik
    simp
  · simp [hik]

/-- A number aligned to `2 ^ k` but not to `2 ^ (k + 1)` has bit `k` set. -/
theorem xor_two_pow_of_not_dvd (h : 2 ^ k ∣ v) (hn : ¬ 2 ^ (k + 1) ∣ v) :
    v = (v ^^^ 2 ^ k) + 2 ^ k ∧ 2 ^ (k + 1) ∣ (v ^^^ 2 ^ k) := by
  obtain ⟨w, rfl⟩ := h
  have hodd : w % 2 = 1 := by
    by_contra hw
    refine hn ⟨w / 2, ?_⟩
    have h2 : w = 2 * (w / 2) := by omega
    rw [pow_succ, mul_assoc, ← h2]
  obtain ⟨u, hu⟩ : ∃ u, w = 2 * u + 1 := ⟨w / 2, by omega⟩
  have hbase : 2 ^ (k + 1) ∣ 2 ^ (k + 1) * u := dvd_mul_right _ _
  have hv : 2 ^ k * w = 2 ^ (k + 1) * u + 2 ^ k := by rw [hu, pow_succ]; ring
  have hxor := xor_two_pow_of_dvd hbase
  have hback : 2 ^ k * w ^^^ 2 ^ k = 2 ^ (k + 1) * u := by
    rw [hv, ← hxor, Nat.xor_assoc, Nat.xor_self, Nat.xor_zero]
  rw [hback]
  exact ⟨hv, hbase⟩

/-! ## Chunks -/

/-- A run of `2 ^ order` cells starting at `head`. -/
structure Chunk where
  head : ℕ
  order : ℕ
deriving DecidableEq, Repr

open Chunk

namespace Chunk

instance : Membership ℕ Chunk := ⟨fun c i => c.head ≤ i ∧ i < c.head + 2 ^ c.order⟩

theorem mem_def {c : Chunk} : i ∈ c ↔ c.head ≤ i ∧ i < c.head + 2 ^ c.order := Iff.rfl

instance (i : ℕ) (c : Chunk) : Decidable (i ∈ c) :=
  inferInstanceAs (Decidable (c.head ≤ i ∧ i < c.head + 2 ^ c.order))

theorem head_mem (c : Chunk) : c.head ∈ c :=
  ⟨Nat.le_refl _, Nat.lt_add_of_pos_right (Nat.two_pow_pos _)⟩

/-- The absolute number of the first cell is a multiple of the length. -/
def Aligned (S : ℕ) (c : Chunk) : Prop := 2 ^ c.order ∣ S + c.head

instance (S : ℕ) (c : Chunk) : Decidable (c.Aligned S) :=
  inferInstanceAs (Decidable (_ ∣ _))

/-- `c` lies inside `d`. -/
def Within (c d : Chunk) : Prop :=
  d.head ≤ c.head ∧ c.head + 2 ^ c.order ≤ d.head + 2 ^ d.order

variable {c d : Chunk}

/-- Two aligned chunks that meet are nested. -/
theorem nested {S i : ℕ} (hc : c.Aligned S) (hd : d.Aligned S) (hic : i ∈ c)
    (hid : i ∈ d) (hle : c.order ≤ d.order) : c.Within d := by
  obtain ⟨a, ha⟩ := hc
  obtain ⟨b, hb⟩ := hd
  obtain ⟨e, he⟩ := Nat.exists_eq_add_of_le hle
  rw [mem_def] at hic hid
  have hD : 2 ^ d.order = 2 ^ c.order * 2 ^ e := by rw [he, pow_add]
  rw [hD] at hb hid
  rw [Within, hD]
  generalize 2 ^ c.order = K at ha hb hic hid ⊢
  generalize 2 ^ e = E at hb hid ⊢
  -- both first cells are multiples of the smaller length
  have hlow : E * b < a + 1 := by
    apply Nat.lt_of_mul_lt_mul_left (a := K)
    calc K * (E * b) = S + d.head := by rw [hb, mul_assoc]
      _ ≤ S + i := by omega
      _ < S + c.head + K := by omega
      _ = K * (a + 1) := by rw [ha]; ring
  have hhigh : a < E * b + E := by
    apply Nat.lt_of_mul_lt_mul_left (a := K)
    calc K * a = S + c.head := ha.symm
      _ ≤ S + i := by omega
      _ < S + d.head + K * E := by omega
      _ = K * (E * b + E) := by rw [hb]; ring
  have h1 : K * (E * b) ≤ K * a := mul_le_mul_left K (by omega)
  have h2 : K * (a + 1) ≤ K * (E * b + E) := mul_le_mul_left K (by omega)
  have h3 : K * (a + 1) = K * a + K := by ring
  have h4 : K * (E * b + E) = K * (E * b) + K * E := by ring
  have h5 : K * E * b = K * (E * b) := mul_assoc K E b
  omega

/-- A nested chunk of the same order is the same chunk. -/
theorem Within.eq (h : c.Within d) (ho : c.order = d.order) : c = d := by
  obtain ⟨hc, ho'⟩ := h
  rw [ho] at ho'
  cases c
  cases d
  simp only [mk.injEq] at *
  omega

/-- A chunk within one of at most its order has that order. -/
theorem order_le_of_within (h : c.Within d) (hle : d.order ≤ c.order) : d.order = c.order := by
  unfold Within at h
  have hp : 2 ^ c.order ≤ 2 ^ d.order := by omega
  have := (Nat.pow_le_pow_iff_right (by decide : 1 < 2)).mp hp
  omega

theorem Within.mem {i : ℕ} (h : c.Within d) (hi : i ∈ c) : i ∈ d := by
  rw [mem_def] at hi ⊢
  unfold Within at h
  omega

/-- A chunk of order `k + 1` is its two halves. -/
theorem mem_split {h k i : ℕ} :
    i ∈ (⟨h, k + 1⟩ : Chunk) ↔ i ∈ (⟨h, k⟩ : Chunk) ∨ i ∈ (⟨h + 2 ^ k, k⟩ : Chunk) := by
  have hp : 2 ^ (k + 1) = 2 ^ k + 2 ^ k := by rw [pow_succ]; ring
  simp only [mem_def, hp]
  omega

theorem not_mem_both_halves {h k i : ℕ} (h1 : i ∈ (⟨h, k⟩ : Chunk))
    (h2 : i ∈ (⟨h + 2 ^ k, k⟩ : Chunk)) : False := by
  simp only [mem_def] at h1 h2
  omega

/-- The halves of an aligned chunk are aligned. -/
theorem Aligned.left (ha : (⟨h, k + 1⟩ : Chunk).Aligned S) : (⟨h, k⟩ : Chunk).Aligned S :=
  dvd_trans (pow_dvd_pow 2 (le_succ k)) ha

theorem Aligned.right (ha : (⟨h, k + 1⟩ : Chunk).Aligned S) :
    (⟨h + 2 ^ k, k⟩ : Chunk).Aligned S := by
  have hl : 2 ^ k ∣ S + h := ha.left
  have : S + (h + 2 ^ k) = S + h + 2 ^ k := by omega
  simp only [Aligned, this]
  exact Nat.dvd_add hl (Nat.dvd_refl _)

end Chunk

/-! ## Buddies -/

/-- `b` is the other half of the block of order `k + 1` around the block of
order `k` at `h`: their absolute numbers differ in bit `k` only. -/
def IsBuddy (S k h b : ℕ) : Prop := S + b = (S + h) ^^^ 2 ^ k

instance (S k h b : ℕ) : Decidable (IsBuddy S k h b) := inferInstanceAs (Decidable (_ = _))

section

variable {S k h b : ℕ} (hb : IsBuddy S k h b)
include hb

theorem IsBuddy.symm : IsBuddy S k b h := by
  unfold IsBuddy at *
  rw [hb, Nat.xor_assoc, Nat.xor_self, Nat.xor_zero]

/-- Of two buddies, one is the left half and the other the right half of an
aligned block. -/
theorem IsBuddy.cases (ha : (⟨h, k⟩ : Chunk).Aligned S) :
    (b = h + 2 ^ k ∧ (⟨h, k + 1⟩ : Chunk).Aligned S) ∨
      (h = b + 2 ^ k ∧ (⟨b, k + 1⟩ : Chunk).Aligned S) := by
  unfold IsBuddy at hb
  by_cases hd : 2 ^ (k + 1) ∣ S + h
  · rw [xor_two_pow_of_dvd hd] at hb
    exact .inl ⟨by omega, hd⟩
  · have ha' : 2 ^ k ∣ S + h := ha
    obtain ⟨hv, hd'⟩ := xor_two_pow_of_not_dvd ha' hd
    rw [← hb] at hv hd'
    exact .inr ⟨by omega, hd'⟩

theorem IsBuddy.aligned (ha : (⟨h, k⟩ : Chunk).Aligned S) : (⟨b, k⟩ : Chunk).Aligned S := by
  rcases hb.cases ha with ⟨rfl, hp⟩ | ⟨-, hp⟩
  · exact hp.right
  · exact hp.left

theorem IsBuddy.ne (ha : (⟨h, k⟩ : Chunk).Aligned S) : h ≠ b := by
  have hpos : 0 < 2 ^ k := Nat.two_pow_pos k
  rcases hb.cases ha with ⟨he, -⟩ | ⟨he, -⟩ <;> omega

end

/-- The halves of an aligned block are buddies. -/
theorem isBuddy_of_aligned (ha : (⟨h, k + 1⟩ : Chunk).Aligned S) : IsBuddy S k h (h + 2 ^ k) := by
  have hd : 2 ^ (k + 1) ∣ S + h := ha
  unfold IsBuddy
  rw [xor_two_pow_of_dvd hd]
  omega

/-! ## Counting cover -/

/-- How many chunks of the list contain cell `i`. -/
def cover (cs : List Chunk) (i : ℕ) : ℕ := cs.countP fun c => i ∈ c

@[simp] theorem cover_nil (i : ℕ) : cover [] i = 0 := rfl

theorem cover_cons (c : Chunk) (cs : List Chunk) (i : ℕ) :
    cover (c :: cs) i = cover [c] i + cover cs i := by
  simp [cover, countP_cons, add_comm]

theorem cover_append (cs ds : List Chunk) (i : ℕ) :
    cover (cs ++ ds) i = cover cs i + cover ds i := List.countP_append

theorem cover_perm (h : cs.Perm ds) (i : ℕ) : cover cs i = cover ds i := h.countP_eq _

variable {i : ℕ}

theorem cover_singleton_of_mem (h : i ∈ c) : cover [c] i = 1 := by
  simp [cover, h]

theorem cover_singleton_of_not_mem (h : i ∉ c) : cover [c] i = 0 := by
  simp [cover, h]

/-- A chunk covers what its two halves cover. -/
theorem cover_split (h k i : ℕ) :
    cover [⟨h, k + 1⟩] i = cover [⟨h, k⟩] i + cover [⟨h + 2 ^ k, k⟩] i := by
  by_cases hl : i ∈ (⟨h, k⟩ : Chunk)
  · have hr : i ∉ (⟨h + 2 ^ k, k⟩ : Chunk) := fun hr => not_mem_both_halves hl hr
    rw [cover_singleton_of_mem (mem_split.mpr (.inl hl)), cover_singleton_of_mem hl,
      cover_singleton_of_not_mem hr]
  · by_cases hr : i ∈ (⟨h + 2 ^ k, k⟩ : Chunk)
    · rw [cover_singleton_of_mem (mem_split.mpr (.inr hr)), cover_singleton_of_mem hr,
        cover_singleton_of_not_mem hl]
    · have hn : i ∉ (⟨h, k + 1⟩ : Chunk) := by
        rw [mem_split]
        tauto
      rw [cover_singleton_of_not_mem hn, cover_singleton_of_not_mem hl,
        cover_singleton_of_not_mem hr]

theorem cover_pos_iff : 0 < cover cs i ↔ ∃ c ∈ cs, i ∈ c := by
  simp [cover, countP_pos_iff]

/-- If no cell is covered twice, the chunk around a cell is unique. -/
theorem eq_of_cover_le_one (h : cover cs i ≤ 1)
    (hc : c ∈ cs) (hd : d ∈ cs) (hic : i ∈ c) (hid : i ∈ d) : c = d := by
  obtain ⟨as, bs, rfl⟩ := append_of_mem hc
  have hd' : d ∈ c :: (as ++ bs) := perm_middle.mem_iff.mp hd
  rw [cover_perm perm_middle, cover_cons, cover_singleton_of_mem hic] at h
  rcases mem_cons.mp hd' with rfl | hd'
  · rfl
  · have hpos := cover_pos_iff.mpr ⟨d, hd', hid⟩
    omega

/-- If no cell is covered twice, no chunk is listed twice. -/
theorem nodup_of_cover_le_one (h : ∀ i, cover cs i ≤ 1) : cs.Nodup := by
  induction cs with
  | nil => exact nodup_nil
  | cons c cs ih =>
    refine nodup_cons.mpr ⟨fun hc => ?_, ih fun i => ?_⟩
    · have h1 := h c.head
      have hpos := cover_pos_iff.mpr ⟨c, hc, c.head_mem⟩
      rw [cover_cons, cover_singleton_of_mem c.head_mem] at h1
      omega
    · have h1 := h i
      rw [cover_cons] at h1
      omega

/-! ## Coalesced sets of chunks -/

section Coalesced

variable {S N n : ℕ} {cs : List Chunk}

/-- No two chunks of an order below `N - 1` are buddies. -/
def Coalesced (S N : ℕ) (cs : List Chunk) : Prop :=
  ∀ c ∈ cs, c.order + 1 < N → ∀ b, IsBuddy S c.order c.head b → (⟨b, c.order⟩ : Chunk) ∉ cs

/-- Among aligned, disjoint chunks without buddies, one contains all of an
aligned block that they cover. -/
theorem exists_chunk_of_covered (hal : ∀ c ∈ cs, c.Aligned S)
    (hco : Coalesced S N cs) {d : Chunk} (hd : d.Aligned S) (hN : d.order < N)
    (hcov : ∀ i ∈ d, 0 < cover cs i) : ∃ c ∈ cs, d.Within c := by
  obtain ⟨h, k⟩ := d
  induction k generalizing h with
  | zero =>
    obtain ⟨c, hc, hic⟩ := cover_pos_iff.mp (hcov h (head_mem ⟨h, 0⟩))
    exact ⟨c, hc, nested hd (hal c hc) (head_mem ⟨h, 0⟩) hic (zero_le _)⟩
  | succ k ih =>
    have hk : k < N := lt_of_succ_lt hN
    obtain ⟨c, hc, hwc⟩ := ih h hd.left hk fun i hi => hcov i (mem_split.mpr (.inl hi))
    obtain ⟨e, he, hwe⟩ := ih (h + 2 ^ k) hd.right hk fun i hi =>
      hcov i (mem_split.mpr (.inr hi))
    have hhead : h ∈ (⟨h, k⟩ : Chunk) := head_mem ⟨h, k⟩
    by_cases hck : k + 1 ≤ c.order
    · exact ⟨c, hc, nested hd (hal c hc) (mem_split.mpr (.inl hhead)) (hwc.mem hhead) hck⟩
    · have hhead' : h + 2 ^ k ∈ (⟨h + 2 ^ k, k⟩ : Chunk) := head_mem ⟨h + 2 ^ k, k⟩
      by_cases hek : k + 1 ≤ e.order
      · exact ⟨e, he, nested hd (hal e he) (mem_split.mpr (.inr hhead')) (hwe.mem hhead') hek⟩
      · -- both halves are chunks of the list, and they are buddies
        have hco_c : c.order = k := order_le_of_within hwc (Nat.le_of_lt_succ (Nat.lt_of_not_le hck))
        have hco_e : e.order = k := order_le_of_within hwe (Nat.le_of_lt_succ (Nat.lt_of_not_le hek))
        have hceq : (⟨h, k⟩ : Chunk) = c := hwc.eq hco_c.symm
        have heeq : (⟨h + 2 ^ k, k⟩ : Chunk) = e := hwe.eq hco_e.symm
        have hbud := isBuddy_of_aligned hd
        rw [← hceq] at hc
        rw [← heeq] at he
        exact absurd he (hco ⟨h, k⟩ hc hN _ hbud)

/-- An aligned block of the first `n` cells that no larger one contains. -/
def Maximal (S N n : ℕ) (c : Chunk) : Prop :=
  c.Aligned S ∧ c.order < N ∧ c.head + 2 ^ c.order ≤ n ∧
    ∀ d : Chunk, d.Aligned S → d.order < N → d.head + 2 ^ d.order ≤ n → c.Within d → d = c

theorem le_of_tiling (hcov : ∀ i, cover cs i = if i < n then 1 else 0) {c : Chunk}
    (hc : c ∈ cs) : c.head + 2 ^ c.order ≤ n := by
  have hpos : 0 < 2 ^ c.order := Nat.two_pow_pos _
  have hlast : c.head + 2 ^ c.order - 1 ∈ c := by
    rw [mem_def]
    omega
  have h := cover_pos_iff.mpr ⟨c, hc, hlast⟩
  rw [hcov] at h
  split at h <;> omega

/-- Coalesced chunks that tile the first `n` cells are the maximal blocks:
there is only one way to tile them. -/
theorem mem_iff_maximal (hal : ∀ c ∈ cs, c.Aligned S) (hord : ∀ c ∈ cs, c.order < N)
    (hco : Coalesced S N cs) (hcov : ∀ i, cover cs i = if i < n then 1 else 0) (c : Chunk) :
    c ∈ cs ↔ Maximal S N n c := by
  have hfull : ∀ d : Chunk, d.head + 2 ^ d.order ≤ n → ∀ i ∈ d, 0 < cover cs i := by
    intro d hd i hi
    have hin : i < n := by
      rw [mem_def] at hi
      omega
    rw [hcov, if_pos hin]
    exact one_pos
  constructor
  · intro hc
    refine ⟨hal c hc, hord c hc, le_of_tiling hcov hc, fun d hd hdN hdn hcd => ?_⟩
    obtain ⟨e, he, hde⟩ := exists_chunk_of_covered hal hco hd hdN (hfull d hdn)
    have hle : cover cs c.head ≤ 1 := by
      rw [hcov]
      split <;> omega
    have hce : c = e := eq_of_cover_le_one hle hc he c.head_mem (hde.mem (hcd.mem c.head_mem))
    subst hce
    have hord : d.order = c.order := by
      unfold Chunk.Within at hcd hde
      exact Nat.pow_right_injective (Nat.le_refl 2) (by simp only; omega)
    exact hde.eq hord
  · rintro ⟨hal', hN, hn, hmax⟩
    obtain ⟨e, he, hce⟩ := exists_chunk_of_covered hal hco hal' hN (hfull c hn)
    have h := hmax e (hal e he) (hord e he) (le_of_tiling hcov he) hce
    exact h ▸ he

end Coalesced

/-! ## Chunks sorted by order -/

section chunksOf

variable {N : ℕ} {free : ℕ → List ℕ}

/-- The chunks of all lists, where `free k` lists the first cells of the
chunks of order `k`. -/
def chunksOf (N : ℕ) (free : ℕ → List ℕ) : List Chunk :=
  (List.range N).flatMap fun k => (free k).map (Chunk.mk · k)

theorem mem_chunksOf : c ∈ chunksOf N free ↔ c.order < N ∧ c.head ∈ free c.order := by
  simp only [chunksOf, mem_flatMap, mem_range, mem_map]
  constructor
  · rintro ⟨k, hk, h, hh, rfl⟩
    exact ⟨hk, hh⟩
  · rintro ⟨hk, hh⟩
    exact ⟨c.order, hk, c.head, hh, rfl⟩

theorem sublist_chunksOf (hk : k < N) :
    ((free k).map (Chunk.mk · k)).Sublist (chunksOf N free) := by
  rw [chunksOf, flatMap_def]
  exact sublist_flatten_of_mem (mem_map.mpr ⟨k, mem_range.mpr hk, rfl⟩)

theorem chunksOf_succ : chunksOf (N + 1) free = chunksOf N free ++ (free N).map (Chunk.mk · N) := by
  simp [chunksOf, range_succ, flatMap_append]

theorem chunksOf_congr (h : ∀ k < N, free k = free' k) : chunksOf N free = chunksOf N free' := by
  induction N with
  | zero => rfl
  | succ N ih =>
    rw [chunksOf_succ, chunksOf_succ, ih fun k hk => h k (by omega), h N (lt_succ_self N)]

/-- Putting `h` into the list of order `k` adds the chunk `⟨h, k⟩`. -/
theorem chunksOf_insert (hk : k < N) (hf : free k = as ++ bs) :
    (chunksOf N (update free k (as ++ h :: bs))).Perm (⟨h, k⟩ :: chunksOf N free) := by
  induction N with
  | zero => omega
  | succ N ih =>
    rw [chunksOf_succ, chunksOf_succ]
    by_cases hkN : k = N
    · subst hkN
      have hrest : chunksOf k (update free k (as ++ h :: bs)) = chunksOf k free :=
        chunksOf_congr fun j hj => update_of_ne (by omega) _ _
      rw [update_self, hf, hrest]
      simp only [map_append, map_cons]
      exact (perm_middle.append_left _).trans perm_middle
    · rw [update_of_ne (Ne.symm hkN)]
      exact (ih (by omega)).append_right _

/-- Taking `h` out of the list of order `k` removes the chunk `⟨h, k⟩`. -/
theorem chunksOf_erase (hk : k < N) (hf : free k = as ++ h :: bs) :
    (chunksOf N free).Perm (⟨h, k⟩ :: chunksOf N (update free k (as ++ bs))) := by
  have hself : update free k (as ++ bs) k = as ++ bs := update_self k _ _
  have hins := chunksOf_insert (h := h) hk hself
  rwa [update_idem, ← hf, update_eq_self] at hins

end chunksOf

end Starfish
