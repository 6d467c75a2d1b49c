import Mathlib.Algebra.BigOperators.Group.Finset.Piecewise

/-!
# Starfish.Places

Nodes that are each in one place.  A function gives every node its place, and the lists
of a memory are the places seen from the other side: `Lists own p xs` says that `xs` are
the nodes at `p`.  Two places then have no node in common, and a node that changes its
place is one `update`, for which there is one rule per list that it leaves,
enters or has nothing to do with.

Where a counter is kept beside the nodes, it is compared with the sum of what each of them
counts for: a node that changes moves the sum by its own part alone.
-/

namespace Starfish

open Function Finset

variable {ν κ : Type} {own : ν → κ} {p q : κ} {x : ν} {xs : List ν}

/-- The nodes at `p` are `xs`. -/
def Lists (own : ν → κ) (p : κ) (xs : List ν) : Prop := ∀ x, x ∈ xs ↔ own x = p

namespace Lists

theorem own_eq (h : Lists own p xs) (hx : x ∈ xs) : own x = p := (h x).mp hx

theorem mem (h : Lists own p xs) (hx : own x = p) : x ∈ xs := (h x).mpr hx

theorem notMem (h : Lists own p xs) (hx : own x ≠ p) : x ∉ xs := fun hmem => hx (h.own_eq hmem)

/-- Two places have no node in common. -/
theorem disjoint (h : Lists own p xs) (h' : Lists own q ys) (hpq : p ≠ q)
    (hx : x ∈ xs) : x ∉ ys := fun hy => hpq ((h.own_eq hx).symm.trans (h'.own_eq hy))

variable [DecidableEq ν]

section

variable (h : Lists own p xs)
include h

theorem cons (x : ν) : Lists (update own x p) p (x :: xs) := by
  intro y
  by_cases hy : y = x
  · simp [hy]
  · rw [update_of_ne hy, ← h y, List.mem_cons]
    exact or_iff_right hy

theorem concat (x : ν) : Lists (update own x p) p (xs ++ [x]) := by
  intro y
  rw [← h.cons x y, List.mem_append, List.mem_singleton, List.mem_cons]
  exact or_comm

theorem erase (hnd : xs.Nodup) (hpq : p ≠ q) : Lists (update own x q) p (xs.erase x) := by
  intro y
  by_cases hy : y = x
  · rw [hy, update_self]
    exact iff_of_false hnd.not_mem_erase (Ne.symm hpq)
  · rw [update_of_ne hy, ← h y, hnd.mem_erase_iff]
    exact and_iff_right hy

/-- A node that goes from elsewhere to elsewhere. -/
theorem update (hx : own x ≠ p) (hq : q ≠ p) : Lists (update own x q) p xs := by
  intro y
  by_cases hy : y = x
  · rw [hy, update_self, h x]
    exact iff_of_false hx hq
  · rw [update_of_ne hy, h y]

end

end Lists

theorem update_eq_iff [DecidableEq ν] (hx : own x ≠ r) (hq : q ≠ r) (y : ν) :
    update own x q y = r ↔ own y = r := by
  by_cases hy : y = x
  · rw [hy, update_self]
    exact iff_of_false hq hx
  · rw [update_of_ne hy]

/-- The sum over a family in which only `i` changes. -/
theorem sum_add_of_eq_off {ι : Type} [Fintype ι] [DecidableEq ι] {f g : ι → ℕ} (i : ι)
    (h : ∀ j, j ≠ i → g j = f j) : ∑ j, g j + f i = ∑ j, f j + g i := by
  have hrest : ∑ j ∈ univ.erase i, g j = ∑ j ∈ univ.erase i, f j :=
    sum_congr rfl fun j hj => h j (ne_of_mem_erase hj)
  have hf := add_sum_erase univ f (mem_univ i)
  have hg := add_sum_erase univ g (mem_univ i)
  omega

/-- How many nodes there are of a kind that all are in the list. -/
theorem sum_ite_eq_countP {ι : Type} [Fintype ι] [DecidableEq ι] {xs : List ι} (hnd : xs.Nodup)
    {c : ι → Prop} [DecidablePred c] (h : ∀ x, c x → x ∈ xs) :
    ∑ x, (if c x then 1 else 0) = xs.countP fun x => decide (c x) := by
  have hset : univ.filter c = (xs.filter fun x => decide (c x)).toFinset := by
    ext x
    simp only [mem_filter, mem_univ, true_and, List.mem_toFinset, List.mem_filter,
      decide_eq_true_eq]
    exact ⟨fun hx => ⟨h x hx, hx⟩, fun hx => hx.2⟩
  rw [← card_filter, hset, List.toFinset_card_of_nodup (hnd.filter _),
    List.countP_eq_length_filter]

end Starfish
