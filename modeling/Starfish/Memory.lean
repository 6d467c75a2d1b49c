import Mathlib.Tactic.Ring
import Mathlib.Data.List.Range

/-!
# Starfish.Memory

Memory as bytes at addresses, and little-endian numbers in it.

A store writes a list of bytes, a load reads one.  A load sees a store to the same place
(`load_store_self`), does not see a store to another place (`load_store_of_disjoint`), and a
long store is the same as its parts one after the other (`store_append`).
-/

namespace Starfish

open List

/-! ## Little-endian numbers -/

/-- The low `w` bytes of `n`, the lowest first. -/
def leBytes : ℕ → ℕ → List UInt8
  | 0, _ => []
  | w + 1, n => UInt8.ofNat n :: leBytes w (n / 256)

/-- The number in these bytes. -/
def leNat : List UInt8 → ℕ
  | [] => 0
  | b :: bs => b.toNat + 256 * leNat bs

@[simp] theorem length_leBytes (w n : ℕ) : (leBytes w n).length = w := by
  induction w generalizing n with
  | zero => rfl
  | succ w ih => rw [leBytes, length_cons, ih]

theorem leNat_leBytes (w n : ℕ) : leNat (leBytes w n) = n % 256 ^ w := by
  induction w generalizing n with
  | zero => simp [leBytes, leNat, Nat.mod_one]
  | succ w ih =>
    have hbyte : (UInt8.ofNat n).toNat = n % 256 := UInt8.toNat_ofNat'
    rw [leBytes, leNat, ih, hbyte, Nat.pow_succ']
    exact (Nat.mod_mul ..).symm

theorem leNat_leBytes_of_lt (h : n < 256 ^ w) : leNat (leBytes w n) = n := by
  rw [leNat_leBytes, Nat.mod_eq_of_lt h]

theorem uint32_leNat_leBytes (x : UInt32) : UInt32.ofNat (leNat (leBytes 4 x.toNat)) = x := by
  rw [leNat_leBytes_of_lt x.toNat_lt, UInt32.ofNat_toNat]

theorem uint64_leNat_leBytes (x : UInt64) : UInt64.ofNat (leNat (leBytes 8 x.toNat)) = x := by
  rw [leNat_leBytes_of_lt x.toNat_lt, UInt64.ofNat_toNat]

/-! ## Stores and loads -/

/-- The byte at each address. -/
def Memory : Type := ℕ → UInt8

namespace Memory

variable {m m' : Memory} {a b n k : ℕ} {bs cs : List UInt8}

/-- The bytes `bs` are written from `a` on. -/
def store (m : Memory) (a : ℕ) (bs : List UInt8) : Memory :=
  fun i => if a ≤ i then (bs[i - a]?).getD (m i) else m i

/-- The `n` bytes from `a` on. -/
def load (m : Memory) (a n : ℕ) : List UInt8 := (List.range n).map fun i => m (a + i)

@[simp] theorem length_load (m : Memory) (a n : ℕ) : (m.load a n).length = n := by
  rw [load, length_map, length_range]

theorem store_of_lt (h : i < a) : m.store a bs i = m i := if_neg (by omega)

theorem store_of_le (h : a + bs.length ≤ i) : m.store a bs i = m i := by
  rw [store, if_pos (by omega), getElem?_eq_none (by omega), Option.getD_none]

theorem store_add (h : i < bs.length) : m.store a bs (a + i) = bs[i] := by
  rw [store, if_pos (by omega), Nat.add_sub_cancel_left, getElem?_eq_getElem h,
    Option.getD_some]

theorem load_congr (h : ∀ i, i < n → m' (a + i) = m (a + i)) : m'.load a n = m.load a n := by
  refine map_congr_left fun i hi => ?_
  exact h i (mem_range.mp hi)

theorem load_store_self (m : Memory) (a : ℕ) (bs : List UInt8) :
    (m.store a bs).load a bs.length = bs := by
  refine ext_getElem (length_load ..) fun i h _ => ?_
  rw [length_load] at h
  simp [load, store_add h]

theorem load_store_of_disjoint (h : b + n ≤ a ∨ a + bs.length ≤ b) :
    (m.store a bs).load b n = m.load b n := by
  refine load_congr fun i hi => ?_
  obtain h | h := h
  · exact store_of_lt (by omega)
  · exact store_of_le (by omega)

theorem store_nil (m : Memory) (a : ℕ) : m.store a [] = m := by
  funext i
  simp [store]

theorem store_append (m : Memory) (a : ℕ) (bs cs : List UInt8) :
    m.store a (bs ++ cs) = (m.store a bs).store (a + bs.length) cs := by
  funext i
  by_cases hlow : i < a + bs.length
  · rw [store_of_lt hlow]
    by_cases hi : a ≤ i
    · have hlt : i - a < bs.length := by omega
      simp [store, hi, getElem?_append_left hlt]
    · simp [store, hi]
  · have hi : a ≤ i := by omega
    have hge : bs.length ≤ i - a := by omega
    rw [store, if_pos hi, getElem?_append_right hge, store, if_pos (by omega),
      store_of_le (by omega), Nat.sub_sub]

end Memory

end Starfish
