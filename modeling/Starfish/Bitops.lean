import Mathlib.Tactic.Common

/-!
# Starfish.Bitops

Bitmaps in arrays of 64-bit words, as in `common/bitops.h`.  An array is a
function of the index; what it gives behind the end of the array is whatever
lies there in memory.
-/

namespace Starfish

open Function BitVec

abbrev bitsPerLong : ℕ := 64

/-- `BITS_TO_LONGS(nr)`. -/
def bitsToLongs (nr : ℕ) : ℕ := (nr + 63) / 64

/-- An array of words. -/
abbrev Words := ℕ → BitVec 64

/-- `~((unsigned long)0)`. -/
def ones : BitVec 64 := BitVec.allOnes 64

/-- `set_bit`. -/
def setBit (nr : ℕ) (p : Words) : Words :=
  Function.update p (nr / 64) (p (nr / 64) ||| 1#64 <<< (nr % 64))

/-- `get_bit`. -/
def getBit (nr : ℕ) (p : Words) : Bool := (p (nr / 64)).getLsbD (nr % 64)

/-- `clear_bit`. -/
def clearBit (nr : ℕ) (p : Words) : Words :=
  Function.update p (nr / 64) (p (nr / 64) &&& ~~~ (1#64 <<< (nr % 64)))

/-- The inner loop of `find_next_bit_helper`: `n` bits of a word from `curBit`
on. -/
@[simp] def scanWord (w : BitVec 64) (invert : Bool) : (n curBit res : ℕ) → Option ℕ
  | 0, _, _ => none
  | n + 1, curBit, res =>
    if w.getLsbD curBit != invert then some res else scanWord w invert n (curBit + 1) (res + 1)

/-- The outer loop of `find_next_bit_helper`: `n` words from `curElem` on. -/
def scanWords (p : Words) (size : ℕ) (invert : Bool) : (n curElem curBit res : ℕ) → ℕ
  | 0, _, _, _ => size
  | n + 1, curElem, curBit, res =>
    let maxBit := if curElem < (size - 1) / 64 then 63 else (size - 1) % 64
    match scanWord (p curElem) invert (maxBit + 1 - curBit) curBit res with
    | some res => res
    | none => scanWords p size invert n (curElem + 1) 0 (res + (maxBit + 1 - curBit))

/-- `find_next_bit_helper`. -/
def findNextBitHelper (p : Words) (size start : ℕ) (invert : Bool) : ℕ :=
  scanWords p size invert ((size - 1) / 64 + 1 - start / 64) (start / 64) (start % 64) start

/-- `find_next_zero_bit`. -/
def findNextZeroBit (p : Words) (size start : ℕ) : ℕ := findNextBitHelper p size start true

/-! ## Single bits -/

section bits

variable (p : Words) (i nr : ℕ)

theorem getLsbD_one_shiftLeft (ha : a < 64) (b : ℕ) : (1#64 <<< b).getLsbD a = decide (a = b) := by
  rw [getLsbD_shiftLeft, getLsbD_one]
  grind

@[simp] theorem getBit_setBit : getBit i (setBit nr p) = (decide (i = nr) || getBit i p) := by
  have hi : i % 64 < 64 := Nat.mod_lt _ (by decide)
  unfold getBit setBit
  by_cases hw : i / 64 = nr / 64
  · rw [hw, update_self, getLsbD_or, getLsbD_one_shiftLeft hi, Bool.or_comm]
    congr 2
    grind
  · have hne : i ≠ nr := fun h => hw (h ▸ rfl)
    rw [update_of_ne hw]
    simp [hne]

theorem getBit_clearBit : getBit i (clearBit nr p) = (!decide (i = nr) && getBit i p) := by
  have hi : i % 64 < 64 := Nat.mod_lt _ (by decide)
  unfold getBit clearBit
  by_cases hw : i / 64 = nr / 64
  · have heq : (i % 64 = nr % 64) = (i = nr) := by grind
    rw [hw, update_self, getLsbD_and, getLsbD_not,
      getLsbD_one_shiftLeft hi, Bool.and_comm]
    simp [hi, heq]
  · have hne : i ≠ nr := fun h => hw (h ▸ rfl)
    rw [update_of_ne hw]
    simp [hne]

theorem getBit_ite_setBit (c : Prop) [Decidable c] :
    getBit i (if c then setBit nr p else p) = (decide (c ∧ i = nr) || getBit i p) := by
  by_cases hc : c
  · simp [hc]
  · simp [hc]

/-- Only the word of the bit changes. -/
theorem setBit_of_ne (h : w ≠ nr / 64) : setBit nr p w = p w := update_of_ne h _ _

theorem clearBit_of_ne (h : w ≠ nr / 64) : clearBit nr p w = p w := update_of_ne h _ _

/-- A word is all ones if and only if its bits are set. -/
theorem eq_ones_iff (w : ℕ) : p w = ones ↔ ∀ i, i / 64 = w → getBit i p = true := by
  constructor
  · rintro h i rfl
    rw [getBit, h, ones, getLsbD_allOnes]
    simpa using Nat.mod_lt i (by decide)
  · intro h
    apply eq_of_getLsbD_eq
    intro b hb
    have hbit := h (64 * w + b) (by omega)
    have hmod : (64 * w + b) % 64 = b := by omega
    have hdiv : (64 * w + b) / 64 = w := by omega
    rw [getBit, hmod, hdiv] at hbit
    rw [hbit, ones, getLsbD_allOnes]
    simpa using hb

end bits

/-! ## Searching -/

section search

variable {p : Words} {size : ℕ} {invert : Bool}

theorem scanWord_none (h : scanWord w invert n curBit res = none) :
    ∀ b, curBit ≤ b → b < curBit + n → w.getLsbD b = invert := by
  induction n generalizing curBit res with
  | zero => intro b h1 h2; omega
  | succ n ih =>
    intro b hle hlt
    by_cases hbit : w.getLsbD curBit = invert
    · have hrest : scanWord w invert n (curBit + 1) (res + 1) = none := by
        simpa [hbit] using h
      by_cases hb : b = curBit
      · rw [hb, hbit]
      · exact ih hrest b (by omega) (by omega)
    · simp [hbit] at h

theorem scanWord_some (h : scanWord w invert n curBit res = some r) :
    ∃ b, curBit ≤ b ∧ b < curBit + n ∧ r = res + (b - curBit) ∧ w.getLsbD b ≠ invert ∧
      ∀ c, curBit ≤ c → c < b → w.getLsbD c = invert := by
  induction n generalizing curBit res with
  | zero => simp at h
  | succ n ih =>
    by_cases hbit : w.getLsbD curBit = invert
    · have hrest : scanWord w invert n (curBit + 1) (res + 1) = some r := by
        simpa [hbit] using h
      obtain ⟨b, hle, hlt, hr, hb, hmin⟩ := ih hrest
      refine ⟨b, by omega, by omega, by omega, hb, fun c hc hcb => ?_⟩
      by_cases hcur : c = curBit
      · rw [hcur, hbit]
      · exact hmin c (by omega) hcb
    · obtain rfl : res = r := by simpa [hbit] using h
      exact ⟨curBit, by omega, by omega, by omega, hbit, fun c _ _ => by omega⟩

/-- What a search finds: the first bit from `start` on, or the end. -/
def Found (p : Words) (size start : ℕ) (invert : Bool) (r : ℕ) : Prop :=
  (∀ i, start ≤ i → i < r → getBit i p = invert) ∧
    (r = size ∨ start ≤ r ∧ r < size ∧ getBit r p ≠ invert)

theorem scanWords_spec (hsize : 0 < size) (n curElem curBit res : ℕ)
    (hn : n = (size - 1) / 64 + 1 - curElem) (hres : res = curElem * 64 + curBit)
    (hbit : curBit < 64) :
    Found p size res invert (scanWords p size invert n curElem curBit res) := by
  induction n generalizing curElem curBit res with
  | zero =>
    refine ⟨fun i hi hlt => ?_, .inl rfl⟩
    simp only [scanWords] at hlt
    omega
  | succ n ih =>
    simp only [scanWords]
    set maxBit := if curElem < (size - 1) / 64 then 63 else (size - 1) % 64 with hmax
    have hmax' : maxBit < 64 ∧ (curElem < (size - 1) / 64 → maxBit = 63) ∧
        (¬ curElem < (size - 1) / 64 → maxBit = (size - 1) % 64) := by
      rw [hmax]
      split <;> omega
    have hget (b : ℕ) (hb : b < 64) : getBit (curElem * 64 + b) p = (p curElem).getLsbD b := by
      have hdiv : (curElem * 64 + b) / 64 = curElem := by omega
      have hmod : (curElem * 64 + b) % 64 = b := by omega
      rw [getBit, hdiv, hmod]
    cases hscan : scanWord (p curElem) invert (maxBit + 1 - curBit) curBit res with
    | some r =>
      obtain ⟨b, hle, hlt, hr, hb, hmin⟩ := scanWord_some hscan
      have hrb : r = curElem * 64 + b := by omega
      show Found p size res invert r
      refine ⟨fun i hi hir => ?_, .inr ⟨by omega, by omega, ?_⟩⟩
      · have heq : i = curElem * 64 + (i - curElem * 64) := by omega
        rw [heq, hget _ (by omega)]
        exact hmin _ (by omega) (by omega)
      · rwa [hrb, hget b (by omega)]
    | none =>
      have hzero := scanWord_none hscan
      show Found p size res invert
        (scanWords p size invert n (curElem + 1) 0 (res + (maxBit + 1 - curBit)))
      have hword (i : ℕ) (hi : res ≤ i) (hi' : i < curElem * 64 + maxBit + 1) :
          getBit i p = invert := by
        have heq : i = curElem * 64 + (i - curElem * 64) := by omega
        rw [heq, hget _ (by omega)]
        exact hzero _ (by omega) (by omega)
      by_cases hlast : curElem < (size - 1) / 64
      · obtain ⟨hbefore, hfound⟩ := ih (curElem + 1) 0 ((curElem + 1) * 64) (by omega) (by omega)
          (by omega)
        by_cases hcur : curBit ≤ maxBit
        · have hnext : res + (maxBit + 1 - curBit) = (curElem + 1) * 64 := by omega
          simp only [hnext]
          refine ⟨fun i hi hir => ?_, ?_⟩
          · by_cases hsame : i < (curElem + 1) * 64
            · exact hword i hi (by omega)
            · exact hbefore i (by omega) hir
          · exact hfound.imp_right fun h => ⟨by omega, h.2⟩
        · omega
      · -- the last word: the loop is left with the end
        have hdone : n = 0 := by omega
        subst hdone
        refine ⟨fun i hi hir => hword i hi ?_, .inl rfl⟩
        simp only [scanWords] at hir
        omega

/-- `find_next_zero_bit` finds the first zero bit. -/
theorem findNextZeroBit_spec (p : Words) (start : ℕ) (hsize : 0 < size) :
    Found p size start true (findNextZeroBit p size start) :=
  scanWords_spec hsize _ _ _ _ rfl (by omega) (Nat.mod_lt _ (by decide))

end search

end Starfish
