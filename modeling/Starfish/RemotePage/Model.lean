import Mathlib.Data.Nat.Bitwise
import Starfish.Prog

/-!
# Starfish.RemotePage.Model

The stacks of `kernel/mm/remote_free.c` on which a machine finds the pages that other
machines free for it.  The elements are batches of page addresses in memory that every
machine can read; a batch is known by its offset from `dsm_meta`, and offset `0` is NULL.

The head of a stack is one word: the offset of the first batch, and above it a
generation that every store increments.
-/

namespace Starfish.RemotePage

open Prog Nat

def rpfOffBits : ℕ := 40

def rpfOffMask : ℕ := 2 ^ rpfOffBits - 1

def rpfGenMask : ℕ := 2 ^ (64 - rpfOffBits) - 1

/-- The heads of the stacks by owner, and the links of the batches. -/
structure RpfMem where
  head : ℕ → ℕ
  next : ℕ → ℕ

namespace RpfMem

@[simps -fullyApplied]
def setHead (m : RpfMem) (owner v : ℕ) : RpfMem := { m with head := Function.update m.head owner v }

@[simps -fullyApplied]
def setNext (m : RpfMem) (batch v : ℕ) : RpfMem := { m with next := Function.update m.next batch v }

end RpfMem

/-- `rpf_encode`, without its check of the offset. -/
def rpfEncode (generation off : ℕ) : ℕ := ((generation &&& rpfGenMask) <<< rpfOffBits) ||| off

/-- `rpf_decode`. -/
def rpfDecode (head : ℕ) : ℕ := head &&& rpfOffMask

/-- `rpf_next_generation`. -/
def rpfNextGeneration (head : ℕ) : ℕ := (head >>> rpfOffBits) + 1

/-- The empty stack that `rpf_pop_all` leaves behind. -/
def rpfEmptied (head : ℕ) : ℕ := (rpfNextGeneration head &&& rpfGenMask) <<< rpfOffBits

/-- `compare_and_swap_64(headp, old, desired) == old` -/
def casHead (owner old desired : ℕ) : Prog RpfMem Bool :=
  cas (·.head owner) (fun v m => m.setHead owner v) old desired

/-- `rpf_push`. -/
def rpfPush (fuel owner batch : ℕ) : Prog RpfMem Unit :=
  loop fuel do
    let old ← read (·.head owner)
    store (·.setNext batch (rpfDecode old))
    bugOn (batch = 0 ∨ batch > rpfOffMask)
    let ok ← casHead owner old (rpfEncode (rpfNextGeneration old) batch)
    pure (if ok then some () else none)

/-- `rpf_pop_all`. -/
def rpfPopAll (fuel owner : ℕ) : Prog RpfMem ℕ :=
  loop fuel do
    let old ← read (·.head owner)
    if rpfDecode old = 0 then pure (some 0)
    else do
      let ok ← casHead owner old (rpfEmptied old)
      pure (if ok then some (rpfDecode old) else none)

/-! ## Words -/

theorem rpfDecode_eq (head : ℕ) : rpfDecode head = head % 2 ^ rpfOffBits :=
  and_two_pow_sub_one_eq_mod head rpfOffBits

theorem rpfDecode_rpfEncode (h : off ≤ rpfOffMask) :
    rpfDecode (rpfEncode generation off) = off := by
  have hlt : off < 2 ^ rpfOffBits := by
    simp only [rpfOffMask, rpfOffBits] at *
    omega
  rw [rpfDecode_eq, rpfEncode, ← shiftLeft_add_eq_or_of_lt hlt, shiftLeft_eq,
    add_comm, add_mul_mod_self_right, mod_eq_of_lt hlt]

theorem rpfDecode_rpfEmptied (head : ℕ) : rpfDecode (rpfEmptied head) = 0 := by
  rw [rpfDecode_eq, rpfEmptied, shiftLeft_eq, mul_mod_left]

end Starfish.RemotePage
