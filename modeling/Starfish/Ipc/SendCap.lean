import Mathlib.Data.Int.Notation
import Mathlib.Tactic.SplitIfs

/-!
# Starfish.Ipc.SendCap

Capabilities in IPC messages (`kernel/ipc/connection.c`): `ipc_send_cap` is all or nothing exactly
under the condition of `send_cap_settled_iff`.

`cap_copy` returns an `int`: a new slot, or an error, and then the table is as it was unless
`alloc_slot_id` failed (`Object.wlp_capCopy_failed`).  The variables it goes to are `u64`, so the
tests for an error never see one.
-/

namespace Starfish.Ipc

open List

/-- An `int`; it is an error if `msb` is set. -/
abbrev Cap : Type := BitVec 32

/-- The slots of a cap group after a `cap_copy` to it that returns `c`. -/
def capCopy (slots : List Cap) (c : Cap) : List Cap := if c.msb then slots else c :: slots

/-- `cap_free`, of a `u64`. -/
def capFree (slots : List Cap) (c : BitVec 64) : List Cap :=
  if (c.setWidth 32).msb then slots else slots.erase (c.setWidth 32)

/-- What the functions that `ipc_send_cap` calls return; there is a capability for each one that
`cap_copy` returns. -/
structure Answers where
  offset : ℤ
  kmalloc : Bool
  copyIn : ℤ
  caps : List Cap
  copyOut : ℤ

/-- `msg` is what is written to the message, and `freed` says that `cap_buf` is not in use. -/
structure Sent where
  ret : ℤ
  slots : List Cap
  msg : List (BitVec 64) := []
  freed : Bool := true

def EINVAL : ℤ := 22
def ENOMEM : ℤ := 12

/-- `out_free_cap`, with the last entry of `cap_buf` first. -/
def outFreeCap (r : ℤ) (slots : List Cap) (capBuf : List (BitVec 64)) : Sent :=
  { ret := r, slots := capBuf.foldl capFree slots }

/-- The loop of `ipc_send_cap` and what follows it. -/
def sendLoop (r copyOut : ℤ) : List Cap → List Cap → List (BitVec 64) → Sent
  | [], slots, capBuf =>
    if copyOut < 0 then outFreeCap copyOut slots capBuf
    else { ret := 0, slots := slots, msg := capBuf.reverse }
  | c :: cs, slots, capBuf =>
    let destCap := c.signExtend 64
    if destCap < 0 then outFreeCap r slots capBuf
    else sendLoop r copyOut cs (capCopy slots c) (destCap :: capBuf)

/-- `slots` are those of the server. -/
def ipcSendCap (slots : List Cap) (a : Answers) : Sent :=
  if a.caps = [] then { ret := 0, slots := slots }
  else if 8 ≤ a.caps.length then { ret := -EINVAL, slots := slots }
  else if a.offset < 0 then { ret := a.offset, slots := slots }
  else if ¬ a.kmalloc then { ret := -ENOMEM, slots := slots }
  else if a.copyIn < 0 then { ret := a.copyIn, slots := slots, freed := false }
  else sendLoop a.copyIn a.copyOut a.caps slots []

/-- A turn of `ipc_send_cap_to_client`. -/
structure Turn where
  copyIn : ℤ
  cap : Cap
  copyOut : ℤ

/-- The numbers that `ipc_send_cap_to_client` writes to the message, up to a `BUG_ON`. -/
def toClient : List Turn → List (BitVec 64)
  | [] => []
  | t :: ts =>
    let retCap := t.cap.signExtend 64
    if t.copyIn < 0 ∨ retCap < 0 ∨ t.copyOut < 0 then [] else retCap :: toClient ts

def ipcSendCapToClient (ts : List Turn) : List (BitVec 64) :=
  if 8 ≤ ts.length then [] else toClient ts

/-! ## The loop -/

theorem capFree_capCopy (slots : List Cap) (c : Cap) :
    capFree (capCopy slots c) (c.signExtend 64) = slots := by
  have hback : (c.signExtend 64).setWidth 32 = c := by
    ext i hi
    simp [BitVec.getElem_signExtend, hi, show i < 64 by omega]
  unfold capFree capCopy
  rw [hback]
  split
  · rfl
  · exact erase_cons_head ..

/-- The slots of all copies are freed, the last first. -/
theorem foldl_capFree (cs slots : List Cap) :
    (cs.map (BitVec.signExtend 64)).reverse.foldl capFree (cs.foldl capCopy slots) = slots := by
  induction cs generalizing slots with
  | nil => rfl
  | cons c cs ih =>
    rw [map_cons, reverse_cons, foldl_append, foldl_cons]
    exact (congrArg (capFree · _) (ih (capCopy slots c))).trans (capFree_capCopy slots c)

/-- No error is seen in the loop. -/
theorem sendLoop_eq (r copyOut : ℤ) (cs slots : List Cap) (capBuf : List (BitVec 64)) :
    sendLoop r copyOut cs slots capBuf = sendLoop r copyOut [] (cs.foldl capCopy slots)
      ((cs.map (BitVec.signExtend 64)).reverse ++ capBuf) := by
  induction cs generalizing slots capBuf with
  | nil => rfl
  | cons c cs ih =>
    have hturn : sendLoop r copyOut (c :: cs) slots capBuf =
        sendLoop r copyOut cs (capCopy slots c) (c.signExtend 64 :: capBuf) := by
      rw [sendLoop]
      exact if_neg BitVec.not_lt_zero
    rw [hturn, ih, map_cons, reverse_cons, append_assoc]
    rfl

/-! ## All or nothing -/

/-- Every capability was copied and its slot is in the message, or the table is as before. -/
def Settled (slots : List Cap) (a : Answers) (s : Sent) : Prop :=
  s.freed = true ∧ (s.ret = 0 ∧ s.slots = a.caps.foldl capCopy slots ∧
      s.msg = a.caps.map (BitVec.signExtend 64) ∧ (∀ c ∈ a.caps, c.msb = false) ∨
    s.ret < 0 ∧ s.slots = slots)

/-- The way out of a failing `copy_to_user` undoes the copies, so only a failed copy is not seen. -/
theorem settled_sendLoop (slots : List Cap) (a : Answers) :
    Settled slots a (sendLoop a.copyIn a.copyOut a.caps slots []) ↔
      a.copyOut < 0 ∨ ∀ c ∈ a.caps, c.msb = false := by
  rw [sendLoop_eq, append_nil, sendLoop]
  by_cases hout : a.copyOut < 0
  · rw [if_pos hout, outFreeCap, foldl_capFree]
    exact iff_of_true ⟨rfl, .inr ⟨hout, rfl⟩⟩ (.inl hout)
  · rw [if_neg hout, reverse_reverse, Settled]
    constructor
    · rintro ⟨-, ⟨-, -, -, hcaps⟩ | ⟨hneg, -⟩⟩
      · exact .inr hcaps
      · cases hneg
    · intro h
      have hcaps := h.resolve_left hout
      exact ⟨rfl, .inl ⟨rfl, rfl, rfl, hcaps⟩⟩

theorem toClient_honest (ts : List Turn) : (∀ v ∈ toClient ts, v.msb = false) ↔
    ∀ t ∈ ts.takeWhile fun t => 0 ≤ t.copyIn ∧ 0 ≤ t.copyOut, t.cap.msb = false := by
  induction ts with
  | nil => simp [toClient]
  | cons t ts ih =>
    by_cases ht : 0 ≤ t.copyIn ∧ 0 ≤ t.copyOut
    · have hgo : ¬ (t.copyIn < 0 ∨ t.cap.signExtend 64 < 0 ∨ t.copyOut < 0) := by
        simpa using ht
      rw [takeWhile_cons_of_pos (by simpa using ht), forall_mem_cons, ← ih, toClient, if_neg hgo,
        forall_mem_cons, BitVec.msb_signExtend]
      simp
    · have hstop : t.copyIn < 0 ∨ t.cap.signExtend 64 < 0 ∨ t.copyOut < 0 := by
        grind
      rw [takeWhile_cons_of_neg (by simpa using ht), toClient, if_pos hstop]
      simp

/-- `ipc_send_cap` fails to be all or nothing when `cap_buf` cannot be filled from the message, and
is not freed, or when a failed copy goes to the client as a slot.  `ipc_send_cap_to_client` reports
every failed copy that it comes to. -/
theorem send_cap_settled_iff (slots : List Cap) (a : Answers) (ts : List Turn) :
    (Settled slots a (ipcSendCap slots a) ↔ a.caps = [] ∨ 8 ≤ a.caps.length ∨ a.offset < 0 ∨
      a.kmalloc = false ∨ 0 ≤ a.copyIn ∧ (a.copyOut < 0 ∨ ∀ c ∈ a.caps, c.msb = false)) ∧
    ((∀ v ∈ ipcSendCapToClient ts, v.msb = false) ↔ 8 ≤ ts.length ∨
      ∀ t ∈ ts.takeWhile fun t => 0 ≤ t.copyIn ∧ 0 ≤ t.copyOut, t.cap.msb = false) := by
  constructor
  · unfold ipcSendCap
    split_ifs with hcaps hlen hoff hmem hin
    · simp [Settled, hcaps]
    · simp [Settled, hlen, EINVAL]
    · simp [Settled, hoff]
    · simp [Settled, hcaps, hlen, hoff, hmem, Int.not_le.mpr hin]
    · simp [settled_sendLoop, hcaps, hlen, hoff, hmem, Int.not_lt.mp hin]
    · simp [Settled, hmem, ENOMEM]
  · unfold ipcSendCapToClient
    split_ifs with hlen
    · simp [hlen]
    · simp [hlen, toClient_honest]

/-- The second of two capabilities is an invalid slot, so that its copy fails with `-ECAPBILITY`:
the client gets 0, and the message has the error as a slot. -/
theorem failed_copy_sent :
    let a : Answers := ⟨0, true, 0, [5, -200], 0⟩
    (ipcSendCap [] a).ret = 0 ∧ (ipcSendCap [] a).slots = [5] ∧
      (ipcSendCap [] a).msg = [5, -200] ∧ ¬ Settled [] a (ipcSendCap [] a) := by
  refine ⟨rfl, rfl, rfl, ?_⟩
  rintro ⟨-, ⟨-, -, -, h⟩ | ⟨h, -⟩⟩
  · exact absurd (h (-200) (by decide)) (by decide)
  · cases h

end Starfish.Ipc
