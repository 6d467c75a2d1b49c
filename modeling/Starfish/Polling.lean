import Mathlib.Tactic.Ring

/-!
# Starfish.Polling

`polling_fs_read` and `polling_fs_write`: a read or a write of any size is cut into
requests of at most one page, and the counts of the replies are added up.

The loops are right about full and short replies.  They add an error to what has been
transferred before it, and they take a node that is marked `DQ_CRASH` for one that the
server has answered.
-/

namespace Starfish.Polling

/-! ## The code -/

/-- What `dq_wait_for_done` leaves: the answer of the server, or a node that is marked
`DQ_CRASH`, with the count that an earlier request has left in its response. -/
inductive Reply where
  | full
  | short (n : ℕ)
  | error (e : ℕ)
  | crash (stale : ℤ)

namespace Reply

/-- The bytes that the server transfers, of a request of `chunk` bytes. -/
def served (chunk : ℕ) : Reply → ℕ
  | full => chunk
  | short n => n % chunk
  | _ => 0

/-- `resp.read.count` or `resp.write.count`. -/
def count (chunk : ℕ) : Reply → ℤ
  | error e => -(e % 2 ^ 63 : ℕ) - 1
  | crash stale => stale
  | r => r.served chunk

/-- How many bytes at `p` take part in a round: those that `memcpy` writes, with `n` as
a `size_t`, or those of the chunk that the server takes. -/
def size (reads : Bool) (chunk : ℕ) (r : Reply) : ℕ :=
  if reads then (r.count chunk % (2 ^ 64 : ℕ)).toNat else r.served chunk

def serverError : Reply → Option ℤ
  | error e => some ((error e).count 0)
  | _ => none

/-- The server has answered: the node is marked `DQ_DONE`. -/
def Answered : Reply → Prop
  | crash _ => False
  | _ => True

instance : DecidablePred Answered
  | crash _ => .isFalse id
  | full | short _ | error _ => .isTrue trivial

end Reply

open Reply

/-- `POLLING_FS_READ_BUF_SIZE` and `POLLING_FS_WRITE_BUF_SIZE`. -/
def bufSize : ℕ := 4096

def chunkOf (left : ℕ) : ℕ := if left < bufSize then left else bufSize

/-- The loop of both functions, with `left`, `p` and `total`: what it returns, and where
in the buffer how many bytes took part.  It waits while there is no reply. -/
def fsLoop (reads : Bool) : List Reply → ℕ → ℤ → ℤ → Option (ℤ × List (ℤ × ℕ))
  | _, 0, _, total => some (total, [])
  | [], _ + 1, _, _ => none
  | r :: rs, left + 1, p, total =>
    let chunk := chunkOf (left + 1)
    let n := r.count chunk
    let rest := if n < chunk then some (total + n, [])
      else fsLoop reads rs (((left + 1 : ℕ) - n) % (2 ^ 64 : ℕ)).toNat (p + n) (total + n)
    rest.map fun a => (a.1, (p, r.size reads chunk) :: a.2)

def pollingFsRead (rs : List Reply) (count : ℕ) := fsLoop true rs count 0 0

def pollingFsWrite (rs : List Reply) (count : ℕ) := fsLoop false rs count 0 0

/-! ## What they are for -/

/-- How many bytes each request transfers, until the stream ends. -/
def moved : List Reply → ℕ → List ℕ
  | _, 0 => []
  | [], _ + 1 => []
  | r :: rs, left + 1 => r.served (chunkOf (left + 1)) :: match r with
    | full => moved rs (left + 1 - chunkOf (left + 1))
    | _ => []

/-- Pieces of the buffer one after the other, from `p` on. -/
def placed : ℤ → List ℕ → List (ℤ × ℕ)
  | _, [] => []
  | p, n :: ns => (p, n) :: placed (p + n) ns

/-- What is returned is the number of bytes transferred, `m` of them earlier, or the error
if there are none; these are the bytes of the buffer that took part; and every node that a
round of the loop has taken for an answer is one. -/
def Right (m : ℕ) (rs : List Reply) (left : ℕ) (a : ℤ × List (ℤ × ℕ)) : Prop :=
  a.2 = placed m (moved rs left) ∧ (a.1 = m + (moved rs left).sum ∨
    m + (moved rs left).sum = 0 ∧ rs.head?.bind serverError = some a.1) ∧
  ∀ r ∈ rs.take a.2.length, r.Answered

/-- The stream ends without an error, or in a write with an error at once; and no node
up to its end is marked `DQ_CRASH`. -/
def Clean (reads : Bool) : ℕ → List Reply → ℕ → Prop
  | _, _, 0 => True
  | _, [], _ + 1 => True
  | m, r :: rs, left + 1 => match r with
    | full => Clean reads (m + chunkOf (left + 1)) rs (left + 1 - chunkOf (left + 1))
    | short _ => True
    | error _ => reads = false ∧ m = 0
    | crash _ => False

/-! ## When they are right -/

variable {reads : Bool} {r : Reply} {rs : List Reply} {left m c : ℕ}

theorem chunkOf_bounds (left : ℕ) : 0 < chunkOf (left + 1) ∧ chunkOf (left + 1) ≤ left + 1 ∧
    chunkOf (left + 1) ≤ 4096 := by
  unfold chunkOf bufSize
  split <;> omega

/-- A loop that has something left makes a round. -/
theorem rounds_ne_nil (h : fsLoop reads rs (left + 1) p total = some a) : a.2 ≠ [] := by
  cases rs with
  | nil => simp [fsLoop] at h
  | cons r rs =>
    obtain ⟨b, -, rfl⟩ := Option.map_eq_some_iff.mp h
    simp

theorem size_eq_served (hcount : r.count c = r.served c) (hle : r.served c ≤ 4096) :
    r.size reads c = r.served c := by
  unfold size
  split <;> omega

/-- A count below the chunk ends the loop. -/
theorem right_last_iff (hc : chunkOf (left + 1) = c) (hr : r ≠ full) (hlt : r.count c < c) :
    (∃ a, fsLoop reads (r :: rs) (left + 1) m m = some a ∧ Right m (r :: rs) (left + 1) a) ↔
      r.size reads c = r.served c ∧ (r.count c = r.served c ∨
        m + r.served c = 0 ∧ r.serverError = some (m + r.count c)) ∧ r.Answered := by
  have hmoved : moved (r :: rs) (left + 1) = [r.served c] := by
    cases r <;> simp_all [moved]
  simp [fsLoop, hc, hlt, Right, hmoved, placed]

/-- The round takes the node for an answer, whatever is left in it. -/
theorem not_right_crash : ¬ ∃ a, fsLoop reads (crash stale :: rs) (left + 1) m m = some a ∧
    Right m (crash stale :: rs) (left + 1) a := by
  rintro ⟨⟨ret, rounds⟩, ha, -, -, hanswered⟩
  cases rounds with
  | nil => exact rounds_ne_nil ha rfl
  | cons => exact hanswered (crash stale) (by simp)

theorem right_full_iff (hc : chunkOf (left + 1) = c) (hleft : left + 1 < 2 ^ 63) :
    (∃ a, fsLoop reads (full :: rs) (left + 1) m m = some a ∧
      Right m (full :: rs) (left + 1) a) ↔
    ∃ a, fsLoop reads rs (left + 1 - c) (m + c : ℕ) (m + c : ℕ) = some a ∧
      Right (m + c) rs (left + 1 - c) a := by
  obtain ⟨hpos, hle, hbuf⟩ := chunkOf_bounds left
  rw [hc] at hpos hle hbuf
  have hsize : full.size reads c = c := size_eq_served rfl hbuf
  have hnext : (((left + 1 : ℕ) - (c : ℤ)) % (2 ^ 64 : ℕ)).toNat = left + 1 - c := by omega
  simp only [fsLoop, hc, count, served, hsize, hnext, Int.lt_irrefl, if_false, Right, moved, placed,
    List.sum_cons, Option.map_eq_some_iff]
  simp only [Int.natCast_add]
  constructor
  · rintro ⟨-, ⟨b, hb, rfl⟩, hrounds, hret, hanswered⟩
    exact ⟨b, hb, (List.cons.inj hrounds).2, .inl (by omega),
      fun r hr => hanswered r (List.mem_cons_of_mem _ hr)⟩
  · rintro ⟨b, hb, hrounds, hret, hanswered⟩
    refine ⟨_, ⟨b, hb, rfl⟩, congrArg _ hrounds, .inl (by dsimp only; omega), ?_⟩
    simpa [Answered] using hanswered

/-- The induction is on the replies; `m` bytes have been transferred before. -/
theorem fsLoop_right_iff (hleft : left < 2 ^ 63) (henough : left ≤ rs.length) :
    (∃ a, fsLoop reads rs left m m = some a ∧ Right m rs left a) ↔ Clean reads m rs left := by
  induction rs generalizing left m with
  | nil =>
    obtain rfl : left = 0 := by simpa using henough
    simp [fsLoop, Clean, Right, moved, placed]
  | cons r rs ih =>
    cases left with
    | zero => simp [fsLoop, Clean, Right, moved, placed]
    | succ left =>
      obtain ⟨hpos, hle, hbuf⟩ := chunkOf_bounds left
      rw [List.length_cons] at henough
      cases r with
      | full => rw [right_full_iff rfl hleft, Clean, ih (by omega) (by omega)]
      | short n =>
        have hlt := Nat.mod_lt n hpos
        rw [right_last_iff rfl (by simp) (by simp only [count, served]; omega)]
        exact iff_of_true ⟨size_eq_served rfl (by simp only [served]; omega), .inl rfl, trivial⟩
          trivial
      | error e =>
        rw [right_last_iff rfl (by simp) (by simp only [count]; omega), Clean]
        cases reads
        · simp [size, count, served, serverError, Answered]
          omega
        · simp [size, count, served, serverError, Answered]
          omega
      | crash stale => exact iff_of_false not_right_crash id

/-- `polling_fs_read` and `polling_fs_write` return the number of bytes transferred, these are
the first of the buffer, and no crashed request is taken for an answer, if and only if no node
up to the end of the stream is marked `DQ_CRASH` and the stream ends without an error, or in a
write with its first reply. -/
theorem polling_fs_right_iff (rs : List Reply) (count : ℕ) (hcount : count < 2 ^ 63)
    (henough : count ≤ rs.length) :
    ((∃ a, pollingFsRead rs count = some a ∧ Right 0 rs count a) ↔ Clean true 0 rs count) ∧
      ((∃ a, pollingFsWrite rs count = some a ∧ Right 0 rs count a) ↔ Clean false 0 rs count) :=
  ⟨fsLoop_right_iff hcount henough, fsLoop_right_iff hcount henough⟩

/-- A write of two bytes is refused at once. -/
theorem write_refused_at_once :
    ∃ a, pollingFsWrite [error 4, full] 2 = some a ∧ Right 0 [error 4, full] 2 a :=
  (polling_fs_right_iff [error 4, full] 2 (by decide) (by decide)).2.mpr ⟨rfl, rfl⟩

/-- An error after a full page is taken off the number of bytes written; a read copies
`(size_t)-5` bytes; a count that is left in a crashed node is returned, and a node that
crashed with none is taken for the end of the file. -/
theorem polling_fs_wrong :
    pollingFsWrite [full, error 4] 5000 = some (4091, [(0, 4096), (4096, 0)]) ∧
      ¬ Right 0 [full, error 4] 5000 (4091, [(0, 4096), (4096, 0)]) ∧
      pollingFsRead [error 4] 10 = some (-5, [(0, 2 ^ 64 - 5)]) ∧
      ¬ Right 0 [error 4] 10 (-5, [(0, 2 ^ 64 - 5)]) ∧
      pollingFsWrite [crash 7] 10 = some (7, [(0, 0)]) ∧ ¬ Right 0 [crash 7] 10 (7, [(0, 0)]) ∧
      pollingFsRead [crash 0] 10 = some (0, [(0, 0)]) ∧ ¬ Right 0 [crash 0] 10 (0, [(0, 0)]) := by
  unfold Right
  refine ⟨?_, ?_, ?_, ?_, ?_, ?_, ?_, ?_⟩ <;> decide

end Starfish.Polling
