import Mathlib.Data.Int.Notation
import Mathlib.Data.Nat.Notation
import Mathlib.Logic.Function.Basic

/-!
# Starfish.Tmpfs.Cxlfs

The bytes of one file in CXLFS (`tmpfs/cxlfs.c`): reading, writing, truncating and allocating.

A block is found by its number in the file (`inode_block`).  The tables of block numbers behind the
direct blocks are left out, and so is a missing inode; whether a block can be had and put into its
place is an argument.

Behind the end of the file all bytes are zero (`Tail`), so a file that grows does not change.
`cxlfs_allocate` writes zeros only where a block is missing, but it tests for the block at the
beginning of each piece, and a piece that is not aligned reaches into the next block.
-/

namespace Starfish.Cxlfs

open Function

def pageSize : ℕ := 4096

def enomem : ℤ := 12

def einval : ℤ := 22

def enospc : ℤ := 28

/-- The blocks of a file by their numbers, and the bytes of a block by their offsets. -/
abbrev Blocks := ℕ → Option (ℕ → UInt8)

/-- `struct cxlfs_inode_disk` -/
structure Inode where
  size : ℕ
  block : Blocks

/-- Which calls succeed: `alloc_block` and `set_inode_block` for a position of a write, `calloc` for
the offset of a write, and the same for a truncate. -/
structure Luck where
  block : ℕ → Bool
  calloc : ℕ → Bool
  truncBlock : Bool
  truncCalloc : Bool

/-! ## The code -/

/-- The loop of `cxlfs_read`, with the number of passes at most. -/
def readLoop (blk : Blocks) (offset size : ℕ) : ℕ → ℕ → List UInt8
  | 0, _ => []
  | fuel + 1, done =>
    if done < size then
      let pos := offset + done
      let n := min (size - done) (pageSize - pos % pageSize)
      let piece := (List.range n).map fun i =>
        match blk (pos / pageSize) with
        | some b => b (pos % pageSize + i)
        | none => 0
      piece ++ readLoop blk offset size fuel (done + n)
    else []

/-- `cxlfs_read` -/
def cxlfsRead (d : Inode) (offset size : ℕ) : List UInt8 :=
  if offset ≥ d.size then []
  else
    let size := min size (d.size - offset)
    readLoop d.block offset size size 0

/-- A block with bytes of `buf` from `inOff` on; a new block is all zeros. -/
def overwritten (old : Option (ℕ → UInt8)) (inOff n : ℕ) (buf : ℕ → UInt8) : ℕ → UInt8 :=
  fun i => if inOff ≤ i ∧ i < inOff + n then buf (i - inOff) else old.getD (fun _ => 0) i

/-- The loop of `cxlfs_write`: the blocks, and the number of bytes written. -/
def writeLoop (offset : ℕ) (buf : List UInt8) (luck : Luck) : ℕ → ℕ → Blocks → Blocks × ℕ
  | 0, done, blk => (blk, done)
  | fuel + 1, done, blk =>
    if done < buf.length then
      let pos := offset + done
      let lbn := pos / pageSize
      let n := min (buf.length - done) (pageSize - pos % pageSize)
      if luck.block pos then
        let new := overwritten (blk lbn) (pos % pageSize) n fun i => buf.getD (done + i) 0
        writeLoop offset buf luck fuel (done + n) (update blk lbn (some new))
      else (blk, done)
    else (blk, done)

/-- `cxlfs_write` -/
def cxlfsWrite (d : Inode) (offset : ℤ) (buf : List UInt8) (luck : Luck) : Inode × ℤ :=
  if offset < 0 then (d, -einval)
  else if buf ≠ [] ∧ luck.calloc offset.toNat = false then (d, -enomem)
  else
    let (blk, done) := writeLoop offset.toNat buf luck buf.length 0 d.block
    if done = 0 ∧ buf ≠ [] then (d, -enospc)
    else (⟨max d.size (offset.toNat + done), blk⟩, done)

/-- `cxlfs_truncate` -/
def cxlfsTruncate (d : Inode) (size : ℕ) (luck : Luck) : Inode × ℤ :=
  if d.size ≤ size then ({ d with size := size }, 0)
  else if luck.truncCalloc = false then (d, -enomem)
  else
    let lbn := size / pageSize
    let firstFree := (size + pageSize - 1) / pageSize
    let oldMax := (d.size + pageSize - 1) / pageSize
    let cut (blk : Blocks) : Blocks := fun l => if firstFree ≤ l ∧ l < oldMax then none else blk l
    -- the last block is replaced by a copy with zeros behind the end
    match if size % pageSize = 0 then none else d.block lbn with
    | none => (⟨size, cut d.block⟩, 0)
    | some old =>
      if luck.truncBlock = false then (d, -enospc)
      else
        let new := fun i => if size % pageSize ≤ i then 0 else old i
        (⟨size, cut (update d.block lbn (some new))⟩, 0)

/-- The loop of `cxlfs_allocate` up to `stop`; `false` if a write falls short. -/
def allocateLoop (luck : Luck) (stop : ℕ) : ℕ → ℕ → Inode → Inode × Bool
  | 0, _, d => (d, true)
  | fuel + 1, pos, d =>
    if pos < stop then
      let n := min (stop - pos) pageSize
      if (d.block (pos / pageSize)).isNone then
        let (d, ret) := cxlfsWrite d pos (List.replicate n 0) luck
        if ret ≠ n then (d, false) else allocateLoop luck stop fuel (pos + n) d
      else allocateLoop luck stop fuel (pos + n) d
    else (d, true)

/-- `cxlfs_allocate` -/
def cxlfsAllocate (d : Inode) (offset len : ℤ) (keepSize : Bool) (luck : Luck) : Inode × ℤ :=
  if offset < 0 ∨ len < 0 then (d, -einval)
  else
    let stop := offset.toNat + len.toNat
    let (d', ok) := allocateLoop luck stop stop offset.toNat d
    if ok = false then (d', -enospc)
    else if keepSize ∧ d'.size ≠ d.size then cxlfsTruncate d' d.size luck
    else (d', 0)

/-! ## The file as bytes -/

/-- The byte at a position, whether the file reaches it or not. -/
def byte (blk : Blocks) (pos : ℕ) : UInt8 :=
  match blk (pos / pageSize) with
  | some b => b (pos % pageSize)
  | none => 0

/-- There is nothing behind the end of the file. -/
def Tail (d : Inode) : Prop := ∀ pos, d.size ≤ pos → byte d.block pos = 0

/-- The bytes of a page. -/
def page (blk : Blocks) (pageNo : ℕ) : List UInt8 :=
  (List.range pageSize).map fun i => byte blk (pageNo * pageSize + i)

/-- Bytes, followed by zeros up to the end of a page. -/
def filled (bytes : List UInt8) : List UInt8 :=
  bytes ++ List.replicate (pageSize - bytes.length) 0

variable {blk : Blocks} {d : Inode} {offset size fuel done : ℕ}

theorem byte_update (lbn : ℕ) (b : ℕ → UInt8) (pos : ℕ) : byte (update blk lbn (some b)) pos =
    if pos / pageSize = lbn then b (pos % pageSize) else byte blk pos := by
  by_cases h : pos / pageSize = lbn
  · simp [byte, h]
  · simp [byte, h]

theorem byte_cut (gone : ℕ → Prop) [DecidablePred gone] (pos : ℕ) :
    byte (fun l => if gone l then none else blk l) pos =
      if gone (pos / pageSize) then 0 else byte blk pos := by
  by_cases h : gone (pos / pageSize)
  · simp [byte, h]
  · simp [byte, h]

theorem readLoop_eq (hfuel : size - done ≤ fuel) : readLoop blk offset size fuel done =
    (List.range (size - done)).map fun i => byte blk (offset + done + i) := by
  induction fuel generalizing done with
  | zero => simp [readLoop, Nat.le_zero.mp hfuel]
  | succ fuel ih =>
    by_cases hlt : done < size
    · have hmod : (offset + done) % pageSize < pageSize := Nat.mod_lt _ (by decide)
      obtain ⟨n, hn, hpos, hin, hle⟩ : ∃ n, n = min (size - done)
          (pageSize - (offset + done) % pageSize) ∧ 0 < n ∧
          n ≤ pageSize - (offset + done) % pageSize ∧ n ≤ size - done := ⟨_, rfl, by omega⟩
      have hrest : size - done = n + (size - (done + n)) := by omega
      rw [readLoop, if_pos hlt]
      dsimp only
      rw [← hn, ih (by omega), hrest, List.range_add, List.map_append, List.map_map]
      congr 1
      · refine List.map_congr_left fun i hi => ?_
        have hi : i < n := List.mem_range.mp hi
        have hdiv : (offset + done + i) / pageSize = (offset + done) / pageSize := by
          simp only [pageSize] at *
          omega
        have hrem : (offset + done + i) % pageSize = (offset + done) % pageSize + i := by
          simp only [pageSize] at *
          omega
        rw [byte, hdiv, hrem]
      · refine List.map_congr_left fun i _ => ?_
        simp only [comp_apply]
        congr 1
        omega
    · have hzero : size - done = 0 := by omega
      simp [readLoop, hlt, hzero]

/-- What `cxlfs_read` returns for a page, followed by zeros, is the page. -/
theorem filled_cxlfsRead (h : Tail d) (pageNo : ℕ) :
    filled (cxlfsRead d (pageNo * pageSize) pageSize) = page d.block pageNo := by
  obtain ⟨n, hread, hle, hzero⟩ : ∃ n, cxlfsRead d (pageNo * pageSize) pageSize =
      (List.range n).map (fun i => byte d.block (pageNo * pageSize + i)) ∧ n ≤ pageSize ∧
      ∀ i, n ≤ i → i < pageSize → byte d.block (pageNo * pageSize + i) = 0 := by
    by_cases hend : pageNo * pageSize ≥ d.size
    · refine ⟨0, by rw [cxlfsRead, if_pos hend]; rfl, Nat.zero_le _, fun i _ _ => ?_⟩
      exact h _ (by omega)
    · refine ⟨min pageSize (d.size - pageNo * pageSize), ?_, Nat.min_le_left _ _,
        fun i hi _ => h _ (by omega)⟩
      rw [cxlfsRead, if_neg hend, readLoop_eq (Nat.sub_le _ _)]
      simp
  have hsplit : pageSize = n + (pageSize - n) := by omega
  have hrest : (List.range (pageSize - n)).map (fun i => byte d.block (pageNo * pageSize + (n + i))) =
      List.replicate (pageSize - n) 0 := by
    refine List.eq_replicate_iff.mpr ⟨by simp, fun b hb => ?_⟩
    obtain ⟨i, hi, rfl⟩ := List.mem_map.mp hb
    have hi : i < pageSize - n := List.mem_range.mp hi
    exact hzero _ (by omega) (by omega)
  have hpage : page d.block pageNo = (List.range n).map (fun i => byte d.block (pageNo * pageSize + i)) ++
      (List.range (pageSize - n)).map (fun i => byte d.block (pageNo * pageSize + (n + i))) := by
    have hrange : List.range pageSize = List.range n ++ (List.range (pageSize - n)).map (n + ·) := by
      rw [← List.range_add, ← hsplit]
    rw [page, hrange, List.map_append, List.map_map]
    rfl
  rw [filled, hread, hpage, hrest, List.length_map, List.length_range]

/-! ## What the calls change -/

/-- The bytes from `done` on are written, up to where the loop ends. -/
theorem writeLoop_spec (buf : List UInt8) (luck : Luck) (fuel done : ℕ) (blk : Blocks)
    (hdone : done ≤ buf.length) : ∃ blk' done', writeLoop offset buf luck fuel done blk = (blk', done') ∧
      done ≤ done' ∧ done' ≤ buf.length ∧ ∀ pos, byte blk' pos =
        if offset + done ≤ pos ∧ pos < offset + done' then buf.getD (pos - offset) 0
        else byte blk pos := by
  induction fuel generalizing done blk with
  | zero => exact ⟨blk, done, rfl, Nat.le_refl _, hdone, fun pos => (if_neg (by omega)).symm⟩
  | succ fuel ih =>
    rw [writeLoop]
    dsimp only
    by_cases hlt : done < buf.length ∧ luck.block (offset + done) = true
    · rw [if_pos hlt.1, if_pos hlt.2]
      have hmod : (offset + done) % pageSize < pageSize := Nat.mod_lt _ (by decide)
      generalize hn : min (buf.length - done) (pageSize - (offset + done) % pageSize) = n
      obtain ⟨blk', last, heq, hge, hle, hbytes⟩ := ih (done + n) (update blk
        ((offset + done) / pageSize) (some (overwritten (blk ((offset + done) / pageSize))
          ((offset + done) % pageSize) n fun i => buf.getD (done + i) 0))) (by omega)
      refine ⟨blk', last, heq, by omega, hle, fun pos => ?_⟩
      rw [hbytes, byte_update]
      -- the piece of this pass is in one block
      have hpiece : pos / pageSize = (offset + done) / pageSize ∧
          (offset + done) % pageSize ≤ pos % pageSize ∧
          pos % pageSize < (offset + done) % pageSize + n ↔
          offset + done ≤ pos ∧ pos < offset + done + n := by
        simp only [pageSize] at *
        omega
      by_cases hafter : offset + (done + n) ≤ pos ∧ pos < offset + last
      · rw [if_pos hafter, if_pos (by omega)]
      · rw [if_neg hafter]
        by_cases hin : offset + done ≤ pos ∧ pos < offset + done + n
        · obtain ⟨hdiv, hrem⟩ := hpiece.mpr hin
          have hidx : done + (pos % pageSize - (offset + done) % pageSize) = pos - offset := by
            simp only [pageSize] at *
            omega
          rw [if_pos hdiv, overwritten, if_pos hrem, hidx, if_pos (by omega)]
        · rw [if_neg (c := offset + done ≤ pos ∧ pos < offset + last) (by omega)]
          split
          · next hdiv =>
            rw [overwritten, if_neg fun hrem => hin (hpiece.mp ⟨hdiv, hrem⟩), byte, hdiv]
            cases blk ((offset + done) / pageSize) with
            | none => rfl
            | some b => rfl
          · rfl
    · refine ⟨blk, done, ?_, Nat.le_refl _, hdone, fun pos => (if_neg (by omega)).symm⟩
      split
      · next h => exact if_neg fun hluck => hlt ⟨h, hluck⟩
      · rfl

/-- `cxlfs_write` fails and changes nothing, or writes some of the bytes. -/
theorem cxlfsWrite_spec (d : Inode) (offset : ℤ) (buf : List UInt8) (luck : Luck) :
    (cxlfsWrite d offset buf luck).1 = d ∧ (cxlfsWrite d offset buf luck).2 < 0 ∨
    ∃ done ≤ buf.length, (cxlfsWrite d offset buf luck).2 = done ∧
      (cxlfsWrite d offset buf luck).1.size = max d.size (offset.toNat + done) ∧
      ∀ pos, byte (cxlfsWrite d offset buf luck).1.block pos =
        if offset.toNat ≤ pos ∧ pos < offset.toNat + done then buf.getD (pos - offset.toNat) 0
        else byte d.block pos := by
  rw [cxlfsWrite]
  split
  · exact .inl ⟨rfl, by simp [einval]⟩
  · split
    · exact .inl ⟨rfl, by simp [enomem]⟩
    · obtain ⟨blk, done, heq, -, hle, hbytes⟩ :=
        writeLoop_spec buf luck buf.length 0 d.block (Nat.zero_le _)
      rw [heq]
      dsimp only
      split
      · exact .inl ⟨rfl, by simp [enospc]⟩
      · exact .inr ⟨done, hle, rfl, rfl, hbytes⟩

theorem Tail.write (h : Tail d) (offset : ℤ) (buf : List UInt8) (luck : Luck) :
    Tail (cxlfsWrite d offset buf luck).1 := by
  obtain ⟨heq, -⟩ | ⟨done, -, -, hsize, hbytes⟩ := cxlfsWrite_spec d offset buf luck
  · rwa [heq]
  · intro pos hpos
    rw [hsize] at hpos
    rw [hbytes, if_neg (by omega)]
    exact h pos (by omega)

/-- `cxlfs_truncate` fails and changes nothing, or keeps the bytes up to the new size. -/
theorem cxlfsTruncate_spec (h : Tail d) (size : ℕ) (luck : Luck) :
    (cxlfsTruncate d size luck).1 = d ∨ (cxlfsTruncate d size luck).1.size = size ∧
      ∀ pos, byte (cxlfsTruncate d size luck).1.block pos =
        if pos < size then byte d.block pos else 0 := by
  rw [cxlfsTruncate]
  split
  · refine .inr ⟨rfl, fun pos => ?_⟩
    split
    · rfl
    · exact h pos (by omega)
  · next hsize =>
    split
    · exact .inl rfl
    · -- the blocks behind the new end are gone, and the old file had none further on
      have hcut (blk : Blocks) (hblk : ∀ pos, byte blk pos = if pos / pageSize = size / pageSize ∧
          size ≤ pos ∧ size % pageSize ≠ 0 then 0 else byte d.block pos) (pos : ℕ) :
          byte (fun l => if (size + pageSize - 1) / pageSize ≤ l ∧
            l < (d.size + pageSize - 1) / pageSize then none else blk l) pos =
            if pos < size then byte d.block pos else 0 := by
        have hold : d.size ≤ pos → byte d.block pos = 0 := h pos
        have hstays : pos < size → ¬ (size + pageSize - 1) / pageSize ≤ pos / pageSize := by
          simp only [pageSize]
          omega
        have hbehind : size ≤ pos → ¬ ((size + pageSize - 1) / pageSize ≤ pos / pageSize ∧
            pos / pageSize < (d.size + pageSize - 1) / pageSize) →
            ¬ (pos / pageSize = size / pageSize ∧ size ≤ pos ∧ size % pageSize ≠ 0) →
            d.size ≤ pos := by
          simp only [pageSize]
          omega
        rw [byte_cut, hblk]
        by_cases hlt : pos < size
        · rw [if_neg fun hgone => hstays hlt hgone.1, if_neg fun hlast => absurd hlast.2.1 (by omega),
            if_pos hlt]
        · rw [if_neg hlt]
          split
          · rfl
          · split
            · rfl
            · exact hold (hbehind (by omega) ‹_› ‹_›)
      dsimp only
      split
      · next hnone =>
        refine .inr ⟨rfl, hcut d.block fun pos => ?_⟩
        split
        · next hpos =>
          rw [if_neg hpos.2.2] at hnone
          rw [byte, hpos.1, hnone]
        · rfl
      · next old hsome =>
        split
        · exact .inl rfl
        · have hne : size % pageSize ≠ 0 := by
            intro hzero
            rw [if_pos hzero] at hsome
            simp at hsome
          rw [if_neg hne] at hsome
          refine .inr ⟨rfl, hcut _ fun pos => ?_⟩
          rw [byte_update]
          by_cases hdiv : pos / pageSize = size / pageSize
          · have hle : size % pageSize ≤ pos % pageSize ↔ size ≤ pos := by
              simp only [pageSize] at *
              omega
            simp only [hdiv, hle, hne, ne_eq, not_false_eq_true, and_true, true_and, if_true]
            split
            · rfl
            · rw [byte, hdiv, hsome]
          · rw [if_neg hdiv, if_neg fun hpos => hdiv hpos.1]

theorem Tail.truncate (h : Tail d) (size : ℕ) (luck : Luck) :
    Tail (cxlfsTruncate d size luck).1 := by
  obtain heq | ⟨hsize, hbytes⟩ := cxlfsTruncate_spec h size luck
  · rwa [heq]
  · intro pos hpos
    rw [hbytes, if_neg (by omega)]

/-- The positions at which an allocation that is not aligned may overwrite bytes. -/
def Overlaps (offset stop pos : ℕ) : Prop :=
  offset % pageSize ≠ 0 ∧ offset / pageSize < pos / pageSize ∧ pos < stop

theorem allocateLoop_spec {pos : ℕ} (luck : Luck) (stop fuel : ℕ) (h : Tail d)
    (halign : pos % pageSize = offset % pageSize ∨ stop ≤ pos)
    (hfirst : offset / pageSize ≤ pos / pageSize) :
    Tail (allocateLoop luck stop fuel pos d).1 ∧
      ∀ x, byte (allocateLoop luck stop fuel pos d).1.block x = byte d.block x ∨
        Overlaps offset stop x := by
  induction fuel generalizing pos d with
  | zero => exact ⟨h, fun _ => .inl rfl⟩
  | succ fuel ih =>
    rw [allocateLoop]
    split
    · next hlt =>
      generalize hn : min (stop - pos) pageSize = n
      have halign' : (pos + n) % pageSize = offset % pageSize ∨ stop ≤ pos + n := by
        simp only [pageSize] at *
        omega
      have hfirst' : offset / pageSize ≤ (pos + n) / pageSize :=
        Nat.le_trans hfirst (Nat.div_le_div_right (by omega))
      dsimp only
      split
      · next hhole =>
        have hnone := Option.isNone_iff_eq_none.mp hhole
        have hwrite : ∀ x, byte (cxlfsWrite d pos (List.replicate n 0) luck).1.block x =
            byte d.block x ∨ Overlaps offset stop x := by
          intro x
          obtain ⟨heq, -⟩ | ⟨done, hdone, -, -, hbytes⟩ :=
            cxlfsWrite_spec d pos (List.replicate n 0) luck
          · rw [heq]
            exact .inl rfl
          · rw [List.length_replicate] at hdone
            rw [hbytes, Int.toNat_natCast]
            split
            · next hx =>
              by_cases hblock : x / pageSize = pos / pageSize
              · -- the block is missing, so its bytes are zero as it is
                left
                have hin : x - pos < n := by omega
                simp [byte, hblock, hnone, hin]
              · right
                simp only [Overlaps, pageSize] at *
                omega
            · exact .inl rfl
        split
        · exact ⟨h.write _ _ _, hwrite⟩
        · obtain ⟨htail, hbytes⟩ := ih (h.write pos (List.replicate n 0) luck) halign' hfirst'
          refine ⟨htail, fun x => ?_⟩
          obtain heq | hover := hbytes x
          · rw [heq]
            exact hwrite x
          · exact .inr hover
      · exact ih h halign' hfirst'
    · exact ⟨h, fun _ => .inl rfl⟩

/-- `cxlfs_allocate` changes no byte, unless the offset is not aligned; then none of the first page
and none behind the range. -/
theorem cxlfsAllocate_spec (h : Tail d) (offset len : ℤ) (keepSize : Bool) (luck : Luck) :
    Tail (cxlfsAllocate d offset len keepSize luck).1 ∧
      ∀ x, byte (cxlfsAllocate d offset len keepSize luck).1.block x = byte d.block x ∨
        Overlaps offset.toNat (offset.toNat + len.toNat) x := by
  rw [cxlfsAllocate]
  split
  · exact ⟨h, fun _ => .inl rfl⟩
  · obtain ⟨htail, hbytes⟩ := allocateLoop_spec luck (offset.toNat + len.toNat)
      (offset.toNat + len.toNat) h (.inl rfl) (Nat.le_refl (offset.toNat / pageSize))
    dsimp only
    split
    · exact ⟨htail, hbytes⟩
    · split
      · refine ⟨htail.truncate _ _, fun x => ?_⟩
        obtain heq | ⟨-, hcut⟩ := cxlfsTruncate_spec htail d.size luck
        · rw [heq]
          exact hbytes x
        · rw [hcut]
          split
          · exact hbytes x
          · exact .inl (h x (by omega)).symm
      · exact ⟨htail, hbytes⟩

end Starfish.Cxlfs
