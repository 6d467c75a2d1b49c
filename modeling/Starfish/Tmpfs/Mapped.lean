import Mathlib.Logic.Relation
import Starfish.Tmpfs.Cxlfs

/-!
# Starfish.Tmpfs.Mapped

Pages of a file that clients map (`tmpfs_get_page_addr`), and the requests that change the file
(`util.c`).  The bytes of the file are in CXLFS; a mapped page is a copy.  A write frees the copies
of the pages it changes, which clients go on to use; the other requests leave the copies alone, also
where they change the file.
-/

namespace Starfish.Tmpfs.Mapped

open Function Relation Cxlfs

/-- `data` is the tree of the copies, `mem` what is allocated.  `given` are the page numbers and
addresses that clients have got. -/
structure File where
  disk : Inode
  data : ℕ → Option ℕ
  mem : ℕ → Option (List UInt8)
  given : List (ℕ × ℕ)

/-- `radix_del` of a copy, which frees it. -/
def radixDel (s : File) (pageNo : ℕ) : File :=
  match s.data pageNo with
  | none => s
  | some page =>
    { s with data := update s.data pageNo none, mem := update s.mem page none }

/-- `tmpfs_get_page_addr`.  `page` is what `aligned_alloc` gives, and `added` says that `radix_add`
succeeds. -/
def tmpfsGetPageAddr (s : File) (offset : ℕ) (page : Option ℕ) (added : Bool) : File × ℕ :=
  let pageNo := offset / pageSize
  match s.data pageNo, page with
  | some page, _ => ({ s with given := (pageNo, page) :: s.given }, page)
  | none, some page =>
    if added then
      let bytes := filled (cxlfsRead s.disk (pageNo * pageSize) pageSize)
      ({ s with data := update s.data pageNo (some page), mem := update s.mem page (some bytes),
                given := (pageNo, page) :: s.given }, page)
    else (s, 0)
  | none, none => (s, 0)

/-- `tfs_file_write` -/
def tfsFileWrite (s : File) (offset : ℤ) (bytes : List UInt8) (luck : Luck) : File × ℤ :=
  let (disk, ret) := cxlfsWrite s.disk offset bytes luck
  let s := { s with disk := disk }
  if 0 < ret then
    let first := offset.toNat / pageSize
    let last := (offset.toNat + ret.toNat - 1) / pageSize
    ((List.range' first (last + 1 - first)).foldl radixDel s, ret)
  else (s, ret)

/-- `tfs_truncate` -/
def tfsTruncate (s : File) (size : ℕ) (luck : Luck) : File × ℤ :=
  let (disk, ret) := cxlfsTruncate s.disk size luck
  ({ s with disk := disk }, ret)

/-- `tfs_allocate` -/
def tfsAllocate (s : File) (offset len : ℤ) (keepSize : Bool) (luck : Luck) : File × ℤ :=
  let (disk, ret) := cxlfsAllocate s.disk offset len keepSize luck
  ({ s with disk := disk }, ret)

inductive Request where
  | get (offset : ℕ) (page : Option ℕ) (added : Bool)
  | write (offset : ℤ) (bytes : List UInt8) (luck : Luck)
  | truncate (size : ℕ) (luck : Luck)
  | allocate (offset len : ℤ) (keepSize : Bool) (luck : Luck)

namespace Request

def run (s : File) : Request → File
  | get offset page added => (tmpfsGetPageAddr s offset page added).1
  | write offset bytes luck => (tfsFileWrite s offset bytes luck).1
  | truncate size luck => (tfsTruncate s size luck).1
  | allocate offset len keepSize luck => (tfsAllocate s offset len keepSize luck).1

/-- Memory that is allocated is not in use. -/
def Allowed (s : File) : Request → Prop
  | get _ page _ => ∀ a ∈ page, s.mem a = none
  | _ => True

/-- The request keeps away from page `k`: no write to it; no truncate that cuts off some of it; and
no allocation that is not aligned, begins on a page before it and reaches it. -/
def Spares (s : File) (k : ℕ) : Request → Prop
  | get _ _ _ => True
  | write offset bytes _ => bytes = [] ∨ k < offset.toNat / pageSize ∨
      (offset.toNat + bytes.length - 1) / pageSize < k
  | truncate size _ => s.disk.size ≤ size ∨ s.disk.size ≤ k * pageSize ∨ (k + 1) * pageSize ≤ size
  | allocate offset len _ _ => offset.toNat % pageSize = 0 ∨ k ≤ offset.toNat / pageSize ∨
      (offset.toNat + len.toNat - 1) / pageSize < k

instance (s : File) (k : ℕ) : (r : Request) → Decidable (r.Spares s k)
  | get _ _ _ => .isTrue trivial
  | write _ _ _ => inferInstanceAs (Decidable (_ ∨ _ ∨ _))
  | truncate _ _ => inferInstanceAs (Decidable (_ ∨ _ ∨ _))
  | allocate _ _ _ _ => inferInstanceAs (Decidable (_ ∨ _ ∨ _))

end Request

/-- A request that keeps away from the pages that clients have got. -/
def CarefulStep (s s' : File) : Prop :=
  ∃ r : Request, r.Allowed s ∧ (∀ e ∈ s.given, r.Spares s e.1) ∧ s' = r.run s

/-- Every page that clients have got holds the bytes of the file, followed by zeros. -/
def Coherent (s : File) : Prop := ∀ e ∈ s.given,
  s.mem e.2 = some (filled (cxlfsRead s.disk (e.1 * pageSize) pageSize))

/-! ## One request -/

/-- Clients have the pages that are in the tree. -/
structure Inv (s : File) : Prop where
  tail : Tail s.disk
  coherent : Coherent s
  data : ∀ k a, s.data k = some a ↔ (k, a) ∈ s.given

section steps

variable {s s' : File}

theorem foldl_radixDel {ks : List ℕ} (h : ∀ k ∈ ks, s.data k = none) : ks.foldl radixDel s = s := by
  induction ks with
  | nil => rfl
  | cons k ks ih =>
    obtain ⟨hk, hks⟩ := List.forall_mem_cons.mp h
    rw [List.foldl_cons, radixDel, hk]
    exact ih hks

/-- A file whose bytes are the same in the pages that clients have got. -/
theorem Inv.congr (h : Inv s) (disk : Inode) (htail : Tail disk)
    (hbytes : ∀ e ∈ s.given, ∀ i < pageSize,
      byte disk.block (e.1 * pageSize + i) = byte s.disk.block (e.1 * pageSize + i)) :
    Inv { s with disk := disk } := by
  refine ⟨htail, fun e he => ?_, h.data⟩
  have hold := h.coherent e he
  rw [filled_cxlfsRead h.tail] at hold
  rw [hold, filled_cxlfsRead htail]
  refine congrArg some (List.map_congr_left fun i hi => ?_)
  exact (hbytes e he i (List.mem_range.mp hi)).symm

theorem Inv.get (h : Inv s) (offset : ℕ) {page : Option ℕ} (added : Bool)
    (hfree : ∀ a ∈ page, s.mem a = none) : Inv (tmpfsGetPageAddr s offset page added).1 := by
  obtain ⟨htail, hcoherent, hdata⟩ := h
  unfold tmpfsGetPageAddr
  dsimp only
  split
  · next page hpage =>
    have hgiven := (hdata _ _).mp hpage
    refine ⟨htail, fun e he => ?_, fun k a => ?_⟩
    · obtain rfl | he := List.mem_cons.mp he
      · exact hcoherent _ hgiven
      · exact hcoherent e he
    · rw [List.mem_cons, hdata]
      refine ⟨.inr, fun hmem => ?_⟩
      obtain heq | hmem := hmem
      · exact heq ▸ hgiven
      · exact hmem
  · next page hnone =>
    have hmem := hfree page rfl
    have hnew : ∀ e ∈ s.given, e.2 ≠ page := by
      rintro e he rfl
      simp [hcoherent e he] at hmem
    have hother : ∀ e ∈ s.given, e.1 ≠ offset / pageSize := by
      rintro ⟨k, a⟩ he rfl
      simp [(hdata _ a).mpr he] at hnone
    split
    · refine ⟨htail, fun e he => ?_, fun k a => ?_⟩
      · obtain rfl | he := List.mem_cons.mp he
        · simp
        · simpa [hnew e he] using hcoherent e he
      · by_cases hk : k = offset / pageSize
        · subst hk
          have hno : (offset / pageSize, a) ∉ s.given := fun he => hother _ he rfl
          simp [hno, eq_comm]
        · simp [hk, hdata]
    · exact ⟨htail, hcoherent, hdata⟩
  · exact ⟨htail, hcoherent, hdata⟩

theorem Inv.step (h : Inv s) (hstep : CarefulStep s s') : Inv s' := by
  obtain ⟨r, hallowed, hspares, rfl⟩ := hstep
  cases r with
  | get offset page added => exact h.get offset added hallowed
  | write offset bytes luck =>
    have htail := h.tail.write offset bytes luck
    have hspec := cxlfsWrite_spec s.disk offset bytes luck
    rw [Request.run, tfsFileWrite]
    generalize cxlfsWrite s.disk offset bytes luck = w at htail hspec
    obtain ⟨disk, ret⟩ := w
    obtain ⟨rfl, hneg⟩ | ⟨done, hdone, rfl, -, hbytes⟩ := hspec
    · dsimp only at hneg ⊢
      rwa [if_neg (by omega)]
    · have hinv : Inv { s with disk := disk } := by
        refine h.congr disk htail fun e he i hi => (hbytes _).trans (if_neg ?_)
        obtain rfl | hpage := hspares e he
        · simp only [List.length_nil] at hdone
          omega
        · simp only [pageSize] at *
          omega
      dsimp only
      split
      · rw [foldl_radixDel]
        · exact hinv
        · intro k hk
          by_contra hsome
          obtain ⟨a, ha⟩ := Option.ne_none_iff_exists'.mp hsome
          rw [List.mem_range'_1] at hk
          obtain rfl | hkeep := hspares (k, a) ((h.data k a).mp ha)
          · simp only [List.length_nil] at hdone
            omega
          · simp only [pageSize] at *
            omega
      · exact hinv
  | truncate size luck =>
    refine h.congr (cxlfsTruncate s.disk size luck).1 (h.tail.truncate size luck) fun e he i hi => ?_
    obtain heq | ⟨-, hbytes⟩ := cxlfsTruncate_spec h.tail size luck
    · rw [heq]
    · rw [hbytes]
      split
      · rfl
      · refine (h.tail _ ?_).symm
        have hkeep := hspares e he
        simp only [Request.Spares, pageSize] at *
        omega
  | allocate offset len keepSize luck =>
    obtain ⟨htail, hbytes⟩ := cxlfsAllocate_spec h.tail offset len keepSize luck
    refine h.congr (cxlfsAllocate s.disk offset len keepSize luck).1 htail
      fun e he i hi => (hbytes _).resolve_right fun hover => ?_
    have hkeep := hspares e he
    simp only [Request.Spares, Overlaps, pageSize] at *
    omega

end steps

/-! ## Runs -/

/-- A file that was just created. -/
def start : File := ⟨⟨0, fun _ => none⟩, fun _ => none, fun _ => none, []⟩

/-- As long as the requests keep away from the pages that clients have got, these hold the bytes of
the file, followed by zeros. -/
theorem mapped_pages_coherent {s : File} (hrun : ReflTransGen CarefulStep start s) : Coherent s := by
  have hinv : Inv s := by
    induction hrun with
    | refl => exact ⟨fun _ _ => rfl, fun e he => absurd he List.not_mem_nil, by simp [start]⟩
    | tail _ hstep ih => exact ih.step hstep
  exact hinv.coherent

/-- All calls succeed. -/
def lucky : Luck := ⟨fun _ => true, fun _ => true, true, true⟩

/-- A byte is written, and its page is mapped at 4096. -/
def oneByte : File := (Request.get 0 (some 4096) true).run ((Request.write 0 [1] lucky).run start)

theorem run_oneByte : ReflTransGen CarefulStep start oneByte :=
  .tail (.single ⟨.write 0 [1] lucky, trivial, fun _ he => absurd he List.not_mem_nil, rfl⟩)
    ⟨.get 0 (some 4096) true, fun _ _ => rfl, fun _ _ => trivial, rfl⟩

/-- Another page of the file is written, cut off again and allocated; the first page is mapped all
the time. -/
theorem mapped_page_coherent_changed : ∃ s, s = (Request.allocate 4096 100 false lucky).run
      ((Request.truncate 4096 lucky).run ((Request.write 4096 [2, 3] lucky).run oneByte)) ∧
    s.given = [(0, 4096)] ∧ Coherent s := by
  refine ⟨_, rfl, rfl, mapped_pages_coherent (((run_oneByte.tail ⟨.write 4096 [2, 3] lucky, trivial,
    ?_, rfl⟩).tail ⟨.truncate 4096 lucky, trivial, ?_, rfl⟩).tail
    ⟨.allocate 4096 100 false lucky, trivial, ?_, rfl⟩)⟩
  · decide
  · decide
  · decide

/-- The byte of a mapped page is still there after the file was made empty. -/
theorem shrunk_page_not_coherent : ReflTransGen CarefulStep start oneByte ∧
    ∃ s, s = (Request.truncate 0 lucky).run oneByte ∧ cxlfsRead s.disk 0 pageSize = [] ∧
      s.mem 4096 = some (filled [1]) ∧ ¬ Coherent s := by
  refine ⟨run_oneByte, _, rfl, rfl, rfl, fun h => ?_⟩
  have hpage : some (filled [1]) = some (filled []) := h (0, 4096) (.head _)
  have hhead := congrArg List.head? (Option.some.inj hpage)
  exact absurd hhead (by decide)

end Starfish.Tmpfs.Mapped
