import Starfish.Trie

/-!
# Starfish.PageTable.Model

The four-level page tables of a process (`kernel/arch/x86_64/mm/page_table.c`).

A page table page has 512 entries and an address is looked up by the digits of its page number to
the base 512, the highest first.  The entry of a last-level page is a 4 KiB mapping; the functions
here make no huge pages.  `total_page_cnt` is signed and the loops stop once it is not positive, so
the truncated subtraction of natural numbers stops them at the same turn.  `none` is a failed
`BUG_ON`.  The last two entries of the root, which are the kernel's, and the accessed and dirty bits,
which only the processor sets, are left out, and so are the entries of `set_migration_entry`, which
`get_next_ptp` takes as present.
-/

namespace Starfish.PageTable

open Function

/-- The access rights of a region, `vmr_prop_t`. -/
structure Flags where
  write : Bool
  exec : Bool
  nocache : Bool
deriving DecidableEq

/-- A present last-level entry: the frame and the bits that `set_pte_flags` sets. -/
structure Pte where
  pfn : ℕ
  writeable : Bool
  nx : Bool
  cacheDisable : Bool
deriving DecidableEq

def setPteFlags (flags : Flags) (e : Pte) : Pte :=
  { e with writeable := flags.write, nx := !flags.exec, cacheDisable := flags.nocache }

def setPteWriteFlag (flag : Bool) (e : Pte) : Pte := { e with writeable := flag }

/-- The entry for the frame at `pa`; `pfn` has 36 bits. -/
def newPte (pa : ℕ) (flags : Flags) : Pte :=
  setPteFlags flags ⟨pa / 4096 % 2 ^ 36, false, false, false⟩

/-- What a page table entry leads to over `n` more levels: a mapped page, or a page table page with
its entries.  An entry that is not present is `none`. -/
def Ptp : ℕ → Type
  | 0 => Pte
  | n + 1 => Fin 512 → Option (Ptp n)

namespace Ptp

def page (e : Pte) : Ptp 0 := e

def pte (t : Ptp 0) : Pte := t

def ent {n : ℕ} (t : Ptp (n + 1)) (index : Fin 512) : Option (Ptp n) := t index

def setEnt {n : ℕ} (t : Ptp (n + 1)) (index : Fin 512) (e : Option (Ptp n)) : Ptp (n + 1) :=
  update t index e

theorem ent_setEnt (t : Ptp (n + 1)) (index j : Fin 512) (e : Option (Ptp n)) :
    (t.setEnt index e).ent j = if j = index then e else t.ent j := update_apply ..

end Ptp

/-- The root page table page, `l0_ptp`. -/
abbrev Pgtbl := Ptp 4

/-- A page that `memset` has cleared. -/
def cleared (n : ℕ) : Ptp (n + 1) := fun _ => none

/-- The walk of `query_in_pgtbl` for a page number. -/
def walk : {n : ℕ} → Ptp n → ℕ → Option Pte
  | 0, t, _ => some t.pte
  | n + 1, t, vpn => (t.ent (digits 512 vpn n)).bind fun next => walk (n := n) next vpn

/-- `query_in_pgtbl`: the physical address and the entry of an address. -/
def queryInPgtbl (t : Pgtbl) (va : ℕ) : Option (ℕ × Pte) :=
  (walk t (va / 4096)).map fun e => (e.pfn * 4096 + va % 4096, e)

/-- The calls of `get_next_ptp` above the last level, with `alloc == false`: the first entry that is
not present is reported by the levels below it, so that it stands for `512 ^ h` pages. -/
def missing : (n : ℕ) → Ptp (n + 1) → ℕ → Option ℕ
  | 0, _, _ => none
  | n + 1, t, vpn =>
    match t.ent (digits 512 vpn (n + 1)) with
    | none => some (n + 1)
    | some next => missing n next vpn

/-- A last-level entry is changed by `f`.  Under `alloc` the pages on the way to it are made. -/
def edit (alloc : Bool) (f : Option Pte → Option Pte) : (n : ℕ) → Ptp (n + 1) → ℕ → Ptp (n + 1)
  | 0, t, vpn => t.setEnt (digits 512 vpn 0) ((f (walk t vpn)).map .page)
  | n + 1, t, vpn =>
    match t.ent (digits 512 vpn (n + 1)) with
    | some next => t.setEnt (digits 512 vpn (n + 1)) (some (edit alloc f n next vpn))
    | none =>
      if alloc then t.setEnt (digits 512 vpn (n + 1)) (some (edit alloc f n (cleared n) vpn)) else t

/-! ## The range loops -/

/-- What tells the range functions apart: whether missing tables are made, by how many pages the
loop goes on behind a missing entry, and what becomes of the entry of a page.  The loops make
progress, and what does not make tables maps no page. -/
structure Kind where
  alloc : Bool
  stride : ℕ → ℕ → ℕ
  leaf : ℕ → Option Pte → Option Pte
  stride_pos : ∀ h vpn, 0 < stride h vpn
  leaf_none : alloc = true ∨ ∀ vpn, leaf vpn none = none

/-- The `for` loop over the `k` entries that are left in a last-level page. -/
def ptes (r : Kind) : ℕ → Pgtbl → ℕ → ℕ → Pgtbl × ℕ × ℕ
  | 0, t, vpn, cnt => (t, vpn, cnt)
  | k + 1, t, vpn, cnt =>
    let t := edit r.alloc (r.leaf vpn) 3 t vpn
    if cnt - 1 = 0 then (t, vpn + 1, 0) else ptes r k t (vpn + 1) (cnt - 1)

/-- The `while` loop over `cnt` pages; every turn handles a page or more. -/
def rangeLoop (r : Kind) : ℕ → Pgtbl → ℕ → ℕ → Pgtbl
  | 0, t, _, _ => t
  | fuel + 1, t, vpn, cnt =>
    if cnt = 0 then t else
      match (if r.alloc then none else missing 3 t vpn) with
      | some h => rangeLoop r fuel t (vpn + r.stride h vpn) (cnt - r.stride h vpn)
      | none =>
        let (t, vpn, cnt) := ptes r (512 - vpn % 512) t vpn cnt
        rangeLoop r fuel t vpn cnt

/-- `total_page_cnt`. -/
def totalPageCnt (len : ℕ) : ℕ := len / 4096 + if len % 4096 > 0 then 1 else 0

def range (r : Kind) (t : Pgtbl) (va len : ℕ) : Option Pgtbl :=
  if va % 4096 = 0 then some (rangeLoop r (totalPageCnt len) t (va / 4096) (totalPageCnt len))
  else none

def mapKind (va pa : ℕ) (flags : Flags) : Kind :=
  ⟨true, fun _ _ => 1, fun vpn _ => some (newPte (pa + (vpn - va / 4096) * 4096) flags),
    by simp, by simp⟩

def unmapKind : Kind := ⟨false, fun h _ => 512 ^ h, fun _ _ => none, by simp, by simp⟩

def mprotectKind (flags : Flags) : Kind :=
  ⟨false, fun h _ => 512 ^ h, fun _ e => e.map (setPteFlags flags), by simp, by simp⟩

/-- Here the loop goes on at the next entry of the level, wherever in the entry it was. -/
def setWriteKind (flag : Bool) : Kind :=
  ⟨false, fun h vpn => 512 ^ h - vpn % 512 ^ h, fun _ e => e.map (setPteWriteFlag flag),
    fun h vpn => Nat.sub_pos_of_lt (Nat.mod_lt _ (by simp)), by simp⟩

def mapRangeInPgtbl (t : Pgtbl) (va pa len : ℕ) (flags : Flags) : Option Pgtbl :=
  range (mapKind va pa flags) t va len

def unmapRangeInPgtbl (t : Pgtbl) (va len : ℕ) : Option Pgtbl := range unmapKind t va len

def mprotectInPgtbl (t : Pgtbl) (va len : ℕ) (flags : Flags) : Option Pgtbl :=
  range (mprotectKind flags) t va len

def setWriteInPgtbl (t : Pgtbl) (va len : ℕ) (flag : Bool) : Option Pgtbl :=
  range (setWriteKind flag) t va len

def mapPageInPgtbl (t : Pgtbl) (va pa : ℕ) (flags : Flags) : Option Pgtbl :=
  if va % 4096 = 0 then some (edit true (fun _ => some (newPte pa flags)) 3 t (va / 4096)) else none

/-- An operation on one page table. -/
inductive Op where
  | mapRange (va pa len : ℕ) (flags : Flags)
  | mapPage (va pa : ℕ) (flags : Flags)
  | unmapRange (va len : ℕ)
  | mprotect (va len : ℕ) (flags : Flags)
  | setWrite (va len : ℕ) (flag : Bool)

def Op.run (t : Pgtbl) : Op → Option Pgtbl
  | mapRange va pa len flags => mapRangeInPgtbl t va pa len flags
  | mapPage va pa flags => mapPageInPgtbl t va pa flags
  | unmapRange va len => unmapRangeInPgtbl t va len
  | mprotect va len flags => mprotectInPgtbl t va len flags
  | setWrite va len flag => setWriteInPgtbl t va len flag

def Op.va : Op → ℕ
  | mapRange va _ _ _ | mapPage va _ _ | unmapRange va _ | mprotect va _ _ | setWrite va _ _ => va

end Starfish.PageTable
