import Starfish.PageTable.Model

/-!
# Starfish.PageTable.Refine

The page table as a map from page numbers to entries.

`walk_edit` says what one changed entry does to the lookups and `walk_rangeLoop` what a whole range
does, provided that no mapped page lies in what the loop steps over.  `set_write_in_pgtbl` goes on at
the end of a missing entry, so it always satisfies the provision.  `unmap_range_in_pgtbl` and
`mprotect_in_pgtbl` go on by the full size of the entry from wherever in it they are:
`unmap_skips_mapped_page` is a mapped page of the range that stays mapped.
-/

namespace Starfish.PageTable

open Nat

/-- What a page table is for: the mapped pages, by page numbers of 36 bits. -/
abbrev PageMap := ℕ → Option Pte

/-- `query_in_pgtbl` answers from the map. -/
def Refines (t : Pgtbl) (m : PageMap) : Prop :=
  ∀ va, queryInPgtbl t va = (m (va / 4096)).map fun e => (e.pfn * 4096 + va % 4096, e)

/-- The page is one of those that `va` and `len` name. -/
abbrev Named (va len page : ℕ) : Prop :=
  ∃ i < totalPageCnt len, (va / 4096 + i) % 2 ^ 36 = page % 2 ^ 36

/-- What an operation is to do to the map.  A range that is longer than the address space names a
page several times; the last mapping of it stays. -/
def Performs (m m' : PageMap) : Op → Prop
  | .mapRange va pa len flags =>
    (∀ page, ¬Named va len page → m' page = m page) ∧
      ∀ i < totalPageCnt len,
        (∀ j < totalPageCnt len, i < j → (va / 4096 + j) % 2 ^ 36 ≠ (va / 4096 + i) % 2 ^ 36) →
        m' (va / 4096 + i) = some (newPte (pa + i * 4096) flags)
  | .mapPage va pa flags =>
    ∀ page, m' page = if Named va 4096 page then some (newPte pa flags) else m page
  | .unmapRange va len => ∀ page, m' page = if Named va len page then none else m page
  | .mprotect va len flags =>
    ∀ page, m' page = if Named va len page then (m page).map (setPteFlags flags) else m page
  | .setWrite va len flag =>
    ∀ page, m' page = if Named va len page then (m page).map (setPteWriteFlag flag) else m page

/-! ## One entry -/

theorem mod_pow_succ_iff [NeZero b] :
    k % b ^ (n + 1) = l % b ^ (n + 1) ↔ k % b ^ n = l % b ^ n ∧ digits b k n = digits b l n := by
  rw [Fin.ext_iff, val_digits, val_digits]
  constructor
  · intro h
    have hmod := congrArg (· % b ^ n) h
    have hdiv := congrArg (· / b ^ n) h
    simp only [mod_mod_of_dvd _ (pow_dvd_pow b (le_succ n))] at hmod
    simp only [pow_succ, mod_mul_right_div_self] at hdiv
    exact ⟨hmod, hdiv⟩
  · rintro ⟨hlow, htop⟩
    rw [mod_pow_succ, mod_pow_succ, hlow, htop]

theorem walk_succ (t : Ptp (n + 1)) (vpn : ℕ) :
    walk t vpn = (t.ent (digits 512 vpn n)).bind fun next => walk next vpn := rfl

theorem walk_congr (t : Ptp n) (h : p % 512 ^ n = q % 512 ^ n) : walk t p = walk t q := by
  induction n with
  | zero => rfl
  | succ n ih =>
    obtain ⟨hlow, htop⟩ := mod_pow_succ_iff.mp h
    rw [walk_succ, walk_succ, htop]
    exact congrArg _ (funext fun next => ih next hlow)

theorem walk_setEnt (t : Ptp (n + 1)) (e : Option (Ptp n)) :
    walk (t.setEnt (digits 512 vpn n) e) q =
      if digits 512 q n = digits 512 vpn n then e.bind fun next => walk next q else walk t q := by
  rw [walk_succ, Ptp.ent_setEnt]
  split_ifs <;> rfl

@[simp] theorem walk_cleared (n q : ℕ) : walk (cleared n) q = none := rfl

theorem walk_edit (hf : alloc = true ∨ f none = none) (n : ℕ) (t : Ptp (n + 1)) (vpn q : ℕ) :
    walk (edit alloc f n t vpn) q =
      if q % 512 ^ (n + 1) = vpn % 512 ^ (n + 1) then f (walk t vpn) else walk t q := by
  simp only [mod_pow_succ_iff]
  induction n with
  | zero =>
    simp only [edit, walk_setEnt, pow_zero, mod_one, true_and]
    split_ifs
    · cases f (walk t vpn) <;> rfl
    · rfl
  | succ n ih =>
    have hnext (v : ℕ) : walk t v = (t.ent (digits 512 v (n + 1))).bind (walk · v) := rfl
    -- only the page below the entry changes, and there by the induction hypothesis
    rw [edit]
    cases hent : t.ent (digits 512 vpn (n + 1)) with
    | some next =>
      simp only [walk_setEnt, Option.bind_some, ih]
      grind [mod_pow_succ_iff]
    | none => grind [walk_setEnt, walk_cleared, mod_pow_succ_iff]

/-- Nothing is mapped below a missing entry. -/
theorem walk_of_missing (hm : missing n t vpn = some h) :
    h ≤ n ∧ ∀ q, q / 512 ^ h = vpn / 512 ^ h → walk t q = none := by
  induction n with
  | zero => simp [missing] at hm
  | succ n ih =>
    rw [missing] at hm
    have hdigit (q : ℕ) (hle : h ≤ n + 1) (hq : q / 512 ^ h = vpn / 512 ^ h) :
        digits 512 q (n + 1) = digits 512 vpn (n + 1) := by
      have hsplit (k : ℕ) : k / 512 ^ (n + 1) = k / 512 ^ h / 512 ^ (n + 1 - h) := by
        rw [Nat.div_div_eq_div_mul, ← Nat.pow_add, Nat.add_sub_cancel' hle]
      rw [Fin.ext_iff, val_digits, val_digits, hsplit, hsplit vpn, hq]
    cases hnext : t.ent (digits 512 vpn (n + 1)) with
    | none =>
      simp only [hnext, Option.some.injEq] at hm
      exact ⟨hm.ge, fun q hq => by rw [walk_succ, hdigit q hm.ge hq, hnext]; rfl⟩
    | some next =>
      simp only [hnext] at hm
      obtain ⟨hle, hnone⟩ := ih hm
      refine ⟨by omega, fun q hq => ?_⟩
      rw [walk_succ, hdigit q (by omega) hq, hnext]
      exact hnone q hq

/-! ## Ranges of the map -/

def setPage (g : Option Pte → Option Pte) (vpn : ℕ) (m : PageMap) : PageMap :=
  fun q => if q % 2 ^ 36 = vpn % 2 ^ 36 then g (m vpn) else m q

/-- The pages from `vpn` on are changed one after the other. -/
@[simp] def setPages (leaf : ℕ → Option Pte → Option Pte) (vpn : ℕ) : ℕ → PageMap → PageMap
  | 0, m => m
  | n + 1, m => setPage (leaf (vpn + n)) (vpn + n) (setPages leaf vpn n m)

theorem setPages_add (leaf : ℕ → Option Pte → Option Pte) (vpn a b : ℕ) (m : PageMap) :
    setPages leaf vpn (a + b) m = setPages leaf (vpn + a) b (setPages leaf vpn a m) := by
  induction b with
  | zero => rfl
  | succ b ih => rw [← add_assoc, setPages, setPages, ih, add_assoc]

section
variable {m : PageMap} (hm : ∀ p q, p % 2 ^ 36 = q % 2 ^ 36 → m p = m q)
include hm

theorem setPages_of_unmapped
    (hleaf : ∀ v, leaf v none = none) (hnone : ∀ i < n, m (vpn + i) = none) :
    setPages leaf vpn n m = m := by
  induction n with
  | zero => rfl
  | succ n ih =>
    rw [setPages, ih fun i hi => hnone i (by omega)]
    funext q
    grind [setPage]

theorem setPages_same (hg : ∀ e, g (g e) = g e) (vpn n q : ℕ) : setPages (fun _ => g) vpn n m q =
      if ∃ i < n, (vpn + i) % 2 ^ 36 = q % 2 ^ 36 then g (m q) else m q := by
  induction n generalizing q with
  | zero => simp
  | succ n ih =>
    rw [setPages, setPage, ih, ih]
    by_cases hq : q % 2 ^ 36 = (vpn + n) % 2 ^ 36
    · have hnamed : ∃ i < n + 1, (vpn + i) % 2 ^ 36 = q % 2 ^ 36 := ⟨n, by omega, hq.symm⟩
      rw [if_pos hq, if_pos hnamed, hm q _ hq]
      split_ifs
      · exact hg _
      · rfl
    · rw [if_neg hq]
      refine if_congr ⟨fun ⟨i, hi, h⟩ => ⟨i, by omega, h⟩, fun ⟨i, hi, h⟩ => ⟨i, ?_, h⟩⟩ rfl rfl
      exact lt_of_le_of_ne (by omega) fun heq => hq (heq ▸ h.symm)

end

theorem setPages_map (e : ℕ → Pte) (vpn n : ℕ) (m : PageMap) :
    (∀ q, (¬∃ i < n, (vpn + i) % 2 ^ 36 = q % 2 ^ 36) →
      setPages (fun v _ => some (e v)) vpn n m q = m q) ∧
    ∀ i < n, (∀ j < n, i < j → (vpn + j) % 2 ^ 36 ≠ (vpn + i) % 2 ^ 36) →
      setPages (fun v _ => some (e v)) vpn n m (vpn + i) = some (e (vpn + i)) := by
  induction n with
  | zero => simp
  | succ n ih =>
    obtain ⟨hother, hlast⟩ := ih
    constructor
    · intro q hq
      have hne : q % 2 ^ 36 ≠ (vpn + n) % 2 ^ 36 := fun h => hq ⟨n, by omega, h.symm⟩
      rw [setPages, setPage, if_neg hne]
      exact hother q fun ⟨i, hi, h⟩ => hq ⟨i, by omega, h⟩
    · intro i hi hafter
      rw [setPages, setPage]
      obtain hlt | rfl := Nat.lt_succ_iff_lt_or_eq.mp hi
      · rw [if_neg (hafter n (by omega) hlt).symm]
        exact hlast i hlt fun j hj => hafter j (by omega)
      · rw [if_pos rfl]

/-! ## The loops -/

theorem walk_edit_leaf (r : Kind) (t : Pgtbl) (vpn : ℕ) :
    walk (edit r.alloc (r.leaf vpn) 3 t vpn) = setPages r.leaf vpn 1 (walk t) :=
  funext fun q => walk_edit (r.leaf_none.imp_right (· vpn)) 3 t vpn q

theorem ptes_spec (r : Kind) (k : ℕ) (t : Pgtbl) (vpn : ℕ) (hcnt : 0 < cnt) :
    walk (ptes r k t vpn cnt).1 = setPages r.leaf vpn (min k cnt) (walk t) ∧
      (ptes r k t vpn cnt).2 = (vpn + min k cnt, cnt - min k cnt) := by
  induction k generalizing t vpn cnt with
  | zero => simp [ptes]
  | succ k ih =>
    simp only [ptes]
    by_cases hlast : cnt - 1 = 0
    · obtain rfl : cnt = 1 := by omega
      simp [walk_edit_leaf]
    · rw [if_neg hlast, show min (k + 1) cnt = 1 + min k (cnt - 1) by omega, setPages_add,
        ← walk_edit_leaf]
      obtain ⟨hwalk, hrest⟩ := ih (edit r.alloc (r.leaf vpn) 3 t vpn) (vpn + 1)
        (Nat.pos_of_ne_zero hlast)
      refine ⟨hwalk, hrest.trans ?_⟩
      rw [Nat.add_assoc, Nat.sub_sub]

/-- The pages that the loop steps over at missing entries are not mapped. -/
def Fits (r : Kind) : ℕ → Pgtbl → ℕ → ℕ → Prop
  | 0, _, _, _ => True
  | fuel + 1, t, vpn, cnt =>
    if cnt = 0 then True else
      match (if r.alloc then none else missing 3 t vpn) with
      | some h =>
        (∀ i < min cnt (r.stride h vpn), walk t (vpn + i) = none) ∧
          Fits r fuel t (vpn + r.stride h vpn) (cnt - r.stride h vpn)
      | none =>
        let left := ptes r (512 - vpn % 512) t vpn cnt
        Fits r fuel left.1 left.2.1 left.2.2

variable {t : Pgtbl}

theorem walk_rangeLoop (r : Kind) (hfuel : cnt ≤ fuel) (hfits : Fits r fuel t vpn cnt) :
    walk (rangeLoop r fuel t vpn cnt) = setPages r.leaf vpn cnt (walk t) := by
  induction fuel generalizing t vpn cnt with
  | zero =>
    obtain rfl : cnt = 0 := by omega
    rfl
  | succ fuel ih =>
    rw [rangeLoop]
    rw [Fits] at hfits
    by_cases hcnt : cnt = 0
    · rw [if_pos hcnt, hcnt, setPages]
    rw [if_neg hcnt] at hfits ⊢
    cases hskip : (if r.alloc then none else missing 3 t vpn) with
    | some h =>
      simp only [hskip] at hfits ⊢
      obtain ⟨hnone, hrest⟩ := hfits
      have hpos := r.stride_pos h vpn
      have hleaf : ∀ v, r.leaf v none = none := by
        obtain halloc | hleaf := r.leaf_none
        · simp [halloc] at hskip
        · exact hleaf
      have hstay := setPages_of_unmapped (fun _ _ => walk_congr t) hleaf hnone
      rw [ih (by omega) hrest]
      by_cases hle : cnt ≤ r.stride h vpn
      · rw [Nat.min_eq_left hle] at hstay
        rw [hstay, Nat.sub_eq_zero_of_le hle, setPages]
      · rw [Nat.min_eq_right (by omega)] at hstay
        rw [← Nat.add_sub_of_le (Nat.le_of_not_le hle), setPages_add, hstay,
          Nat.add_sub_cancel_left]
    | none =>
      simp only [hskip] at hfits ⊢
      obtain ⟨hwalk, hrest⟩ := ptes_spec r (512 - vpn % 512) t vpn (pos_of_ne_zero hcnt)
      simp only [hrest] at hfits ⊢
      rw [ih (by omega) hfits, hwalk, ← setPages_add]
      congr 1
      omega

theorem fits_of_alloc (halloc : r.alloc = true) (fuel : ℕ) (t : Pgtbl) (vpn cnt : ℕ) :
    Fits r fuel t vpn cnt := by
  induction fuel generalizing t vpn cnt with
  | zero => trivial
  | succ fuel ih =>
    simp only [Fits, halloc, if_true]
    split
    · trivial
    · exact ih ..

/-- A loop that goes on at the end of a missing entry steps over no mapped page. -/
theorem fits_setWrite (flag : Bool) (fuel : ℕ) (t : Pgtbl) (vpn cnt : ℕ) :
    Fits (setWriteKind flag) fuel t vpn cnt := by
  induction fuel generalizing t vpn cnt with
  | zero => trivial
  | succ fuel ih =>
    rw [Fits]
    split
    · trivial
    · split
      next h hskip =>
        refine ⟨fun i hi => ?_, ih ..⟩
        have hmiss : missing 3 t vpn = some h := hskip
        have hlt : i < 512 ^ h - vpn % 512 ^ h := lt_of_lt_of_le hi (Nat.min_le_right ..)
        refine (walk_of_missing hmiss).2 _ ?_
        -- the sum does not leave the entry
        have hpos : 0 < 512 ^ h := Nat.pow_pos (by decide)
        calc (vpn + i) / 512 ^ h
            = (512 ^ h * (vpn / 512 ^ h) + (vpn % 512 ^ h + i)) / 512 ^ h := by
              rw [← Nat.add_assoc, Nat.div_add_mod]
          _ = vpn / 512 ^ h := by
              have hin : (vpn % 512 ^ h + i) / 512 ^ h = 0 := div_eq_of_lt (by omega)
              rw [mul_add_div hpos, hin, add_zero]
      next => exact ih ..

/-! ## Sequences of operations -/

/-- No mapped page lies in what an `unmap_range_in_pgtbl` or `mprotect_in_pgtbl` steps over. -/
def Careful (t : Pgtbl) : Op → Prop
  | .unmapRange va len => Fits unmapKind (totalPageCnt len) t (va / 4096) (totalPageCnt len)
  | .mprotect va len flags =>
    Fits (mprotectKind flags) (totalPageCnt len) t (va / 4096) (totalPageCnt len)
  | _ => True

theorem refines_iff : Refines t m ↔ m = walk t := by
  constructor
  · intro h
    funext page
    have hpage := h (page * 4096)
    simp only [queryInPgtbl, Nat.mul_div_cancel _ (by decide : 0 < 4096)] at hpage
    cases hm : m page <;> cases hw : walk t page <;> simp_all
  · rintro rfl va
    rfl

theorem range_spec (r : Kind) (t : Pgtbl) (hva : va % 4096 = 0)
    (hfits : Fits r (totalPageCnt len) t (va / 4096) (totalPageCnt len)) :
    ∃ t', range r t va len = some t' ∧
      walk t' = setPages r.leaf (va / 4096) (totalPageCnt len) (walk t) :=
  ⟨_, if_pos hva, walk_rangeLoop r (le_refl _) hfits⟩

theorem op_performs (hva : op.va % 4096 = 0) (hop : Careful t op) :
    ∃ t', op.run t = some t' ∧ Performs (walk t) (walk t') op := by
  have hcongr (p q : ℕ) (h : p % 2 ^ 36 = q % 2 ^ 36) : walk t p = walk t q := walk_congr t h
  cases op with
  | mapRange va pa len flags =>
    obtain ⟨t', hrun, hwalk⟩ := range_spec (mapKind va pa flags) t hva (fits_of_alloc rfl ..)
    obtain ⟨hother, hlast⟩ := setPages_map
      (fun v => newPte (pa + (v - va / 4096) * 4096) flags) (va / 4096) (totalPageCnt len) (walk t)
    refine ⟨t', hrun, hwalk ▸ hother, fun i hi hafter => ?_⟩
    have hlast := hlast i hi hafter
    rw [Nat.add_sub_cancel_left] at hlast
    exact hwalk ▸ hlast
  | mapPage va pa flags =>
    refine ⟨_, if_pos hva, fun page => ?_⟩
    rw [walk_edit (.inl rfl)]
    exact if_congr (by simp [Named, totalPageCnt, eq_comm]) rfl rfl
  | unmapRange va len =>
    obtain ⟨t', hrun, hwalk⟩ := range_spec unmapKind t hva hop
    exact ⟨t', hrun, fun page => hwalk ▸ setPages_same (g := fun _ => none) hcongr (by simp) ..⟩
  | mprotect va len flags =>
    obtain ⟨t', hrun, hwalk⟩ := range_spec (mprotectKind flags) t hva hop
    exact ⟨t', hrun, fun page => hwalk ▸ setPages_same hcongr (fun e => by cases e <;> rfl) ..⟩
  | setWrite va len flag =>
    obtain ⟨t', hrun, hwalk⟩ := range_spec (setWriteKind flag) t hva (fits_setWrite ..)
    exact ⟨t', hrun, fun page => hwalk ▸ setPages_same hcongr (fun e => by cases e <;> rfl) ..⟩

/-- Every operation of the sequence is on a page boundary and careful. -/
def CarefulRun : Pgtbl → List Op → Prop
  | _, [] => True
  | t, op :: ops =>
    op.va % 4096 = 0 ∧ Careful t op ∧ ∀ t', op.run t = some t' → CarefulRun t' ops

/-- Along the sequence the page table answers from the map and every operation does to the map what
it is to do. -/
def Follows : PageMap → Pgtbl → List Op → Prop
  | m, t, [] => Refines t m
  | m, t, op :: ops =>
    Refines t m ∧ ∃ t' m', op.run t = some t' ∧ Performs m m' op ∧ Follows m' t' ops

theorem follows_of_refines (hm : Refines t m) (hops : CarefulRun t ops) : Follows m t ops := by
  induction ops generalizing t m with
  | nil => exact hm
  | cons op ops ih =>
    obtain ⟨hva, hop, hrest⟩ := hops
    obtain ⟨t', hrun, hperforms⟩ := op_performs hva hop
    obtain rfl := refines_iff.mp hm
    exact ⟨hm, t', _, hrun, hperforms, ih (refines_iff.mpr rfl) (hrest t' hrun)⟩

/-- A page table that starts empty is a map from pages to frames and rights, as long as no unmap or
change of rights steps over a mapped page. -/
theorem pgtbl_refines_map {ops : List Op} (hops : CarefulRun (cleared 3) ops) :
    Follows (fun _ => none) (cleared 3) ops :=
  follows_of_refines (refines_iff.mpr rfl) hops

/-- An unmap that steps over a missing table, where it names one page only. -/
theorem pgtbl_refines_map_unmap :
    Follows (fun _ => none) (cleared 3) [.mapPage 0x200000 0x5000 ⟨true, false, false⟩,
      .unmapRange 0x1ff000 0x1000, .mapRange 0x1ff000 0x7000 0x2000 ⟨false, true, false⟩] := by
  refine pgtbl_refines_map ⟨rfl, trivial, ?_⟩
  rintro _ ⟨⟩
  refine ⟨rfl, ⟨fun i hi => ?_, trivial⟩, fun _ _ => ⟨rfl, trivial, fun _ _ => trivial⟩⟩
  obtain rfl : i = 0 := lt_one_iff.mp hi
  rfl

/-- The range starts with the last page of 2 MiB that have no last-level table.  The loop goes on
by 2 MiB from there, so the second page of the range, the first of the next 2 MiB, stays mapped. -/
theorem unmap_skips_mapped_page :
    ∃ t t', mapPageInPgtbl (cleared 3) 0x200000 0x5000 ⟨true, false, false⟩ = some t ∧
      unmapRangeInPgtbl t 0x1ff000 0x2000 = some t' ∧ Named 0x1ff000 0x2000 (0x200000 / 4096) ∧
      queryInPgtbl t' 0x200000 = some (0x5000, newPte 0x5000 ⟨true, false, false⟩) :=
  ⟨_, _, rfl, rfl, ⟨1, by decide, by decide⟩, by decide⟩

end Starfish.PageTable
