import Starfish.VMSpace.Locks

/-!
# Starfish.VMSpace.Mprotect

Whether `sys_handle_mprotect` comes to an end.  Its walks go on by the size of the region they
find, so they stay at a region without addresses (`Stays`), such as a heap of no bytes.  A length
that is negative as an `s64` fails the check behind the first walk.  Nothing else keeps a call that
gets the lock from returning (`mprotect_returns_iff`).
-/

namespace Starfish.VMSpace

open Prog

variable {s t : Vmspace} {targetProt va remaining fuel : ℕ}

/-- The first walk goes on to a region without addresses, and never leaves it. -/
inductive Stays (s : Vmspace) (targetProt : ℕ) : ℕ → ℕ → Prop
  | here {va remaining vmr : ℕ} (hfind : findVmrForVa s va = some vmr)
      (hprot : validProt (s.vmr vmr).perm targetProt = true) (hsize : (s.vmr vmr).size = 0) :
      Stays s targetProt va (remaining + 1)
  | next {va remaining vmr : ℕ} (hfind : findVmrForVa s va = some vmr)
      (hprot : validProt (s.vmr vmr).perm targetProt = true)
      (hfits : (s.vmr vmr).size ≤ remaining + 1)
      (hnext : Stays s targetProt ((va + (s.vmr vmr).size) % top)
        (remaining + 1 - (s.vmr vmr).size)) : Stays s targetProt va (remaining + 1)

/-- What is found has an address that a `u64` can hold. -/
theorem lt_top_of_findVmrForVa (h : findVmrForVa s va = some vmr) : va < top := by
  have hcmp := (RBTree.mem_of_search h).2
  have hend : vmrEnd (s.vmr vmr) < top := Nat.mod_lt _ (by decide)
  unfold cmpVmrAndVa at hcmp
  split at hcmp
  · cases hcmp
  · split at hcmp
    · cases hcmp
    · omega

theorem outcome_mprotectCheck (n : ℕ) : (mprotectCheck targetProt (fuel + 1) va (n + 1)).outcome s =
      match findVmrForVa s va with
      | none => .ok (some (-eacces)) s
      | some vmr =>
        if validProt (s.vmr vmr).perm targetProt = false then .ok (some (-eacces)) s
        else if n + 1 < (s.vmr vmr).size then .ok (some 0) s
        else (mprotectCheck targetProt fuel ((va + (s.vmr vmr).size) % top)
          (n + 1 - (s.vmr vmr).size)).outcome s := by
  simp only [mprotectCheck, outcome_read_bind]
  cases findVmrForVa s va with
  | none => rfl
  | some vmr =>
    dsimp only
    rw [outcome_read_bind]
    split
    · rfl
    · split <;> rfl

/-- The region that a walk finds on its way, and where it goes from there. -/
theorem Stays.step (h : Stays s targetProt va remaining) :
    ∃ n vmr, remaining = n + 1 ∧ findVmrForVa s va = some vmr ∧
      validProt (s.vmr vmr).perm targetProt = true ∧ (s.vmr vmr).size ≤ n + 1 ∧
      Stays s targetProt ((va + (s.vmr vmr).size) % top) (n + 1 - (s.vmr vmr).size) := by
  cases h with
  | here hfind hprot hsize =>
    refine ⟨_, _, rfl, hfind, hprot, by omega, ?_⟩
    rw [hsize, Nat.add_zero, Nat.mod_eq_of_lt (lt_top_of_findVmrForVa hfind)]
    exact .here hfind hprot hsize
  | next hfind hprot hfits hnext => exact ⟨_, _, rfl, hfind, hprot, hfits, hnext⟩

theorem Stays.not_returns (h : Stays s targetProt va remaining) (fuel : ℕ) (r : Option ℤ) :
    (mprotectCheck targetProt fuel va remaining).outcome s ≠ .ok r t := by
  induction fuel generalizing va remaining with
  | zero =>
    obtain ⟨n, vmr, rfl, -⟩ := h.step
    intro hout
    cases hout
  | succ fuel ih =>
    obtain ⟨n, vmr, rfl, hfind, hprot, hfits, hnext⟩ := h.step
    simp only [outcome_mprotectCheck, hfind, hprot]
    rw [if_neg (by simp), if_neg (by omega)]
    exact ih hnext

/-- A walk that does not stay anywhere ends, since every region takes it further. -/
theorem mprotectCheck_returns (h : ¬ Stays s targetProt va remaining) (hfuel : remaining ≤ fuel) :
    ∃ r, (mprotectCheck targetProt fuel va remaining).outcome s = .ok r s := by
  induction fuel generalizing va remaining with
  | zero =>
    obtain rfl : remaining = 0 := by omega
    exact ⟨none, rfl⟩
  | succ fuel ih =>
    cases remaining with
    | zero => exact ⟨none, rfl⟩
    | succ n =>
      rw [outcome_mprotectCheck]
      split
      · exact ⟨_, rfl⟩
      · next vmr hfind =>
        split
        · exact ⟨_, rfl⟩
        · next hprot =>
          rw [Bool.not_eq_false] at hprot
          split
          · exact ⟨_, rfl⟩
          · have hpos : (s.vmr vmr).size ≠ 0 := fun hsize => h (.here hfind hprot hsize)
            exact ih (fun hnext => h (.next hfind hprot (by omega) hnext)) (by omega)

/-- The second walk finds the regions of the first one: it changes their rights only. -/
theorem mprotectSet_returns
    (h : (mprotectCheck targetProt fuel va remaining).outcome s = .ok none s')
    (htree : t.vmrTree = s.vmrTree) (hstart : ∀ x, (t.vmr x).start = (s.vmr x).start)
    (hsize : ∀ x, (t.vmr x).size = (s.vmr x).size) :
    ∃ u, (mprotectSet targetProt fuel va remaining).outcome t = .ok () u := by
  induction fuel generalizing va remaining t with
  | zero =>
    cases remaining with
    | zero => exact ⟨t, rfl⟩
    | succ n => cases h
  | succ fuel ih =>
    cases remaining with
    | zero => exact ⟨t, rfl⟩
    | succ n =>
      have hsame : findVmrForVa t va = findVmrForVa s va := by
        unfold findVmrForVa cmpVmrAndVa vmrEnd
        simp only [htree, hstart, hsize]
      rw [outcome_mprotectCheck] at h
      simp only [mprotectSet, outcome_read_bind, hsame]
      cases hfind : findVmrForVa s va with
      | none =>
        rw [hfind] at h
        cases h
      | some vmr =>
        rw [hfind] at h
        dsimp only at h ⊢
        rw [outcome_store_bind, outcome_read_bind]
        split at h
        · cases h
        · split at h
          · cases h
          · simp only [Vmspace.setVmr_vmr, Function.update_self, hsize]
            refine ih h htree (fun x => ?_) fun x => ?_
            · by_cases hx : x = vmr <;> simp [hx, hstart]
            · by_cases hx : x = vmr <;> simp [hx, hsize]

/-- A call returns iff it has nothing to do, or gets the lock and its length is not negative as an
`s64` and its walks do not stay at a region without addresses. -/
theorem mprotect_returns_iff (s : Vmspace) (addr length prot : ℕ) :
    (∃ r t, (sysHandleMprotect addr length prot).outcome s = .ok r t) ↔
      (addr % pageSize ≠ 0 ∨ length % pageSize ≠ 0) ∨ length = 0 ∨
      s.locked = false ∧ length < 2 ^ 63 ∧
        ¬ Stays (s.setLocked true) (getVmrProt prot) addr length := by
  have hwp (c : Prog Vmspace ℤ) :
      (∃ r t, c.outcome s = .ok r t) ↔ wp c (fun _ _ => True) (fun _ => True) s :=
    ⟨fun ⟨_, _, hout⟩ => wp_of_outcome hout trivial,
      fun h => (wp_outcome h).imp fun _ => .imp fun _ => And.left⟩
  unfold sysHandleMprotect
  by_cases hargs : addr % pageSize ≠ 0 ∨ length % pageSize ≠ 0
  · rw [if_pos hargs]
    exact iff_of_true ⟨_, _, rfl⟩ (.inl hargs)
  rw [if_neg hargs]
  by_cases hzero : length = 0
  · rw [if_pos hzero]
    exact iff_of_true ⟨_, _, rfl⟩ (.inr (.inl hzero))
  rw [if_neg hzero, hwp, writeLock, wp_bind, wp_await, wp_bind, wp_bugOn, wp_bind]
  simp only [hargs, hzero, false_or, Bool.not_eq_true', Nat.not_le, true_and]
  refine and_congr_right fun _ => and_congr_right fun _ => ⟨fun h hstays => ?_, fun hstays => ?_⟩
  · obtain ⟨r, t, hout, -⟩ := wp_outcome h
    exact hstays.not_returns length r hout
  · obtain ⟨r, hcheck⟩ := mprotectCheck_returns hstays (Nat.le_refl length)
    refine wp_of_outcome hcheck ?_
    cases r with
    | some r => exact wp_of_outcome rfl trivial
    | none =>
      obtain ⟨u, hset⟩ := mprotectSet_returns hcheck rfl (fun _ => rfl) fun _ => rfl
      exact wp_bind.mpr (wp_of_outcome hset (wp_of_outcome rfl trivial))

/-- A heap of no bytes, as `brk(0)` and `brk` of the start of the heap leave it. -/
def emptyHeap : Vmspace := after (.brk 0x600000 0 0 0 0) (after (.brk 0 0x600000 0 7 2) bootSpace)

/-- The walk never ends at a heap of no bytes, however long it runs, and the check behind the walk
fails for the length `2 ^ 63`. -/
theorem mprotect_stays_at_empty_heap :
    Relation.ReflTransGen AnyStep bootSpace emptyHeap ∧
    (∀ fuel r t, (mprotectCheck vmrRead fuel 0x600000 pageSize).outcome emptyHeap ≠ .ok r t) ∧
    ((sysHandleMprotect 0 (2 ^ 63) 0).outcome bootSpace).result? = none := by
  refine ⟨.tail (.single ⟨.brk 0 0x600000 0 7 2, ?_, step_after ?_⟩)
    ⟨.brk 0x600000 0 0 0 0, ?_, step_after ?_⟩, fun fuel r t => Stays.not_returns ?_ fuel r, ?_⟩
  · simp only [Op.Allowed, FreshVmr]
    decide
  · decide +kernel
  · simp only [Op.Allowed, FreshVmr]
    decide +kernel
  · decide +kernel
  · have hfind : findVmrForVa emptyHeap 0x600000 = some 2 := by decide +kernel
    exact .here hfind (by decide +kernel) (by decide +kernel)
  · decide +kernel

end Starfish.VMSpace
