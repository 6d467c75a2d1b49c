import Starfish.DsmRef.Eras

/-!
# Starfish.DsmRef.Alone

Operations that nothing interferes with: what they leave in memory.
-/

namespace Starfish.DsmRef

open Relation

namespace Shared

variable (s : Shared)

/-- The table of the machine after it has seen the word. -/
def noteEra (mid old : ℕ) : Shared :=
  if dsmRefEra old > s.era mid (dsmRefLcid old) then
    s.setEra mid (dsmRefLcid old) (dsmRefEra old)
  else s

/-- The memory before the CAS of an operation. -/
def logged (c : Call) : Shared :=
  (s.noteEra c.mid (s.refInfo c.target)).setRedo c.mid (s.era c.mid c.mid % redoCnt)
    (c.redo (s.refInfo c.target) (s.era c.mid c.mid))

/-- The memory before the era is incremented. -/
def stored (c : Call) : Shared :=
  ((s.logged c).land c (s.refInfo c.target) (s.era c.mid c.mid)).setLoc c.loc c.value

/-- The memory after an operation. -/
def called (c : Call) : Shared :=
  (s.stored c).setEra c.mid c.mid (((s.stored c).era c.mid c.mid + 1) % 2 ^ 32)

@[simp] theorem noteEra_refInfo (mid old : ℕ) : (s.noteEra mid old).refInfo = s.refInfo := by
  rw [noteEra]
  split <;> rfl

end Shared

/-- The points of an operation that look at nothing but its own log, the word of the object
and the location. -/
def Phase.plain : Phase → Bool
  | load .. | age .. | see .. | note .. | store .. => true
  | log _ _ _ _ n => n < 5
  | _ => false

section alone

variable {machines : ℕ} {s : Shared} {R : Shared × Phase → Shared × Phase → Prop}
  (hplain : ∀ s p s' p', Acts machines s p s' p' → p.plain = true → R (s, p) (s', p'))

include hplain

/-- All fields of a record, one after the other. -/
theorem alone_log : ReflTransGen R (s, .log c k old cur 0)
    (s.setRedo c.mid (cur % redoCnt) (c.redo old cur), .log c k old cur 5) := by
  have hstep (t : Shared) (n : ℕ) (hn : n < 5) : R (t, .log c k old cur n)
      (t.setRedo c.mid (cur % redoCnt)
        ((c.redo old cur).write (t.redo c.mid (cur % redoCnt)) n), .log c k old cur (n + 1)) :=
    hplain _ _ _ _ (.log hn) (by simpa [Phase.plain] using hn)
  have h1 : ReflTransGen R (s, .log c k old cur 0) (_, .log c k old cur 1) :=
    .single (hstep s 0 (by decide))
  have h2 := h1.tail (hstep _ 1 (by decide))
  have h3 := h2.tail (hstep _ 2 (by decide))
  have h4 := h3.tail (hstep _ 3 (by decide))
  have h5 := h4.tail (hstep _ 4 (by decide))
  have hmem : ∀ r, s.setRedo c.mid (cur % redoCnt) ((c.redo old cur).write ((c.redo old cur).write
      ((c.redo old cur).write ((c.redo old cur).write ((c.redo old cur).write r 0) 1) 2) 3) 4) =
      s.setRedo c.mid (cur % redoCnt) (c.redo old cur) := fun r => rfl
  rw [← hmem (s.redo c.mid (cur % redoCnt))]
  simpa [Shared.setRedo] using h5

theorem alone_logged (hcall : R (s, .idle) (s, .load c .ret)) : ReflTransGen R (s, .idle)
    (s.logged c, .log c .ret (s.refInfo c.target) (s.era c.mid c.mid) 5) := by
  have hload : ReflTransGen R (s, .idle) (s, .age c .ret (s.refInfo c.target)) :=
    .tail (.single hcall) (hplain _ _ _ _ .load rfl)
  have hage := hload.tail (hplain _ _ _ _ .age rfl)
  have hsee := hage.tail (hplain _ _ _ _ .see rfl)
  have hnote : ReflTransGen R (s, .idle) (s.noteEra c.mid (s.refInfo c.target),
      .log c .ret (s.refInfo c.target) (s.era c.mid c.mid) 0) := by
    rw [Shared.noteEra]
    split
    case isTrue hgt => exact hsee.tail (hplain _ _ _ _ (.note hgt) rfl)
    case isFalse hgt => exact hsee.tail (hplain _ _ _ _ (.noteNot hgt) rfl)
  exact hnote.trans (alone_log hplain)

theorem alone_stored (hcall : R (s, .idle) (s, .load c .ret))
    (hcas : R (s.logged c, .log c .ret (s.refInfo c.target) (s.era c.mid c.mid) 5)
      ((s.logged c).land c (s.refInfo c.target) (s.era c.mid c.mid),
        .store c .ret (s.refInfo c.target) (s.era c.mid c.mid))) :
    ReflTransGen R (s, .idle) (s.stored c, .inc c .ret (s.refInfo c.target) (s.era c.mid c.mid)) :=
  ((alone_logged hplain hcall).tail hcas).tail (hplain _ _ _ _ .store rfl)

end alone

variable {s : Shared} {machines : ℕ}

/-- The CAS of an operation that nothing interferes with succeeds. -/
theorem acts_cas :
    Acts machines (s.logged c) (.log c .ret (s.refInfo c.target) (s.era c.mid c.mid) 5)
      ((s.logged c).land c (s.refInfo c.target) (s.era c.mid c.mid))
      (.store c .ret (s.refInfo c.target) (s.era c.mid c.mid)) := by
  refine .cas ?_
  have hinfo : (s.logged c).refInfo = s.refInfo := s.noteEra_refInfo ..
  rw [hinfo]

/-- The steps of one CPU. -/
abbrev Alone (machines : ℕ) : Shared × Phase → Shared × Phase → Prop :=
  ReflTransGen fun s t => Acts machines s.1 s.2 t.1 t.2

/-- A whole operation that does not take the last reference. -/
theorem alone_call (hup : s.up c.mid = true)
    (hlast : c.link = true ∨ dsmRefCnt (s.refInfo c.target) ≠ 1) :
    Alone machines (s, .idle) (s.called c, .idle) := by
  have hstored : Alone machines (s, .idle) _ :=
    alone_stored (fun _ _ _ _ hacts _ => hacts) (.call hup) acts_cas
  have hafter : c.after .ret (s.refInfo c.target) = .idle := by
    rw [Call.after, if_neg]
    · rfl
    · rintro ⟨hlink, hone⟩
      obtain hlast | hlast := hlast
      · simp [hlink] at hlast
      · exact hlast hone
  refine hstored.tail ?_
  have hinc : Acts machines (s.stored c) (.inc c .ret (s.refInfo c.target) (s.era c.mid c.mid))
      (s.called c) (c.after .ret (s.refInfo c.target)) := .inc
  rwa [hafter] at hinc

/-- The last reference to an object without references. -/
theorem alone_call_last (hup : s.up c.mid = true)
    (hlink : c.link = false) (hone : dsmRefCnt (s.refInfo c.target) = 1)
    (hnone : s.embeddedRefCnt c.target = 0) : Alone machines (s, .idle) (s.called c, .idle) := by
  have hstored : Alone machines (s, .idle) _ :=
    alone_stored (fun _ _ _ _ hacts _ => hacts) (.call hup) acts_cas
  have hinc : Acts machines (s.stored c) (.inc c .ret (s.refInfo c.target) (s.era c.mid c.mid))
      (s.called c) (c.after .ret (s.refInfo c.target)) := .inc
  rw [Call.after, if_pos ⟨hlink, hone⟩] at hinc
  have hembedded : (s.called c).embeddedRefCnt = s.embeddedRefCnt := by
    change (s.noteEra c.mid (s.refInfo c.target)).embeddedRefCnt = s.embeddedRefCnt
    rw [Shared.noteEra]
    split <;> rfl
  have hsweep : Acts machines (s.called c) (.sweep c.mid c.target 0 .ret) (s.called c) .idle :=
    .sweepEnd (k := .ret) (by simp [hembedded, hnone])
  have hrun : Alone machines (s, .idle) (s.called c, .sweep c.mid c.target 0 .ret) :=
    hstored.tail hinc
  exact hrun.tail hsweep

/-- A recovery of machine 0 by machine 1, when they are the only ones and machine 1 has noted
the era of the record. -/
theorem alone_recover (hup : s.up 1 = true) (hdown : s.up 0 = false)
    (hunrec : s.unrecovered 0 = true) (hfind : findLatestRedo (s.redo 0) = some r)
    (hnot : ¬ (dsmRefLcid (s.refInfo r.refedOff) = 0 ∧
      dsmRefEra (s.refInfo r.refedOff) = r.curEra)) (hseen : s.era 1 0 ≥ r.curEra)
    (hlink : r.funcId = .link) :
    Alone 2 (s, .idle) ({ (s.decideRedo 0 r true).applyRedo 0 r with
      unrecovered := Function.update s.unrecovered 0 false }, .idle) := by
  have hcall : Alone 2 (s, .idle) (s, .find 1 0) := .single (.callRecover hup hdown hunrec)
  have hcheck := hcall.tail (c := (s, .check 1 0 r)) (.find hfind)
  have hscan := hcheck.tail (c := (s, .scan 1 0 r 0)) (.checkNot hnot)
  have hnext := hscan.tail (c := (s, .scan 1 0 r 1)) (.scanNext (by decide) (by simp))
  have hfound := hnext.tail (c := (s.decideRedo 0 r true, .apply 1 0 r))
    (.scan (by decide) (by decide) hseen)
  have happly := hfound.tail (c := ((s.decideRedo 0 r true).applyRedo 0 r, r.after 1 0)) .apply
  have hafter : r.after 1 0 = .clear 1 0 := by
    rw [Redo.after, if_neg]
    simp [hlink]
  rw [hafter] at happly
  exact happly.tail (c := (_, _)) .clear

theorem run_of_alone {T : Type} [DecidableEq T] {w : World T} (i : T)
    (h : Alone machines (w.mem, w.pc i) (s, p)) :
    ReflTransGen (Step machines) w (w.move i s p) :=
  Threads.run_alone_of i (fun _ _ _ _ hacts => .act hacts) h

/-! ## Two machines -/

theorem alone_join (mid : ℕ) (hmid : mid < 2) (hdown : s.up mid = false)
    (hrec : s.unrecovered mid = false) : Alone 2 (s, .idle) (s.join mid, .idle) :=
  .single (.join hmid (Nat.lt_trans hmid (by decide)) hdown hrec)

/-- Machines 0 and 1 have joined. -/
def joined : Shared := ((start (T := Bool) fun _ => 0).mem.join 0).join 1

theorem run_joined {R : Shared × Phase → Shared × Phase → Prop}
    (hjoin : ∀ (s : Shared) (mid : ℕ), mid < 2 → s.up mid = false → s.unrecovered mid = false →
      R (s, .idle) (s.join mid, .idle)) :
    ReflTransGen R ((start (T := Bool) fun _ => 0).mem, .idle) (joined, .idle) :=
  .tail (.single (hjoin _ 0 (by decide) rfl rfl)) (hjoin _ 1 (by decide) rfl rfl)

theorem alone_joined : Alone 2 ((start (T := Bool) fun _ => 0).mem, .idle) (joined, .idle) :=
  (alone_join 0 (by decide) rfl rfl).trans (alone_join 1 (by decide) rfl rfl)

/-- All CPUs are idle. -/
def resting (s : Shared) : World Bool := ⟨s, fun _ => .idle⟩

theorem run_resting {s t : Shared} (h : Alone 2 (s, .idle) (t, .idle)) :
    ReflTransGen (Step 2) (resting s) (resting t) := by
  have hrun := run_of_alone (w := resting s) false h
  rwa [show (resting s).move false t .idle = resting t from Threads.move_self ..] at hrun

/-- Machine 0 has crashed between two operations. -/
def crashed (s : Shared) : Shared := (crash (resting s) 0).mem

/-- Machine 1 has recovered machine 0 and found the record committed. -/
def recovered (s : Shared) (r : Redo) : Shared :=
  { (s.decideRedo 0 r true).applyRedo 0 r with
    unrecovered := Function.update s.unrecovered 0 false }

end Starfish.DsmRef
