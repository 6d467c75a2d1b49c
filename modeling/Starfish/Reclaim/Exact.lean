import Mathlib.Data.Fintype.BigOperators
import Starfish.Reclaim.Rounds

/-!
# Starfish.Reclaim.Exact

The accounting of the resident set, over whole runs.

A thread that calls `dsm_cxl_free_page` or `dsm_cxl_track_pages` on a page that it finds
untracked may come too late: a run has taken the page off the FIFO and is about to give it back,
but it has let go of `fifo_guard`.  `Careful` is a step that does not.  In every run of careful
steps no `BUG_ON` fires, and whenever no page is on its way from the FIFO to the buddy system
every counter is what it counts.
-/

namespace Starfish.Reclaim

open Phase Threads Finset List Relation

variable {P T M K : Type} [Fintype P] [DecidableEq P] [DecidableEq T] [DecidableEq K]
variable {pmoType : M → K} {i : T} {s s' : Shared P T M K} {q : Phase P M} {t t' : Thread P M}

attribute [local simp] List.count_cons Shared.total

/-! ## Careful steps -/

/-- What a call finds untracked is in use, and nobody is giving it back or taking it. -/
def Careful (s : Shared P T M K) (t : Thread P M) : Prop :=
  match t.phase with
  | .free p _ => FreeCareful s p
  | .validate [] ops => TrackCareful s ops
  | _ => True

/-- The thread is in a reclaim run. -/
@[simp] def Phase.running : Phase P M → Bool
  | .free _ (some _) => true
  | .uncount _ (some _) => true
  | .run _ => true
  | .defer _ _ => true
  | .finishing _ _ _ => true
  | .giveBack _ _ _ => true
  | .settle _ => true
  | .releaseOrigin _ _ => true
  | .asked _ _ => true
  | .finalize _ _ => true
  | .deferOrigin _ _ => true
  | _ => false

/-- What a thread does that is not in a run: it stays outside and keeps what the run has in
hand, or it begins a run when there is none. -/
def Outside (pmoType : M → K) (i : T) (s : Shared P T M K) (t : Thread P M)
    (s' : Shared P T M K) (t' : Thread P M) (q : Phase P M) : Prop :=
  (t'.phase.running = false ∧ Fits pmoType i s t s' q t') ∨
  (t'.phase.running = true ∧ s.reclaiming = none ∧ s'.reclaiming = some i ∧
    ((∀ k, q.hold k = []) → (∀ x, q.honours x = false) →
      Fits pmoType i s t { s' with reclaiming := none } t'.phase t'))

omit [Fintype P] [DecidableEq P] [DecidableEq T] [DecidableEq K] in
/-- A run begins only when there is none. -/
theorem Shared.reclaimBegin_cases (s : Shared P T M K) (i : T) (scanDue : Bool) :
    (∃ n, s.reclaimBegin i scanDue = ({ s with pendingReclaimPages := n }, (.idle : Phase P M))) ∨
    (s.reclaiming = none ∧ ∃ n r, (r = .select ∨ ∃ due, r = .mark due) ∧ s.reclaimBegin i scanDue =
        ({ s with pendingReclaimPages := n, reclaiming := some i }, (.run r : Phase P M))) := by
  unfold reclaimBegin
  extract_lets demand s' due
  have hs' : ∃ n, s' = { s with pendingReclaimPages := n } := by
    by_cases hd : demand
    · exact ⟨s.pendingReclaimPages, if_pos hd⟩
    · exact ⟨0, if_neg hd⟩
  obtain ⟨n, hs'⟩ := hs'
  by_cases hgo : (s.freePendingPages ≠ 0 ∨ due) ∧ s.reclaiming = none ∧ s.snapshotting = 0
  · rw [if_pos hgo, hs']
    refine .inr ⟨hgo.2.1, n, _, ?_, rfl⟩
    by_cases hpending : s.freePendingPages ≠ 0
    · exact .inr ⟨due, if_pos hpending⟩
    · exact .inl (if_neg hpending)
  · rw [if_neg hgo, hs']
    exact .inl ⟨n, rfl⟩

theorem Acts.outside (ha : Acts pmoType i s t r)
    (hrun : t.phase.running = false) (hcare : Careful s t) (hcard : Fintype.card P ≤ 2 ^ 52)
    (hs : Sound s q) (hc : Covers pmoType s t)
    (hres : s.residentPages ≤ s.total pmoType .resident + 1) (hfit : t.Fit i s) :
    ∃ s' t', r = some (s', t') ∧ Outside pmoType i s t s' t' q := by
  have hstay {s' : Shared P T M K} {t' : Thread P M} (hr : t'.phase.running = false)
      (hf : Fits pmoType i s t s' q t') :
      ∃ s1 t1, some (s', t') = some (s1, t1) ∧ Outside pmoType i s t s1 t1 q :=
    ⟨_, _, rfl, .inl ⟨hr, hf⟩⟩
  cases ha with
  | reserve o hroom => exact hstay rfl (.reserve hs o)
  | get p hfree => exact hstay rfl (.get hs hfree)
  | noPage =>
    obtain ⟨s', heq, hf⟩ := Fits.noPage hs hc
    rw [heq]
    exact hstay rfl hf
  | commit =>
    obtain ⟨s', heq, hf⟩ := Fits.commit hs hc hfit
    rw [heq]
    exact hstay rfl hf
  | reserveResident n hn hroom => exact hstay rfl (.reserveResident hs n)
  | cancelResident n hn =>
    obtain ⟨s', heq, hf⟩ := Fits.cancelResident hs hn hc
    rw [heq]
    exact hstay rfl hf
  | track ops hops =>
    exact hstay rfl (.look hs (by simpa [Thread.Fit] using hops) fun c => by cases c <;> rfl)
  | valid halloc horder =>
    refine hstay rfl (.look hs ?_ fun c => by cases c <;> rfl)
    simp only [Thread.Fit, length_cons, length_append, length_nil] at hfit ⊢
    omega
  | invalid =>
    refine hstay rfl (.look hs ?_ fun c => by cases c <;> rfl)
    simp only [Thread.Fit, length_cons] at hfit ⊢
    omega
  | publish =>
    obtain ⟨s', n, heq, hf⟩ := Fits.publish hs hcare hcard hc hres hfit
    rw [heq]
    exact hstay rfl hf
  | call p => exact hstay rfl (.look hs trivial fun c => by cases c <;> rfl)
  | @free h p r =>
    cases r with
    | some r => simp at hrun
    | none =>
      obtain ⟨s', n, heq, hf⟩ := Fits.freePage (i := i) hs hcare hc
        (fun n k => rfl : ∀ (n : Option ℕ) k, ((fun _ => q) n).hold k = q.hold k)
        (fun _ _ _ hx => hx)
      rw [heq]
      refine hstay ?_ hf
      cases n <;> rfl
  | @uncount h n r =>
    cases r with
    | some r => simp at hrun
    | none =>
      obtain ⟨s', heq, hf⟩ := Fits.uncount (i := i) hs hc (fun _ => rfl) (fun _ hx => hx)
      rw [heq]
      exact hstay rfl hf
  | serve | notReleasing =>
    exact hstay rfl (.look hs trivial fun c => by cases c <;> rfl)
  | releasing horigin =>
    exact hstay rfl (.setOrigin hs _ (by simp [horigin]) trivial fun c => by cases c <;> rfl)
  | released =>
    exact hstay rfl (.setOrigin hs _ (fun _ => rfl) trivial fun c => by cases c <;> rfl)
  | snapshotBegin hfree => exact hstay rfl (.snapshotBegin hs)
  | snapshotEnd =>
    obtain ⟨s', heq, hf⟩ := Fits.snapshotEnd hs hc
    rw [heq]
    exact hstay rfl hf
  | begin scanDue =>
    obtain ⟨n, heq⟩ | ⟨hnone, n, r, hr, heq⟩ := s.reclaimBegin_cases (M := M) i scanDue
    · rw [heq]
      refine hstay rfl (.same hs rfl rfl (fun _ _ => rfl) (fun _ hx => hx)
        (fun c => ?_) trivial rfl)
      cases c <;> rfl
    · rw [heq]
      refine ⟨_, _, rfl, .inr ⟨rfl, hnone, rfl, fun hq hnext => ?_⟩⟩
      have hhold : ∀ k, r.hold k = [] := by
        rcases hr with rfl | ⟨due, rfl⟩ <;> intro k <;> cases k <;> rfl
      exact .reclaimBegin hs hq hnext r hhold n hnone
  | _ => simp at hrun

theorem Acts.inside (ha : Acts pmoType i s t r)
    (hrun : t.phase.running = true) (hcare : Careful s t) (hs : Sound s t.phase)
    (hc : Covers pmoType s t) (hfit : t.Fit i s) :
    ∃ s' t', r = some (s', t') ∧ ((t'.phase.running = true ∧ Fits pmoType i s t s' t'.phase t') ∨
        (s' = { s with reclaiming := none } ∧ t' = ⟨t.held, .idle⟩ ∧
          Fits pmoType i s t s .idle t')) := by
  have hstay {s' : Shared P T M K} {t' : Thread P M} (hr : t'.phase.running = true)
      (hf : Fits pmoType i s t s' t'.phase t') :
      ∃ s1 t1, some (s', t') = some (s1, t1) ∧
        ((t1.phase.running = true ∧ Fits pmoType i s t s1 t1.phase t1) ∨
          (s1 = { s with reclaiming := none } ∧ t1 = ⟨t.held, .idle⟩ ∧
            Fits pmoType i s t s .idle t1)) :=
    ⟨_, _, rfl, .inl ⟨hr, hf⟩⟩
  cases ha with
  | @free h p r =>
    cases r with
    | none => simp at hrun
    | some r =>
      obtain ⟨s', n, heq, hf⟩ := Fits.freePage (i := i) hs hcare hc
        (fun n k => by cases n <;> rfl : ∀ (n : Option ℕ) k, hold
          (n.elim (.after (some r)) fun n => .uncount n (some r)) k = r.hold k)
        (fun _ x hx hnext => by simp [Ne.symm hx] at hnext)
      rw [heq]
      cases n with
      | none => exact hstay rfl hf
      | some n => exact hstay rfl hf
  | @uncount h n r =>
    cases r with
    | none => simp at hrun
    | some r =>
      obtain ⟨s', heq, hf⟩ := Fits.uncount (i := i) hs hc
        (fun _ => rfl : ∀ k, (run r : Phase P M).hold k = _) (fun _ hx => by simp at hx)
      rw [heq]
      exact hstay rfl hf
  | done =>
    refine ⟨_, _, rfl, .inr ⟨rfl, rfl, .goOn hs (fun k x => ?_) (fun _ => rfl)
      (fun c => by cases c <;> rfl) trivial⟩⟩
    cases k <;> rfl
  | mark limit => exact hstay rfl (.mark hs limit)
  | retried hp horigin => exact hstay rfl (.retried hs hp horigin)
  | notRetried hp horigin => exact hstay rfl (.notRetried hs hp)
  | @retryOver h due freed =>
    refine hstay rfl (.goOn hs (fun k x => ?_) (fun _ => rfl) (fun c => by cases c <;> rfl) trivial)
    cases due <;> cases freed <;> cases k <;> rfl
  | select ss hnodup hsel => exact hstay rfl (.select hs hnodup hsel)
  | @policy h ss ds c m eligible perm hmem hm =>
    have hstate := (hs c).scanned (hs.scanning hmem)
    obtain ⟨s', heq, hf⟩ := Fits.policy (i := i) (.run (.scan ss ds)) hs eligible perm hm (.inl hstate) hc
      (fun _ _ => rfl) (fun _ hx => hx) (fun c => rfl) (fun _ => trivial)
    rw [heq]
    exact hstay rfl hf
  | @release h ss ds c hmem =>
    refine hstay ?_ (.release hs hmem)
    cases (s.page c).scanning && (s.page c).freeRequested <;> rfl
  | claim hmem hscan hstate => exact hstay rfl (.claim hs hmem)
  | prepare => exact hstay rfl (.prepare hs)
  | scanned | notPrepared | notFlushed | copy | notCopied | restored | finish | finished =>
    refine hstay rfl (.goOn hs (fun k x => ?_) (fun _ => rfl) (fun c => by cases c <;> rfl) trivial)
    cases k <;> simp
  | @notAllowed h c todo ready m hm =>
    have hstate := hs.demoting (p := c) (by simp)
    obtain ⟨s', heq, hf⟩ := Fits.policy (i := i) (h := h) (.defer c (.prepare todo ready)) hs
      false 0 hm (.inr hstate) hc (fun k x => by cases k <;> simp)
      (fun _ hx => by simp at hx) (fun c => by cases c <;> rfl) (fun _ => trivial)
    rw [heq]
    exact hstay rfl hf
  | @defer h c r =>
    refine hstay ?_ (.defer hs)
    cases (s.page c).freeRequested <;> rfl
  | flush => exact hstay rfl (.flush hs)
  | @restore h c cs =>
    refine hstay ?_ (.restore hs)
    cases (s.page c).freeRequested <;> rfl
  | @finishLocked h c requested cs =>
    cases requested with
    | true =>
      obtain ⟨s', heq, hf⟩ := Fits.finishRequested (i := i) hs hc
      rw [heq]
      exact hstay rfl hf
    | false =>
      obtain ⟨s', heq, hf⟩ := Fits.finishNotRequested (i := i) (s.page c).sequence hs hc
      rw [heq]
      exact hstay rfl hf
  | giveBack =>
    obtain ⟨s', heq, hf⟩ := Fits.giveBack pmoType (i := i) hs
    rw [heq]
    exact hstay rfl hf
  | settle =>
    obtain ⟨s', heq, hf⟩ := Fits.settle (i := i) hs hc
    rw [heq]
    exact hstay rfl hf
  | releaseOrigin =>
    obtain ⟨heq, hf⟩ := Fits.releaseOrigin pmoType (i := i) hs
    rw [heq]
    exact hstay rfl hf
  | answered horigin =>
    exact hstay rfl (.goOn hs (fun _ _ => rfl) (fun _ => rfl) (fun c => by cases c <;> rfl) horigin)
  | notAnswered horigin =>
    exact hstay rfl (.goOn hs (fun _ _ => rfl) (fun _ => rfl) (fun c => by cases c <;> rfl) trivial)
  | @finalize h p r =>
    obtain ⟨heq, hf⟩ := Fits.finalize pmoType (i := i) (s.page p).sequence hs hfit
    rw [heq]
    exact hstay rfl hf
  | deferOrigin => exact hstay rfl (.deferOrigin hs)
  | _ => simp at hrun

omit [Fintype P] [DecidableEq P] in
theorem Phase.after_ne_bug (r : Option (Rest P)) : (Phase.after r : Phase P M) ≠ .bug := by
  cases r <;> simp [after]

omit [Fintype P] in
theorem Acts.phase_ne_bug (ha : Acts pmoType i s t (some (s', t'))) : t'.phase ≠ .bug := by
  have hall : ∀ r, Acts pmoType i s t r → ∀ x, r = some x → x.2.phase ≠ .bug := by
    intro r ha x hx
    cases ha <;> grind [Option.map_eq_some_iff, after_ne_bug, freeIf, Shared.reclaimBegin]
  exact hall _ ha _ rfl

omit [Fintype P] [DecidableEq P] in
theorem Phase.unsettled_eq_zero (h : q.running = false) : q.unsettled = 0 := by
  cases q <;> simp_all

/-! ## Whole runs -/

/-- Where the run is, if there is one. -/
def World.lead (w : World P T M K) : Phase P M :=
  match w.mem.reclaiming with
  | none => .idle
  | some i => (w.pc i).phase

open World

section runs

omit [DecidableEq T]
variable [Fintype T]

/-- The pages stand as they should, and every counter is what the pages weigh in it and the
threads owe to it. -/
structure Inv (pmoType : M → K) (w : World P T M K) : Prop where
  sound : Sound w.mem (World.lead w)
  counted : ∀ c, w.mem.value c = w.mem.total pmoType c + ∑ i, (w.pc i).due c
  fit : ∀ i, (w.pc i).Fit i w.mem
  runner : ∀ i, (w.pc i).phase.running = true ↔ w.mem.reclaiming = some i
  noBug : ∀ i, (w.pc i).phase ≠ .bug

namespace Inv

variable {w w' : World P T M K}

theorem start (totalPages limitPages : ℕ) :
    Inv pmoType (Reclaim.start P T M K totalPages limitPages) where
  sound _ := .fresh
  counted c := by cases c <;> simp [Reclaim.start, Page.fresh]
  fit _ := trivial
  runner _ := by simp [Reclaim.start]
  noBug _ := by simp [Reclaim.start]

theorem covers (hi : Inv pmoType w) (i : T) : Covers pmoType w.mem (w.pc i) := by
  intro c
  rw [hi.counted c]
  have hle : (w.pc i).due c ≤ ∑ j, (w.pc j).due c :=
    single_le_sum (f := fun j => (w.pc j).due c) (fun _ _ => Nat.zero_le _)
      (mem_univ i)
  omega

/-- Only the run may have a page that is off the FIFO and still counted. -/
theorem residentPages_eq (hi : Inv pmoType w) :
    w.mem.residentPages = w.mem.total pmoType .resident + (World.lead w).unsettled := by
  have hsum : ∑ i, (w.pc i).phase.unsettled = (lead w).unsettled := by
    cases hr : w.mem.reclaiming with
    | none =>
      rw [lead, hr]
      refine sum_eq_zero fun i _ => unsettled_eq_zero ?_
      simpa [hr] using hi.runner i
    | some j =>
      rw [lead, hr]
      refine sum_eq_single_of_mem j (mem_univ j) fun i _ hij => ?_
      refine unsettled_eq_zero ?_
      simpa [hr, Ne.symm hij] using hi.runner i
  have hcount := hi.counted .resident
  simp only [Shared.value, Thread.due] at hcount
  rw [hcount, hsum]

variable [DecidableEq T]

section

variable (hi : Inv pmoType w)
include hi

/-- Every thread finds what it relies on after a step of thread `i`. -/
theorem fit_move (hf : Fits pmoType i w.mem (w.pc i) s' q' t') (j : T) :
    ((w.move i s' t').pc j).Fit j s' := by
  by_cases hj : j = i
  · subst hj
    rw [move_pc_self]
    exact hf.fit
  · rw [move_pc_of_ne w hj]
    have hfit := hi.fit j
    unfold Thread.Fit at hfit ⊢
    cases hph : (w.pc j).phase with
    | got p o =>
      rw [hph] at hfit
      obtain ⟨hhand, horder⟩ := hf.others p j hj hfit.1
      exact ⟨hhand, horder.trans hfit.2⟩
    | validate todo ops =>
      rw [hph] at hfit
      exact hfit
    | finalize p r =>
      rw [hph] at hfit
      -- thread `j` is the run, and has the page among those that it frees
      have hrun : w.mem.reclaiming = some j := by
        rw [← hi.runner j, hph]
        rfl
      have hs := hi.sound
      rw [lead, hrun] at hs
      simp only [hph] at hs
      have hstate := hs.freeing (p := p) (by simp [withPage])
      exact hf.released p (by simp [hstate]) hfit
    | _ => trivial

theorem counted_move (hb : Balances pmoType w.mem (w.pc i) s' t')
    (c : Counter K) : s'.value c = s'.total pmoType c + ∑ j, ((w.move i s' t').pc j).due c := by
  have hsum := sum_add_of_eq_off (f := fun j => (w.pc j).due c)
    (g := fun j => ((w.move i s' t').pc j).due c) i
    fun j hj => by simp only [move_pc_of_ne w hj]
  simp only [move_pc_self] at hsum
  have hbal := hb c
  have hcount := hi.counted c
  omega

theorem of_fits (hf : Fits pmoType i w.mem (w.pc i) s' q' t')
    (hbug : t'.phase ≠ .bug) (o : Option T)
    (hlead : World.lead (w.move i { s' with reclaiming := o } t') = q')
    (hrunner : ∀ j, ((w.move i s' t').pc j).phase.running = true ↔ o = some j) :
    Inv pmoType (w.move i { s' with reclaiming := o } t') where
  sound := by
    rw [hlead]
    exact hf.sound
  counted c := by
    rw [move_mem]
    have hcount := hi.counted_move hf.balances c
    cases c <;> exact hcount
  fit j := by
    have hfit := hi.fit_move hf j
    exact hfit
  runner := hrunner
  noBug j := by
    by_cases hj : j = i
    · subst hj
      rwa [move_pc_self]
    · rw [move_pc_of_ne w hj]
      exact hi.noBug j

theorem act_outside (hrun : (w.pc i).phase.running = false)
    (h : Outside pmoType i w.mem (w.pc i) s' t' (World.lead w)) (hbug : t'.phase ≠ .bug) :
    Inv pmoType (w.move i s' t') := by
  have hne : w.mem.reclaiming ≠ some i := by
    rw [ne_eq, ← hi.runner i, hrun]
    simp
  rcases h with ⟨hrun', hf⟩ | ⟨hrun', hnone, hsome, hf⟩
  · refine hi.of_fits hf hbug s'.reclaiming ?_ fun j => ?_
    · rw [lead, move_mem, hf.token, lead]
      cases hr : w.mem.reclaiming with
      | none => rfl
      | some j =>
        have hj : j ≠ i := fun hji => hne (hji ▸ hr)
        simp only [move_pc_of_ne w hj]
    · rw [hf.token, ← hi.runner j]
      by_cases hj : j = i
      · rw [hj, move_pc_self, hrun', hrun]
      · rw [move_pc_of_ne w hj]
  · have hlead : lead w = .idle := by rw [lead, hnone]
    rw [hlead] at hf
    have hinv := hi.of_fits (hf (fun _ => rfl) (fun _ => rfl)) hbug (some i) (by simp [lead])
      fun j => by
        by_cases hj : j = i
        · rw [hj, move_pc_self, hrun']
          simp
        · rw [move_pc_of_ne w hj, hi.runner j, hnone]
          simp [Ne.symm hj]
    rw [← hsome] at hinv
    exact hinv

theorem act_inside (hrun : (w.pc i).phase.running = true)
    (h : (t'.phase.running = true ∧ Fits pmoType i w.mem (w.pc i) s' t'.phase t') ∨
      (s' = { w.mem with reclaiming := none } ∧ t' = ⟨(w.pc i).held, .idle⟩ ∧
        Fits pmoType i w.mem (w.pc i) w.mem .idle t')) (hbug : t'.phase ≠ .bug) :
    Inv pmoType (w.move i s' t') := by
  have hsome : w.mem.reclaiming = some i := (hi.runner i).mp hrun
  rcases h with ⟨hrun', hf⟩ | ⟨rfl, rfl, hf⟩
  · refine hi.of_fits hf hbug s'.reclaiming ?_ fun j => ?_
    · simp [lead, hf.token, hsome]
    · rw [hf.token, ← hi.runner j]
      by_cases hj : j = i
      · rw [hj, move_pc_self, hrun', hrun]
      · rw [move_pc_of_ne w hj]
  · refine hi.of_fits hf hbug none rfl fun j => ?_
    by_cases hj : j = i
    · rw [hj, move_pc_self]
      simp
    · rw [move_pc_of_ne w hj, hi.runner j, hsome]
      simp [Ne.symm hj]

end

section

variable (hcard : Fintype.card P ≤ 2 ^ 52) (hi : Inv pmoType w)
include hcard hi

/-- What a careful step of a thread does, a `BUG_ON` included. -/
theorem act {r} (ha : Acts pmoType i w.mem (w.pc i) r) (hC : Careful w.mem (w.pc i)) :
    ∃ s' t', r = some (s', t') ∧ Inv pmoType (w.move i s' t') := by
  cases hrun : (w.pc i).phase.running with
  | false =>
    have hres : w.mem.residentPages ≤ w.mem.total pmoType .resident + 1 := by
      rw [hi.residentPages_eq]
      have hle : (lead w).unsettled ≤ 1 := by
        cases lead w <;> simp
      omega
    obtain ⟨s', t', rfl, hout⟩ := ha.outside hrun hC hcard hi.sound (hi.covers i) hres (hi.fit i)
    exact ⟨s', t', rfl, hi.act_outside hrun hout ha.phase_ne_bug⟩
  | true =>
    have hlead : lead w = (w.pc i).phase := by
      rw [lead, (hi.runner i).mp hrun]
    have hs := hi.sound
    rw [hlead] at hs
    obtain ⟨s', t', rfl, hin⟩ := ha.inside hrun hC hs (hi.covers i) (hi.fit i)
    exact ⟨s', t', rfl, hi.act_inside hrun hin ha.phase_ne_bug⟩

theorem step (h : Step pmoType Careful w w') : Inv pmoType w' := by
  cases h with
  | act hC ha =>
    obtain ⟨s', t', heq, hi'⟩ := hi.act hcard ha hC
    obtain ⟨rfl, rfl⟩ := Prod.mk.inj (Option.some.inj heq)
    exact hi'
  | bug hC ha =>
    obtain ⟨s', t', heq, -⟩ := hi.act hcard ha hC
    contradiction

theorem run (h : ReflTransGen (Step pmoType Careful) w w') : Inv pmoType w' := by
  induction h with
  | refl => exact hi
  | tail _ hstep ih => exact ih.step hcard hstep

end

end Inv

/-! ## The accounting -/

/-- The FIFO and the counters are what the pages and the threads say. -/
structure Accounted (pmoType : M → K) (w : World P T M K) : Prop where
  nodup : w.mem.fifo.Nodup
  fifo : ∀ p, p ∈ w.mem.fifo ↔ (w.mem.page p).state ≠ .none
  /-- Unless a page is on its way from the FIFO to the buddy system. -/
  resident : (∀ i, (w.pc i).phase.unsettled = 0) → w.mem.residentPages = w.mem.fifo.length
  freePending : w.mem.freePendingPages =
    w.mem.fifo.countP fun p => decide ((w.mem.page p).state = .freePending)
  eligibleByPmoType : ∀ k, w.mem.eligibleByPmoType k = w.mem.fifo.countP fun p =>
    decide ((w.mem.page p).policyEligible = true ∧ (w.mem.page p).pmo.map pmoType = some k)
  eligibleByPerm : ∀ x, w.mem.eligibleByPerm x = w.mem.fifo.countP fun p =>
    decide ((w.mem.page p).policyEligible = true ∧ (w.mem.page p).policyPerm = x)
  residentReserved : w.mem.residentReservedPages = ∑ i, (w.pc i).held

namespace Inv

variable {w : World P T M K}

section

variable (hi : Inv pmoType w)
include hi

theorem nodup_fifo : w.mem.fifo.Nodup := by
  rw [nodup_iff_count_le_one]
  intro p
  rw [(hi.sound p).listed]
  by_cases hp : (w.mem.page p).state = .none <;> simp [hp]

theorem mem_fifo (p : P) : p ∈ w.mem.fifo ↔ (w.mem.page p).state ≠ .none := by
  rw [← count_pos_iff, (hi.sound p).listed]
  by_cases hp : (w.mem.page p).state = .none <;> simp [hp]

/-- What weighs one for the pages of a kind counts them. -/
theorem total_eq_countP {C : P → Prop} [DecidablePred C]
    (hw : ∀ p, (w.mem.page p).weight pmoType c = if C p then 1 else 0)
    (hC : ∀ p, C p → (w.mem.page p).state ≠ .none) :
    w.mem.total pmoType c = w.mem.fifo.countP fun p => decide (C p) := by
  rw [Shared.total, sum_congr rfl fun p _ => hw p]
  exact sum_ite_eq_countP hi.nodup_fifo fun p hp => (hi.mem_fifo p).mpr (hC p hp)

theorem accounted : Accounted pmoType w := by
  have heligible (p : P) (hp : (w.mem.page p).policyEligible = true) :
      (w.mem.page p).state ≠ .none := by
    rcases (hi.sound p).eligible hp with hs | hs <;> simp [hs]
  have hcount (c : Counter K) (hdue : ∀ t : Thread P M, t.due c = 0) :
      w.mem.value c = w.mem.total pmoType c := by
    rw [hi.counted c, sum_eq_zero fun i _ => hdue _, add_zero]
  refine ⟨hi.nodup_fifo, hi.mem_fifo, fun hsettled => ?_, ?_, fun k => ?_, fun x => ?_, ?_⟩
  · have hlead : (lead w).unsettled = 0 := by
      unfold lead
      cases w.mem.reclaiming with
      | none => rfl
      | some i => exact hsettled i
    rw [hi.residentPages_eq, hlead, add_zero,
      hi.total_eq_countP (C := fun p => (w.mem.page p).state ≠ .none) (fun p => by simp)
        fun _ hp => hp]
    exact countP_eq_length.mpr fun p hp => by simpa using (hi.mem_fifo p).mp hp
  · refine (hcount .freePending fun _ => rfl).trans (hi.total_eq_countP (fun _ => rfl) ?_)
    intro p hp
    simp [hp]
  · exact (hcount (.byPmoType k) fun _ => rfl).trans
      (hi.total_eq_countP (fun _ => rfl) fun p hp => heligible p hp.1)
  · exact (hcount (.byPerm x) fun _ => rfl).trans
      (hi.total_eq_countP (fun _ => rfl) fun p hp => heligible p hp.1)
  · have hzero : w.mem.total pmoType .residentReserved = 0 := by simp
    have hreserved := hi.counted .residentReserved
    rw [hzero, zero_add] at hreserved
    exact hreserved

end

end Inv

/-- In every run in which no call comes too late, the accounting is exact in every state and no
`BUG_ON` fires.  There are no more pages than there are page frame numbers. -/
theorem accounted_in_careful_runs [DecidableEq T] (pmoType : M → K)
    (hcard : Fintype.card P ≤ 2 ^ 52) (totalPages limitPages : ℕ) {w : World P T M K}
    (hrun : ReflTransGen (Step pmoType Careful) (start P T M K totalPages limitPages) w) :
    Accounted pmoType w ∧ ∀ i, (w.pc i).phase ≠ .bug := by
  have hi := (Inv.start totalPages limitPages).run hcard hrun
  exact ⟨hi.accounted, hi.noBug⟩

end runs

/-! ## A free that comes too late -/

section late

variable {C : Shared Unit Bool Unit Unit → Thread Unit Unit → Prop} {i : Bool}

/-- A step of thread `i` that `C` allows, where no `BUG_ON` fires. -/
def Goes (C : Shared Unit Bool Unit Unit → Thread Unit Unit → Prop) (i : Bool)
    (a b : Shared Unit Bool Unit Unit × Thread Unit Unit) : Prop :=
  C a.1 a.2 ∧ Acts id i a.1 a.2 (some b)

theorem Goes.of_eq {r}
    (hC : C a.1 a.2) (ha : Acts id i a.1 a.2 r) (hr : r = some b) : Goes C i a b := by
  subst hr
  exact ⟨hC, ha⟩

theorem run_of_goes (h : ReflTransGen (Goes C i) (w.mem, w.pc i) b) :
    ReflTransGen (Step id C) w (w.move i b.1 b.2) :=
  run_alone_of i (fun _ _ _ _ hgoes => .act hgoes.1 hgoes.2) h

/-- One page, tracked and resident; another reservation is still open. -/
def residentMem : Shared Unit Bool Unit Unit :=
  { (start Unit Bool Unit Unit 1 1).mem with
    page := fun _ => { (Page.fresh : Page Bool Unit) with
      allocated := true, state := .resident, pmo := some (), sequence := 1, tracked := true }
    fifo := [()]
    allocatedPages := 1
    residentPages := 1
    residentReservedPages := 1
    pendingReclaimPages := 2
    trackings := 1 }

theorem goes_resident : ReflTransGen (Goes Careful true)
    ((start Unit Bool Unit Unit 1 1).mem, ⟨0, .idle⟩) (residentMem, ⟨1, .idle⟩) := by
  refine .head (.of_eq trivial (.reserve 0 (by decide)) rfl) ?_
  refine .head (.of_eq trivial (.get () rfl) rfl) ?_
  refine .head (.of_eq trivial .commit rfl) ?_
  refine .head (.of_eq trivial (.reserveResident 2 (by decide) (by decide)) rfl) ?_
  refine .head (.of_eq trivial (.track [⟨(), (), false, 0⟩] (by decide)) rfl) ?_
  refine .head (.of_eq trivial (.valid rfl rfl) rfl) ?_
  exact .single (.of_eq (fun _ _ _ => ⟨rfl, rfl, rfl⟩) .publish rfl)

/-- The page was demoted and taken off the FIFO. -/
def leavingMem : Shared Unit Bool Unit Unit :=
  { residentMem with
    page := fun _ => { (Page.fresh : Page Bool Unit) with
      allocated := true, sequence := 1, hand := .leaving, tracked := true }
    fifo := []
    reclaiming := some true }

theorem goes_leaving : ReflTransGen (Goes Careful true)
    (residentMem, ⟨1, .idle⟩) (leavingMem, ⟨1, .giveBack () 1 (.finish [])⟩) := by
  refine .head (.of_eq trivial (.begin true) rfl) ?_
  refine .head (.of_eq trivial (.select [()] (by simp)
    fun _ _ => ⟨.head _, rfl, rfl, Option.some_ne_none ()⟩) rfl) ?_
  refine .head (.of_eq trivial (.claim (c := ()) (by simp) rfl rfl) rfl) ?_
  refine .head (.of_eq trivial .scanned rfl) ?_
  refine .head (.of_eq trivial .prepare rfl) ?_
  refine .head (.of_eq trivial .flush rfl) ?_
  refine .head (.of_eq trivial .copy rfl) ?_
  refine .head (.of_eq trivial .finish rfl) ?_
  exact .single (.of_eq trivial .finishLocked rfl)

/-- Another thread freed the page in between and got it again. -/
def takenMem : Shared Unit Bool Unit Unit :=
  { leavingMem with
    page := fun _ => { (Page.fresh : Page Bool Unit) with
      allocated := true, sequence := 1, hand := .taken false }
    allocatedPages := 0
    reservedPages := 1
    returned := [1] }

theorem goes_taken : ReflTransGen (Goes Any false)
    (leavingMem, ⟨0, .idle⟩) (takenMem, ⟨0, .got () 0⟩) := by
  refine .head (.of_eq trivial (.call ()) rfl) ?_
  refine .head (.of_eq trivial .free rfl) ?_
  refine .head (.of_eq trivial .uncount rfl) ?_
  refine .head (.of_eq trivial (.reserve 0 (by decide)) rfl) ?_
  exact .single (.of_eq trivial (.get () rfl) rfl)

/-- The run goes on to the end. -/
def demotedMem : Shared Unit Bool Unit Unit :=
  { leavingMem with
    page := fun _ => { (Page.fresh : Page Bool Unit) with sequence := 1, tracked := true }
    allocatedPages := 0
    residentPages := 0
    reclaiming := none
    returned := [1] }

theorem goes_demoted : ReflTransGen (Goes Careful true)
    (leavingMem, ⟨1, .giveBack () 1 (.finish [])⟩) (demotedMem, ⟨1, .idle⟩) := by
  refine .head (.of_eq trivial .giveBack rfl) ?_
  refine .head (.of_eq trivial .settle rfl) ?_
  refine .head (.of_eq trivial .finished rfl) ?_
  exact .single (.of_eq trivial .done rfl)

/-- One page is allocated, tracked, demoted and given back. -/
theorem accounted_after_demotion : ∃ w : World Unit Bool Unit Unit,
    w.mem.returned = [1] ∧ Accounted id w ∧ ∀ i, (w.pc i).phase ≠ .bug :=
  ⟨_, rfl, accounted_in_careful_runs id (by decide) 1 1
    (run_of_goes (goes_resident.trans (goes_leaving.trans goes_demoted)))⟩

/-- A run has taken a page off the FIFO and let go of the lock.  A free of that page gives it
back, and the page is got again. -/
def lateWorld : World Unit Bool Unit Unit :=
  ((start Unit Bool Unit Unit 1 1).move true leavingMem ⟨1, .giveBack () 1 (.finish [])⟩).move false
    takenMem ⟨0, .got () 0⟩

theorem run_late : ReflTransGen (Step id Any) (start Unit Bool Unit Unit 1 1) lateWorld := by
  have hany : ∀ a b, Goes Careful true a b → Goes Any true a b := fun _ _ h => ⟨trivial, h.2⟩
  have hleaving := run_of_goes (w := start Unit Bool Unit Unit 1 1)
    (ReflTransGen.mono hany _ _ (goes_resident.trans goes_leaving))
  have htaken := run_of_goes (w := (start Unit Bool Unit Unit 1 1).move true leavingMem
    ⟨1, .giveBack () 1 (.finish [])⟩) goes_taken
  exact hleaving.trans htaken

/-- The run finds the page allocated, gives it back once more and finds nothing that it could
count down. -/
theorem late_free_fires_bug : ∃ w : World Unit Bool Unit Unit,
    ReflTransGen (Step id Any) (start Unit Bool Unit Unit 1 1) w ∧
      (w.pc true).phase = .bug := by
  have hback := run_late.tail (.act (i := true) trivial .giveBack)
  refine ⟨_, hback.tail (.bug (i := true) trivial ?_), rfl⟩
  exact .settle

end late

end Starfish.Reclaim
