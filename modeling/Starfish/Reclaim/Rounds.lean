import Starfish.Reclaim.Resident

/-!
# Starfish.Reclaim.Rounds

The steps of a reclaim run.  A run takes pages into its lists, moves them from one list to the
next and lets them go: back to the FIFO, or off the FIFO and to the buddy system.  Each step is
shown to keep the pages standing and the counters right (`Fits`).
-/

namespace Starfish.Reclaim

open List Phase Shared Finset

variable {P T M K : Type} [Fintype P] [DecidableEq P] [DecidableEq K]
variable {pmoType : M → K} {i : T} {s s' : Shared P T M K} {q : Phase P M}
  {p : P} {h : ℕ}

attribute [local simp] markPending selectCandidates

/-! ## The lists of a run -/

section lists

omit [Fintype P] [DecidableEq K]

section

variable (hs : Sound s q)
include hs

/-- Where the list of a page says that it is, and that it is in no other list. -/
theorem Sound.count_eq (hk : k ≠ .elsewhere) (hp : p ∈ q.hold k) (hk' : k' ≠ .elsewhere) :
    (q.hold k').count p = if k = k' then 1 else 0 :=
  (hs p).held_of_ne hk (count_pos_iff.mpr hp).ne' hk'

theorem Sound.scanning (hp : p ∈ q.hold .scanned) : (s.page p).scanning = true :=
  (hs p).scanning_eq (count_pos_iff.mpr hp).ne'

theorem Sound.demoting (hp : p ∈ q.hold .demoted) : (s.page p).state = .demoting :=
  (hs p).state_eq_demoting (count_pos_iff.mpr hp).ne'

theorem Sound.freeing (hp : p ∈ q.hold .freed) : (s.page p).state = .freeing :=
  (hs p).state_eq_freeing (count_pos_iff.mpr hp).ne'

theorem Sound.leaving (hp : p ∈ q.hold .leaving) : (s.page p).hand = .leaving :=
  (hs p).hand_eq_leaving (count_pos_iff.mpr hp).ne'

end

end lists

/-! ## Beginning -/

/-- The run of a thread goes on from `ph` to `ph'`. -/
abbrev FitsRun (pmoType : M → K) (i : T) (s : Shared P T M K) (h : ℕ) (ph : Phase P M)
    (s' : Shared P T M K) (ph' : Phase P M) : Prop :=
  Fits pmoType i s ⟨h, ph⟩ s' ph' ⟨h, ph'⟩

namespace Fits

/-- A run starts with nothing in hand. -/
theorem reclaimBegin (hs : Sound s q) (hq : ∀ k, q.hold k = []) (hnext : ∀ x, q.honours x = false)
    (r : Rest P) (hr : ∀ k, r.hold k = []) (n : ℕ) (hnone : s.reclaiming = none) :
    FitsRun pmoType i s h .idle { s with pendingReclaimPages := n, reclaiming := none } (.run r) :=
  .same hs rfl rfl (fun k x => by rw [hq]; exact congrArg (count x) (hr k))
    (fun x hx => by rw [hnext] at hx; contradiction) (fun c => by cases c <;> simp) trivial
    hnone.symm

/-- A step of a run that changes nothing and keeps what the run has in hand. -/
theorem goOn (hs : Sound s ph) (hhold : ∀ k x, (ph'.hold k).count x = (ph.hold k).count x)
    (hnext : ∀ x, ph.honours x = false)
    (hdue : ∀ c : Counter K, Thread.due ⟨h, ph'⟩ c = Thread.due ⟨h, ph⟩ c)
    (hfit : Thread.Fit i s ⟨h, ph'⟩) : FitsRun pmoType i s h ph s ph' :=
  .same hs rfl rfl hhold (fun x hx => by rw [hnext] at hx; contradiction)
    (fun c => by rw [hdue c]) hfit rfl

theorem select (hs : Sound s (.run .select)) (hnodup : ss.Nodup)
    (hsel : ∀ c ∈ ss, c ∈ s.fifo ∧ (s.page c).state = .resident ∧
      (s.page c).scanning = false ∧ (s.page c).pmo ≠ none) :
    FitsRun pmoType i s h (.run .select) (s.selectCandidates ss) (.run (.scan ss [])) where
  sound := by
    intro p
    by_cases hp : p ∈ ss
    · have hstate := (hsel p hp).2.1
      simp only [selectCandidates, hp, if_true]
      refine (hs p).scan hstate fun k hk => ?_
      cases k <;> simp_all [count_eq_one_of_mem]
    · have hcount : ss.count p = 0 := count_eq_zero_of_not_mem hp
      have hhold : (fun k => ((run (.scan ss []) : Phase P M).hold k).count p) =
          fun k => ((run .select : Phase P M).hold k).count p := by
        funext k
        cases k <;> simp [hcount]
      simp only [selectCandidates, hp, if_false]
      rw [hhold]
      exact hs p
  balances := by
    intro c
    have htotal : (s.selectCandidates ss).total pmoType c = s.total pmoType c := by
      refine sum_congr rfl fun p _ => ?_
      by_cases hp : p ∈ ss <;> cases c <;> simp [hp]
    rw [htotal]
    cases c <;> simp
  fit := trivial
  others p j _ hj := by
    by_cases hp : p ∈ ss <;> simp [hp, hj]
  released p _ horigin := by
    by_cases hp : p ∈ ss <;> simp [hp, horigin]
  token := rfl

/-! ## Candidates -/

theorem policy (ph' : Phase P M) (hs : Sound s ph) (e : Bool) (perm : BitVec 8)
    (hm : (s.page p).pmo = some m)
    (hstate : (s.page p).state = .resident ∨ (s.page p).state = .demoting)
    (hc : Covers pmoType s ⟨h, ph⟩)
    (hhold : ∀ k x, (ph'.hold k).count x = (ph.hold k).count x)
    (hnext : ∀ x, ph.honours x = true → ph'.honours x = true)
    (hdue : ∀ c : Counter K, Thread.due ⟨h, ph'⟩ c = Thread.due ⟨h, ph⟩ c)
    (hfit : ∀ s' : Shared P T M K, Thread.Fit i s' ⟨h, ph'⟩) :
    ∃ s', s.accountPagePolicyLocked pmoType p m e perm = some s' ∧
      FitsRun pmoType i s h ph s' ph' := by
  obtain ⟨f, g, heq, hf, hg⟩ := accountPagePolicyLocked_eq pmoType
    (fun k => hc.weight_le p (.byPmoType k)) (fun x => hc.weight_le p (.byPerm x)) e perm hm
    (hs p).perm
  refine ⟨_, heq, .set hs (p := p) rfl (fun _ _ => rfl) (fun k x _ => hhold k x)
    (fun x _ => hnext x) ?_ (fun c => ?_) (hfit _) (fun j _ hhand => ⟨hhand, rfl⟩) (fun _ ho => ho) rfl⟩
  · simp only [hhold]
    exact ((hs p).policy hstate e perm).mono (hnext p)
  · rw [hdue c]
    cases c with
    | byPmoType k => simpa [hm] using hf k
    | byPerm x => simpa using hg x
    | _ => simp

omit [Fintype P] [DecidableEq P] [DecidableEq K] in
theorem fit_freeIf (b : Bool) (c : P) (r : Rest P) :
    Thread.Fit i s (⟨h, .freeIf b c r⟩ : Thread P M) := by
  cases b <;> trivial

section

variable {ss ds : List P} (hs : Sound s (.run (.scan ss ds))) (hp : p ∈ ss)
include hs hp

theorem release : FitsRun pmoType i s h (.run (.scan ss ds)) (s.releaseScanning p)
      (.freeIf ((s.page p).scanning && (s.page p).freeRequested) p (.scan (ss.erase p) ds)) := by
  have hscan := hs.scanning (p := p) hp
  refine .set hs (p := p) rfl (fun _ _ => rfl) (fun k x hx => ?_)
    (fun x _ hx => by simp at hx) ?_ (fun c => ?_) (fit_freeIf ..)
    (fun j _ hhand => ⟨hhand, rfl⟩) (fun _ ho => ho) rfl
  · rw [freeIf_hold]
    cases k <;> simp [hx]
  · refine (hs p).unscan hscan (fun k hk => ?_) (by rw [freeIf_honours, hscan]; exact id)
    have hcount := hs.count_eq (k := .scanned) (by simp) hp hk
    rw [freeIf_hold]
    cases k <;> simp_all
  · rw [Thread.due_freeIf]
    cases c <;> simp [releaseScanning]

theorem claim : FitsRun pmoType i s h (.run (.scan ss ds)) (s.claimScanning p)
      (.run (.scan (ss.erase p) (ds ++ [p]))) := by
  have hscan := hs.scanning (p := p) hp
  have hstate := (hs p).scanned hscan
  refine .set hs (p := p) rfl (fun _ _ => rfl) (fun k x hx => ?_)
    (fun x _ hx => by simp at hx) ?_ (fun c => ?_) trivial
    (fun j _ hhand => ⟨hhand, rfl⟩) (fun _ ho => ho) rfl
  · cases k <;> simp [Ne.symm hx, hx]
  · refine (hs p).claim hscan fun k hk => ?_
    have hcount := hs.count_eq (k := .scanned) (by simp) hp hk
    cases k <;> simp_all
  · cases c <;> simp [claimScanning, hstate]

end

theorem prepare (hs : Sound s (.run (.prepare (p :: todo) ready))) :
    FitsRun pmoType i s h (.run (.prepare (p :: todo) ready)) (s.prepared p)
      (.run (.prepare todo (ready ++ [p]))) := by
  have hstate := hs.demoting (p := p) (by simp)
  have hhold : ∀ k x, ((run (.prepare todo (ready ++ [p])) : Phase P M).hold k).count x =
      ((run (.prepare (p :: todo) ready) : Phase P M).hold k).count x := by
    intro k x
    cases k <;> simp [count_cons, count_append]
    omega
  rw [prepared, if_pos hstate]
  refine .set hs (p := p) rfl (fun _ _ => rfl) (fun k x _ => hhold k x)
    (fun x _ hx => by simp at hx) ?_ (fun c => ?_) trivial
    (fun j _ hhand => ⟨hhand, rfl⟩) (fun _ ho => ho) rfl
  · simp only [hhold]
    exact (hs p).setPhase .prepared
  · cases c <;> simp

/-- A candidate goes back to the FIFO, wherever on it. -/
theorem toResident {ph : Phase P M} (hs : Sound s ph) (hp : p ∈ ph.hold .demoted)
    (hhold : ∀ k x, (ph.hold k).count x =
      (r.hold k).count x + if k = .demoted ∧ p = x then 1 else 0)
    (hhonours : ∀ x, ph.honours x = false)
    (hdue : ∀ c : Counter K, Thread.due ⟨h, ph⟩ c = Thread.due (⟨h, .idle⟩ : Thread P M) c)
    {fifo : List P} (hfifo : ∀ x, fifo.count x = s.fifo.count x) :
    FitsRun pmoType i s h ph
      { s.setPage p { s.page p with state := .resident, phase := .idle } with fifo := fifo }
      (.freeIf (s.page p).freeRequested p r) := by
  have hstate := hs.demoting hp
  refine .set hs (p := p) rfl (fun x _ => hfifo x) (fun k x hx => ?_)
    (fun x _ hx => by rw [hhonours] at hx; contradiction) ?_ (fun c => ?_) (fit_freeIf ..)
    (fun j _ hhand => ⟨hhand, rfl⟩) (fun _ ho => ho) rfl
  · rw [freeIf_hold, hhold]
    simp [Ne.symm hx]
  · rw [hfifo]
    refine (hs p).restore hstate (fun k hk => ?_) (by rw [freeIf_honours]; exact id)
    have hcount := hs.count_eq (by simp) hp hk
    rw [hhold] at hcount
    rw [freeIf_hold]
    simpa [eq_comm] using hcount
  · rw [Thread.due_freeIf, hdue]
    cases c <;> simp [hstate]

theorem defer {r : Rest P} (hs : Sound s (.defer p r)) :
    FitsRun pmoType i s h (.defer p r) (s.deferCandidate p) (.freeIf (s.page p).freeRequested p r) := by
  have hp : p ∈ (Phase.defer p r : Phase P M).hold .demoted := by simp [withPage]
  have hlisted : s.fifo.count p = 1 := by simpa [hs.demoting hp] using (hs p).listed
  rw [deferCandidate, if_pos (hs.demoting hp)]
  refine toResident hs hp (fun k x => by simp) (fun x => rfl) (fun c => by cases c <;> rfl)
    fun x => ?_
  by_cases hx : x = p
  · simp [hx, hlisted]
  · simp [hx, Ne.symm hx]

theorem restore (hs : Sound s (.run (.restore (p :: cs)))) :
    FitsRun pmoType i s h (.run (.restore (p :: cs))) (s.restoreCandidate p)
      (.freeIf (s.page p).freeRequested p (.restore cs)) := by
  have hp : p ∈ (run (.restore (p :: cs)) : Phase P M).hold .demoted := by simp
  rw [restoreCandidate, if_pos (hs.demoting hp)]
  refine toResident hs hp (fun k x => ?_) (fun x => rfl) (fun c => by cases c <;> rfl) fun x => rfl
  cases k <;> simp [count_cons]

theorem flush (hs : Sound s (.run (.prepare [] cs))) :
    FitsRun pmoType i s h (.run (.prepare [] cs)) (s.markFlushed cs) (.run (.copy cs)) where
  sound := by
    intro p
    have hhold : (fun k => ((run (.copy cs) : Phase P M).hold k).count p) =
        fun k => ((run (.prepare [] cs) : Phase P M).hold k).count p := by
      funext k
      cases k <;> simp
    rw [hhold]
    simp only [markFlushed]
    split_ifs with hp
    · exact (hs p).setPhase .flushed
    · exact hs p
  balances := by
    intro c
    have htotal : (s.markFlushed cs).total pmoType c = s.total pmoType c := by
      refine sum_congr rfl fun p _ => ?_
      simp only [markFlushed]
      split_ifs <;> cases c <;> simp
    rw [htotal]
    cases c <;> simp [markFlushed]
  fit := trivial
  others p j _ hj := by
    simp only [markFlushed]
    split_ifs <;> exact ⟨hj, rfl⟩
  released p _ horigin := by
    simp only [markFlushed]
    split_ifs <;> exact horigin
  token := rfl

end Fits

/-! ## Giving back -/

omit [Fintype P] in
/-- `finish_candidate` up to the choice between freeing and giving back. -/
theorem Shared.finishCandidate_eq (hs : Sound s q) (hstate : (s.page p).state = .demoting)
    (htype : ∀ k, (s.page p).weight pmoType (.byPmoType k) ≤ s.eligibleByPmoType k)
    (hperm : ∀ x, (s.page p).weight pmoType (.byPerm x) ≤ s.eligibleByPerm x) (b : Bool) :
    ∃ f g, s.finishCandidate pmoType p b = some (if b then
          { s with
            page := Function.update s.page p { s.page p with
              state := .freeing, phase := .idle, pmo := none, policyEligible := false }
            eligibleByPmoType := f
            eligibleByPerm := g }
        else
          { s with
            page := Function.update s.page p { s.page p with
              state := .none
              phase := .idle
              pmo := none
              freeRequested := false
              scanning := false
              policyEligible := false
              policyPerm := 0
              hand := .leaving }
            fifo := s.fifo.erase p
            eligibleByPmoType := f
            eligibleByPerm := g }) ∧
      (∀ k, f k + (s.page p).weight pmoType (.byPmoType k) = s.eligibleByPmoType k) ∧
      ∀ x, g x + (s.page p).weight pmoType (.byPerm x) = s.eligibleByPerm x := by
  obtain ⟨f, g, heq, hf, hg⟩ := unaccountPagePolicyLocked_eq pmoType htype hperm
    rfl (fun _ => (hs p).pmo (.inr hstate))
  refine ⟨f, g, ?_, hf, hg⟩
  rw [finishCandidate, if_pos hstate, heq]
  cases b <;> simp

namespace Fits

theorem finishRequested (hs : Sound s (.finishing p true cs))
    (hc : Covers pmoType s ⟨h, .finishing p true cs⟩) :
    ∃ s', s.finishCandidate pmoType p true = some s' ∧
      FitsRun pmoType i s h (.finishing p true cs) s' (.releaseOrigin p (.finish cs)) := by
  have hp : p ∈ (finishing p true cs : Phase P M).hold .demoted := by simp [withPage]
  have hstate := hs.demoting hp
  obtain ⟨f, g, heq, hf, hg⟩ := finishCandidate_eq hs hstate
    (fun k => hc.weight_le p (.byPmoType k)) (fun x => hc.weight_le p (.byPerm x)) true
  refine ⟨_, heq, .set hs (p := p) rfl (fun _ _ => rfl) (fun k x hx => ?_)
    (fun x _ hx => by simp at hx) ?_ (fun c => ?_) trivial (fun j _ hhand => ⟨hhand, rfl⟩)
    (fun _ ho => ho) rfl⟩
  · simp [Ne.symm hx]
  · refine (hs p).free (.inl hstate) (fun k hk => ?_) .idle none rfl
    have hcount := hs.count_eq (by simp) hp hk
    cases k <;> simp_all
  · cases c with
    | byPmoType k => simpa using hf k
    | byPerm x => simpa using hg x
    | _ => simp [hstate]

/-- No request was read: the page is taken off the FIFO. -/
theorem finishNotRequested (n : ℕ) (hs : Sound s (.finishing p false cs))
    (hc : Covers pmoType s ⟨h, .finishing p false cs⟩) :
    ∃ s', s.finishCandidate pmoType p false = some s' ∧
      FitsRun pmoType i s h (.finishing p false cs) s' (.giveBack p n (.finish cs)) := by
  have hp : p ∈ (finishing p false cs : Phase P M).hold .demoted := by simp [withPage]
  have hstate := hs.demoting hp
  have hlisted : s.fifo.count p = 1 := by simpa [hstate] using (hs p).listed
  obtain ⟨-, hhand, -⟩ := (hs p).inUse (by simp [hstate])
  obtain ⟨f, g, heq, hf, hg⟩ := finishCandidate_eq hs hstate
    (fun k => hc.weight_le p (.byPmoType k)) (fun x => hc.weight_le p (.byPerm x)) false
  refine ⟨_, heq, .set hs (p := p) rfl (fun x hx => ?_) (fun k x hx => ?_)
    (fun x _ hx => by simp at hx) ?_ (fun c => ?_) trivial
    (fun j _ hhand' => by simp [hhand] at hhand') (fun _ ho => ho) rfl⟩
  · simp [hx]
  · simp [Ne.symm hx]
  · have hcount : (s.fifo.erase p).count p = 0 := by simp [hlisted]
    simp only [hcount, Bool.false_eq_true, if_false]
    refine (hs p).leave (by simp [hstate]) fun k hk => ?_
    have hcount := hs.count_eq (by simp) hp hk
    cases k <;> simp_all
  · cases c with
    | byPmoType k => simpa using hf k
    | byPerm x => simpa using hg x
    | _ => simp [hstate, hhand]

variable (pmoType) in
/-- The page is off the FIFO when it goes to the buddy system. -/
theorem giveBack (hs : Sound s (.giveBack p n r)) : ∃ s', s.buddyFreePages p (some n) = some s' ∧
      FitsRun pmoType i s h (.giveBack p n r) s' (.settle r) := by
  have hp : p ∈ (Phase.giveBack p n r : Phase P M).hold .leaving := by simp [withPage]
  have hhand := hs.leaving hp
  obtain ⟨hstate, halloc, horder, -⟩ := (hs p).leaves hhand
  refine ⟨_, if_pos halloc, .set hs (p := p) rfl (fun _ _ => rfl) (fun k x hx => ?_)
    (fun x _ hx => by simp at hx) ?_ (fun c => ?_) trivial
    (fun j _ hhand' => by simp [hhand] at hhand') (fun _ ho => ho) rfl⟩
  · simp [Ne.symm hx]
  · refine (hs p).back hstate fun k hk => ?_
    have hcount := hs.count_eq (by simp) hp hk
    simp only [hold, count_withPage] at hcount ⊢
    simpa [eq_comm] using hcount
  · cases c <;> simp [hstate, halloc, horder, hhand]

theorem settle (hs : Sound s (.settle r)) (hc : Covers pmoType s ⟨h, .settle r⟩) :
    ∃ s', s.settle = some s' ∧ FitsRun pmoType i s h (.settle r) s' (.run r) := by
  have hal : 1 ≤ s.allocatedPages := by simpa using hc.due_le .allocated
  have hre : 1 ≤ s.residentPages := by simpa using hc.due_le .resident
  refine ⟨_, if_neg (by omega), .same hs rfl rfl (fun _ _ => rfl) (fun x hx => by simp at hx)
    (fun c => ?_) trivial rfl⟩
  cases c <;> simp
  all_goals omega

variable (pmoType) in
theorem releaseOrigin (hs : Sound s (.releaseOrigin p r)) : s.releaseOriginPage p = some (s, true) ∧
      FitsRun pmoType i s h (.releaseOrigin p r) s (.asked p r) := by
  have hstate := hs.freeing (p := p) (by simp [withPage])
  exact ⟨by simp [releaseOriginPage, hstate],
    goOn hs (fun _ _ => rfl) (fun _ => rfl) (fun c => by cases c <;> rfl) trivial⟩

variable (pmoType) in
theorem finalize (n : ℕ) (hs : Sound s (.finalize p r)) (hfit : Thread.Fit i s ⟨h, .finalize p r⟩) :
    s.finalizePageFree p = some (s.takeOff p, true) ∧
      FitsRun pmoType i s h (.finalize p r) (s.takeOff p) (.giveBack p n r) := by
  have hp : p ∈ (Phase.finalize p r : Phase P M).hold .freed := by simp [withPage]
  have hstate := hs.freeing hp
  have horigin : (s.page p).origin = .released := hfit
  have hlisted : s.fifo.count p = 1 := by simpa [hstate] using (hs p).listed
  obtain ⟨-, hhand, -⟩ := (hs p).inUse (by simp [hstate])
  have heligible : (s.page p).policyEligible = false := by
    by_contra hne
    simpa [hstate] using (hs p).eligible (by simpa using hne)
  refine ⟨by simp [finalizePageFree, horigin, hstate], .set hs (p := p) rfl
    (fun x hx => ?_) (fun k x hx => ?_) (fun x _ hx => by simp at hx) ?_ (fun c => ?_) trivial
    (fun j _ hhand' => by simp [hhand] at hhand') (fun _ ho => ho) rfl⟩
  · simp [takeOff, hx]
  · simp [Ne.symm hx]
  · have hcount : (s.fifo.erase p).count p = 0 := by simp [hlisted]
    simp only [takeOff, hcount]
    refine (hs p).leave (by simp [hstate]) fun k hk => ?_
    have hcount := hs.count_eq (by simp) hp hk
    simp only [hold, count_withPage] at hcount ⊢
    cases k <;> simp_all
  · cases c <;> simp [takeOff, hstate, hhand, heligible]

theorem deferOrigin (hs : Sound s (.deferOrigin p r)) :
    FitsRun pmoType i s h (.deferOrigin p r) (s.deferOriginRelease p) (.run r) := by
  have hp : p ∈ (Phase.deferOrigin p r : Phase P M).hold .freed := by simp [withPage]
  have hstate := hs.freeing hp
  have hlisted : s.fifo.count p = 1 := by simpa [hstate] using (hs p).listed
  rw [deferOriginRelease, if_pos hstate]
  refine .set hs (p := p) rfl (fun x hx => ?_) (fun k x hx => ?_) (fun x _ hx => by simp at hx) ?_
    (fun c => ?_) trivial
    (fun j _ hhand => ⟨hhand, rfl⟩) (fun _ ho => ho) rfl
  · simp [hx, Ne.symm hx]
  · simp [Ne.symm hx]
  · have hcount : (p :: s.fifo.erase p).count p = s.fifo.count p := by simp [hlisted]
    simp only [hcount]
    refine (hs p).wait hstate fun k hk => ?_
    have hcount := hs.count_eq (by simp) hp hk
    simp only [hold, count_withPage] at hcount ⊢
    simpa [eq_comm] using hcount
  · cases c <;> simp [hstate]

end Fits

/-! ## Pending frees -/

section pending

omit [Fintype P] [DecidableEq K]

theorem Sound.fifo_nodup (hs : Sound s q) : s.fifo.Nodup := by
  rw [nodup_iff_count_le_one]
  intro p
  rw [(hs p).listed]
  split_ifs <;> omega

theorem Sound.pendingFrees_nodup (hs : Sound s q) (limit : ℕ) : (s.pendingFrees limit).Nodup :=
  ((hs.fifo_nodup.filter _).sublist (take_sublist ..))

omit [DecidableEq P] in
theorem Shared.state_of_mem_pendingFrees (hp : p ∈ s.pendingFrees limit) :
    (s.page p).state = .freePending := by
  have := mem_filter.mp (mem_of_mem_take hp)
  simpa using this.2

omit [DecidableEq P] in
theorem Shared.length_pendingFrees_le (s : Shared P T M K) (limit : ℕ) :
    (s.pendingFrees limit).length ≤ s.freePendingPages := by
  simp only [pendingFrees, length_take]
  omega

end pending

/-- The pages that a run takes from the queue are no longer pending. -/
theorem Shared.total_markPending (pmoType : M → K) (hs : Sound s q) (limit : ℕ) (c : Counter K) :
    (s.markPending limit).total pmoType c +
        (if c matches .freePending then (s.pendingFrees limit).length else 0) =
      s.total pmoType c := by
  cases c with
  | freePending =>
    have hcard : (s.pendingFrees limit).length =
        ∑ p, if p ∈ s.pendingFrees limit then 1 else 0 := by
      rw [← toFinset_card_of_nodup (hs.pendingFrees_nodup limit), ← card_filter]
      congr 1
      ext p
      simp
    simp only [if_true, hcard]
    rw [total, total, ← sum_add_distrib]
    refine sum_congr rfl fun p _ => ?_
    by_cases hp : p ∈ s.pendingFrees limit
    · simp [hp, state_of_mem_pendingFrees hp]
    · simp [hp]
  | _ =>
    refine sum_congr rfl fun p _ => ?_
    by_cases hp : p ∈ s.pendingFrees limit
    · simp [hp, state_of_mem_pendingFrees hp]
    · simp [hp]

namespace Fits

theorem mark (hs : Sound s (.run (.mark due))) (limit : ℕ) :
    FitsRun pmoType i s h (.run (.mark due)) (s.markPending limit)
      (.run (.retry due false (s.pendingFrees limit))) where
  sound := by
    intro p
    by_cases hp : p ∈ s.pendingFrees limit
    · have hstate := state_of_mem_pendingFrees hp
      have hcount : (s.pendingFrees limit).count p = 1 :=
        count_eq_one_of_mem (hs.pendingFrees_nodup limit) hp
      have heligible : (s.page p).policyEligible = false := by
        by_contra hne
        simpa [hstate] using (hs p).eligible (by simpa using hne)
      simp only [markPending, hp, if_true]
      exact (hs p).free (.inr hstate) (fun k hk => by cases k <;> simp_all) _ _ heligible
    · have hcount : (s.pendingFrees limit).count p = 0 := count_eq_zero_of_not_mem hp
      have hhold : (fun k => ((run (.retry due false (s.pendingFrees limit)) :
          Phase P M).hold k).count p) =
          fun k => ((run (.mark due) : Phase P M).hold k).count p := by
        funext k
        cases k <;> simp [hcount]
      simp only [markPending, hp, if_false]
      rw [hhold]
      exact hs p
  balances := by
    intro c
    have htotal := total_markPending pmoType hs limit c
    have hle := s.length_pendingFrees_le limit
    cases c <;> simp at htotal ⊢ <;> omega
  fit := trivial
  others p j _ hj := by
    by_cases hp : p ∈ s.pendingFrees limit <;> simp [hp, hj]
  released p _ horigin := by
    by_cases hp : p ∈ s.pendingFrees limit <;> simp [hp, horigin]
  token := rfl

section

variable {due freed : Bool} {ps : List P} (hs : Sound s (.run (.retry due freed ps))) (hp : p ∈ ps)
include hs hp

theorem retried (horigin : (s.page p).origin = .released) :
    FitsRun pmoType i s h (.run (.retry due freed ps)) s
      (.finalize p (.retry due true (ps.erase p))) := by
  refine goOn hs (fun k x => ?_) (fun _ => rfl) (fun c => by cases c <;> rfl) horigin
  have hperm := (List.perm_cons_erase hp).count_eq x
  cases k <;> first | rfl | exact hperm.symm

theorem notRetried : FitsRun pmoType i s h (.run (.retry due freed ps)) s
      (.deferOrigin p (.retry due freed (ps.erase p))) := by
  refine goOn hs (fun k x => ?_) (fun _ => rfl) (fun c => by cases c <;> rfl) trivial
  have hperm := (List.perm_cons_erase hp).count_eq x
  cases k <;> first | rfl | exact hperm.symm

end

end Fits

end Starfish.Reclaim
