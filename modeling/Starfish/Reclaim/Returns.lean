import Starfish.Reclaim.Exact

/-!
# Starfish.Reclaim.Returns

What becomes of the request to free a page, and how often a page goes back to the buddy system.

Each tracking of a page has a number.  `Ledger` compares the numbers that were given out with
the pages that are still tracked and with the pages that were returned: each number is with one
page, or it was returned once.  A request on record is either still on record, on a page that
the run has in hand or that waits to be freed, or the page is on its way to the buddy system.
-/

namespace Starfish.Reclaim

open Option Shared World Finset Function

variable {P T M K : Type} {pmoType : M → K} {i : T} {s s' : Shared P T M K} {q : Phase P M}
  {t t' : Thread P M} {p : P}

attribute [local simp] markPending withPage

/-! ## The ledger -/

/-- The page is tracked, or it was and is not with the buddy system yet. -/
def Page.Live (pg : Page T M) : Prop := pg.state ≠ .none ∨ pg.hand = .leaving

instance [DecidableEq T] (pg : Page T M) : Decidable pg.Live := inferInstanceAs (Decidable (_ ∨ _))

/-- How many pages have the tracking number `n`. -/
def Shared.live [Fintype P] [DecidableEq T] (s : Shared P T M K) (n : ℕ) : ℕ :=
  ∑ p, if (s.page p).Live ∧ (s.page p).sequence = n then 1 else 0

/-- Every tracking is with one page, or its page was returned once. -/
def Ledger [Fintype P] [DecidableEq T] (s : Shared P T M K) : Prop :=
  ∀ n, s.returned.count n + s.live n = if 1 ≤ n ∧ n ≤ s.trackings then 1 else 0

/-- A step that neither tracks nor returns a page and forgets no request, except for a page
that it takes off the FIFO. -/
structure Quiet (s s' : Shared P T M K) : Prop where
  live : ∀ p, (s'.page p).Live ↔ (s.page p).Live
  sequence : ∀ p, (s'.page p).sequence = (s.page p).sequence
  request : ∀ p, (s.page p).freeRequested = true →
    (s'.page p).freeRequested = true ∨ (s'.page p).hand = .leaving
  returned : s'.returned = s.returned
  trackings : s'.trackings = s.trackings

namespace Quiet

theorem of_page_eq (hpage : s'.page = s.page) (hret : s'.returned = s.returned)
    (htrack : s'.trackings = s.trackings) : Quiet s s' where
  live p := by rw [hpage]
  sequence p := by rw [hpage]
  request p hr := by
    rw [hpage]
    exact .inl hr
  returned := hret
  trackings := htrack

theorem refl (s : Shared P T M K) : Quiet s s := of_page_eq rfl rfl rfl

/-- Some pages change, all in a way that keeps them tracked or untracked. -/
theorem of_pages {f : P → Page T M} (hpage : s'.page = f)
    (hlive : ∀ p, (f p).Live ↔ (s.page p).Live)
    (hseq : ∀ p, (f p).sequence = (s.page p).sequence)
    (hreq : ∀ p, (f p).freeRequested = (s.page p).freeRequested)
    (hret : s'.returned = s.returned) (htrack : s'.trackings = s.trackings) : Quiet s s' where
  live p := by rw [hpage, hlive]
  sequence p := by rw [hpage, hseq]
  request p hr := by
    rw [hpage, hreq]
    exact .inl hr
  returned := hret
  trackings := htrack

theorem set [DecidableEq P] (p : P)
    (hpage : s'.page = update s.page p g) (hlive : g.Live ↔ (s.page p).Live)
    (hseq : g.sequence = (s.page p).sequence)
    (hreq : (s.page p).freeRequested = true → g.freeRequested = true ∨ g.hand = .leaving)
    (hret : s'.returned = s.returned) (htrack : s'.trackings = s.trackings) : Quiet s s' where
  live x := by
    rw [hpage]
    by_cases hx : x = p
    · rw [hx, update_self, hlive]
    · rw [update_of_ne hx]
  sequence x := by
    rw [hpage]
    by_cases hx : x = p
    · rw [hx, update_self, hseq]
    · rw [update_of_ne hx]
  request x hr := by
    rw [hpage]
    by_cases hx : x = p
    · rw [hx] at hr ⊢
      rw [update_self]
      exact hreq hr
    · rw [update_of_ne hx]
      exact .inl hr
  returned := hret
  trackings := htrack

/-- A section that does what it does unless a `BUG_ON` fires. -/
theorem of_guard {c : Prop} [Decidable c]
    (heq : (if c then none else some s1) = some s') (h : Quiet s s1) : Quiet s s' := by
  split at heq
  · contradiction
  · cases heq
    exact h

/-- A section that does what it does only for some pages. -/
theorem of_ite {c : Prop} [Decidable c] (h : c → Quiet s s1) : Quiet s (if c then s1 else s) := by
  split
  · exact h ‹_›
  · exact refl s

end Quiet

section ledger

variable [Fintype P] [DecidableEq T]

theorem Ledger.quiet (hl : Ledger s) (h : Quiet s s') : Ledger s' := by
  intro n
  have hlive : s'.live n = s.live n := by
    unfold live
    refine sum_congr rfl fun p _ => if_congr ?_ rfl rfl
    rw [h.live p, h.sequence p]
  rw [h.returned, h.trackings, hlive]
  exact hl n

/-- What a step does for the ledger and for the requests. -/
structure Returns (s s' : Shared P T M K) : Prop where
  ledger : Ledger s → Ledger s'
  /-- A page that is on its way to the buddy system keeps its number. -/
  sequence : ∀ p, (s.page p).hand = .leaving → (s'.page p).sequence = (s.page p).sequence
  /-- A request is forgotten only when its page is on its way to the buddy system. -/
  request : ∀ p, (s.page p).freeRequested = true →
    (s'.page p).freeRequested = true ∨ (s'.page p).hand = .leaving

theorem Quiet.returns (h : Quiet s s') : Returns s s' :=
  ⟨fun hl => hl.quiet h, fun p _ => h.sequence p, h.request⟩

variable [DecidableEq P]

/-- The number of a page that changes. -/
theorem Shared.live_add_of_update (hpage : s'.page = update s.page p pg) (n : ℕ) :
    s'.live n + (if (s.page p).Live ∧ (s.page p).sequence = n then 1 else 0) =
      s.live n + if pg.Live ∧ pg.sequence = n then 1 else 0 := by
  have hsum := sum_add_of_eq_off
    (f := fun x => if (s.page x).Live ∧ (s.page x).sequence = n then 1 else 0)
    (g := fun x => if (s'.page x).Live ∧ (s'.page x).sequence = n then 1 else 0) p
    fun x hx => by simp only [hpage, update_of_ne hx]
  simpa only [live, hpage, update_self] using hsum

theorem Ledger.track (hl : Ledger s)
    (hpage : s'.page = update s.page p pg) (hold : ¬ (s.page p).Live) (hnew : pg.Live)
    (hseq : pg.sequence = s.trackings + 1) (hret : s'.returned = s.returned)
    (htrack : s'.trackings = s.trackings + 1) : Ledger s' := by
  intro n
  have hlive := live_add_of_update hpage n
  have hn := hl n
  rw [hret, htrack]
  simp only [hold, hnew, hseq, false_and, true_and, if_false, add_zero] at hlive
  rw [hlive]
  by_cases heq : s.trackings + 1 = n
  · rw [if_pos heq, if_pos (by omega)]
    rw [if_neg (by omega)] at hn
    omega
  · rw [if_neg heq, add_zero, hn]
    exact if_congr (by omega) rfl rfl

/-- A page goes to the buddy system: its number is returned. -/
theorem Ledger.back (hl : Ledger s)
    (hpage : s'.page = update s.page p pg) (hold : (s.page p).Live) (hnew : ¬ pg.Live)
    (hret : s'.returned = (s.page p).sequence :: s.returned)
    (htrack : s'.trackings = s.trackings) : Ledger s' := by
  intro n
  have hlive := live_add_of_update hpage n
  have hn := hl n
  rw [hret, htrack, List.count_cons, ← hn]
  simp only [hold, hnew, false_and, true_and, if_false, add_zero] at hlive
  simp only [beq_iff_eq]
  omega

end ledger

/-! ## The steps -/

/-- A thread that gives a page back has its number. -/
def Thread.Numbered (s : Shared P T M K) (t : Thread P M) : Prop :=
  match t.phase with
  | .giveBack p n _ => (s.page p).sequence = n
  | _ => True

theorem Thread.numbered_after (h : ℕ) (r : Option (Rest P)) : Thread.Numbered s ⟨h, .after r⟩ := by
  cases r <;> trivial

theorem Thread.numbered_freeIf (h : ℕ) (b : Bool) (r : Rest P) :
    Thread.Numbered s ⟨h, .freeIf b p r⟩ := by
  cases b <;> trivial

theorem Phase.after_ne_free (r : Option (Rest P)) (r' : Rest P) :
    (Phase.after r : Phase P M) ≠ .free p (some r') := by
  cases r <;> simp [after]

section steps

variable [DecidableEq P]

/-- A page is taken off the FIFO. -/
theorem Quiet.takeOff (hstate : (s.page p).state ≠ .none) : Quiet s (s.takeOff p) :=
  .set p rfl (iff_of_true (.inr rfl) (.inl hstate)) rfl (fun _ => .inr rfl) rfl rfl

theorem Quiet.releaseOriginPage (heq : s.releaseOriginPage p = some (s', go)) : Quiet s s' := by
  unfold Shared.releaseOriginPage at heq
  cases hstate : (s.page p).state with
  | freePending =>
    simp only [hstate] at heq
    split at heq
    · contradiction
    · cases heq
      exact .set p rfl (iff_of_true (.inl (by simp)) (.inl (by simp [hstate]))) rfl .inl rfl rfl
  | _ =>
    simp only [hstate] at heq
    cases heq
    exact .refl s

theorem Quiet.finalizePageFree (heq : s.finalizePageFree p = some (s', go)) : Quiet s s' := by
  unfold Shared.finalizePageFree at heq
  split at heq
  · cases hstate : (s.page p).state with
    | freePending =>
      simp only [hstate] at heq
      split at heq
      · contradiction
      · cases heq
        exact .set p rfl (iff_of_true (.inr rfl) (.inl (by simp [hstate]))) rfl
          (fun _ => .inr rfl) rfl rfl
    | freeing =>
      simp only [hstate] at heq
      cases heq
      exact .takeOff (by simp [hstate])
    | _ =>
      simp only [hstate] at heq
      cases heq
      exact .refl s
  · cases heq
    exact .refl s

variable [DecidableEq K]

/-- Only the policy of the page and the counters change. -/
theorem Shared.accountPagePolicyLocked_quiet
    (h : s.accountPagePolicyLocked pmoType p m eligible perm = some s') : Quiet s s' := by
  have hsame (s1 : Shared P T M K) (h1 : s1.page = s.page) (h2 : s1.returned = s.returned)
      (h3 : s1.trackings = s.trackings) (e : Bool) (x : BitVec 8) :
      Quiet s (s1.setPage p { s.page p with policyEligible := e, policyPerm := x }) :=
    .set p (congrArg (update · p _) h1) Iff.rfl rfl .inl h2 h3
  unfold accountPagePolicyLocked at h
  extract_lets pg oldPerm newPerm leaves counted at h
  obtain ⟨s1, h1, rfl⟩ := map_eq_some_iff.mp h
  have hs1 : s1.page = s.page ∧ s1.returned = s.returned ∧ s1.trackings = s.trackings := by
    by_cases hl : leaves = true
    · rw [if_pos hl] at h1
      unfold unaccount at h1
      split at h1
      · contradiction
      · cases h1
        exact ⟨rfl, rfl, rfl⟩
    · rw [if_neg hl] at h1
      cases h1
      exact ⟨rfl, rfl, rfl⟩
  obtain ⟨hpage, hret, htrack⟩ := hs1
  by_cases hc : (eligible && !counted) = true
  · rw [if_pos hc]
    exact hsame (s1.account pmoType m newPerm) hpage hret htrack _ _
  · rw [if_neg hc]
    exact hsame _ hpage hret htrack _ _

/-- Only that the page is eligible and the counters change. -/
theorem Shared.unaccountPagePolicyLocked_page
    (h : s.unaccountPagePolicyLocked pmoType p m = some s') :
    (∃ e, s'.page = update s.page p { s.page p with policyEligible := e }) ∧
      s'.returned = s.returned ∧ s'.trackings = s.trackings := by
  have hsame : s.page = update s.page p { s.page p with
      policyEligible := (s.page p).policyEligible } := (update_eq_self ..).symm
  unfold unaccountPagePolicyLocked at h
  cases m with
  | none =>
    cases h
    exact ⟨⟨_, hsame⟩, rfl, rfl⟩
  | some m =>
    by_cases he : (s.page p).policyEligible = true
    · simp only [he, if_true, unaccount] at h
      split at h
      · contradiction
      · cases h
        exact ⟨⟨false, rfl⟩, rfl, rfl⟩
    · simp only [he] at h
      cases h
      exact ⟨⟨_, hsame⟩, rfl, rfl⟩

/-- `dsm_cxl_free_page` of a page that is in no list of the run. -/
theorem Shared.freePage_queues (halloc : (s.page p).allocated = true)
    (hscan : (s.page p).scanning = false)
    (hstate : (s.page p).state = .resident ∨ (s.page p).state = .freePending)
    (heq : s.freePage pmoType p = some (s', a)) : (s'.page p).state = .freePending := by
  unfold freePage at heq
  rcases hstate with hstate | hstate
  · simp only [halloc, hscan, hstate, Bool.not_true, Bool.false_or] at heq
    obtain ⟨s1, h1, heq⟩ := map_eq_some_iff.mp heq
    obtain ⟨⟨e, hpage⟩, -, -⟩ := unaccountPagePolicyLocked_page h1
    cases heq
    simp [hpage]
  · simp only [halloc, hscan, hstate, Bool.not_true, Bool.false_or] at heq
    cases heq
    exact hstate

theorem Quiet.finishCandidate
    (heq : s.finishCandidate pmoType p requested = some s') : Quiet s s' := by
  unfold Shared.finishCandidate at heq
  split at heq
  · rename_i hstate
    obtain ⟨s1, h1, heq⟩ := map_eq_some_iff.mp heq
    obtain ⟨⟨e, hpage⟩, hret, htrack⟩ := unaccountPagePolicyLocked_page h1
    have hlive : (s.page p).Live := .inl (by simp [hstate])
    cases requested with
    | true =>
      subst heq
      refine .set (g := { s.page p with
        state := .freeing, phase := .idle, pmo := none, policyEligible := e }) p ?_
        (iff_of_true (.inl (by simp)) hlive) rfl .inl hret htrack
      simp [hpage]
    | false =>
      subst heq
      refine .set (g := { s.page p with
        state := .none, phase := .idle, pmo := none, freeRequested := false, scanning := false,
        policyPerm := 0, hand := .leaving, policyEligible := e }) p ?_
        (iff_of_true (.inr rfl) hlive) rfl (fun _ => .inr rfl) hret htrack
      simp [hpage]
  · contradiction

variable [Fintype P] [DecidableEq T]

/-- The loop of `dsm_cxl_track_pages`: every page that it tracks gets its own number, and what
was tracked or is on its way to the buddy system is left alone. -/
theorem Ledger.trackLoop (hs : Sound s q)
    (hcare : TrackCareful s ops) (heq : Shared.trackLoop pmoType ops s n = some (s', n')) :
    (Ledger s → Ledger s') ∧ ∀ p, (s.page p).Live → s'.page p = s.page p := by
  induction ops generalizing s n with
  | nil =>
    cases heq
    exact ⟨id, fun _ _ => rfl⟩
  | cons op ops ih =>
    have hcare0 : TrackCareful s [op] := fun op' hop' => hcare op' (by simp_all)
    obtain ⟨s1, n1, heq1, -, htr1⟩ := Tracks.trackOp pmoType hs n hcare0
    have hcare1 : TrackCareful s1 ops := by
      intro op' hop' hstate
      have hsame := htr1.rest _ hstate
      rw [hsame] at hstate ⊢
      exact hcare op' (by simp [hop']) hstate
    rw [trackLoop, heq1] at heq
    obtain ⟨hledger, hsame⟩ := ih htr1.sound hcare1 heq
    -- the first operation tracks its page, or finds it tracked
    have hfirst : (Ledger s → Ledger s1) ∧ ∀ p, (s.page p).Live → s1.page p = s.page p := by
      by_cases hstate : (s.page op.page).state = .none
      · have hhand := (hcare op (by simp) hstate).2.2
        have hdead : ¬ (s.page op.page).Live := by simp [Page.Live, hstate, hhand]
        obtain ⟨f, g, heq', -, -⟩ := trackOp_of_none pmoType n hstate
        obtain ⟨rfl, rfl⟩ := Prod.mk.inj (some.inj (heq1.symm.trans heq'))
        refine ⟨fun hl => hl.track rfl hdead (.inl (by simp)) rfl rfl rfl, fun p hp => ?_⟩
        have hne : p ≠ op.page := by
          rintro rfl
          exact hdead hp
        exact update_of_ne hne ..
      · rw [trackOp, if_neg hstate] at heq1
        obtain ⟨rfl, rfl⟩ := Prod.mk.inj (some.inj heq1)
        exact ⟨id, fun _ _ => rfl⟩
    refine ⟨fun hl => hledger (hfirst.1 hl), fun p hp => ?_⟩
    rw [hsame p (by rwa [hfirst.2 p hp]), hfirst.2 p hp]

theorem Returns.trackPages (hs : Sound s q)
    (hcare : TrackCareful s ops) (heq : s.trackPages pmoType ops = some (s', n)) :
    Returns s s' := by
  unfold Shared.trackPages at heq
  obtain ⟨⟨s1, n1⟩, hloop, htake⟩ := bind_eq_some_iff.mp heq
  obtain ⟨hledger, hsame⟩ := Ledger.trackLoop hs hcare hloop
  split at htake
  · contradiction
  · obtain ⟨rfl, rfl⟩ := Prod.mk.inj (some.inj htake)
    refine ⟨fun hl => (hledger hl).quiet (.of_page_eq rfl rfl rfl), fun p hp => ?_,
      fun p hr => .inl ?_⟩
    · exact congrArg Page.sequence (hsame p (.inr hp))
    · have hlive : (s.page p).Live := by
        refine .inl fun hstate => ?_
        simpa [hr] using ((hs p).idle hstate).2.1
      exact (congrArg Page.freeRequested (hsame p hlive)).trans hr

/-- `dsm_cxl_free_page`: a page that it gives to the buddy system itself was not tracked. -/
theorem Returns.freePage (hs : Sound s q) (hcare : FreeCareful s p)
    (heq : s.freePage pmoType p = some (s', a)) : Returns s s' := by
  unfold Shared.freePage at heq
  extract_lets pg at heq
  by_cases halloc : pg.allocated = true
  · rw [if_neg (by simp [halloc])] at heq
    split at heq
    · cases heq
      refine Quiet.returns ?_
      exact .set p rfl Iff.rfl rfl (fun _ => .inl rfl) rfl rfl
    · cases hstate : pg.state with
      | freePending | freeing =>
        simp only [hstate] at heq
        cases heq
        exact (Quiet.refl s).returns
      | resident =>
        simp only [hstate] at heq
        obtain ⟨s1, h1, heq⟩ := map_eq_some_iff.mp heq
        obtain ⟨⟨e, hpage⟩, hret, htrack⟩ := unaccountPagePolicyLocked_page h1
        obtain ⟨rfl, rfl⟩ := Prod.mk.inj heq
        refine Quiet.returns ?_
        refine .set (g := { pg with
          state := .freePending, phase := .idle, policyEligible := e, pmo := none }) p ?_ ?_ rfl
          .inl hret htrack
        · simp [hpage]
        · simp [Page.Live, show (s.page p).state = .resident from hstate]
      | demoting => simp_all
      | none =>
        have hhand := hcare hstate halloc
        have htracked : pg.tracked = false := (hs p).untracked halloc hstate (by simp [hhand])
        simp only [hstate, htracked, buddyFreePages] at heq
        rw [if_pos halloc] at heq
        cases heq
        refine Quiet.returns ?_
        refine .set p rfl ?_ rfl .inl rfl rfl
        simp [Page.Live, hhand, show (s.page p).state = .none from hstate]
  · rw [if_pos (by simpa using halloc)] at heq
    cases heq
    exact (Quiet.refl s).returns

omit [DecidableEq K] in
theorem Returns.buddyFreePages (hs : Sound s q) (hp : p ∈ q.hold .leaving)
    (hn : (s.page p).sequence = n) (heq : s.buddyFreePages p (some n) = some s') :
    Returns s s' := by
  have hhand := hs.leaving hp
  have hstate := ((hs p).leaves hhand).1
  unfold Shared.buddyFreePages at heq
  split at heq
  · cases heq
    refine ⟨fun hl => hl.back rfl (.inr hhand) (by simp [Page.Live, hstate]) (by rw [hn]; rfl) rfl,
      fun x _ => ?_, fun x hr => .inl ?_⟩
    · by_cases hx : x = p <;> simp [hx]
    · have hx : x ≠ p := by
        rintro rfl
        simpa [hr] using ((hs x).idle hstate).2.1
      simpa [hx] using hr
  · contradiction

theorem Acts.returns (ha : Acts pmoType i s t r)
    (hcare : Careful s t) (hs : Sound s q) (hq : t.phase.running = true → q = t.phase)
    (hn : t.Numbered s) (hr : r = some (s', t')) : Returns s s' ∧ t'.Numbered s' := by
  cases ha with
  | track | valid | invalid | call | serve | notReleasing | retried | notRetried | retryOver
  | scanned | notPrepared | notFlushed | copy | notCopied | restored | finish | finished
  | answered | notAnswered =>
    cases hr
    exact ⟨(Quiet.refl s).returns, trivial⟩
  | reserve | reserveResident | snapshotBegin | done =>
    cases hr
    refine ⟨Quiet.returns ?_, trivial⟩
    exact .of_page_eq rfl rfl rfl
  | noPage | cancelResident | snapshotEnd | settle =>
    obtain ⟨s1, h1, heq⟩ := map_eq_some_iff.mp hr
    cases heq
    refine ⟨Quiet.returns ?_, trivial⟩
    exact .of_guard h1 (.of_page_eq rfl rfl rfl)
  | get p hfree =>
    cases hr
    refine ⟨Quiet.returns ?_, trivial⟩
    refine .set p rfl ?_ rfl .inl rfl rfl
    have hhand : (s.page p).hand ≠ .leaving := fun hl => by
      simpa [hfree] using ((hs p).leaves hl).2.1
    simp [Page.Live, hhand]
  | commit =>
    obtain ⟨s1, h1, heq⟩ := map_eq_some_iff.mp hr
    cases heq
    refine ⟨Quiet.returns (.of_guard h1 ?_), trivial⟩
    refine .set _ rfl ?_ rfl .inl rfl rfl
    simp only [Page.Live]
    grind
  | publish =>
    obtain ⟨a, h1, heq⟩ := map_eq_some_iff.mp hr
    cases heq
    exact ⟨.trackPages hs hcare h1, trivial⟩
  | free =>
    obtain ⟨⟨s1, a⟩, h1, heq⟩ := map_eq_some_iff.mp hr
    cases heq
    refine ⟨.freePage hs hcare h1, ?_⟩
    cases a with
    | none => exact Thread.numbered_after ..
    | some n => trivial
  | uncount =>
    obtain ⟨s1, h1, heq⟩ := map_eq_some_iff.mp hr
    cases heq
    exact ⟨Quiet.returns (.of_guard h1 (.of_page_eq rfl rfl rfl)), Thread.numbered_after ..⟩
  | releasing | released =>
    cases hr
    refine ⟨Quiet.returns ?_, trivial⟩
    exact .set _ rfl Iff.rfl rfl .inl rfl rfl
  | begin scanDue =>
    cases hr
    obtain ⟨n, heq⟩ | ⟨-, n, r, -, heq⟩ := s.reclaimBegin_cases (M := M) i scanDue
    · rw [heq]
      exact ⟨Quiet.returns (.of_page_eq rfl rfl rfl), trivial⟩
    · rw [heq]
      exact ⟨Quiet.returns (.of_page_eq rfl rfl rfl), trivial⟩
  | mark limit =>
    cases hr
    refine ⟨Quiet.returns ?_, trivial⟩
    refine .of_pages rfl (fun p => ?_) (fun p => ?_) (fun p => ?_) rfl rfl
    · by_cases hp : p ∈ s.pendingFrees limit
      · have hstate : (s.page p).state = .freePending := by
          have hmem := List.mem_of_mem_take hp
          simpa using (List.mem_filter.mp hmem).2
        simp [hp, Page.Live, hstate]
      · simp [hp]
    · by_cases hp : p ∈ s.pendingFrees limit <;> simp [hp]
    · by_cases hp : p ∈ s.pendingFrees limit <;> simp [hp]
  | select ss hnodup hsel =>
    cases hr
    refine ⟨Quiet.returns ?_, trivial⟩
    refine .of_pages rfl (fun p => ?_) (fun p => ?_) (fun p => ?_) rfl rfl
    all_goals by_cases hp : p ∈ ss <;> simp [selectCandidates, hp, Page.Live]
  | policy eligible perm hc hm =>
    obtain ⟨s1, h1, heq⟩ := map_eq_some_iff.mp hr
    cases heq
    exact ⟨(accountPagePolicyLocked_quiet h1).returns, trivial⟩
  | release hc =>
    cases hr
    refine ⟨Quiet.returns ?_, Thread.numbered_freeIf ..⟩
    exact .set _ rfl Iff.rfl rfl .inl rfl rfl
  | claim hc hscan hstate =>
    cases hr
    refine ⟨Quiet.returns ?_, trivial⟩
    exact .set _ rfl (iff_of_true (.inl (by simp)) (.inl (by simp [hstate]))) rfl .inl rfl rfl
  | prepare =>
    cases hr
    refine ⟨Quiet.returns (.of_ite fun _ => ?_), trivial⟩
    exact .set _ rfl Iff.rfl rfl .inl rfl rfl
  | notAllowed hm =>
    obtain ⟨s1, h1, heq⟩ := map_eq_some_iff.mp hr
    cases heq
    exact ⟨(accountPagePolicyLocked_quiet h1).returns, trivial⟩
  | defer =>
    cases hr
    refine ⟨Quiet.returns (.of_ite fun hstate => ?_), Thread.numbered_freeIf ..⟩
    exact .set _ rfl (iff_of_true (.inl (by simp)) (.inl (by simp [hstate]))) rfl .inl rfl rfl
  | @flush h cs =>
    cases hr
    refine ⟨Quiet.returns ?_, trivial⟩
    refine .of_pages rfl (fun p => ?_) (fun p => ?_) (fun p => ?_) rfl rfl
    all_goals
      by_cases hp : p ∈ cs ∧ (s.page p).state = .demoting ∧ (s.page p).phase = .prepared <;>
        simp [markFlushed, hp, Page.Live]
  | restore =>
    cases hr
    refine ⟨Quiet.returns (.of_ite fun hstate => ?_), Thread.numbered_freeIf ..⟩
    exact .set _ rfl (iff_of_true (.inl (by simp)) (.inl (by simp [hstate]))) rfl .inl rfl rfl
  | @finishLocked h c requested cs =>
    obtain ⟨s1, h1, heq⟩ := map_eq_some_iff.mp hr
    cases heq
    refine ⟨(Quiet.finishCandidate h1).returns, ?_⟩
    cases requested with
    | true => trivial
    | false => exact (Quiet.finishCandidate h1).sequence c
  | giveBack =>
    obtain ⟨s1, h1, heq⟩ := map_eq_some_iff.mp hr
    cases heq
    refine ⟨.buddyFreePages hs ?_ hn h1, trivial⟩
    rw [hq rfl]
    simp
  | @releaseOrigin h p r =>
    obtain ⟨⟨s1, go⟩, h1, heq⟩ := map_eq_some_iff.mp hr
    cases heq
    refine ⟨Quiet.returns (.releaseOriginPage h1), ?_⟩
    cases go <;> trivial
  | @finalize h p r =>
    obtain ⟨⟨s1, go⟩, h1, heq⟩ := map_eq_some_iff.mp hr
    cases heq
    refine ⟨Quiet.returns (.finalizePageFree h1), ?_⟩
    cases go with
    | true => exact (Quiet.finalizePageFree h1).sequence p
    | false => trivial
  | deferOrigin =>
    cases hr
    refine ⟨Quiet.returns (.of_ite fun hstate => ?_), trivial⟩
    exact .set _ rfl (iff_of_true (.inl (by simp)) (.inl (by simp [hstate]))) rfl .inl rfl rfl

omit [Fintype P] in
/-- A page that a run goes on to free is in none of its lists. -/
theorem Acts.place_eq_elsewhere
    (ha : Acts pmoType i s t r) (hs : Sound s q) (hq : t.phase.running = true → q = t.phase)
    (hr : r = some (s', t')) (ht : t'.phase = .free p (some r')) :
    (s'.page p).place = .elsewhere := by
  have hfree {b : Bool} {c : P} {r0 : Rest P} (h : (Phase.freeIf b c r0 : Phase P M) =
      .free p (some r')) : c = p := by
    cases b <;> simp_all [Phase.freeIf]
  have hdemoting (hp : p ∈ q.hold .demoted) : (s.page p).state = .demoting ∧
      (s.page p).hand = .rest ∧ (s.page p).scanning = false := by
    have hstate := hs.demoting hp
    refine ⟨hstate, ((hs p).inUse (by simp [hstate])).2.1, ?_⟩
    by_contra hscan
    simpa [hstate] using (hs p).scanned (by simpa using hscan)
  cases ha with
  | @release h ss ds c hc =>
    cases hr
    obtain rfl := hfree ht
    have hscan := hs.scanning (p := c) (by rw [hq rfl]; exact hc)
    have hstate := (hs c).scanned hscan
    have hhand := ((hs c).inUse (by simp [hstate])).2.1
    simp [releaseScanning, Page.place, hstate, hhand]
  | @defer h c r =>
    cases hr
    obtain rfl := hfree ht
    obtain ⟨hstate, hhand, hscan⟩ := hdemoting (by rw [hq rfl]; simp)
    simp [deferCandidate, Page.place, hstate, hhand, hscan]
  | restore =>
    cases hr
    obtain rfl := hfree ht
    obtain ⟨hstate, hhand, hscan⟩ := hdemoting (by rw [hq rfl]; simp)
    simp [restoreCandidate, Page.place, hstate, hhand, hscan]
  | begin scanDue =>
    cases hr
    obtain ⟨n, heq⟩ | ⟨-, n, r, -, heq⟩ := s.reclaimBegin_cases (M := M) i scanDue
    · rw [heq] at ht
      cases ht
    · rw [heq] at ht
      cases ht
  | free =>
    obtain ⟨⟨s1, a⟩, h1, heq⟩ := map_eq_some_iff.mp hr
    cases heq
    cases a with
    | none => exact absurd ht (Phase.after_ne_free _ _)
    | some n => cases ht
  | uncount =>
    obtain ⟨s1, h1, heq⟩ := map_eq_some_iff.mp hr
    cases heq
    exact absurd ht (Phase.after_ne_free _ _)
  | finishLocked | releaseOrigin | finalize =>
    obtain ⟨s1, h1, heq⟩ := map_eq_some_iff.mp hr
    cases heq
    dsimp only at ht
    split at ht <;> cases ht
  | noPage | commit | cancelResident | publish | snapshotEnd | policy | notAllowed | giveBack
  | settle =>
    obtain ⟨s1, h1, heq⟩ := map_eq_some_iff.mp hr
    cases heq
    cases ht
  | _ =>
    cases hr
    cases ht

end steps

/-! ## Whole runs -/

theorem Phase.giveBack_of_mem_leaving (h : p ∈ q.hold .leaving) : ∃ n r, q = .giveBack p n r := by
  have hrest (r : Rest P) : r.hold .leaving = [] := by cases r <;> rfl
  cases q with
  | giveBack x n r =>
    have hx : p = x := by simpa [hrest] using h
    exact ⟨n, r, by rw [hx]⟩
  | free x r | uncount x r => cases r <;> simp at h
  | _ => simp at h

section runs

variable [Fintype P] [DecidableEq P] [DecidableEq K] [Fintype T] {w w' : World P T M K}

section

variable (hi : Inv pmoType w)
include hi

theorem Inv.lead_eq (hrun : (w.pc i).phase.running = true) : lead w = (w.pc i).phase := by
  rw [lead, (hi.runner i).mp hrun]

theorem Inv.place_eq_iff (hk : k ≠ .elsewhere) :
    (w.mem.page p).place = k ↔ p ∈ (lead w).hold k := by
  rw [← List.count_pos_iff, (hi.sound p).held k hk]
  by_cases hp : (w.mem.page p).place = k <;> simp [hp]

theorem Inv.giveBack_of_leaving (hp : (w.mem.page p).hand = .leaving) :
    ∃ i n r, (w.pc i).phase = .giveBack p n r := by
  have hplace : (w.mem.page p).place = .leaving := by simp [Page.place, hp]
  obtain ⟨n, r, hlead⟩ := Phase.giveBack_of_mem_leaving ((hi.place_eq_iff (by simp)).mp hplace)
  unfold lead at hlead
  cases hr : w.mem.reclaiming with
  | none => simp [hr] at hlead
  | some i =>
    rw [hr] at hlead
    exact ⟨i, n, r, hlead⟩

/-- A page with a request that is in no list of the run. -/
theorem Inv.requested_elsewhere
    (hr : (w.mem.page p).freeRequested = true) (hplace : (w.mem.page p).place = .elsewhere) :
    (w.mem.page p).allocated = true ∧ (w.mem.page p).scanning = false ∧
      ((w.mem.page p).state = .resident ∨ (w.mem.page p).state = .freePending) := by
  have hstand := hi.sound p
  have hstate : (w.mem.page p).state ≠ .none := fun hnone => by
    simpa [hr] using (hstand.idle hnone).2.1
  obtain ⟨halloc, hhand, -, -⟩ := hstand.inUse hstate
  have hscan := hstand.scanned
  unfold Page.place at hplace
  rw [hhand] at hplace
  refine ⟨halloc, ?_⟩
  cases hs : (w.mem.page p).state <;> cases hsc : (w.mem.page p).scanning <;> simp_all

end

variable [DecidableEq T]

/-- What every state of a run of careful steps has. -/
structure Kept (pmoType : M → K) (w : World P T M K) : Prop where
  inv : Inv pmoType w
  ledger : Ledger w.mem
  numbered : ∀ i, (w.pc i).Numbered w.mem
  /-- What the run frees next is in none of its lists. -/
  free : ∀ i p r, (w.pc i).phase = .free p (some r) → (w.mem.page p).place = .elsewhere

namespace Kept

theorem start (totalPages limitPages : ℕ) :
    Kept pmoType (Reclaim.start P T M K totalPages limitPages) where
  inv := .start totalPages limitPages
  ledger n := by
    have hn : 1 ≤ n → n ≠ 0 := by omega
    simpa [Reclaim.start, live, Page.fresh, Page.Live] using hn
  numbered _ := trivial
  free i p r h := by simp [Reclaim.start] at h

theorem step (hcard : Fintype.card P ≤ 2 ^ 52) (hk : Kept pmoType w)
    (h : Step pmoType Careful w w') :
    Kept pmoType w' ∧ Returns w.mem w'.mem := by
  have hi' := hk.inv.step hcard h
  cases h with
  | bug hC ha =>
    obtain ⟨_, _, heq, -⟩ := hk.inv.act hcard ha hC
    contradiction
  | @act i s' t' hC ha =>
    have hq : (w.pc i).phase.running = true → lead w = (w.pc i).phase := hk.inv.lead_eq
    obtain ⟨hret, hnum⟩ := ha.returns hC hk.inv.sound hq (hk.numbered i) rfl
    refine ⟨⟨hi', hret.ledger hk.ledger, fun j => ?_, fun j p r hj => ?_⟩, hret⟩
    · by_cases hji : j = i
      · rw [hji, Threads.move_pc_self]
        exact hnum
      · rw [Threads.move_pc_of_ne w hji]
        have hnj := hk.numbered j
        unfold Thread.Numbered at hnj ⊢
        cases hph : (w.pc j).phase with
        | giveBack p n r =>
          simp only [hph] at hnj ⊢
          have hlead := hk.inv.lead_eq (i := j) (by rw [hph]; rfl)
          have hhand := hk.inv.sound.leaving (p := p) (by rw [hlead, hph]; simp)
          exact (hret.sequence p hhand).trans hnj
        | _ => trivial
    · by_cases hji : j = i
      · rw [hji, Threads.move_pc_self] at hj
        exact ha.place_eq_elsewhere hk.inv.sound hq rfl hj
      · -- thread `j` is the run, and its lists are as they were
        have hlead' := hi'.lead_eq (i := j) (by rw [hj]; rfl)
        rw [hj] at hlead'
        rw [Threads.move_pc_of_ne w hji] at hj
        have hlead := hk.inv.lead_eq (i := j) (by rw [hj]; rfl)
        by_contra hne
        have hmem := (hi'.place_eq_iff (p := p) hne).mp rfl
        rw [hlead', ← hj, ← hlead] at hmem
        have hplace := (hk.inv.place_eq_iff hne).mpr hmem
        exact hne (hplace.symm.trans (hk.free j p r hj))

theorem run (hcard : Fintype.card P ≤ 2 ^ 52) (hk : Kept pmoType w)
    (h : Relation.ReflTransGen (Step pmoType Careful) w w') : Kept pmoType w' := by
  induction h with
  | refl => exact hk
  | tail _ hstep ih => exact (ih.step hcard hstep).1

end Kept

/-! ## The requests -/

/-- Every tracking ends with one return of its page: until then one page has its number. -/
def ReturnedOnce (s : Shared P T M K) : Prop :=
  ∀ n, 1 ≤ n → n ≤ s.trackings →
    (s.returned.count n = 1 ∧ ∀ p, (s.page p).Live → (s.page p).sequence ≠ n) ∨
    (s.returned.count n = 0 ∧ ∃! p, (s.page p).Live ∧ (s.page p).sequence = n)

/-- What becomes of the requests to free a page. -/
structure Honoured (pmoType : M → K) (w : World P T M K) : Prop where
  /-- A request is on a page that the run scans or demotes or frees next, or the page is queued
  or is being freed. -/
  recorded : ∀ p, (w.mem.page p).freeRequested = true →
    (w.mem.page p).scanning = true ∨ (w.mem.page p).state = .demoting ∨
      (∃ i r, (w.pc i).phase = .free p (some r)) ∨
      (w.mem.page p).state = .freePending ∨ (w.mem.page p).state = .freeing
  /-- When no run is under way, the page is queued. -/
  queued : w.mem.reclaiming = none → ∀ p, (w.mem.page p).freeRequested = true →
    (w.mem.page p).state = .freePending
  /-- What the run frees is queued when it has done so. -/
  freed : ∀ i p r, (w.pc i).phase = .free p (some r) → (w.mem.page p).freeRequested = true →
    ∀ s' t', Acts pmoType i w.mem (w.pc i) (some (s', t')) → (s'.page p).state = .freePending
  /-- A step forgets no request unless the run now gives the page back. -/
  kept : ∀ w', Step pmoType Careful w w' → ∀ p, (w.mem.page p).freeRequested = true →
    (w'.mem.page p).freeRequested = true ∨ ∃ i n r, (w'.pc i).phase = .giveBack p n r

omit [DecidableEq P] [DecidableEq K] [Fintype T] in
theorem Ledger.returnedOnce (hl : Ledger s) : ReturnedOnce s := by
  intro n h1 hn
  have hsum := hl n
  rw [if_pos ⟨h1, hn⟩] at hsum
  by_cases hzero : s.live n = 0
  · refine .inl ⟨by omega, fun p hp hseq => ?_⟩
    have hp0 := (sum_eq_zero_iff.mp hzero) p (mem_univ p)
    simp [hp, hseq] at hp0
  · refine .inr ⟨by omega, ?_⟩
    have hcard : (univ.filter fun p => (s.page p).Live ∧ (s.page p).sequence = n).card =
        1 := by
      rw [card_filter]
      exact show s.live n = 1 by omega
    obtain ⟨p, hp⟩ := card_eq_one.mp hcard
    have hiff (x : P) : ((s.page x).Live ∧ (s.page x).sequence = n) ↔ x = p := by
      simpa using congrArg (x ∈ ·) hp
    exact ⟨p, (hiff p).mpr rfl, fun x hx => (hiff x).mp hx⟩

omit [Fintype P] [DecidableEq K] [DecidableEq T] [Fintype T] in
theorem World.free_of_honours (h : (lead w).honours p = true) :
    ∃ i r, (w.pc i).phase = .free p (some r) := by
  unfold lead at h
  cases hr : w.mem.reclaiming with
  | none => simp [hr] at h
  | some i =>
    simp only [hr] at h
    cases hph : (w.pc i).phase with
    | free x r =>
      cases r with
      | none => simp [hph] at h
      | some r =>
        obtain rfl : x = p := by simpa [hph] using h
        exact ⟨i, r, hph⟩
    | _ => simp [hph] at h

theorem Kept.honoured (hcard : Fintype.card P ≤ 2 ^ 52) (hk : Kept pmoType w) :
    Honoured pmoType w where
  recorded p hr := by
    have hstand := hk.inv.sound p
    cases hstate : (w.mem.page p).state with
    | none => simpa [hr] using (hstand.idle hstate).2.1
    | demoting => exact .inr (.inl rfl)
    | freePending => exact .inr (.inr (.inr (.inl rfl)))
    | freeing => exact .inr (.inr (.inr (.inr rfl)))
    | resident =>
      cases hscan : (w.mem.page p).scanning with
      | true => exact .inl rfl
      | false =>
        have hnext := hstand.honoured hr hstate hscan
        exact .inr (.inr (.inl (free_of_honours hnext)))
  queued hnone p hr := by
    have hlead : lead w = .idle := by rw [lead, hnone]
    have hplace : (w.mem.page p).place = .elsewhere := by
      by_contra hne
      have hmem := (hk.inv.place_eq_iff (p := p) hne).mp rfl
      simp [hlead] at hmem
    obtain ⟨-, hscan, hstate | hstate⟩ := hk.inv.requested_elsewhere hr hplace
    · have hnext := (hk.inv.sound p).honoured hr hstate hscan
      simp [hlead] at hnext
    · exact hstate
  freed i p r hph hr s' t' ha := by
    obtain ⟨halloc, hscan, hstate⟩ := hk.inv.requested_elsewhere hr (hk.free i p r hph)
    have hpc : w.pc i = ⟨(w.pc i).held, .free p (some r)⟩ := by rw [← hph]
    rw [hpc] at ha
    generalize hres : some (s', t') = res at ha
    cases ha with
    | free =>
      obtain ⟨⟨s1, a⟩, h1, heq⟩ := map_eq_some_iff.mp hres.symm
      cases heq
      exact freePage_queues halloc hscan hstate h1
  kept w' hstep p hr := by
    obtain ⟨hk', hret⟩ := hk.step hcard hstep
    exact (hret.request p hr).imp id hk'.inv.giveBack_of_leaving

/-- In every run in which no call comes too late, every request that is on record is honoured,
and every tracking ends with one return of its page. -/
theorem honoured_in_careful_runs (pmoType : M → K) (hcard : Fintype.card P ≤ 2 ^ 52)
    (totalPages limitPages : ℕ) {w : World P T M K}
    (hrun : Relation.ReflTransGen (Step pmoType Careful) (start P T M K totalPages limitPages) w) :
    Honoured pmoType w ∧ ReturnedOnce w.mem := by
  have hk := (Kept.start totalPages limitPages).run hcard hrun
  exact ⟨hk.honoured hcard, hk.ledger.returnedOnce⟩

/-- A page is to be freed while a run has claimed it. -/
theorem honoured_after_request : ∃ w : World Unit Bool Unit Unit,
    (w.mem.page ()).freeRequested = true ∧ Honoured id w ∧ ReturnedOnce w.mem := by
  have hresident := run_of_goes (w := start Unit Bool Unit Unit 1 1) goes_resident
  have hclaimed := hresident.trans (run_of_goes (C := Careful) (i := true)
    (.head (.of_eq trivial (.begin true) rfl) (.head (.of_eq trivial (.select [()] (by simp)
      fun _ _ => ⟨.head _, rfl, rfl, Option.some_ne_none ()⟩) rfl)
      (.single (.of_eq trivial (.claim (c := ()) (by simp) rfl rfl) rfl)))))
  have hrequested := hclaimed.trans (run_of_goes (C := Careful) (i := false)
    (.head (.of_eq trivial (.call ()) rfl) (.single (.of_eq (fun h => by cases h) .free rfl))))
  exact ⟨_, rfl, honoured_in_careful_runs id (by decide) 1 1 hrequested⟩

/-- A run has taken a page off the FIFO.  Another thread frees it and gets it again, and the run
gives it back a second time. -/
theorem late_free_returns_twice : ∃ w : World Unit Bool Unit Unit,
    Relation.ReflTransGen (Step id Any) (start Unit Bool Unit Unit 1 1) w ∧
      w.mem.trackings = 1 ∧ w.mem.returned.count 1 = 2 :=
  ⟨_, run_late.tail (.act (i := true) trivial .giveBack), rfl, rfl⟩

end runs

end Starfish.Reclaim
