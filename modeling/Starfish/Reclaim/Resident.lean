import Starfish.Reclaim.Counters

/-!
# Starfish.Reclaim.Resident

What one step of the reclaimer does for the pages, the counters and the thread that took it:
`Fits`.  Here are the steps that a thread takes outside a reclaim run: allocating, reserving,
tracking and freeing pages, snapshots and the service of another machine's requests.  They keep
what a run has in hand as it is.

A call that finds a page untracked relies on the page being in use and in nobody's hand.
-/

namespace Starfish.Reclaim

open Shared Thread Function

variable {P T M K : Type} [Fintype P] [DecidableEq P] [DecidableEq K]

/-! ## What a step does -/

/-- What a thread relies on between its steps. -/
@[simp] def Thread.Fit (i : T) (s : Shared P T M K) (t : Thread P M) : Prop :=
  match t.phase with
  | .got p o => (s.page p).hand = .taken i ∧ (s.page p).order = o
  | .validate todo ops => todo.length + ops.length ≤ t.held
  | .finalize p _ => (s.page p).origin = .released
  | _ => True

/-- A step of thread `i` from `s` to `s'`, while the run goes from `q` to `q'`. -/
structure Fits (pmoType : M → K) (i : T) (s : Shared P T M K) (t : Thread P M)
    (s' : Shared P T M K) (q' : Phase P M) (t' : Thread P M) : Prop where
  sound : Sound s' q'
  balances : Balances pmoType s t s' t'
  fit : t'.Fit i s'
  /-- What another thread has got from the buddy system is left alone. -/
  others : ∀ p j, j ≠ i → (s.page p).hand = .taken j →
    (s'.page p).hand = .taken j ∧ (s'.page p).order = (s.page p).order
  /-- The origin of a tracked page stays released. -/
  released : ∀ p, (s.page p).state ≠ .none → (s.page p).origin = .released →
    (s'.page p).origin = .released
  token : s'.reclaiming = s.reclaiming

variable {pmoType : M → K} {s s' : Shared P T M K} {q q' : Phase P M}
  {p : P}

/-- A step that has to do with one page. -/
theorem Fits.set (hs : Sound s q) (hpage : s'.page = update s.page p pg)
    (hfifo : ∀ x, x ≠ p → s'.fifo.count x = s.fifo.count x)
    (hhold : ∀ k x, x ≠ p → (q'.hold k).count x = (q.hold k).count x)
    (hnext : ∀ x, x ≠ p → q.honours x = true → q'.honours x = true)
    (hp : Standing pg (s'.fifo.count p) (fun k => (q'.hold k).count p) (q'.honours p))
    (hbal : ∀ c, s'.value c + ((s.page p).weight pmoType c + t.due c) =
      s.value c + (pg.weight pmoType c + t'.due c))
    (hfit : t'.Fit i s')
    (hothers : ∀ j, j ≠ i → (s.page p).hand = .taken j →
      pg.hand = .taken j ∧ pg.order = (s.page p).order)
    (hreleased : (s.page p).state ≠ .none → (s.page p).origin = .released →
      pg.origin = .released) (htoken : s'.reclaiming = s.reclaiming) :
    Fits pmoType i s t s' q' t' where
  sound := by
    refine hs.update (p := p) (fun x hx => ?_) hfifo hhold hnext ?_
    · rw [hpage, update_of_ne hx]
    · rw [hpage, update_self]
      exact hp
  balances := by
    refine Balances.of_page (p := p) (fun x hx => ?_) fun c => ?_
    · rw [hpage, update_of_ne hx]
    · rw [hpage, update_self]
      exact hbal c
  fit := hfit
  others := by
    intro x j hj hhand
    rw [hpage]
    by_cases hx : x = p
    · subst hx
      rw [update_self]
      exact hothers j hj hhand
    · rw [update_of_ne hx]
      exact ⟨hhand, rfl⟩
  released := by
    intro x hstate horigin
    rw [hpage]
    by_cases hx : x = p
    · subst hx
      rw [update_self]
      exact hreleased hstate horigin
    · rwa [update_of_ne hx]
  token := htoken

theorem Fits.same (hs : Sound s q) (hpage : s'.page = s.page) (hfifo : s'.fifo = s.fifo)
    (hhold : ∀ k x, (q'.hold k).count x = (q.hold k).count x)
    (hnext : ∀ x, q.honours x = true → q'.honours x = true)
    (hbal : ∀ c, s'.value c + t.due c = s.value c + t'.due c) (hfit : t'.Fit i s')
    (htoken : s'.reclaiming = s.reclaiming) :
    Fits pmoType i s t s' q' t' where
  sound := hs.keep hpage hfifo hhold hnext
  balances := .of_same hpage hbal
  fit := hfit
  others p j _ hhand := by
    rw [hpage]
    exact ⟨hhand, rfl⟩
  released p _ horigin := by rwa [hpage]
  token := htoken

omit [Fintype P] [DecidableEq K] in
theorem Sound.not_taken (hs : Sound s q) (hstate : (s.page p).state ≠ .none) (j : T) :
    (s.page p).hand ≠ .taken j := by
  rw [((hs p).inUse hstate).2.1]
  simp

/-! ## The steps outside a run -/

namespace Fits

section

variable (hs : Sound s q)
include hs

theorem reserve (o : ℕ) :
    Fits pmoType i s ⟨h, .idle⟩ { s with reservedPages := s.reservedPages + 2 ^ o } q
      ⟨h, .reserved o⟩ :=
  .same hs rfl rfl (fun _ _ => rfl) (fun _ hx => hx) (fun c => by cases c <;> simp) trivial rfl

theorem get (hfree : (s.page p).allocated = false) : Fits pmoType i s ⟨h, .reserved o⟩
      (s.setPage p { s.page p with
        allocated := true, order := o, hand := .taken i, tracked := false }) q ⟨h, .got p o⟩ := by
  have hstate : (s.page p).state = .none := by
    by_contra hne
    simpa [hfree] using ((hs p).inUse hne).1
  refine .set hs (p := p) rfl (fun _ _ => rfl) (fun _ _ _ => rfl) (fun _ _ hx => hx)
    ((hs p).get hfree o i) (fun c => ?_) ?_ (fun j _ hhand => ?_) (fun _ ho => ho) rfl
  · cases c <;> simp [hfree, hstate, (hs p).idle hstate]
  · simp
  · simpa [hfree] using ((hs p).taken j hhand).2

theorem noPage (hc : Covers pmoType s ⟨h, .reserved o⟩) :
    ∃ s', s.cancelReservedPages (2 ^ o) = some s' ∧
      Fits pmoType i s ⟨h, .reserved o⟩ s' q ⟨h, .idle⟩ := by
  have hle : 2 ^ o ≤ s.reservedPages := by simpa using hc.due_le .reserved
  refine ⟨_, if_neg (by omega), .same hs rfl rfl (fun _ _ => rfl) (fun _ hx => hx) ?_ trivial rfl⟩
  intro c
  cases c <;> simp
  omega

theorem commit [DecidableEq T] (hc : Covers pmoType s ⟨h, .got p o⟩)
    (hfit : Thread.Fit i s ⟨h, .got p o⟩) :
    ∃ s', s.commitReservedPages i p (2 ^ o) = some s' ∧
      Fits pmoType i s ⟨h, .got p o⟩ s' q ⟨h, .idle⟩ := by
  have hle : 2 ^ o ≤ s.reservedPages := by simpa using hc.due_le .reserved
  obtain ⟨hhand, horder⟩ := hfit
  obtain ⟨hstate, halloc⟩ := (hs p).taken i hhand
  refine ⟨_, if_neg (by omega), .set hs (p := p) rfl (fun _ _ => rfl) (fun _ _ _ => rfl)
    (fun _ _ hx => hx) ((hs p).commit i) (fun c => ?_) trivial (fun j hj hhand' => ?_)
    (fun _ ho => ho) rfl⟩
  · cases c <;> simp [hhand, halloc, horder]
    omega
  · exact absurd (Hand.taken.inj (hhand'.symm.trans hhand)) hj

theorem reserveResident (n : ℕ) :
    Fits pmoType i s ⟨h, .idle⟩ (s.reserveResidentPages n) q ⟨h + n, .idle⟩ := by
  refine .same hs rfl rfl (fun _ _ => rfl) (fun _ hx => hx) (fun c => ?_) trivial rfl
  cases c <;> simp [reserveResidentPages]
  omega

theorem cancelResident (hn : n ≤ h) (hc : Covers pmoType s ⟨h, .idle⟩) :
    ∃ s', s.cancelResidentPages n = some s' ∧ Fits pmoType i s ⟨h, .idle⟩ s' q ⟨h - n, .idle⟩ := by
  have hle : h ≤ s.residentReservedPages := by simpa using hc.due_le .residentReserved
  refine ⟨_, if_neg (by omega), .same hs rfl rfl (fun _ _ => rfl) (fun _ hx => hx) ?_ trivial rfl⟩
  intro c
  cases c <;> simp
  omega

theorem look (hfit : Thread.Fit i s ⟨h, ph'⟩)
    (hdue : ∀ c : Counter K, due ⟨h, ph'⟩ c = due ⟨h, ph⟩ c) :
    Fits pmoType i s ⟨h, ph⟩ s q ⟨h, ph'⟩ :=
  .same hs rfl rfl (fun _ _ => rfl) (fun _ hx => hx) (fun c => by rw [hdue c]) hfit rfl

theorem setOrigin (o : Origin) (ho : (s.page p).origin = .released → o = .released)
    (hfit : Thread.Fit i (s.setPage p { s.page p with origin := o }) ⟨h, ph'⟩)
    (hdue : ∀ c : Counter K, due ⟨h, ph'⟩ c = due ⟨h, ph⟩ c) :
    Fits pmoType i s ⟨h, ph⟩ (s.setPage p { s.page p with origin := o }) q ⟨h, ph'⟩ := by
  refine .set hs (p := p) rfl (fun _ _ => rfl) (fun _ _ _ => rfl) (fun _ _ hx => hx)
    ((hs p).setOrigin o) (fun c => ?_) hfit (fun j _ hhand => ⟨hhand, rfl⟩) (fun _ h => ho h) rfl
  rw [hdue c]
  cases c <;> simp

theorem snapshotBegin :
    Fits pmoType i s ⟨h, .idle⟩ { s with snapshotting := s.snapshotting + 1 } q ⟨h, .snapshot⟩ :=
  .same hs rfl rfl (fun _ _ => rfl) (fun _ hx => hx) (fun c => by cases c <;> simp) trivial rfl

theorem snapshotEnd (hc : Covers pmoType s ⟨h, .snapshot⟩) :
    ∃ s', s.snapshotEnd = some s' ∧ Fits pmoType i s ⟨h, .snapshot⟩ s' q ⟨h, .idle⟩ := by
  have hle : 1 ≤ s.snapshotting := by simpa using hc.due_le .snapshots
  refine ⟨_, if_neg (by omega), .same hs rfl rfl (fun _ _ => rfl) (fun _ hx => hx) ?_ trivial rfl⟩
  intro c
  cases c <;> simp
  omega

end

end Fits

/-! ## Freeing a page -/

/-- What `dsm_cxl_free_page` may find: a page that it finds untracked and allocated is in
nobody's hand. -/
def FreeCareful (s : Shared P T M K) (p : P) : Prop :=
  (s.page p).state = .none → (s.page p).allocated = true → (s.page p).hand = .rest

section

omit [Fintype P]

variable (halloc : (s.page p).allocated = true)
include halloc

theorem Shared.freePage_of_busy
    (hbusy : (s.page p).scanning = true ∨ (s.page p).state = .demoting) :
    s.freePage pmoType p = some (s.setPage p { s.page p with freeRequested := true }, none) := by
  simp [freePage, halloc, hbusy]

variable (hscan : (s.page p).scanning = false)
include hscan

theorem Shared.freePage_of_queued
    (hstate : (s.page p).state = .freePending ∨ (s.page p).state = .freeing) :
    s.freePage pmoType p = some (s, none) := by
  rcases hstate with hstate | hstate <;> simp [freePage, halloc, hscan, hstate]

/-- The page is put at the head of the FIFO, where a later run finds it. -/
theorem Shared.freePage_of_resident (hstate : (s.page p).state = .resident)
    (hpmo : (s.page p).pmo ≠ none)
    (htype : ∀ k, (s.page p).weight pmoType (.byPmoType k) ≤ s.eligibleByPmoType k)
    (hperm : ∀ x, (s.page p).weight pmoType (.byPerm x) ≤ s.eligibleByPerm x) :
    ∃ f g, s.freePage pmoType p =
        some ({ s with
          page := update s.page p { s.page p with
            state := .freePending, phase := .idle, policyEligible := false, pmo := none }
          freePendingPages := s.freePendingPages + 1
          fifo := p :: s.fifo.erase p
          eligibleByPmoType := f
          eligibleByPerm := g }, none) ∧
      (∀ k, f k + (s.page p).weight pmoType (.byPmoType k) = s.eligibleByPmoType k) ∧
      ∀ x, g x + (s.page p).weight pmoType (.byPerm x) = s.eligibleByPerm x := by
  obtain ⟨f, g, heq, hf, hg⟩ := unaccountPagePolicyLocked_eq pmoType
    (s := s.setPage p { s.page p with state := .freePending, phase := .idle }) (p := p)
    (m := (s.page p).pmo) (fun k => by simpa using htype k) (fun x => by simpa using hperm x)
    (by simp) (fun _ => hpmo)
  refine ⟨f, g, ?_, by simpa using hf, by simpa using hg⟩
  unfold freePage
  rw [if_neg (by simp [halloc]), if_neg (by simp [hscan, hstate])]
  simp only [hstate]
  rw [heq]
  simp

theorem Shared.freePage_of_none (hstate : (s.page p).state = .none)
    (htracked : (s.page p).tracked = false) :
    s.freePage pmoType p = some (s.setPage p { s.page p with allocated := false, hand := .rest },
        some (2 ^ (s.page p).order)) := by
  simp [freePage, buddyFreePages, halloc, hscan, hstate, htracked]

end

/-- `dsm_cxl_free_page`, called from outside or from a run, that goes on from `q` to `q'`. -/
@[simp] theorem Fits.freePage (hs : Sound s q) (hcare : FreeCareful s p)
    (hc : Covers pmoType s ⟨h, .free p r⟩) {q' : Option ℕ → Phase P M}
    (hhold : ∀ n k, (q' n).hold k = q.hold k)
    (hnext : ∀ n x, x ≠ p → q.honours x = true → (q' n).honours x = true) :
    ∃ s' n, s.freePage pmoType p = some (s', n) ∧ Fits pmoType i s ⟨h, .free p r⟩ s' (q' n)
        ⟨h, match n with | none => .after r | some n => .uncount n r⟩ := by
  have hfit : ∀ s' : Shared P T M K, Thread.Fit i s' ⟨h, .after r⟩ := by
    cases r <;> simp [Phase.after]
  -- a page that is left as it is has no request that the run would have to honour
  have hleft : ((s.page p).freeRequested = true → (s.page p).state = .resident →
      (s.page p).scanning = false → False) →
      Fits pmoType i s ⟨h, .free p r⟩ s (q' none) ⟨h, .after r⟩ := by
    intro hnone
    refine .set hs (p := p) (update_eq_self ..).symm (fun _ _ => rfl)
      (fun k _ _ => by rw [hhold]) (hnext none) ?_ (fun c => ?_) (hfit s)
      (fun j _ hhand => ⟨hhand, rfl⟩) (fun _ ho => ho) rfl
    · simp only [hhold]
      exact { hs p with honoured := fun hr hstate hscan => (hnone hr hstate hscan).elim }
    · rw [due_after]
      cases c <;> simp
  by_cases halloc : (s.page p).allocated = true
  · by_cases hbusy : (s.page p).scanning = true ∨ (s.page p).state = .demoting
    · refine ⟨_, none, freePage_of_busy halloc hbusy, .set hs (p := p) rfl
        (fun _ _ => rfl) (fun k _ _ => by rw [hhold]) (hnext none) ?_ (fun c => ?_) (hfit _)
        (fun j _ hhand => ⟨hhand, rfl⟩) (fun _ ho => ho) rfl⟩
      · simp only [hhold]
        exact (hs p).request hbusy
      · rw [due_after]
        cases c <;> simp
    · obtain ⟨hscan, hdem⟩ : (s.page p).scanning = false ∧ (s.page p).state ≠ .demoting := by
        simpa using hbusy
      cases hstate : (s.page p).state with
      | demoting => exact absurd hstate hdem
      | freePending =>
        exact ⟨s, none, freePage_of_queued halloc hscan (.inl hstate), hleft (by simp [hstate])⟩
      | freeing =>
        exact ⟨s, none, freePage_of_queued halloc hscan (.inr hstate), hleft (by simp [hstate])⟩
      | resident =>
        obtain ⟨f, g, heq, hf, hg⟩ := freePage_of_resident halloc hscan hstate
          ((hs p).pmo (.inl hstate)) (fun k => hc.weight_le p (.byPmoType k))
          (fun x => hc.weight_le p (.byPerm x))
        refine ⟨_, none, heq, .set hs (p := p) rfl (fun x hx => ?_)
          (fun k _ _ => by rw [hhold]) (hnext none) ?_ (fun c => ?_) (hfit _) ?_ (fun _ ho => ho) rfl⟩
        · simp [hx, Ne.symm hx]
        · have hlisted : s.fifo.count p = 1 := by simpa [hstate] using (hs p).listed
          have hcount : (p :: s.fifo.erase p).count p = s.fifo.count p := by simp [hlisted]
          simp only [hhold, hcount]
          exact (hs p).queue hstate hscan
        · rw [due_after]
          cases c with
          | byPmoType k => simpa using hf k
          | byPerm x => simpa using hg x
          | _ => simp [hstate]
        · exact fun j _ hhand => absurd hhand (hs.not_taken (by simp [hstate]) j)
      | none =>
        have hhand := hcare hstate halloc
        refine ⟨_, some (2 ^ (s.page p).order), freePage_of_none halloc hscan hstate
          ((hs p).untracked halloc hstate (by simp [hhand])), .set hs (p := p) rfl
          (fun _ _ => rfl) (fun k _ _ => by rw [hhold]) (hnext _) ?_ (fun c => ?_) trivial
          (fun j _ hhand' => by simp [hhand] at hhand') (fun _ ho => ho) rfl⟩
        · simp only [hhold]
          refine (hs p).back hstate fun k hk => ?_
          simpa [Page.place, hhand, hstate, Ne.symm hk] using (hs p).held k hk
        · cases c <;> simp [hhand, halloc]
  · have halloc' : (s.page p).allocated = false := by simpa using halloc
    refine ⟨s, none, by simp [Shared.freePage, halloc'], hleft fun _ hstate _ => ?_⟩
    exact halloc ((hs p).inUse (by simp [hstate])).1

theorem Fits.uncount (hs : Sound s q)
    (hc : Covers pmoType s ⟨h, .uncount n r⟩) (hhold : ∀ k, q'.hold k = q.hold k)
    (hnext : ∀ x, q.honours x = true → q'.honours x = true) :
    ∃ s', s.uncount n = some s' ∧ Fits pmoType i s ⟨h, .uncount n r⟩ s' q' ⟨h, .after r⟩ := by
  have hle : n ≤ s.allocatedPages := by simpa using hc.due_le .allocated
  refine ⟨_, if_neg (by omega), .same hs rfl rfl (fun k _ => by rw [hhold]) hnext (fun c => ?_)
    (by cases r <;> trivial) rfl⟩
  rw [due_after]
  cases c <;> simp
  omega

/-! ## Tracking pages -/

/-- What `dsm_cxl_track_pages` may find: a page that it finds untracked is one page, allocated
and in nobody's hand. -/
def TrackCareful (s : Shared P T M K) (ops : List (TrackOp P M)) : Prop :=
  ∀ op ∈ ops, (s.page op.page).state = .none →
    (s.page op.page).allocated = true ∧ (s.page op.page).order = 0 ∧
      (s.page op.page).hand = .rest

/-- The pages that were tracked and are not counted as resident yet. -/
@[simp] def Counter.uncounted (n : ℕ) : Counter K → ℕ
  | .resident => n
  | _ => 0

/-- What the loop of `dsm_cxl_track_pages` does, from `n` pages tracked to `n'`. -/
structure Tracks (pmoType : M → K) (s : Shared P T M K) (n : ℕ) (s' : Shared P T M K) (n' : ℕ)
    (q : Phase P M) : Prop where
  sound : Sound s' q
  balances : ∀ c : Counter K, s'.value c + (s.total pmoType c + c.uncounted n') =
    s.value c + (s'.total pmoType c + c.uncounted n)
  token : s'.reclaiming = s.reclaiming
  others : ∀ p j, (s.page p).hand = .taken j → s'.page p = s.page p
  /-- What was tracked is as it was. -/
  tracked : ∀ p, (s.page p).state ≠ .none → s'.page p = s.page p
  /-- What is still untracked is as it was. -/
  rest : ∀ p, (s'.page p).state = .none → s'.page p = s.page p

theorem Tracks.refl (hs : Sound s q) (n : ℕ) : Tracks pmoType s n s n q :=
  ⟨hs, fun _ => rfl, rfl, fun _ _ _ => rfl, fun _ _ => rfl, fun _ _ => rfl⟩

theorem Tracks.trans (h1 : Tracks pmoType s n s1 n1 q)
    (h2 : Tracks pmoType s1 n1 s2 n2 q) : Tracks pmoType s n s2 n2 q where
  sound := h2.sound
  balances c := by
    have hb1 := h1.balances c
    have hb2 := h2.balances c
    omega
  token := h2.token.trans h1.token
  others p j hhand := by
    have hsame := h1.others p j hhand
    rw [h2.others p j (by rw [hsame, hhand]), hsame]
  tracked p hstate := by
    have hsame := h1.tracked p hstate
    rw [h2.tracked p (by rwa [hsame]), hsame]
  rest p hstate := by
    have hsame := h2.rest p hstate
    rw [hsame, h1.rest p (by rwa [← hsame])]

omit [Fintype P] in
theorem Shared.trackOp_of_none (pmoType : M → K) (n : ℕ) (hstate : (s.page op.page).state = .none) :
    ∃ f g, s.trackOp pmoType n op =
        some ({ s with
          page := update s.page op.page
            { s.page op.page with
              pmo := some op.pmo
              sequence := s.trackings + 1
              phase := .idle
              freeRequested := false
              origin := .notReleased
              scanning := false
              policyEligible := op.eligible
              policyPerm := op.perm &&& rwx
              tracked := true
              state := .resident }
          fifo := s.fifo ++ [op.page]
          trackings := s.trackings + 1
          eligibleByPmoType := f
          eligibleByPerm := g }, n + 1) ∧
      (∀ k, f k = s.eligibleByPmoType k + if op.eligible = true ∧ pmoType op.pmo = k then 1 else 0) ∧
      ∀ x, g x = s.eligibleByPerm x + if op.eligible = true ∧ op.perm &&& rwx = x then 1 else 0 := by
  obtain ⟨f, g, heq, hf, hg⟩ := accountPagePolicyLocked_eq pmoType (s := s.setPage op.page
      { s.page op.page with
        pmo := some op.pmo
        sequence := s.trackings + 1
        phase := .idle
        freeRequested := false
        origin := .notReleased
        scanning := false
        policyEligible := false
        policyPerm := 0
        tracked := true })
    (p := op.page) (m := op.pmo) (by simp) (by simp) op.eligible op.perm (by simp) (by simp)
  refine ⟨f, g, ?_, by simpa using hf, by simpa using hg⟩
  rw [trackOp, if_pos hstate]
  simp only [setPage] at heq ⊢
  rw [heq]
  simp

/-- One operation. -/
theorem Tracks.trackOp (pmoType : M → K) (hs : Sound s q) (n : ℕ) (hcare : TrackCareful s [op]) :
    ∃ s' n', s.trackOp pmoType n op = some (s', n') ∧ n' ≤ n + 1 ∧ Tracks pmoType s n s' n' q := by
  by_cases hstate : (s.page op.page).state = .none
  · obtain ⟨halloc, horder, hhand⟩ := hcare op (by simp) hstate
    obtain ⟨-, -, heligible⟩ := (hs op.page).idle hstate
    have hlisted : s.fifo.count op.page = 0 := by simpa [hstate] using (hs op.page).listed
    obtain ⟨f, g, heq, hf, hg⟩ := trackOp_of_none pmoType n hstate
    refine ⟨_, n + 1, heq, le_rfl, ?_, fun c => ?_, rfl, fun p j hj => ?_, fun p hp => ?_, fun p hp => ?_⟩
    · refine hs.update (p := op.page) (fun x hx => ?_) (fun x hx => ?_) (fun _ _ _ => rfl)
        (fun _ _ hx => hx) ?_
      · simp [hx]
      · simp [Ne.symm hx]
      · simpa [hlisted] using (hs op.page).track hstate halloc hhand horder op.pmo
          (s.trackings + 1) op.eligible op.perm
    · refine value_add_of_eq_off (p := op.page) (fun x hx => by simp [hx]) ?_
      cases c with
      | byPmoType k => simp [hf, heligible]
      | byPerm x => simp [hg, heligible]
      | resident => simp [hstate]; omega
      | _ => simp [hstate]
    · have hp : p ≠ op.page := by
        rintro rfl
        simp [hhand] at hj
      simp [hp]
    · have hp : p ≠ op.page := by
        rintro rfl
        exact hp hstate
      simp [hp]
    · have hp : p ≠ op.page := by
        rintro rfl
        simp at hp
      simp [hp]
  · exact ⟨s, n, by rw [Shared.trackOp, if_neg hstate], by omega, .refl hs n⟩

/-- The loop: the pages of the operations that are left stand as they did. -/
theorem Tracks.trackLoop (pmoType : M → K) (hs : Sound s q) (n : ℕ) (hcare : TrackCareful s ops) :
    ∃ s' n', Shared.trackLoop pmoType ops s n = some (s', n') ∧ n' ≤ n + ops.length ∧
      Tracks pmoType s n s' n' q := by
  induction ops generalizing s n with
  | nil => exact ⟨s, n, rfl, by simp, .refl hs n⟩
  | cons op ops ih =>
    have hcare0 : TrackCareful s [op] := fun op' hop' => hcare op' (by simp_all)
    obtain ⟨s1, n1, heq1, hle1, htr1⟩ := Tracks.trackOp pmoType hs n hcare0
    have hcare1 : TrackCareful s1 ops := by
      intro op' hop' hstate
      have hsame := htr1.rest _ hstate
      rw [hsame] at hstate ⊢
      exact hcare op' (by simp [hop']) hstate
    obtain ⟨s2, n2, heq2, hle2, htr2⟩ := ih htr1.sound n1 hcare1
    refine ⟨s2, n2, ?_, ?_, htr1.trans htr2⟩
    · rw [trackLoop, heq1]
      exact heq2
    · simp only [List.length_cons]
      omega

omit [DecidableEq P] in
theorem Shared.total_resident_le (pmoType : M → K) (s : Shared P T M K) :
    s.total pmoType .resident ≤ Fintype.card P := by
  have hle : ∀ p ∈ Finset.univ, (s.page p).weight pmoType .resident ≤ 1 := by
    intro p _
    by_cases hstate : (s.page p).state = .none <;> simp [hstate]
  simpa [total] using Finset.sum_le_card_nsmul Finset.univ _ 1 hle

/-- The locked part of `dsm_cxl_track_pages`. -/
theorem Fits.publish (hs : Sound s q) (hcare : TrackCareful s ops)
    (hcard : Fintype.card P ≤ 2 ^ 52) (hc : Covers pmoType s ⟨h, .validate [] ops⟩)
    (hres : s.residentPages ≤ s.total pmoType .resident + 1)
    (hfit : Thread.Fit i s ⟨h, .validate [] ops⟩) :
    ∃ s' n, s.trackPages pmoType ops = some (s', n) ∧
      Fits pmoType i s ⟨h, .validate [] ops⟩ s' q ⟨h - n, .idle⟩ := by
  obtain ⟨s1, n, heq, hle, htr⟩ := Tracks.trackLoop pmoType hs 0 hcare
  have hheld : ops.length ≤ h := by simpa using hfit
  have hbr := htr.balances .resident
  have hbrr := htr.balances .residentReserved
  have hcov : h ≤ s.residentReservedPages := by simpa using hc.due_le .residentReserved
  have htotal := s1.total_resident_le pmoType
  have hzero : ∀ s : Shared P T M K, s.total pmoType .residentReserved = 0 := by
    intro s
    simp [total]
  simp only [value, Counter.uncounted, hzero] at hbr hbrr
  have htake : s.trackPages pmoType ops = some ({ s1 with
      residentReservedPages := s1.residentReservedPages - n
      residentPages := s1.residentPages + n }, n) := by
    rw [trackPages, heq]
    exact if_neg (by dsimp only; omega)
  refine ⟨_, n, htake, htr.sound.keep rfl rfl (fun _ _ => rfl) (fun _ hx => hx), fun c => ?_,
    trivial, fun p j _ hj => ?_, fun p hstate horigin => ?_, htr.token⟩
  · have hb := htr.balances c
    change _ + (s.total pmoType c + _) = _ + (s1.total pmoType c + _)
    cases c <;> simp only [value, Counter.uncounted, due, Phase.uncounted,
      Phase.reserving, Phase.unsettled, Phase.snapshots, hzero] at hb ⊢ <;> omega
  · have hsame := htr.others p j hj
    exact ⟨(congrArg Page.hand hsame).trans hj, congrArg Page.order hsame⟩
  · exact (congrArg Page.origin (htr.tracked p hstate)).trans horigin

end Starfish.Reclaim
