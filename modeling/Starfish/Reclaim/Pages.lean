import Mathlib.Data.List.Count
import Starfish.Reclaim.Model

/-!
# Starfish.Reclaim.Pages

What is true of a page in every state of the resident set: how its fields go together, that it
is on the FIFO exactly while it is tracked, and that the run which took it on has it in the
list it should have it in.

A step of the reclaimer changes one page, or several in the same way.  What it may do to a page
is said here once, as a lemma of `Standing` for each change; the steps are put together from
these.
-/

namespace Starfish.Reclaim

variable {P T M K : Type}

/-! ## Where a page is -/

/-- In which list of the run a page is. -/
inductive Place where
  | elsewhere | scanned | demoted | freed | leaving
deriving DecidableEq, Repr

/-- Where the fields of a page put it. -/
def Page.place (pg : Page T M) : Place :=
  match pg.hand with
  | .leaving => .leaving
  | _ =>
    match pg.state with
    | .demoting => .demoted
    | .freeing => .freed
    | .resident => if pg.scanning then .scanned else .elsewhere
    | _ => .elsewhere

/-- The pages that the rest of a run has at a place. -/
@[simp] def Rest.hold : Rest P → Place → List P
  | .retry _ _ ps, .freed => ps
  | .scan ss _, .scanned => ss
  | .scan _ ds, .demoted => ds
  | .prepare todo ready, .demoted => todo ++ ready
  | .copy cs, .demoted => cs
  | .restore cs, .demoted => cs
  | .finish cs, .demoted => cs
  | _, _ => []

/-- One page more at a place. -/
def withPage (p : P) (at' : Place) (f : Place → List P) (k : Place) : List P :=
  if k = at' then p :: f k else f k

/-- The pages that a thread has at a place. -/
@[simp] def Phase.hold : Phase P M → Place → List P
  | .free _ (some r) => r.hold
  | .uncount _ (some r) => r.hold
  | .run r => r.hold
  | .defer c r => withPage c .demoted r.hold
  | .finishing c _ cs => withPage c .demoted (Rest.finish cs).hold
  | .giveBack p _ r => withPage p .leaving r.hold
  | .settle r => r.hold
  | .releaseOrigin p r => withPage p .freed r.hold
  | .asked p r => withPage p .freed r.hold
  | .finalize p r => withPage p .freed r.hold
  | .deferOrigin p r => withPage p .freed r.hold
  | _ => fun _ => []

variable [DecidableEq P]

/-- The next thing the run does is to free `p`. -/
@[simp] def Phase.honours : Phase P M → P → Bool
  | .free p (some _), x => p == x
  | _, _ => false

omit [DecidableEq P] in
@[simp] theorem Phase.freeIf_hold (b : Bool) (c : P) (r : Rest P) :
    (Phase.freeIf b c r : Phase P M).hold = r.hold := by
  cases b <;> rfl

@[simp] theorem Phase.freeIf_honours (b : Bool) (c : P) (r : Rest P) :
    (Phase.freeIf b c r : Phase P M).honours c = b := by
  cases b <;> simp [freeIf]

@[simp] theorem count_withPage (p x : P) (k at' : Place) (f : Place → List P) :
    (withPage p at' f k).count x = (f k).count x + if k = at' ∧ p = x then 1 else 0 := by
  by_cases hk : k = at' <;> by_cases hx : p = x <;> simp [withPage, hk, hx]

/-! ## One page -/

/-- What is true of a page that is `n` times on the FIFO and `at' k` times in the list of the
run for `k`; `next` says that the run goes on to free it. -/
structure Standing (pg : Page T M) (n : ℕ) (at' : Place → ℕ) (next : Bool) : Prop where
  listed : n = if pg.state = .none then 0 else 1
  held : ∀ k, k ≠ .elsewhere → at' k = if pg.place = k then 1 else 0
  /-- A request on record is not forgotten when the scan or the demotion is over. -/
  honoured : pg.freeRequested = true → pg.state = .resident → pg.scanning = false → next = true
  inUse : pg.state ≠ .none →
    pg.allocated = true ∧ pg.hand = .rest ∧ pg.order = 0 ∧ pg.tracked = true
  leaves : pg.hand = .leaving →
    pg.state = .none ∧ pg.allocated = true ∧ pg.order = 0 ∧ pg.tracked = true
  taken : ∀ i, pg.hand = .taken i → pg.state = .none ∧ pg.allocated = true
  untracked : pg.allocated = true → pg.state = .none → pg.hand ≠ .leaving → pg.tracked = false
  idle : pg.state = .none →
    pg.scanning = false ∧ pg.freeRequested = false ∧ pg.policyEligible = false
  scanned : pg.scanning = true → pg.state = .resident
  eligible : pg.policyEligible = true → pg.state = .resident ∨ pg.state = .demoting
  pmo : pg.state = .resident ∨ pg.state = .demoting → pg.pmo ≠ none
  perm : pg.policyPerm &&& rwx = pg.policyPerm

open Page

namespace Standing

variable {pg : Page T M} {n : ℕ} {at' : Place → ℕ} {next : Bool}

theorem fresh : Standing (T := T) (M := M) .fresh 0 (fun _ => 0) next := by
  constructor <;> simp [Page.fresh, Page.place, rwx]
  intro k hk
  cases k <;> simp_all

section

variable (h : Standing pg n at' next)
include h

/-- It is enough that the run goes on to free the page when it did before. -/
theorem mono (hnext : next = true → next' = true) : Standing pg n at' next' :=
  { h with honoured := fun hr hs hsc => hnext (h.honoured hr hs hsc) }

/-- The list in which a page is says what its fields are. -/
theorem place_eq (hk : k ≠ .elsewhere) (hat : at' k ≠ 0) : pg.place = k := by
  by_contra hne
  exact hat (by simpa [hne] using h.held k hk)

theorem scanning_eq (hat : at' .scanned ≠ 0) : pg.scanning = true := by
  have hplace := h.place_eq (by simp) hat
  unfold place at hplace
  grind

theorem state_eq_demoting (hat : at' .demoted ≠ 0) : pg.state = .demoting := by
  have hplace := h.place_eq (by simp) hat
  unfold place at hplace
  grind

theorem state_eq_freeing (hat : at' .freed ≠ 0) : pg.state = .freeing := by
  have hplace := h.place_eq (by simp) hat
  unfold place at hplace
  grind

theorem hand_eq_leaving (hat : at' .leaving ≠ 0) : pg.hand = .leaving := by
  have hplace := h.place_eq (by simp) hat
  unfold place at hplace
  grind

theorem held_of_ne (hk : k ≠ .elsewhere)
    (hat : at' k ≠ 0) (hk' : k' ≠ .elsewhere) : at' k' = if k = k' then 1 else 0 := by
  rw [h.held k' hk', h.place_eq hk hat]

end

section changes

section

variable (h : Standing pg n at' next)
include h

/-- A request is recorded on a page that is under scan or being demoted. -/
theorem request (hpg : pg.scanning = true ∨ pg.state = .demoting) :
    Standing { pg with freeRequested := true } n at' next' :=
  { h with
    honoured := by
      intro _ hstate hscan
      rcases hpg with hpg | hpg <;> simp_all
    idle := by
      intro hstate
      have hidle := h.idle hstate
      rcases hpg with hpg | hpg <;> simp_all }

/-- A tracked page changes its state and stays tracked. -/
theorem moved
    (hstate : pg.state ≠ .none) (hst : st ≠ .none) (hheld : ∀ k, k ≠ .elsewhere → pg.hand = .rest →
      at'' k = if place (T := T) { pg with scanning := sc, state := st } = k then 1 else 0)
    (hhonoured : pg.freeRequested = true → st = .resident → sc = false → next' = true)
    (hscanned : sc = true → st = .resident) (heligible : e = true → st = .resident ∨ st = .demoting)
    (hpmo : st = .resident ∨ st = .demoting → m ≠ none) :
    Standing { pg with scanning := sc, state := st, phase := ph, pmo := m, policyEligible := e }
      n at'' next' := by
  have huse := h.inUse hstate
  exact
    { listed := by simpa [hstate, hst] using h.listed
      held := fun k hk => hheld k hk huse.2.1
      honoured := hhonoured
      inUse := fun _ => huse
      leaves := by simp [huse.2.1]
      taken := by simp [huse.2.1]
      untracked := by simp [hst]
      idle := by simp [hst]
      scanned := hscanned
      eligible := heligible
      pmo := hpmo
      perm := h.perm }

attribute [local simp] place

/-- A resident page that is not under scan is queued to be freed. -/
theorem queue (hstate : pg.state = .resident) (hscan : pg.scanning = false) : Standing (M := M)
      { pg with state := .freePending, phase := .idle, policyEligible := false, pmo := none }
      n at' next' := by
  refine h.moved (by simp [hstate]) (by simp) (fun k hk hhand => ?_) (by simp) (by simp [hscan])
    (by simp) (by simp)
  rw [h.held k hk]
  simp [hstate, hscan, hhand]

/-- A page that is not tracked goes to the buddy system. -/
theorem back (hstate : pg.state = .none) (hat : ∀ k, k ≠ .elsewhere → at'' k = 0) :
    Standing (T := T) { pg with allocated := false, hand := .rest } n at'' next' :=
  { h with
    held := by
      intro k hk
      rw [hat k hk]
      simp [hstate, Ne.symm hk]
    honoured := by simp [hstate]
    inUse := by simp [hstate]
    leaves := by simp
    taken := by simp
    untracked := by simp }

theorem get (hfree : pg.allocated = false) (o : ℕ) (i : T) :
    Standing { pg with allocated := true, order := o, hand := .taken i, tracked := false }
      n at' next' := by
  have hstate : pg.state = .none := by
    by_contra hne
    simpa [hfree] using (h.inUse hne).1
  have hhand : pg.hand ≠ .leaving := fun hl => by simpa [hfree] using (h.leaves hl).2.1
  exact
    { h with
      held := by
        intro k hk
        rw [h.held k hk]
        cases hh : pg.hand <;> simp_all
      honoured := by simp [hstate]
      inUse := by simp [hstate]
      leaves := by simp
      taken := by simp [hstate]
      untracked := by simp }

theorem commit [DecidableEq T] (i : T) :
    Standing { pg with hand := if pg.hand = .taken i then .rest else pg.hand } n at' next := by
  by_cases hhand : pg.hand = .taken i
  · obtain ⟨hstate, halloc⟩ := h.taken i hhand
    exact
      { h with
        held := by
          intro k hk
          rw [h.held k hk]
          simp [hhand]
        inUse := by simp [hstate]
        leaves := by simp [hhand]
        taken := by simp [hhand]
        untracked := fun _ _ _ => h.untracked halloc hstate (by simp [hhand]) }
  · simpa [hhand] using h

theorem track (hstate : pg.state = .none)
    (halloc : pg.allocated = true) (hhand : pg.hand = .rest) (horder : pg.order = 0) (m : M)
    (seq : ℕ) (e : Bool) (perm : BitVec 8) :
    Standing
      { pg with
        pmo := some m
        sequence := seq
        phase := .idle
        freeRequested := false
        origin := .notReleased
        scanning := false
        policyEligible := e
        policyPerm := perm &&& rwx
        tracked := true
        state := .resident } 1 at' next where
  listed := by simp
  held := by simpa [hstate, hhand] using h.held
  honoured := by simp
  inUse := by simp [halloc, hhand, horder]
  leaves := by simp [hhand]
  taken := by simp [hhand]
  untracked := by simp
  idle := by simp
  scanned := by simp
  eligible := by simp
  pmo := by simp
  perm := by simp [BitVec.and_assoc]

theorem setOrigin (o : Origin) : Standing { pg with origin := o } n at' next := { h with }

theorem setPhase (ph : PagePhase) : Standing { pg with phase := ph } n at' next := { h with }

theorem policy (hstate : pg.state = .resident ∨ pg.state = .demoting) (e : Bool) (perm : BitVec 8) :
    Standing { pg with policyEligible := e, policyPerm := perm &&& rwx } n at' next :=
  { h with
    idle := by
      intro hnone
      rcases hstate with hstate | hstate <;> simp_all
    eligible := fun _ => hstate
    perm := by simp [BitVec.and_assoc] }

theorem scan (hstate : pg.state = .resident)
    (hat : ∀ k, k ≠ .elsewhere → at'' k = if .scanned = k then 1 else 0) :
    Standing { pg with scanning := true } n at'' next' :=
  { h with
    held := by
      intro k hk
      rw [hat k hk]
      simp [hstate, (h.inUse (by simp [hstate])).2.1]
    honoured := by simp
    idle := by simp [hstate]
    scanned := fun _ => hstate }

theorem unscan (hscan : pg.scanning = true)
    (hat : ∀ k, k ≠ .elsewhere → at'' k = 0) (hnext : pg.freeRequested = true → next' = true) :
    Standing { pg with scanning := false } n at'' next' := by
  have hstate := h.scanned hscan
  exact
    { h with
      held := by
        intro k hk
        rw [hat k hk]
        simp [hstate, (h.inUse (by simp [hstate])).2.1, Ne.symm hk]
      honoured := fun hr _ _ => hnext hr
      idle := by simp [hstate]
      scanned := by simp }

theorem claim (hscan : pg.scanning = true)
    (hat : ∀ k, k ≠ .elsewhere → at'' k = if .demoted = k then 1 else 0) :
    Standing { pg with scanning := false, state := .demoting, phase := .selected } n at'' next' := by
  have hstate := h.scanned hscan
  refine h.moved (by simp [hstate]) (by simp) (fun k hk hhand => ?_) (by simp) (by simp) (by simp)
    fun _ => h.pmo (.inl hstate)
  rw [hat k hk]
  simp [hhand]

/-- A page that could not be demoted is resident again. -/
theorem restore (hstate : pg.state = .demoting)
    (hat : ∀ k, k ≠ .elsewhere → at'' k = 0) (hnext : pg.freeRequested = true → next' = true) :
    Standing { pg with state := .resident, phase := .idle } n at'' next' := by
  have hscan : pg.scanning = false := by
    by_contra hne
    simpa [hstate] using h.scanned (by simpa using hne)
  refine h.moved (by simp [hstate]) (by simp) (fun k hk hhand => ?_) (fun hr _ _ => hnext hr)
    (by simp) (by simp) fun _ => h.pmo (.inr hstate)
  rw [hat k hk]
  simp [hhand, hscan, Ne.symm hk]

/-- A tracked page is to be freed as soon as its origin is released. -/
theorem free (hstate : pg.state = .demoting ∨ pg.state = .freePending)
    (hat : ∀ k, k ≠ .elsewhere → at'' k = if .freed = k then 1 else 0) (ph : PagePhase)
    (m : Option M) (he : e = false) :
    Standing { pg with state := .freeing, phase := ph, pmo := m, policyEligible := e }
      n at'' next' := by
  refine h.moved (by rcases hstate with hstate | hstate <;> simp [hstate]) (by simp)
    (fun k hk hhand => ?_) (by simp) (fun hscan => ?_) (by simp [he]) (by simp)
  · rw [hat k hk]
    simp [hhand]
  · have := h.scanned hscan
    rcases hstate with hstate | hstate <;> simp_all

/-- The origin could not be released: the page waits on the FIFO. -/
theorem wait (hstate : pg.state = .freeing) (hat : ∀ k, k ≠ .elsewhere → at'' k = 0) :
    Standing { pg with state := .freePending } n at'' next' := by
  refine h.moved (by simp [hstate]) (by simp) (fun k hk hhand => ?_) (by simp) (fun hscan => ?_)
    (fun heligible => ?_) (by simp)
  · rw [hat k hk]
    simp [hhand, Ne.symm hk]
  · simpa [hstate] using h.scanned hscan
  · simpa [hstate] using h.eligible heligible

theorem leave (hstate : pg.state ≠ .none)
    (hat : ∀ k, k ≠ .elsewhere → at'' k = if .leaving = k then 1 else 0) :
    Standing (T := T) (M := M)
      { pg with
        state := .none
        phase := .idle
        pmo := none
        freeRequested := false
        scanning := false
        policyEligible := false
        policyPerm := 0
        hand := .leaving } 0 at'' next' where
  listed := by simp
  held := by
    intro k hk
    rw [hat k hk]
    rfl
  honoured := by simp
  inUse := by simp
  leaves := by
    obtain ⟨halloc, -, horder, htracked⟩ := h.inUse hstate
    simp [halloc, horder, htracked]
  taken := by simp
  untracked := by simp
  idle := by simp
  scanned := by simp
  eligible := by simp
  pmo := by simp
  perm := by simp

end

end changes

end Standing

/-! ## All pages -/

/-- Every page stands as it should, `q` being where the run is. -/
def Sound (s : Shared P T M K) (q : Phase P M) : Prop :=
  ∀ p, Standing (s.page p) (s.fifo.count p) (fun k => (q.hold k).count p) (q.honours p)

namespace Sound

variable {s s' : Shared P T M K} {q q' : Phase P M} {p : P}

/-- A step that has to do with one page. -/
theorem update (h : Sound s q) (hpage : ∀ x, x ≠ p → s'.page x = s.page x)
    (hfifo : ∀ x, x ≠ p → s'.fifo.count x = s.fifo.count x)
    (hhold : ∀ k x, x ≠ p → (q'.hold k).count x = (q.hold k).count x)
    (hnext : ∀ x, x ≠ p → q.honours x = true → q'.honours x = true)
    (hp : Standing (s'.page p) (s'.fifo.count p) (fun k => (q'.hold k).count p) (q'.honours p)) :
    Sound s' q' := by
  intro x
  by_cases hx : x = p
  · rw [hx]
    exact hp
  · rw [hpage x hx, hfifo x hx, funext fun k => hhold k x hx]
    exact (h x).mono (hnext x hx)

theorem keep (h : Sound s q) (hpage : s'.page = s.page) (hfifo : s'.fifo = s.fifo)
    (hhold : ∀ k x, (q'.hold k).count x = (q.hold k).count x)
    (hnext : ∀ x, q.honours x = true → q'.honours x = true) : Sound s' q' := by
  intro x
  rw [hpage, hfifo, funext fun k => hhold k x]
  exact (h x).mono (hnext x)

end Sound

end Starfish.Reclaim
