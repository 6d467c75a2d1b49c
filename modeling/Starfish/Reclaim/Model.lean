import Starfish.Interleave

/-!
# Starfish.Reclaim.Model

The resident set of the CXL reclaimer (`kernel/dsm/dsm_cxl_reclaim.c`): the pages that were
promoted from the memory of a machine into the shared CXL memory, on a FIFO from which a
reclaim run picks those that it demotes.

* A section under `fifo_guard` or under `account_guard` is one step of a thread, and so is a
  read or a write outside the two locks.  Where `account_guard` is taken inside `fifo_guard`
  and the section between them touches only what `fifo_guard` protects, the two are one step.
* A section returns `none` when one of its `BUG_ON`s fires.
* Threads and reclaim runs are any number, but a run starts only when `reclaiming` is free.
  One run goes over its candidates in any order up to the claim: which page the clock or the
  FIFO policy takes, and what it finds in the page tables, is left open.
* The answer of a remote machine is left open as well.  What it does to the resident set is to
  release the origin of a page that is being freed, at any time.

The page tables, the ages of the pages and the statistics are not part of this model.
-/

namespace Starfish.Reclaim

/-! ## The state -/

/-- `enum cxl_reclaim_page_state`. -/
inductive State where
  | none | resident | demoting | freePending | freeing
deriving DecidableEq, Repr

/-- `enum cxl_reclaim_page_phase`. -/
inductive PagePhase where
  | idle | selected | prepared | flushed
deriving DecidableEq, Repr

/-- `cxl_origin_release_state`. -/
inductive Origin where
  | notReleased | releasing | released
deriving DecidableEq, Repr

/-- Who has a page that is not on the FIFO in hand: the thread `i` that got it from the buddy
system and has not counted it yet, or the run that took it off the FIFO and has not given it
back yet.  The code does not record this. -/
inductive Hand (T : Type) where
  | rest | taken (i : T) | leaving
deriving DecidableEq, Repr

/-- `struct page`, as far as the reclaimer is concerned. -/
structure Page (T M : Type) where
  /-- `PG_allocated` -/
  allocated : Bool
  order : ℕ
  state : State
  phase : PagePhase
  scanning : Bool
  freeRequested : Bool
  origin : Origin
  pmo : Option M
  policyEligible : Bool
  policyPerm : BitVec 8
  hand : Hand T
  /-- `cxl_sequence`: the number of its last tracking -/
  sequence : ℕ
  /-- It was tracked since it was allocated.  The code does not record this. -/
  tracked : Bool

/-- The memory: the pages and `dsm_meta->cxl_reclaim`. -/
structure Shared (P T M K : Type) where
  page : P → Page T M
  fifo : List P
  totalPages : ℕ
  limitPages : ℕ
  allocatedPages : ℕ
  reservedPages : ℕ
  residentPages : ℕ
  residentReservedPages : ℕ
  freePendingPages : ℕ
  eligibleByPmoType : K → ℕ
  eligibleByPerm : BitVec 8 → ℕ
  pendingReclaimPages : ℕ
  /-- The flag; while it is set, by whom. -/
  reclaiming : Option T
  snapshotting : ℕ
  /-- `next_sequence - 1`: how often a page was tracked -/
  trackings : ℕ
  /-- The numbers of the trackings whose page was returned to the buddy system, once for each
  time that it was.  The code does not record this. -/
  returned : List ℕ

/-- `struct cxl_track_op`: the page, the PMO that holds it and what
`snapshot_pmo_page_policy` finds for it. -/
structure TrackOp (P M : Type) where
  page : P
  pmo : M
  eligible : Bool
  perm : BitVec 8

/-- What a reclaim run has still to do. -/
inductive Rest (P : Type) where
  /-- `retry_pending_frees`, then `demote_one_batch` if it is due. -/
  | mark (due : Bool)
  /-- The pages whose origin has still to be released, and whether one was freed. -/
  | retry (due freed : Bool) (ps : List P)
  | select
  /-- The candidates under scan and those that were claimed. -/
  | scan (ss ds : List P)
  | prepare (todo done : List P)
  | copy (cs : List P)
  | restore (cs : List P)
  | finish (cs : List P)
  | done

/-- Where a thread is. -/
inductive Phase (P M : Type) where
  | idle
  /-- In `get_cxl_pages`, with `2 ^ o` pages reserved. -/
  | reserved (o : ℕ)
  /-- In `get_cxl_pages`, with the block at `p` from the buddy system. -/
  | got (p : P) (o : ℕ)
  /-- In `dsm_cxl_track_pages`, with the operations to validate and those found valid. -/
  | validate (todo ops : List (TrackOp P M))
  /-- In `dsm_cxl_free_page`, called from outside or from a run. -/
  | free (p : P) (r : Option (Rest P))
  /-- In `dsm_cxl_free_page`, with `n` freed pages still counted as allocated. -/
  | uncount (n : ℕ) (r : Option (Rest P))
  /-- In `dsm_cxl_handle_batch`, for the origin of a page that is being freed. -/
  | serving (p : P)
  | releasing (p : P)
  /-- Between `dsm_cxl_snapshot_begin` and `dsm_cxl_snapshot_end`. -/
  | snapshot
  /-- In a reclaim run. -/
  | run (r : Rest P)
  | defer (c : P) (r : Rest P)
  /-- In `finish_candidate`, with what it read of `cxl_free_requested`. -/
  | finishing (c : P) (requested : Bool) (cs : List P)
  /-- The page is off the FIFO and goes to the buddy system: its tracking `n` ends. -/
  | giveBack (p : P) (n : ℕ) (r : Rest P)
  /-- The page is with the buddy system but still counted. -/
  | settle (r : Rest P)
  | releaseOrigin (p : P) (r : Rest P)
  | asked (p : P) (r : Rest P)
  | finalize (p : P) (r : Rest P)
  | deferOrigin (p : P) (r : Rest P)
  /-- A `BUG_ON` fired. -/
  | bug

/-- A thread: where it is, and how many pages of residency it has reserved and neither tracked
nor cancelled. -/
structure Thread (P M : Type) where
  held : ℕ
  phase : Phase P M

/-- Back to the caller: a run goes on with what is left. -/
def Phase.after {P M : Type} : Option (Rest P) → Phase P M
  | none => .idle
  | some r => .run r

/-- A run goes on, and calls `dsm_cxl_free_page` first if that was requested. -/
def Phase.freeIf {P M : Type} (requested : Bool) (c : P) (r : Rest P) : Phase P M :=
  if requested then .free c (some r) else .run r

/-! ## The sections -/

/-- `VMR_READ | VMR_WRITE | VMR_EXEC` -/
def rwx : BitVec 8 := 7

variable {P T M K : Type} [DecidableEq P] [DecidableEq T] [DecidableEq K]

namespace Shared

/-- The page struct of `p` becomes `pg`. -/
@[simp] def setPage (s : Shared P T M K) (p : P) (pg : Page T M) : Shared P T M K :=
  { s with page := Function.update s.page p pg }

variable (pmoType : M → K) (s : Shared P T M K)

/-- One eligible page less. -/
def unaccount (m : M) (perm : BitVec 8) : Option (Shared P T M K) :=
  if s.eligibleByPmoType (pmoType m) = 0 ∨ s.eligibleByPerm perm = 0 then none
  else some
    { s with
      eligibleByPmoType := Function.update s.eligibleByPmoType (pmoType m)
        (s.eligibleByPmoType (pmoType m) - 1)
      eligibleByPerm := Function.update s.eligibleByPerm perm (s.eligibleByPerm perm - 1) }

/-- One eligible page more. -/
def account (m : M) (perm : BitVec 8) : Shared P T M K :=
  { s with
    eligibleByPmoType := Function.update s.eligibleByPmoType (pmoType m)
      (s.eligibleByPmoType (pmoType m) + 1)
    eligibleByPerm := Function.update s.eligibleByPerm perm (s.eligibleByPerm perm + 1) }

/-- `account_page_policy_locked`. -/
def accountPagePolicyLocked (p : P) (m : M) (eligible : Bool) (perm : BitVec 8) :
    Option (Shared P T M K) :=
  let pg := s.page p
  let oldPerm := pg.policyPerm &&& rwx
  let newPerm := perm &&& rwx
  let leaves := pg.policyEligible && (!eligible || oldPerm != newPerm)
  let counted := pg.policyEligible && !leaves
  (if leaves then s.unaccount pmoType m oldPerm else some s).map fun s =>
    (if eligible && !counted then s.account pmoType m newPerm else s).setPage p
      { pg with policyEligible := eligible || counted, policyPerm := newPerm }

/-- `unaccount_page_policy_locked`. -/
def unaccountPagePolicyLocked (p : P) (m : Option M) : Option (Shared P T M K) :=
  match m with
  | none => some s
  | some m =>
    if (s.page p).policyEligible then
      (s.unaccount pmoType m (s.page p).policyPerm).map fun s =>
        s.setPage p { s.page p with policyEligible := false }
    else some s

/-- The part of `dsm_cxl_track_pages` for one operation, with the number of pages tracked. -/
def trackOp (n : ℕ) (op : TrackOp P M) : Option (Shared P T M K × ℕ) :=
  if (s.page op.page).state = .none then
    let pg := s.page op.page
    let s' := s.setPage op.page
      { pg with
        pmo := some op.pmo
        sequence := s.trackings + 1
        phase := .idle
        freeRequested := false
        origin := .notReleased
        scanning := false
        policyEligible := false
        policyPerm := 0
        tracked := true }
    (s'.accountPagePolicyLocked pmoType op.page op.pmo op.eligible op.perm).map fun s' =>
      ({ s'.setPage op.page { s'.page op.page with state := .resident } with
          trackings := s.trackings + 1
          fifo := s.fifo ++ [op.page] }, n + 1)
  else some (s, n)

/-- The loop of `dsm_cxl_track_pages`. -/
def trackLoop : List (TrackOp P M) → Shared P T M K → ℕ → Option (Shared P T M K × ℕ)
  | [], s, n => some (s, n)
  | op :: ops, s, n => (s.trackOp pmoType n op).bind fun r => trackLoop ops r.1 r.2

/-- The locked part of `dsm_cxl_track_pages`: the memory and how many pages it tracked. -/
def trackPages (ops : List (TrackOp P M)) : Option (Shared P T M K × ℕ) :=
  (trackLoop pmoType ops s 0).bind fun r =>
    if r.1.residentReservedPages < r.2 ∨ 2 ^ 64 ≤ r.1.residentPages + r.2 then none
    else some ({ r.1 with
        residentReservedPages := r.1.residentReservedPages - r.2
        residentPages := r.1.residentPages + r.2 }, r.2)

/-- `buddy_free_pages`, for a page that was tracked as number `n` if `n` is given. -/
def buddyFreePages (p : P) (n : Option ℕ) : Option (Shared P T M K) :=
  if (s.page p).allocated then
    some { s.setPage p { s.page p with allocated := false, hand := .rest } with
      returned := n.toList ++ s.returned }
  else none

/-- `dsm_cxl_free_page` up to its accounting: the number of pages that went to the buddy system,
if it gave them back itself. -/
def freePage (p : P) : Option (Shared P T M K × Option ℕ) :=
  let pg := s.page p
  if !pg.allocated then some (s, none)
  else if pg.scanning || pg.state == .demoting then
    some (s.setPage p { pg with freeRequested := true }, none)
  else match pg.state with
    | .freePending => some (s, none)
    | .freeing => some (s, none)
    | .resident =>
      ((s.setPage p { pg with state := .freePending, phase := .idle }).unaccountPagePolicyLocked
        pmoType p pg.pmo).map fun s =>
          ({ s.setPage p { s.page p with pmo := none } with
              freePendingPages := s.freePendingPages + 1
              fifo := p :: s.fifo.erase p }, none)
    | _ => (s.buddyFreePages p (if pg.tracked then some pg.sequence else none)).map
        fun s => (s, some (2 ^ pg.order))

/-- `allocated_pages -= n`. -/
def uncount (n : ℕ) : Option (Shared P T M K) :=
  if s.allocatedPages < n then none else some { s with allocatedPages := s.allocatedPages - n }

/-- The accounting of a page that was given back: `allocated_pages--`, `resident_pages--`. -/
def settle : Option (Shared P T M K) :=
  if s.allocatedPages = 0 ∨ s.residentPages = 0 then none
  else some { s with
    allocatedPages := s.allocatedPages - 1
    residentPages := s.residentPages - 1 }

/-- `dsm_cxl_cancel_reserved_pages`. -/
def cancelReservedPages (n : ℕ) : Option (Shared P T M K) :=
  if s.reservedPages < n then none else some { s with reservedPages := s.reservedPages - n }

/-- `dsm_cxl_commit_reserved_pages`, for the pages that thread `i` got at `p`. -/
def commitReservedPages (i : T) (p : P) (n : ℕ) : Option (Shared P T M K) :=
  if s.reservedPages < n then none
  else
    let pg := s.page p
    some { s.setPage p { pg with hand := if pg.hand = .taken i then .rest else pg.hand } with
      reservedPages := s.reservedPages - n
      allocatedPages := s.allocatedPages + n }

/-- `dsm_cxl_reserve_resident_pages`, when it does not refuse. -/
def reserveResidentPages (n : ℕ) : Shared P T M K :=
  let reserved := s.residentReservedPages + n
  let overLimit := s.limitPages < s.residentPages ∨
    s.limitPages - min s.residentPages s.limitPages < reserved
  { s with
    residentReservedPages := reserved
    pendingReclaimPages :=
      if overLimit ∧ s.pendingReclaimPages < n then n else s.pendingReclaimPages }

/-- `dsm_cxl_cancel_resident_pages`. -/
def cancelResidentPages (n : ℕ) : Option (Shared P T M K) :=
  if s.residentReservedPages < n then none
  else some { s with residentReservedPages := s.residentReservedPages - n }

/-- `dsm_cxl_snapshot_end`. -/
def snapshotEnd : Option (Shared P T M K) :=
  if s.snapshotting = 0 then none else some { s with snapshotting := s.snapshotting - 1 }

/-- The first section of `cxl_reclaim_run`: whether there is work is read here, and the run
takes `reclaiming`. -/
def reclaimBegin (i : T) (scanDue : Bool) : Shared P T M K × Phase P M :=
  let demand := s.pendingReclaimPages ≠ 0 ∧
    (s.limitPages < s.residentPages ∨
      s.limitPages - s.residentPages < s.residentReservedPages)
  let s' := if demand then s else { s with pendingReclaimPages := 0 }
  let due := decide demand && scanDue
  if (s.freePendingPages ≠ 0 ∨ due) ∧ s.reclaiming = none ∧ s.snapshotting = 0 then
    ({ s' with reclaiming := some i },
      .run (if s.freePendingPages ≠ 0 then .mark due else .select))
  else (s', .idle)

/-- The pages that `retry_pending_frees` takes. -/
def pendingFrees (limit : ℕ) : List P :=
  (s.fifo.filter fun p => (s.page p).state == .freePending).take (min limit s.freePendingPages)

/-- The locked part of `retry_pending_frees`. -/
def markPending (limit : ℕ) : Shared P T M K :=
  { s with
    page := fun p =>
      if p ∈ s.pendingFrees limit then { s.page p with state := .freeing } else s.page p
    freePendingPages := s.freePendingPages - (s.pendingFrees limit).length }

/-- The pages that `select_candidates` takes are pinned. -/
def selectCandidates (ss : List P) : Shared P T M K :=
  { s with page := fun p => if p ∈ ss then { s.page p with scanning := true } else s.page p }

/-- The section of `release_scanning_candidate`. -/
def releaseScanning (c : P) : Shared P T M K := s.setPage c { s.page c with scanning := false }

/-- The section of `claim_scanning_candidate`, where it claims. -/
def claimScanning (c : P) : Shared P T M K :=
  s.setPage c { s.page c with scanning := false, state := .demoting, phase := .selected }

/-- The last section of `prepare_candidate`. -/
def prepared (c : P) : Shared P T M K :=
  if (s.page c).state = .demoting then s.setPage c { s.page c with phase := .prepared } else s

/-- `mark_candidates_flushed`. -/
def markFlushed (cs : List P) : Shared P T M K :=
  { s with
    page := fun p =>
      if p ∈ cs ∧ (s.page p).state = .demoting ∧ (s.page p).phase = .prepared then
        { s.page p with phase := .flushed }
      else s.page p }

/-- The section of `restore_candidates` for one candidate. -/
def restoreCandidate (c : P) : Shared P T M K :=
  if (s.page c).state = .demoting then
    s.setPage c { s.page c with state := .resident, phase := .idle }
  else s

/-- The section of `defer_candidate`. -/
def deferCandidate (c : P) : Shared P T M K :=
  if (s.page c).state = .demoting then
    { s.setPage c { s.page c with state := .resident, phase := .idle } with
      fifo := s.fifo.erase c ++ [c] }
  else s

/-- The section of `finish_candidate`.  The PMO of the candidate is the one that its page
names: no step changes it while the page is a candidate. -/
def finishCandidate (c : P) (requested : Bool) : Option (Shared P T M K) :=
  if (s.page c).state = .demoting then
    (s.unaccountPagePolicyLocked pmoType c (s.page c).pmo).map fun s =>
      let pg := s.page c
      if requested then s.setPage c { pg with state := .freeing, phase := .idle, pmo := none }
      else
        { s.setPage c
            { pg with
              state := .none
              phase := .idle
              pmo := none
              freeRequested := false
              scanning := false
              policyPerm := 0
              hand := .leaving } with
          fifo := s.fifo.erase c }
  else none

/-- The first section of `release_origin_page`, and whether it goes on. -/
def releaseOriginPage (p : P) : Option (Shared P T M K × Bool) :=
  match (s.page p).state with
  | .freePending =>
    if s.freePendingPages = 0 then none
    else some ({ s.setPage p { s.page p with state := .freeing } with
      freePendingPages := s.freePendingPages - 1 }, true)
  | .freeing => some (s, true)
  | _ => some (s, false)

/-- `defer_origin_release`. -/
def deferOriginRelease (p : P) : Shared P T M K :=
  if (s.page p).state = .freeing then
    { s.setPage p { s.page p with state := .freePending } with
      freePendingPages := s.freePendingPages + 1
      fifo := p :: s.fifo.erase p }
  else s

/-- The section of `finalize_cxl_page_free` that takes the page off the FIFO. -/
def takeOff (p : P) : Shared P T M K :=
  { s.setPage p
      { s.page p with
        state := .none
        phase := .idle
        pmo := none
        freeRequested := false
        scanning := false
        policyEligible := false
        policyPerm := 0
        hand := .leaving } with
    fifo := s.fifo.erase p }

/-- The first section of `finalize_cxl_page_free`, and whether the page is now to be given
back. -/
def finalizePageFree (p : P) : Option (Shared P T M K × Bool) :=
  if (s.page p).origin = .released then
    match (s.page p).state with
    | .freePending =>
      if s.freePendingPages = 0 then none
      else some ({ s.takeOff p with freePendingPages := s.freePendingPages - 1 }, true)
    | .freeing => some (s.takeOff p, true)
    | _ => some (s, false)
  else some (s, false)

end Shared

/-! ## The steps -/

/-- The steps of thread `i`: from a memory and where it is to a memory and where it is then,
or to `none` when a `BUG_ON` fires. -/
inductive Acts (pmoType : M → K) (i : T) : Shared P T M K → Thread P M →
    Option (Shared P T M K × Thread P M) → Prop
  -- `get_cxl_pages`
  | reserve {s h} (o : ℕ) (hroom : s.allocatedPages + s.reservedPages + 2 ^ o ≤ s.totalPages) :
      Acts pmoType i s ⟨h, .idle⟩
        (some ({ s with reservedPages := s.reservedPages + 2 ^ o }, ⟨h, .reserved o⟩))
  | get {s h o} (p : P) (hfree : (s.page p).allocated = false) :
      Acts pmoType i s ⟨h, .reserved o⟩
        (some (s.setPage p { s.page p with
          allocated := true, order := o, hand := .taken i, tracked := false }, ⟨h, .got p o⟩))
  | noPage {s h o} :
      Acts pmoType i s ⟨h, .reserved o⟩
        ((s.cancelReservedPages (2 ^ o)).map fun s => (s, ⟨h, .idle⟩))
  | commit {s h p o} :
      Acts pmoType i s ⟨h, .got p o⟩
        ((s.commitReservedPages i p (2 ^ o)).map fun s => (s, ⟨h, .idle⟩))
  -- residency: what a caller reserves it tracks or cancels
  | reserveResident {s h} (n : ℕ) (hn : 0 < n) (hroom : s.residentReservedPages + n < 2 ^ 64) :
      Acts pmoType i s ⟨h, .idle⟩ (some (s.reserveResidentPages n, ⟨h + n, .idle⟩))
  | cancelResident {s h} (n : ℕ) (hn : n ≤ h) :
      Acts pmoType i s ⟨h, .idle⟩
        ((s.cancelResidentPages n).map fun s => (s, ⟨h - n, .idle⟩))
  -- `dsm_cxl_track_pages`
  | track {s h} (ops : List (TrackOp P M)) (hops : ops.length ≤ h) :
      Acts pmoType i s ⟨h, .idle⟩ (some (s, ⟨h, .validate ops []⟩))
  | valid {s h op todo ops} (halloc : (s.page op.page).allocated = true)
      (horder : (s.page op.page).order = 0) :
      Acts pmoType i s ⟨h, .validate (op :: todo) ops⟩
        (some (s, ⟨h, .validate todo (ops ++ [op])⟩))
  | invalid {s h op todo ops} :
      Acts pmoType i s ⟨h, .validate (op :: todo) ops⟩ (some (s, ⟨h, .validate todo ops⟩))
  | publish {s h ops} :
      Acts pmoType i s ⟨h, .validate [] ops⟩
        ((s.trackPages pmoType ops).map fun r => (r.1, ⟨h - r.2, .idle⟩))
  -- `dsm_cxl_free_page`
  | call {s h} (p : P) : Acts pmoType i s ⟨h, .idle⟩ (some (s, ⟨h, .free p none⟩))
  | free {s h p r} :
      Acts pmoType i s ⟨h, .free p r⟩
        ((s.freePage pmoType p).map fun a =>
          (a.1, ⟨h, match a.2 with | none => .after r | some n => .uncount n r⟩))
  | uncount {s h n r} :
      Acts pmoType i s ⟨h, .uncount n r⟩ ((s.uncount n).map fun s => (s, ⟨h, .after r⟩))
  -- `dsm_cxl_handle_batch` with `CXL_DEMOTE_PHASE_FREE_ORIGIN`
  | serve {s h} (p : P)
      (hstate : (s.page p).state = .freePending ∨ (s.page p).state = .freeing) :
      Acts pmoType i s ⟨h, .idle⟩ (some (s, ⟨h, .serving p⟩))
  | releasing {s h p} (horigin : (s.page p).origin = .notReleased) :
      Acts pmoType i s ⟨h, .serving p⟩
        (some (s.setPage p { s.page p with origin := .releasing }, ⟨h, .releasing p⟩))
  | notReleasing {s h p} (horigin : (s.page p).origin ≠ .notReleased) :
      Acts pmoType i s ⟨h, .serving p⟩ (some (s, ⟨h, .idle⟩))
  | released {s h p} :
      Acts pmoType i s ⟨h, .releasing p⟩
        (some (s.setPage p { s.page p with origin := .released }, ⟨h, .idle⟩))
  -- snapshots
  | snapshotBegin {s h} (hfree : s.reclaiming = none) :
      Acts pmoType i s ⟨h, .idle⟩
        (some ({ s with snapshotting := s.snapshotting + 1 }, ⟨h, .snapshot⟩))
  | snapshotEnd {s h} :
      Acts pmoType i s ⟨h, .snapshot⟩ (s.snapshotEnd.map fun s => (s, ⟨h, .idle⟩))
  -- `cxl_reclaim_run`
  | begin {s h} (scanDue : Bool) :
      Acts pmoType i s ⟨h, .idle⟩
        (some ((s.reclaimBegin i scanDue).1, ⟨h, (s.reclaimBegin i scanDue).2⟩))
  | done {s h} :
      Acts pmoType i s ⟨h, .run .done⟩ (some ({ s with reclaiming := none }, ⟨h, .idle⟩))
  -- `retry_pending_frees`
  | mark {s h due} (limit : ℕ) :
      Acts pmoType i s ⟨h, .run (.mark due)⟩
        (some (s.markPending limit, ⟨h, .run (.retry due false (s.pendingFrees limit))⟩))
  | retried {s h due freed ps} {p : P} (hp : p ∈ ps) (horigin : (s.page p).origin = .released) :
      Acts pmoType i s ⟨h, .run (.retry due freed ps)⟩
        (some (s, ⟨h, .finalize p (.retry due true (ps.erase p))⟩))
  | notRetried {s h due freed ps} {p : P} (hp : p ∈ ps)
      (horigin : (s.page p).origin ≠ .released) :
      Acts pmoType i s ⟨h, .run (.retry due freed ps)⟩
        (some (s, ⟨h, .deferOrigin p (.retry due freed (ps.erase p))⟩))
  | retryOver {s h due freed} :
      Acts pmoType i s ⟨h, .run (.retry due freed [])⟩
        (some (s, ⟨h, .run (if due && !freed then .select else .done)⟩))
  -- `demote_one_batch`
  | select {s h} (ss : List P) (hnodup : ss.Nodup)
      (hsel : ∀ c ∈ ss, c ∈ s.fifo ∧ (s.page c).state = .resident ∧
        (s.page c).scanning = false ∧ (s.page c).pmo ≠ none) :
      Acts pmoType i s ⟨h, .run .select⟩
        (some (s.selectCandidates ss, ⟨h, .run (.scan ss [])⟩))
  | policy {s h ss ds} {c : P} {m : M} (eligible : Bool) (perm : BitVec 8) (hc : c ∈ ss)
      (hm : (s.page c).pmo = some m) :
      Acts pmoType i s ⟨h, .run (.scan ss ds)⟩
        ((s.accountPagePolicyLocked pmoType c m eligible perm).map fun s =>
          (s, ⟨h, .run (.scan ss ds)⟩))
  | release {s h ss ds} {c : P} (hc : c ∈ ss) :
      Acts pmoType i s ⟨h, .run (.scan ss ds)⟩
        (some (s.releaseScanning c,
          ⟨h, .freeIf ((s.page c).scanning && (s.page c).freeRequested) c
            (.scan (ss.erase c) ds)⟩))
  | claim {s h ss ds} {c : P} (hc : c ∈ ss) (hscan : (s.page c).scanning = true)
      (hstate : (s.page c).state = .resident) :
      Acts pmoType i s ⟨h, .run (.scan ss ds)⟩
        (some (s.claimScanning c, ⟨h, .run (.scan (ss.erase c) (ds ++ [c]))⟩))
  | scanned {s h ds} :
      Acts pmoType i s ⟨h, .run (.scan [] ds)⟩ (some (s, ⟨h, .run (.prepare ds [])⟩))
  | prepare {s h c todo done} :
      Acts pmoType i s ⟨h, .run (.prepare (c :: todo) done)⟩
        (some (s.prepared c, ⟨h, .run (.prepare todo (done ++ [c]))⟩))
  | notPrepared {s h c todo done} :
      Acts pmoType i s ⟨h, .run (.prepare (c :: todo) done)⟩
        (some (s, ⟨h, .defer c (.prepare todo done)⟩))
  | notAllowed {s h c todo done} {m : M} (hm : (s.page c).pmo = some m) :
      Acts pmoType i s ⟨h, .run (.prepare (c :: todo) done)⟩
        ((s.accountPagePolicyLocked pmoType c m false 0).map fun s =>
          (s, ⟨h, .defer c (.prepare todo done)⟩))
  | defer {s h c r} :
      Acts pmoType i s ⟨h, .defer c r⟩
        (some (s.deferCandidate c, ⟨h, .freeIf (s.page c).freeRequested c r⟩))
  | flush {s h cs} :
      Acts pmoType i s ⟨h, .run (.prepare [] cs)⟩
        (some (s.markFlushed cs, ⟨h, .run (.copy cs)⟩))
  | notFlushed {s h cs} :
      Acts pmoType i s ⟨h, .run (.prepare [] cs)⟩ (some (s, ⟨h, .run (.restore cs)⟩))
  | copy {s h cs} :
      Acts pmoType i s ⟨h, .run (.copy cs)⟩ (some (s, ⟨h, .run (.finish cs)⟩))
  | notCopied {s h cs} :
      Acts pmoType i s ⟨h, .run (.copy cs)⟩ (some (s, ⟨h, .run (.restore cs)⟩))
  | restore {s h c cs} :
      Acts pmoType i s ⟨h, .run (.restore (c :: cs))⟩
        (some (s.restoreCandidate c, ⟨h, .freeIf (s.page c).freeRequested c (.restore cs)⟩))
  | restored {s h} :
      Acts pmoType i s ⟨h, .run (.restore [])⟩ (some (s, ⟨h, .run .done⟩))
  | finish {s h c cs} :
      Acts pmoType i s ⟨h, .run (.finish (c :: cs))⟩
        (some (s, ⟨h, .finishing c (s.page c).freeRequested cs⟩))
  | finishLocked {s h c requested cs} :
      Acts pmoType i s ⟨h, .finishing c requested cs⟩
        ((s.finishCandidate pmoType c requested).map fun s' =>
          (s', ⟨h, if requested then .releaseOrigin c (.finish cs)
            else .giveBack c (s.page c).sequence (.finish cs)⟩))
  | finished {s h} :
      Acts pmoType i s ⟨h, .run (.finish [])⟩ (some (s, ⟨h, .run .done⟩))
  -- how a page is given back
  | giveBack {s h p n r} :
      Acts pmoType i s ⟨h, .giveBack p n r⟩
        ((s.buddyFreePages p (some n)).map fun s => (s, ⟨h, .settle r⟩))
  | settle {s h r} :
      Acts pmoType i s ⟨h, .settle r⟩ (s.settle.map fun s => (s, ⟨h, .run r⟩))
  | releaseOrigin {s h p r} :
      Acts pmoType i s ⟨h, .releaseOrigin p r⟩
        ((s.releaseOriginPage p).map fun a => (a.1, ⟨h, if a.2 then .asked p r else .run r⟩))
  | answered {s h p r} (horigin : (s.page p).origin = .released) :
      Acts pmoType i s ⟨h, .asked p r⟩ (some (s, ⟨h, .finalize p r⟩))
  | notAnswered {s h p r} (horigin : (s.page p).origin ≠ .released) :
      Acts pmoType i s ⟨h, .asked p r⟩ (some (s, ⟨h, .deferOrigin p r⟩))
  | finalize {s h p r} :
      Acts pmoType i s ⟨h, .finalize p r⟩
        ((s.finalizePageFree p).map fun a =>
          (a.1, ⟨h, if a.2 then .giveBack p (s.page p).sequence r else .run r⟩))
  | deferOrigin {s h p r} :
      Acts pmoType i s ⟨h, .deferOrigin p r⟩
        (some (s.deferOriginRelease p, ⟨h, .run r⟩))

/-- The resident set and the threads of all machines. -/
abbrev World (P T M K : Type) : Type := Threads T (Shared P T M K) (Thread P M)

/-- One thread does one step, where `C` allows it. -/
inductive Step (pmoType : M → K) (C : Shared P T M K → Thread P M → Prop) :
    World P T M K → World P T M K → Prop
  | act {w : World P T M K} {i : T} {s : Shared P T M K} {t : Thread P M}
      (hC : C w.mem (w.pc i)) (h : Acts pmoType i w.mem (w.pc i) (some (s, t))) :
      Step pmoType C w (w.move i s t)
  | bug {w : World P T M K} {i : T} (hC : C w.mem (w.pc i))
      (h : Acts pmoType i w.mem (w.pc i) none) :
      Step pmoType C w (w.move i w.mem ⟨(w.pc i).held, .bug⟩)

/-- Every step. -/
def Any (_ : Shared P T M K) (_ : Thread P M) : Prop := True

/-- The page as it is before its first allocation. -/
def Page.fresh : Page T M :=
  { allocated := false, order := 0, state := .none, phase := .idle, scanning := false,
    freeRequested := false, origin := .notReleased, pmo := none, policyEligible := false,
    policyPerm := 0, hand := .rest, sequence := 0, tracked := false }

/-- `dsm_cxl_reclaim_init`: no page is allocated, and no thread has begun. -/
def start (P T M K : Type) (totalPages limitPages : ℕ) : World P T M K where
  mem :=
    { page := fun _ => .fresh, fifo := [], totalPages, limitPages, allocatedPages := 0,
      reservedPages := 0, residentPages := 0, residentReservedPages := 0, freePendingPages := 0,
      eligibleByPmoType := fun _ => 0, eligibleByPerm := fun _ => 0, pendingReclaimPages := 0,
      reclaiming := none, snapshotting := 0, trackings := 0, returned := [] }
  pc := fun _ => ⟨0, .idle⟩

end Starfish.Reclaim
