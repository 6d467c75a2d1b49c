import Mathlib.Algebra.Order.BigOperators.Group.Finset
import Starfish.Places
import Starfish.Reclaim.Pages

/-!
# Starfish.Reclaim.Counters

The counters of `dsm_meta->cxl_reclaim` against what they count.  Each is the sum of what the
pages weigh in it and of what the threads owe to it, who have changed a page and not yet the
counter, or the other way round.  A step keeps all counters right if it keeps the balance
between its own page, its own thread and the counter.

The sections that may run into a `BUG_ON` are stepped through here: where the counters cover
what the page and the thread need, none fires.
-/

namespace Starfish.Reclaim

open Function Shared

variable {P T M K : Type} [DecidableEq K]

/-! ## What counts -/

/-- The counters. -/
inductive Counter (K : Type) where
  | allocated | reserved | resident | residentReserved | freePending
  | byPmoType (k : K)
  | byPerm (x : BitVec 8)
  | snapshots

@[simp] def Shared.value (s : Shared P T M K) : Counter K → ℕ
  | .allocated => s.allocatedPages
  | .reserved => s.reservedPages
  | .resident => s.residentPages
  | .residentReserved => s.residentReservedPages
  | .freePending => s.freePendingPages
  | .byPmoType k => s.eligibleByPmoType k
  | .byPerm x => s.eligibleByPerm x
  | .snapshots => s.snapshotting

@[simp] def Hand.isTaken : Hand T → Bool
  | .taken _ => true
  | _ => false

/-- What a page weighs in a counter. -/
@[simp] def Page.weight (pmoType : M → K) (pg : Page T M) : Counter K → ℕ
  | .allocated => if pg.allocated && !pg.hand.isTaken then 2 ^ pg.order else 0
  | .resident => if pg.state = .none then 0 else 1
  | .freePending => if pg.state = .freePending then 1 else 0
  | .byPmoType k => if pg.policyEligible = true ∧ pg.pmo.map pmoType = some k then 1 else 0
  | .byPerm x => if pg.policyEligible = true ∧ pg.policyPerm = x then 1 else 0
  | _ => 0

/-- The pages that are free and still counted as allocated. -/
@[simp] def Phase.uncounted : Phase P M → ℕ
  | .uncount n _ => n
  | .settle _ => 1
  | _ => 0

/-- The pages that are reserved for an allocation under way. -/
@[simp] def Phase.reserving : Phase P M → ℕ
  | .reserved o => 2 ^ o
  | .got _ o => 2 ^ o
  | _ => 0

/-- The pages that are off the FIFO and still counted as resident. -/
@[simp] def Phase.unsettled : Phase P M → ℕ
  | .giveBack _ _ _ => 1
  | .settle _ => 1
  | _ => 0

@[simp] def Phase.snapshots : Phase P M → ℕ
  | .snapshot => 1
  | _ => 0

/-- What a thread owes to a counter. -/
@[simp] def Thread.due (t : Thread P M) : Counter K → ℕ
  | .allocated => t.phase.uncounted
  | .reserved => t.phase.reserving
  | .resident => t.phase.unsettled
  | .residentReserved => t.held
  | .snapshots => t.phase.snapshots
  | _ => 0

omit [DecidableEq K] in
/-- A call that is over owes nothing. -/
theorem Thread.due_after (h : ℕ) (r : Option (Rest P)) (c : Counter K) :
    Thread.due (⟨h, .after r⟩ : Thread P M) c = Thread.due (⟨h, .idle⟩ : Thread P M) c := by
  cases r <;> cases c <;> rfl

omit [DecidableEq K] in
theorem Thread.due_freeIf (h : ℕ) (b : Bool) (p : P) (r : Rest P) (c : Counter K) :
    Thread.due (⟨h, .freeIf b p r⟩ : Thread P M) c = Thread.due (⟨h, .idle⟩ : Thread P M) c := by
  cases b <;> cases c <;> rfl

/-! ## The balance -/

section balance

variable [Fintype P] (pmoType : M → K)

/-- What the pages weigh together. -/
def Shared.total (s : Shared P T M K) (c : Counter K) : ℕ := ∑ p, (s.page p).weight pmoType c

/-- The step of a thread keeps the counters as right as they are. -/
def Balances (s : Shared P T M K) (t : Thread P M) (s' : Shared P T M K) (t' : Thread P M) :
    Prop :=
  ∀ c, s'.value c + (s.total pmoType c + t.due c) = s.value c + (s'.total pmoType c + t'.due c)

/-- The counters are enough for the pages and for one thread. -/
def Covers (s : Shared P T M K) (t : Thread P M) : Prop :=
  ∀ c, s.total pmoType c + t.due c ≤ s.value c

variable {pmoType} {s s' : Shared P T M K} {t t' : Thread P M}

theorem Covers.weight_le (h : Covers pmoType s t) (p : P) (c : Counter K) :
    (s.page p).weight pmoType c ≤ s.value c := by
  have hle : (s.page p).weight pmoType c ≤ s.total pmoType c :=
    Finset.single_le_sum (f := fun p => (s.page p).weight pmoType c) (fun _ _ => Nat.zero_le _)
      (Finset.mem_univ p)
  exact hle.trans ((Nat.le_add_right _ _).trans (h c))

theorem Covers.due_le (h : Covers pmoType s t) (c : Counter K) : t.due c ≤ s.value c :=
  (Nat.le_add_left _ _).trans (h c)

section

variable [DecidableEq P] {p : P} (hpage : ∀ x, x ≠ p → s'.page x = s.page x)
include hpage

/-- A counter that changes with one page and what is owed to it. -/
theorem Shared.value_add_of_eq_off (h : s'.value c + ((s.page p).weight pmoType c + owed) =
      s.value c + ((s'.page p).weight pmoType c + owed')) :
    s'.value c + (s.total pmoType c + owed) = s.value c + (s'.total pmoType c + owed') := by
  have hsum : s'.total pmoType c + (s.page p).weight pmoType c =
      s.total pmoType c + (s'.page p).weight pmoType c :=
    sum_add_of_eq_off (f := fun x => (s.page x).weight pmoType c)
      (g := fun x => (s'.page x).weight pmoType c) p fun x hx => by simp only [hpage x hx]
  omega

theorem Balances.of_page (h : ∀ c, s'.value c + ((s.page p).weight pmoType c + t.due c) =
      s.value c + ((s'.page p).weight pmoType c + t'.due c)) : Balances pmoType s t s' t' :=
  fun c => value_add_of_eq_off hpage (h c)

end

theorem Balances.of_same (hpage : s'.page = s.page)
    (h : ∀ c, s'.value c + t.due c = s.value c + t'.due c) : Balances pmoType s t s' t' := by
  intro c
  have hsum : s'.total pmoType c = s.total pmoType c := by rw [total, hpage, total]
  have := h c
  omega

end balance

/-! ## The policy counters -/

section policy

theorem update_pred_add {ι : Type} [DecidableEq ι] {f : ι → ℕ} {a : ι} (h : f a ≠ 0) (k : ι) :
    update f a (f a - 1) k + (if a = k then 1 else 0) = f k := by
  by_cases hk : a = k
  · subst hk
    simp
    omega
  · simp [hk, Ne.symm hk]

theorem update_succ {ι : Type} [DecidableEq ι] {f : ι → ℕ} {a : ι} (k : ι) :
    update f a (f a + 1) k = f k + if a = k then 1 else 0 := by
  by_cases hk : a = k
  · subst hk
    simp
  · simp [hk, Ne.symm hk]

variable [DecidableEq P] {s : Shared P T M K} {p : P} (pmoType : M → K)
  (htype : ∀ k, (s.page p).weight pmoType (.byPmoType k) ≤ s.eligibleByPmoType k)
  (hperm : ∀ x, (s.page p).weight pmoType (.byPerm x) ≤ s.eligibleByPerm x)

include htype hperm

omit [DecidableEq P] in
/-- One eligible page less, where the page is one of those counted. -/
theorem Shared.unaccount_eq {m : M} (he : (s.page p).policyEligible = true)
    (hpmo : (s.page p).pmo = some m) :
    ∃ f g, s.unaccount pmoType m (s.page p).policyPerm =
        some { s with eligibleByPmoType := f, eligibleByPerm := g } ∧
      (∀ k, f k + (s.page p).weight pmoType (.byPmoType k) = s.eligibleByPmoType k) ∧
      ∀ x, g x + (s.page p).weight pmoType (.byPerm x) = s.eligibleByPerm x := by
  have hwt : ∀ k, (s.page p).weight pmoType (.byPmoType k) = if pmoType m = k then 1 else 0 := by
    simp [he, hpmo]
  have hwp : ∀ x, (s.page p).weight pmoType (.byPerm x) =
      if (s.page p).policyPerm = x then 1 else 0 := by
    simp [he]
  simp only [hwt, hwp] at htype hperm ⊢
  have ht : s.eligibleByPmoType (pmoType m) ≠ 0 := by
    have := htype (pmoType m)
    simp at this
    omega
  have hp : s.eligibleByPerm (s.page p).policyPerm ≠ 0 := by
    have := hperm (s.page p).policyPerm
    simp at this
    omega
  exact ⟨_, _, if_neg (by simp [ht, hp]), update_pred_add ht, update_pred_add hp⟩

theorem Shared.unaccountPagePolicyLocked_eq (hpmo : (s.page p).pmo = m)
    (hsome : (s.page p).policyEligible = true → m ≠ none) :
    ∃ f g, s.unaccountPagePolicyLocked pmoType p m =
        some { s with
          page := update s.page p { s.page p with policyEligible := false }
          eligibleByPmoType := f
          eligibleByPerm := g } ∧
      (∀ k, f k + (s.page p).weight pmoType (.byPmoType k) = s.eligibleByPmoType k) ∧
      ∀ x, g x + (s.page p).weight pmoType (.byPerm x) = s.eligibleByPerm x := by
  by_cases he : (s.page p).policyEligible = true
  · obtain ⟨m, rfl⟩ := Option.ne_none_iff_exists'.mp (hsome he)
    obtain ⟨f, g, heq, hf, hg⟩ := unaccount_eq pmoType htype hperm he hpmo
    exact ⟨f, g, by simp [unaccountPagePolicyLocked, he, heq], hf, hg⟩
  · have he' : (s.page p).policyEligible = false := by simpa using he
    have hself : { s.page p with policyEligible := false } = s.page p := by
      rw [← he']
    refine ⟨s.eligibleByPmoType, s.eligibleByPerm, ?_, by simp [he'], by simp [he']⟩
    rw [hself, update_eq_self]
    cases m <;> simp [unaccountPagePolicyLocked, he']

theorem Shared.accountPagePolicyLocked_eq {m : M} (e : Bool) (perm : BitVec 8)
    (hpmo : (s.page p).pmo = some m)
    (hmask : (s.page p).policyPerm &&& rwx = (s.page p).policyPerm) :
    ∃ f g, s.accountPagePolicyLocked pmoType p m e perm =
        some { s with
          page := update s.page p { s.page p with policyEligible := e, policyPerm := perm &&& rwx }
          eligibleByPmoType := f
          eligibleByPerm := g } ∧
      (∀ k, f k + (s.page p).weight pmoType (.byPmoType k) =
        s.eligibleByPmoType k + if e = true ∧ pmoType m = k then 1 else 0) ∧
      ∀ x, g x + (s.page p).weight pmoType (.byPerm x) =
        s.eligibleByPerm x + if e = true ∧ perm &&& rwx = x then 1 else 0 := by
  by_cases he : (s.page p).policyEligible = true
  · obtain ⟨f, g, heq, hf, hg⟩ := unaccount_eq pmoType htype hperm he hpmo
    cases e with
    | false =>
      refine ⟨f, g, by simp [accountPagePolicyLocked, he, hmask, heq], ?_, ?_⟩
      · simpa using hf
      · simpa using hg
    | true =>
      by_cases hsame : (s.page p).policyPerm = perm &&& rwx
      · refine ⟨s.eligibleByPmoType, s.eligibleByPerm, ?_, by simp [he, hpmo], by simp [he, hsame]⟩
        simp [accountPagePolicyLocked, he, hsame, BitVec.and_assoc]
      · -- the page changes its class: out of one counter, into the other
        refine ⟨update f (pmoType m) (f (pmoType m) + 1),
          update g (perm &&& rwx) (g (perm &&& rwx) + 1), ?_, ?_, ?_⟩
        · simp [accountPagePolicyLocked, he, hmask, hsame, heq, account]
        · intro k
          have := hf k
          rw [update_succ]
          simp only [true_and]
          omega
        · intro x
          have := hg x
          rw [update_succ]
          simp only [true_and]
          omega
  · have he' : (s.page p).policyEligible = false := by simpa using he
    have hwt : ∀ k, (s.page p).weight pmoType (.byPmoType k) = 0 := by simp [he']
    have hwp : ∀ x, (s.page p).weight pmoType (.byPerm x) = 0 := by simp [he']
    simp only [hwt, hwp, add_zero]
    cases e with
    | false =>
      refine ⟨s.eligibleByPmoType, s.eligibleByPerm, ?_, by simp, by simp⟩
      simp [accountPagePolicyLocked, he']
    | true =>
      refine ⟨update s.eligibleByPmoType (pmoType m) (s.eligibleByPmoType (pmoType m) + 1),
        update s.eligibleByPerm (perm &&& rwx) (s.eligibleByPerm (perm &&& rwx) + 1),
        by simp [accountPagePolicyLocked, he', account], ?_, ?_⟩
      · simp [update_succ]
      · simp [update_succ]

end policy

end Starfish.Reclaim
