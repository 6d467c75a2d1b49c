import Starfish.Interleave

/-!
# Starfish.Reclaim.Pins

The references to PMOs that the reclaimer takes, and who runs a destructor.  `pmo_deinit` frees the
pages of the PMO, and `dsm_cxl_free_page` takes `fifo_guard`.  `select_candidates` pins the PMO of
an entry with that guard held and puts it again if the policy does not allow the page.  If the
other references have gone by then, the destructor waits for a guard that its own thread holds.
Every other reference is put without the guard (`destructor_without_guard`).
-/

namespace Starfish.Reclaim.Pins

open Relation

/-- The reference counts of the PMOs, and the thread that holds `fifo_guard`. -/
structure Shared (T M : Type) where
  refs : M → ℕ
  guard : Option T

/-- Where a thread is, with the references it has: outside the guard, in the loop of
`select_candidates`, with the PMO of an entry pinned, with a pinned PMO that the policy does not
allow, or in a destructor that returns to another place. -/
inductive Phase (M : Type)
  | outside (own : List M)
  | inside (own : List M)
  | pinned (own : List M) (m : M)
  | refused (own : List M) (m : M)
  | destroying (m : M) (back : Phase M)

/-- The thread is between `lock` and `unlock`. -/
def Phase.guarded {M : Type} : Phase M → Bool
  | .outside _ => false
  | .inside _ | .pinned _ _ | .refused _ _ => true
  | .destroying _ back => back.guarded

variable {T M : Type} [DecidableEq T] [DecidableEq M]

/-- `cxl_object_try_get`, of an object that has references. -/
def Shared.tryGet (s : Shared T M) (m : M) : Shared T M :=
  { s with refs := Function.update s.refs m (s.refs m + 1) }

/-- The count after `obj_put`. -/
def Shared.objPut (s : Shared T M) (m : M) : Shared T M :=
  { s with refs := Function.update s.refs m (s.refs m - 1) }

/-- Where `obj_put` leads: the last reference takes the object with it. -/
def Shared.afterPut (s : Shared T M) (m : M) (back : Phase M) : Phase M :=
  if s.refs m = 1 then .destroying m back else back

/-- What thread `i` can do.  Which entries the loop meets and what the policy says of them is
open. -/
inductive Acts (i : T) : Shared T M → Phase M → Shared T M → Phase M → Prop
  | get {s own m} (h : s.refs m ≠ 0) : Acts i s (.outside own) (s.tryGet m) (.outside (m :: own))
  /-- `release_candidate_pmo`, which `restore_candidates`, `release_scanning_candidate`,
  `finish_candidate` and `defer_candidate` call; `dsm_cxl_unlink_vmr`; `defer_pmo_reclaim`,
  `vmspace_deinit` and every other owner. -/
  | put {s own m} (h : m ∈ own) :
      Acts i s (.outside own) (s.objPut m) (s.afterPut m (.outside (own.erase m)))
  | lock {s own} (h : s.guard = none) :
      Acts i s (.outside own) { s with guard := some i } (.inside own)
  /-- `try_pin_candidate_pmo`. -/
  | pin {s own m} (h : s.refs m ≠ 0) : Acts i s (.inside own) (s.tryGet m) (.pinned own m)
  | select {s own m} : Acts i s (.pinned own m) s (.inside (m :: own))
  | refuse {s own m} : Acts i s (.pinned own m) s (.refused own m)
  | putPinned {s own m} :
      Acts i s (.refused own m) (s.objPut m) (s.afterPut m (.inside own))
  | unlock {s own} : Acts i s (.inside own) { s with guard := none } (.outside own)
  /-- `dsm_cxl_free_page` for a page of the PMO. -/
  | freePage {s m back} (h : s.guard = none) :
      Acts i s (.destroying m back) s (.destroying m back)
  | destroyed {s m back} : Acts i s (.destroying m back) s back

/-- One thread does something. -/
inductive Step : Threads T (Shared T M) (Phase M) → Threads T (Shared T M) (Phase M) → Prop
  | intro {w : Threads T (Shared T M) (Phase M)} {i : T} {s' p'}
      (h : Acts i w.mem (w.pc i) s' p') : Step w (w.move i s' p')

/-- A step that does not put the last reference to a PMO that the policy has refused. -/
def CarefulStep (w w' : Threads T (Shared T M) (Phase M)) : Prop :=
  Step w w' ∧ ∀ i own m, w.pc i = .refused own m → w.mem.refs m = 1 → w'.pc i = w.pc i

/-- No thread is in `select_candidates` or in a destructor. -/
def start (refs : M → ℕ) (own : T → List M) : Threads T (Shared T M) (Phase M) :=
  ⟨⟨refs, none⟩, fun i => .outside (own i)⟩

/-- The guard is where the threads are, and no destructor was called with it. -/
structure Guarded (w : Threads T (Shared T M) (Phase M)) : Prop where
  holder : ∀ i, w.mem.guard = some i ↔ (w.pc i).guarded = true
  free : ∀ i m back, w.pc i = .destroying m back → back.guarded = false

variable {w w' : Threads T (Shared T M) (Phase M)} {i : T}

omit [DecidableEq M] in
/-- A thread moves and leaves the guard as it is. -/
theorem Guarded.stay (h : Guarded w) (hguard : s'.guard = w.mem.guard)
    (hself : p'.guarded = (w.pc i).guarded)
    (hfree : ∀ m back, p' = .destroying m back → back.guarded = false) :
    Guarded (w.move i s' p') := by
  constructor
  · intro j
    have := h.holder j
    grind
  · intro j m back hpc
    have := h.free j m back
    grind

omit [DecidableEq T] [DecidableEq M] in
theorem afterPut_cases (s : Shared T M) (m : M) (back : Phase M) :
    s.refs m = 1 ∧ s.afterPut m back = .destroying m back ∨
      s.refs m ≠ 1 ∧ s.afterPut m back = back := by
  by_cases h : s.refs m = 1
  · exact .inl ⟨h, if_pos h⟩
  · exact .inr ⟨h, if_neg h⟩

theorem Guarded.step (h : Guarded w) (hstep : CarefulStep w w') : Guarded w' := by
  obtain ⟨hstep, hcareful⟩ := hstep
  cases hstep with
  | @intro i s' p' hacts =>
  have hfree := h.free i
  have hi := h.holder i
  generalize hpc : w.pc i = p at hacts hfree hi
  have hself : p.guarded = (w.pc i).guarded := by rw [hpc]
  cases hacts with
  | get | pin | select | refuse => exact h.stay rfl hself nofun
  | freePage => exact h.stay rfl hself hfree
  | put =>
    obtain ⟨-, hput⟩ | ⟨-, hput⟩ := afterPut_cases w.mem _ _
    · rw [hput]
      exact h.stay rfl hself (by rintro _ _ ⟨⟩; rfl)
    · rw [hput]
      exact h.stay rfl hself nofun
  | putPinned =>
    obtain ⟨hlast, hput⟩ | ⟨-, hput⟩ := afterPut_cases w.mem _ _
    · -- such a step is not careful
      have hstays := hcareful i _ _ hpc hlast
      rw [w.move_pc_self, hput, hpc] at hstays
      cases hstays
    · rw [hput]
      exact h.stay rfl hself nofun
  | lock | unlock =>
    constructor
    · intro j
      have := h.holder j
      grind [Phase.guarded]
    · intro j m back hj
      have := h.free j m back
      grind
  | destroyed =>
    have hback := hfree _ _ rfl
    refine h.stay rfl hself ?_
    rintro m back rfl
    exact hback

theorem guarded_of_run (hrun : ReflTransGen CarefulStep (start refs own) w) : Guarded w := by
  induction hrun with
  | refl => exact ⟨fun i => by simp [start, Phase.guarded], nofun⟩
  | tail _ hstep ih => exact ih.step hstep

/-- A destructor runs without the guard in every run that puts no last reference to a PMO it has
refused. -/
theorem destructor_without_guard {refs : M → ℕ} {own : T → List M}
    (hrun : ReflTransGen CarefulStep (start refs own) w) {m : M} {back : Phase M}
    (hpc : w.pc i = .destroying m back) : w.mem.guard ≠ some i := by
  intro hguard
  have h := guarded_of_run hrun
  have hself := (h.holder i).mp hguard
  rw [hpc, Phase.guarded, h.free i m back hpc] at hself
  cases hself

/-- The reclaimer refuses a PMO, puts its reference and leaves; then the owner puts the last one. -/
theorem destructor_without_guard_put : ∃ w : Threads Bool (Shared Bool Unit) (Phase Unit),
    w.pc false = .destroying () (.outside []) ∧ w.mem.guard ≠ some false := by
  have hlock : CarefulStep (start (fun _ => 1) fun i : Bool => cond i [] [()]) _ :=
    ⟨.intro (i := true) (.lock rfl), nofun⟩
  have hpin := ReflTransGen.single hlock |>.tail
    ⟨.intro (i := true) (.pin (m := ()) (by decide)), Bool.rec nofun nofun⟩
  have hrefuse := hpin.tail ⟨.intro (i := true) .refuse, Bool.rec nofun nofun⟩
  have hput := hrefuse.tail ⟨.intro (i := true) .putPinned, Bool.rec nofun nofun⟩
  have hunlock := hput.tail ⟨.intro (i := true) .unlock, Bool.rec nofun nofun⟩
  have hlast := hunlock.tail
    ⟨.intro (i := false) (.put (m := ()) (by decide)), Bool.rec nofun nofun⟩
  exact ⟨_, rfl, destructor_without_guard hlast rfl⟩

/-- The last other reference goes when the policy has refused the page, and the destructor waits
for the guard of its own thread. -/
theorem destructor_with_guard : ∃ w : Threads Bool (Shared Bool Unit) (Phase Unit),
    ReflTransGen Step (start (fun _ => 1) fun i : Bool => cond i [] [()]) w ∧
    w.pc true = .destroying () (.inside []) ∧ w.mem.guard = some true := by
  have hlock := ReflTransGen.single (Step.intro (i := true)
    (w := start (fun _ : Unit => 1) fun i : Bool => cond i [] [()]) (.lock rfl))
  have hpin := hlock.tail (.intro (i := true) (.pin (m := ()) (by decide)))
  have hrefuse := hpin.tail (.intro (i := true) .refuse)
  have hput := hrefuse.tail (.intro (i := false) (.put (m := ()) (by decide)))
  exact ⟨_, hput.tail (.intro (i := true) .putPinned), rfl, rfl⟩

end Starfish.Reclaim.Pins
