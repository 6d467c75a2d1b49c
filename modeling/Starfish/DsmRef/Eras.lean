import Starfish.DsmRef.Model

/-!
# Starfish.DsmRef.Eras

What the eras and the redo records say about each other when a machine runs one operation
at a time.  The last operation of a machine that took effect can be seen in two places: in
the word of its object, or, once another machine has changed that word, in the era which
that machine has noted before.  Recovery looks at both.
-/

namespace Starfish.DsmRef

open List Phase Shared Redo Function

attribute [local simp] betterRedo mid?

/-! ## The latest record -/

/-- `r` is the best of the records. -/
structure Best (rs : List Redo) (r : Redo) : Prop where
  mem : r ∈ rs
  used : r.funcId ≠ .empty
  max : ∀ b ∈ rs, b.funcId ≠ .empty → b.curEra ≤ r.curEra

theorem betterRedo_eq (best : Option Redo) (r : Redo) : betterRedo best r =
      if r.funcId = .empty ∨ ∃ b, best = some b ∧ r.curEra ≤ b.curEra then best else some r := by
  by_cases hempty : r.funcId = .empty
  · simp [hempty]
  · cases best with
    | none => simp [hempty]
    | some b => by_cases hgt : r.curEra > b.curEra <;> simp [hempty, hgt]

/-- The scan keeps the best record of what it has seen. -/
theorem foldl_betterRedo (rs done : List Redo) (best : Option Redo)
    (hnone : best = none → ∀ b ∈ done, b.funcId = .empty)
    (hsome : ∀ r, best = some r → Best done r) :
    (rs.foldl betterRedo best = none → ∀ b ∈ done ++ rs, b.funcId = .empty) ∧
      ∀ r, rs.foldl betterRedo best = some r → Best (done ++ rs) r := by
  induction rs generalizing done best with
  | nil => simpa using ⟨hnone, hsome⟩
  | cons x rs ih =>
    have happend : done ++ x :: rs = (done ++ [x]) ++ rs := by simp
    rw [foldl_cons, happend]
    refine ih (done ++ [x]) (betterRedo best x) ?_ fun r h => ⟨?_, ?_, ?_⟩ <;>
      rw [betterRedo_eq] at *
    · grind
    · have hmem (b : Redo) (hb : best = some b) := (hsome b hb).mem
      grind
    · have hused (b : Redo) (hb : best = some b) := (hsome b hb).used
      grind
    · have hmax (b : Redo) (hb : best = some b) := (hsome b hb).max
      cases best <;> grind

variable {r : Redo}

theorem findLatestRedo_eq_some {redo : ℕ → Redo} (h : findLatestRedo redo = some r) :
    (∃ i, i < redoCnt ∧ redo i = r) ∧ r.funcId ≠ .empty ∧
      ∀ i, i < redoCnt → (redo i).funcId ≠ .empty → (redo i).curEra ≤ r.curEra := by
  have hbest := (foldl_betterRedo ((range redoCnt).map redo) [] none (by simp) (by simp)).2 r h
  obtain ⟨i, hi, hr⟩ := mem_map.mp hbest.mem
  refine ⟨⟨i, mem_range.mp hi, hr⟩, hbest.used, fun i hi hne => ?_⟩
  exact hbest.max _ (mem_map.mpr ⟨i, mem_range.mpr hi, rfl⟩) hne

theorem findLatestRedo_eq_none {redo : ℕ → Redo} (h : findLatestRedo redo = none) :
    ∀ i, i < redoCnt → (redo i).funcId = .empty := by
  have hnone := (foldl_betterRedo ((range redoCnt).map redo) [] none (by simp) (by simp)).1 h
  exact fun i hi => hnone _ (mem_map.mpr ⟨i, mem_range.mpr hi, rfl⟩)

/-! ## Who does what -/

/-- The operation that a CPU is in. -/
def Phase.op? : Phase → Option Call
  | load c _ => some c
  | age c _ _ => some c
  | see c _ _ _ => some c
  | note c _ _ _ _ => some c
  | log c _ _ _ _ => some c
  | store c _ _ _ => some c
  | inc c _ _ _ => some c
  | _ => none

/-- The machine that is recovered. -/
def Cont.dead? : Cont → Option ℕ
  | ret => none
  | sweep _ _ k => k.dead?
  | clear dead => some dead

def Phase.dead? : Phase → Option ℕ
  | idle => none
  | load _ k => k.dead?
  | age _ k _ => k.dead?
  | see _ k _ _ => k.dead?
  | note _ k _ _ _ => k.dead?
  | log _ k _ _ _ => k.dead?
  | store _ k _ _ => k.dead?
  | inc _ k _ _ => k.dead?
  | sweep _ _ _ k => k.dead?
  | find _ dead => some dead
  | check _ dead _ => some dead
  | scan _ dead _ _ => some dead
  | apply _ dead _ => some dead
  | clear _ dead => some dead

@[simp] theorem Cont.resume_op? (mid : ℕ) (k : Cont) : (k.resume mid).op? = none := by
  cases k <;> rfl

@[simp] theorem Cont.resume_dead? (mid : ℕ) (k : Cont) : (k.resume mid).dead? = k.dead? := by
  cases k <;> rfl

theorem Cont.resume_mid? {k : Cont} (h : (k.resume mid).mid? = some m) : m = mid := by
  cases k <;> simp_all [resume]

@[simp] theorem Call.after_op? (c : Call) (k : Cont) (old : ℕ) : (c.after k old).op? = none := by
  rw [after]
  split
  · rfl
  · exact k.resume_op? c.mid

@[simp] theorem Call.after_dead? (c : Call) (k : Cont) (old : ℕ) :
    (c.after k old).dead? = k.dead? := by
  rw [after]
  split
  · rfl
  · exact k.resume_dead? c.mid

theorem Call.after_mid? {c : Call} {old m : ℕ} (h : (c.after k old).mid? = some m) : m = c.mid := by
  rw [after] at h
  split at h
  · exact (Option.some.inj h).symm
  · exact Cont.resume_mid? h

@[simp] theorem Redo.after_op? (r : Redo) (mid dead : ℕ) : (r.after mid dead).op? = none := by
  rw [after]
  split <;> rfl

@[simp] theorem Redo.after_dead? (r : Redo) (mid dead : ℕ) : (r.after mid dead).dead? = some dead := by
  rw [after]
  split <;> rfl

@[simp] theorem Redo.after_mid? (r : Redo) (mid dead : ℕ) : (r.after mid dead).mid? = some mid := by
  rw [after]
  split <;> rfl

theorem Phase.mid?_of_op? {p : Phase} (h : p.op? = some c) : p.mid? = some c.mid := by
  cases p <;> simp_all [op?]

/-- A machine runs one operation at a time, and one CPU at a time recovers a machine. -/
structure Roles {T : Type} (w : World T) : Prop where
  alone : ∀ t t' c c', (w.pc t).op? = some c → (w.pc t').op? = some c' → c.mid = c'.mid → t = t'
  up : ∀ t m, (w.pc t).mid? = some m → w.mem.up m = true
  down : ∀ t d, (w.pc t).dead? = some d → w.mem.up d = false ∧ w.mem.unrecovered d = true
  single : ∀ t t' d, (w.pc t).dead? = some d → (w.pc t').dead? = some d → t = t'

/-- What the callers and the monitor take care of: a machine starts one operation at a time
and a machine is recovered by one CPU at a time; and an era does not wrap around. -/
structure Orderly {T : Type} (w : World T) (i : T) (p' : Phase) : Prop where
  call : ∀ c k, p' = .load c k → ∀ t, t ≠ i → ∀ c', (w.pc t).op? = some c' → c'.mid ≠ c.mid
  recover : ∀ mid dead, p' = .find mid dead → ∀ t, t ≠ i → (w.pc t).dead? ≠ some dead
  inc : ∀ c k old cur, w.pc i = .inc c k old cur → w.mem.era c.mid c.mid + 1 < 2 ^ 32

section roles

variable {T : Type} [DecidableEq T] {w : World T} {i : T} {s' : Shared} {p' : Phase}
  {machines : ℕ}

theorem Roles.move (h : Roles w)
    (hup : ∀ m, s'.up m = w.mem.up m ∨ s'.up m = true ∧ w.mem.unrecovered m = false)
    (hunrec : ∀ t d, t ≠ i → (w.pc t).dead? = some d → s'.unrecovered d = true)
    (hmid : ∀ m, p'.mid? = some m → s'.up m = true)
    (hop : ∀ c, p'.op? = some c → ∀ t, t ≠ i → ∀ c', (w.pc t).op? = some c' → c'.mid ≠ c.mid)
    (hdead : ∀ d, p'.dead? = some d → s'.up d = false ∧ s'.unrecovered d = true)
    (hdead' : ∀ d, p'.dead? = some d → ∀ t, t ≠ i → (w.pc t).dead? ≠ some d) :
    Roles (w.move i s' p') where
  alone t t' c c' ht ht' heq := by
    refine unique_update (R := fun p q : Phase => p.op? = some c ∧ q.op? = some c')
      ?_ ?_ ?_ t t' ⟨ht, ht'⟩
    · exact fun k l hkl => h.alone k l c c' hkl.1 hkl.2 heq
    · exact fun k hk hkl => hop c hkl.1 k hk c' hkl.2 heq.symm
    · exact fun k hk hkl => hop c' hkl.2 k hk c hkl.1 heq
  up t m ht := by
    by_cases hti : t = i
    · subst hti
      rw [w.move_pc_self] at ht
      exact hmid m ht
    · rw [w.move_pc_of_ne hti] at ht
      obtain hup | ⟨hup, -⟩ := hup m
      · exact hup.trans (h.up t m ht)
      · exact hup
  down t d ht := by
    by_cases hti : t = i
    · subst hti
      rw [w.move_pc_self] at ht
      exact hdead d ht
    · rw [w.move_pc_of_ne hti] at ht
      obtain ⟨hdown, hold⟩ := h.down t d ht
      refine ⟨?_, hunrec t d hti ht⟩
      obtain hup | ⟨-, hrec⟩ := hup d
      · exact hup.trans hdown
      · simp [hold] at hrec
  single t t' d ht ht' := by
    refine unique_update (R := fun p q : Phase => p.dead? = some d ∧ q.dead? = some d)
      ?_ ?_ ?_ t t' ⟨ht, ht'⟩
    · exact fun k l hkl => h.single k l d hkl.1 hkl.2
    · exact fun k hk hkl => hdead' d hkl.1 k hk hkl.2
    · exact fun k hk hkl => hdead' d hkl.2 k hk hkl.1

/-- A step that starts nothing. -/
theorem Roles.stay (h : Roles w) (hup : s'.up = w.mem.up)
    (hunrec : s'.unrecovered = w.mem.unrecovered)
    (hmid : ∀ m, p'.mid? = some m → (w.pc i).mid? = some m)
    (hop : p'.op? = (w.pc i).op? ∨ p'.op? = none)
    (hdead : p'.dead? = (w.pc i).dead? ∨ p'.dead? = none) : Roles (w.move i s' p') := by
  refine h.move (fun m => .inl (by rw [hup])) (fun t d _ ht => ?_) (fun m hm => ?_)
    (fun c hc t hti c' hc' heq => ?_) (fun d hd => ?_) fun d hd t hti ht => ?_
  · rw [hunrec]
    exact (h.down t d ht).2
  · rw [hup]
    exact h.up i m (hmid m hm)
  · obtain hop | hop := hop
    · exact hti (h.alone t i c' c hc' (hop ▸ hc) heq)
    · simp [hop] at hc
  · obtain hdead | hdead := hdead
    · rw [hup, hunrec]
      exact h.down i d (hdead ▸ hd)
    · simp [hdead] at hd
  · obtain hdead | hdead := hdead
    · exact hti (h.single t i d ht (hdead ▸ hd))
    · simp [hdead] at hd

omit [DecidableEq T] in
@[grind =] theorem crash_pc (w : World T) (mid : ℕ) (t : T) :
    (crash w mid).pc t = if (w.pc t).mid? = some mid then .idle else w.pc t := rfl

omit [DecidableEq T] in
@[grind =] theorem crash_up (w : World T) (mid m : ℕ) :
    (crash w mid).mem.up m = if m = mid then false else w.mem.up m := update_apply ..

omit [DecidableEq T] in
@[grind =] theorem crash_unrecovered (w : World T) (mid m : ℕ) :
    (crash w mid).mem.unrecovered m = if m = mid then true else w.mem.unrecovered m :=
  update_apply ..

omit [DecidableEq T] in
theorem Roles.crash (h : Roles w) (mid : ℕ) : Roles (crash w mid) := by
  obtain ⟨halone, hup', hdown, hsingle⟩ := h
  constructor <;> grind [op?, mid?, dead?]

theorem Roles.step (h : Roles w) (hacts : Acts machines w.mem (w.pc i) s' p')
    (hord : Orderly w i p') : Roles (w.move i s' p') := by
  generalize hpc : w.pc i = p at hacts
  cases hacts with
  | @join mid hmid hmax hdown hrec =>
    refine h.move (fun m => ?_) (fun t d _ ht => (h.down t d ht).2) (by simp)
      (by simp [op?]) (by simp [dead?]) (by simp [dead?])
    by_cases hm : m = mid
    · exact .inr ⟨by simp [join, hm], hm ▸ hrec⟩
    · exact .inl (by simp [join, setEra, hm])
  | call hup =>
    refine h.move (fun _ => .inl rfl) (fun t d _ ht => (h.down t d ht).2) (fun m hm => ?_)
      (fun c hc => ?_) (by simp [dead?, Cont.dead?]) (by simp [dead?, Cont.dead?])
    · obtain rfl := Option.some.inj hm
      exact hup
    · obtain rfl := Option.some.inj hc
      exact hord.call _ _ rfl
  | @inc c k old cur =>
    exact h.stay rfl rfl (fun m hm => by rw [hpc, Call.after_mid? hm]; rfl)
      (.inr (c.after_op? k old)) (.inl (by rw [hpc, c.after_dead?]; rfl))
  | sweepCall hi hne =>
    refine h.move (fun _ => .inl rfl) (fun t d _ ht => (h.down t d ht).2) (fun m hm => ?_)
      (fun c hc => ?_) (fun d hd => h.down i d (by rw [hpc]; exact hd)) fun d hd t hti ht => ?_
    · exact h.up i m (by rw [hpc]; exact hm)
    · obtain rfl := Option.some.inj hc
      exact hord.call _ _ rfl
    · exact hti (h.single t i d ht (by rw [hpc]; exact hd))
  | @sweepEnd mid obj j k hi =>
    exact h.stay rfl rfl (fun m hm => by rw [hpc, Cont.resume_mid? hm]; rfl)
      (.inr (k.resume_op? mid)) (.inl (by rw [hpc, k.resume_dead?]; rfl))
  | callRecover hup hdown hunrec =>
    refine h.move (fun _ => .inl rfl) (fun t d _ ht => (h.down t d ht).2) (fun m hm => ?_)
      (by simp [op?]) (fun d hd => ?_) fun d hd => ?_
    · obtain rfl := Option.some.inj hm
      exact hup
    · obtain rfl := Option.some.inj hd
      exact ⟨hdown, hunrec⟩
    · obtain rfl := Option.some.inj hd
      exact hord.recover _ _ rfl
  | @apply mid dead r =>
    exact h.stay rfl rfl (fun m hm => by rw [hpc, ← hm, r.after_mid?]; rfl)
      (.inr (r.after_op? mid dead)) (.inl (by rw [hpc, r.after_dead?]; rfl))
  | @clear mid dead =>
    refine h.move (fun _ => .inl rfl) (fun t d hti ht => ?_) (by simp)
      (by simp [op?]) (by simp [dead?]) (by simp [dead?])
    have hd : d ≠ dead := by
      intro heq
      exact hti (h.single t i d ht (by rw [hpc, heq]; rfl))
    simpa [hd] using (h.down t d ht).2
  | _ =>
    exact h.stay rfl rfl (by simp [hpc]) (.inl (by rw [hpc]; rfl)) (.inl (by rw [hpc]; rfl))

end roles

/-! ## Records and eras -/

/-- All records of the machine have an era up to `b`, and what took effect in its latest
life is older. -/
structure Below (s : Shared) (m b : ℕ) : Prop where
  pos : 1 ≤ b
  le : b ≤ s.era m m
  redo : ∀ i, (s.redo m i).curEra ≤ b
  landed : ∀ y ∈ s.landed m, y.1 < b

/-- The record of an operation with its first `n` fields written. -/
structure Written (r new : Redo) (n : ℕ) : Prop where
  funcId : 1 ≤ n → r.funcId = new.funcId
  savedCnt : 2 ≤ n → r.savedCnt = new.savedCnt
  curEra : 3 ≤ n → r.curEra = new.curEra
  refLocOff : 4 ≤ n → r.refLocOff = new.refLocOff
  refedOff : 5 ≤ n → r.refedOff = new.refedOff

/-- The operation has taken effect, and it is the last one of its machine that has. -/
structure Done (s : Shared) (c : Call) (old cur : ℕ) : Prop where
  le : cur ≤ s.era c.mid c.mid
  redo : s.redo c.mid (cur % redoCnt) = c.redo old cur
  others : ∀ i, (s.redo c.mid i).curEra ≤ cur
  landed : ∃ rest, s.landed c.mid = (cur, c.target) :: rest

/-- What is known at each point of the code. -/
def PhaseOk (machines : ℕ) (s : Shared) : Phase → Prop
  | .load c _ => Below s c.mid (s.era c.mid c.mid)
  | .age c _ _ => Below s c.mid (s.era c.mid c.mid)
  | .see c _ _ cur => Below s c.mid cur
  | .note c _ old cur seen => Below s c.mid cur ∧ seen = s.era c.mid (dsmRefLcid old)
  | .log c _ old cur n => Below s c.mid cur ∧ n ≤ 5 ∧
      dsmRefEra old ≤ s.era c.mid (dsmRefLcid old) ∧
      Written (s.redo c.mid (cur % redoCnt)) (c.redo old cur) n
  | .store c _ old cur => Done s c old cur
  | .inc c _ old cur => Done s c old cur
  | .check _ dead r => findLatestRedo (s.redo dead) = some r
  | .scan _ dead r j => findLatestRedo (s.redo dead) = some r ∧ (s.Landed dead r →
      ∃ j', j ≤ j' ∧ j' < machines ∧ j' ≠ dead ∧ r.curEra ≤ s.era j' dead)
  | .apply _ dead r => findLatestRedo (s.redo dead) = some r
  | _ => True

/-- The memory of a machine's log, whatever its CPUs do. -/
structure Logs (machines : ℕ) (s : Shared) : Prop where
  bound : ∀ m, s.up m = true → m < machines ∧ m < maxMachines
  pos : ∀ m, s.up m = true → 1 ≤ s.era m m
  era_lt : ∀ i j, s.era i j < 2 ^ 32
  /-- A record stands in the slot of its era. -/
  slot : ∀ m i, (s.redo m i).curEra = 0 ∨ i = (s.redo m i).curEra % redoCnt
  landed_le : ∀ m, ∀ y ∈ s.landed m, y.1 ≤ s.era m m
  /-- The last operation that took effect is on record, until the next one is. -/
  head : ∀ m e x rest, s.landed m = (e, x) :: rest → 1 ≤ e ∧ (∀ y ∈ rest, y.1 < e) ∧
    (s.redo m (e % redoCnt)).funcId ≠ .empty ∧
    ((s.redo m (e % redoCnt)).curEra = e ∧ (s.redo m (e % redoCnt)).refedOff = x ∨
      e < (s.redo m (e % redoCnt)).curEra)
  /-- It can be seen in its object, or another machine has noted it. -/
  seen : ∀ m e x rest, s.landed m = (e, x) :: rest →
    (dsmRefLcid (s.refInfo x) = m ∧ dsmRefEra (s.refInfo x) = e) ∨
    ∃ j, j < machines ∧ j ≠ m ∧ e ≤ s.era j m

structure Eras {T : Type} (machines : ℕ) (w : World T) : Prop where
  roles : Roles w
  logs : Logs machines w.mem
  ready : ∀ m, w.mem.up m = true → (∀ t c, (w.pc t).op? = some c → c.mid ≠ m) →
    Below w.mem m (w.mem.era m m)
  phase : ∀ t, PhaseOk machines w.mem (w.pc t)

/-- A step of machine `m` leaves the logs of the others alone. -/
structure Local (m : ℕ) (s s' : Shared) : Prop where
  redo : ∀ j, j ≠ m → s'.redo j = s.redo j
  landed : ∀ j, j ≠ m → s'.landed j = s.landed j
  era : ∀ j, j ≠ m → s'.era j = s.era j
  grow : ∀ j, j ≠ m → s.era m j ≤ s'.era m j

section frame

variable {s s' : Shared} {m b machines : ℕ} {p : Phase} {c : Call} {old cur : ℕ}

theorem Local.era_le (h : Local m s s') (hij : i ≠ j) : s.era i j ≤ s'.era i j := by
  by_cases hi : i = m
  · subst hi
    exact h.grow j hij.symm
  · rw [h.era i hi]

theorem Below.congr (h : Below s m b) (hera : s'.era m = s.era m) (hredo : s'.redo m = s.redo m)
    (hlanded : s'.landed m = s.landed m) : Below s' m b := by
  obtain ⟨hpos, hle, hr, hl⟩ := h
  rw [← hera] at hle
  rw [← hredo] at hr
  rw [← hlanded] at hl
  exact ⟨hpos, hle, hr, hl⟩

theorem Done.congr (h : Done s c old cur) (hera : s'.era c.mid = s.era c.mid)
    (hredo : s'.redo c.mid = s.redo c.mid) (hlanded : s'.landed c.mid = s.landed c.mid) :
    Done s' c old cur := by
  obtain ⟨hle, hr, hothers, hl⟩ := h
  rw [← hera] at hle
  rw [← hredo] at hr hothers
  rw [← hlanded] at hl
  exact ⟨hle, hr, hothers, hl⟩

/-- What is known at a point of the code only depends on the logs of its own machine and of
the one that is recovered. -/
theorem PhaseOk.congr (h : PhaseOk machines s p)
    (hop : ∀ c, p.op? = some c → s'.era c.mid = s.era c.mid ∧ s'.redo c.mid = s.redo c.mid ∧
      s'.landed c.mid = s.landed c.mid)
    (hdead : ∀ d, p.dead? = some d → s'.redo d = s.redo d ∧ s'.landed d = s.landed d ∧
      ∀ j, j ≠ d → s.era j d ≤ s'.era j d) : PhaseOk machines s' p := by
  cases p with
  | idle | sweep | find | clear => trivial
  | load c | age c | see c | note c | log c =>
    obtain ⟨hera, hredo, hlanded⟩ := hop c rfl
    have hbelow (b : ℕ) (hb : Below s c.mid b) := hb.congr hera hredo hlanded
    simp only [PhaseOk] at h ⊢
    grind
  | store c | inc c =>
    obtain ⟨hera, hredo, hlanded⟩ := hop c rfl
    exact Done.congr h hera hredo hlanded
  | check _ dead | apply _ dead =>
    simp only [PhaseOk, (hdead dead rfl).1] at h ⊢
    exact h
  | scan mid dead r j =>
    obtain ⟨hredo, hlanded, hgrow⟩ := hdead dead rfl
    obtain ⟨hfind, hseen⟩ := h
    refine ⟨by rwa [hredo], fun hl => ?_⟩
    obtain ⟨j', hj, hlt, hne, hle⟩ := hseen (by rwa [Shared.Landed, hlanded] at hl)
    exact ⟨j', hj, hlt, hne, Nat.le_trans hle (hgrow j' hne)⟩

end frame

section steps

variable {T : Type} [DecidableEq T] {w : World T} {i : T} {s' : Shared} {p' : Phase}
  {machines : ℕ} {c : Call} {k : Cont} {old cur seen n : ℕ}

theorem Eras.moveOp (h : Eras machines w) (hroles : Roles (w.move i s' p'))
    (hop : (w.pc i).op? = some c) (hlocal : Local c.mid w.mem s') (hup : s'.up = w.mem.up)
    (hlogs : Logs machines s') (hphase : PhaseOk machines s' p')
    (hnext : p'.op? = none → Below s' c.mid (s'.era c.mid c.mid))
    (hsame : p'.op? = none ∨ p'.op? = some c) : Eras machines (w.move i s' p') := by
  have hupm : w.mem.up c.mid = true := h.roles.up i c.mid (mid?_of_op? hop)
  refine ⟨hroles, hlogs, fun m hm hno => ?_, fun t => ?_⟩
  · rw [w.move_mem, hup] at hm
    by_cases hmc : m = c.mid
    · subst hmc
      obtain hsame | hsame := hsame
      · exact hnext hsame
      · exact absurd rfl (hno i c (by rw [w.move_pc_self]; exact hsame))
    · have hbelow := h.ready m hm fun t c' ht heq => by
        by_cases hti : t = i
        · subst hti
          rw [hop] at ht
          obtain rfl := Option.some.inj ht
          exact hmc heq.symm
        · exact hno t c' (by rwa [w.move_pc_of_ne hti]) heq
      have hera := hlocal.era m hmc
      rw [w.move_mem, hera]
      exact hbelow.congr hera (hlocal.redo m hmc) (hlocal.landed m hmc)
  · rw [w.move_mem]
    by_cases hti : t = i
    · rwa [hti, w.move_pc_self]
    · rw [w.move_pc_of_ne hti]
      refine (h.phase t).congr (fun c' hc' => ?_) fun d hd => ?_
      · have hne : c'.mid ≠ c.mid := fun heq => hti (h.roles.alone t i c' c hc' hop heq)
        exact ⟨hlocal.era _ hne, hlocal.redo _ hne, hlocal.landed _ hne⟩
      · have hne : d ≠ c.mid := fun heq => by simp [heq ▸ (h.roles.down t d hd).1] at hupm
        exact ⟨hlocal.redo d hne, hlocal.landed d hne, fun j hj => hlocal.era_le hj⟩

/-- A step that leaves the logs and the objects alone. -/
theorem Eras.look (h : Eras machines w) (hroles : Roles (w.move i s' p'))
    (hup : s'.up = w.mem.up) (hinfo : s'.refInfo = w.mem.refInfo) (hera : s'.era = w.mem.era)
    (hredo : s'.redo = w.mem.redo) (hlanded : s'.landed = w.mem.landed)
    (hop : (w.pc i).op? = none ∨ p'.op? = (w.pc i).op?) (hphase : PhaseOk machines w.mem p') :
    Eras machines (w.move i s' p') := by
  have hcongr : ∀ p, PhaseOk machines w.mem p → PhaseOk machines s' p := fun p hp =>
    hp.congr (fun c _ => ⟨by rw [hera], by rw [hredo], by rw [hlanded]⟩)
      fun d _ => ⟨by rw [hredo], by rw [hlanded], fun j _ => by rw [hera]⟩
  refine ⟨hroles, ?_, fun m hm hno => ?_, fun t => ?_⟩
  · obtain ⟨h1, h2, h3, h4, h5, h6, h7⟩ := h.logs
    constructor <;> simp only [Threads.move_mem, hup, hinfo, hera, hredo, hlanded] <;> assumption
  · rw [w.move_mem, hera]
    rw [w.move_mem, hup] at hm
    have hready := h.ready m hm fun t c => by have hno := hno t c; grind
    exact hready.congr (by rw [hera]) (by rw [hredo]) (by rw [hlanded])
  · have hphases := h.phase
    grind

variable {s : Shared}

theorem Below.mono (h : Below s m b) (hb : b ≤ b') (hle : b' ≤ s.era m m) : Below s m b' where
  pos := Nat.le_trans h.pos hb
  le := hle
  redo j := Nat.le_trans (h.redo j) hb
  landed y hy := Nat.lt_of_lt_of_le (h.landed y hy) hb

@[grind =] theorem setEra_era (s : Shared) (m j v a b : ℕ) :
    (s.setEra m j v).era a b = if a = m ∧ b = j then v else s.era a b := by
  by_cases ha : a = m <;> by_cases hb : b = j <;> simp [setEra, ha, hb]

theorem local_setEra (hv : j ≠ m → s.era m j ≤ v) : Local m s (s.setEra m j v) where
  redo _ _ := rfl
  landed _ _ := rfl
  era l hl := by simp [setEra, hl]
  grow l hl := by grind

theorem Logs.setEra (h : Logs machines s) (hv : s.era m j ≤ v)
    (hlt : v < 2 ^ 32) : Logs machines (s.setEra m j v) := by
  have hera (a b : ℕ) : s.era a b ≤ (s.setEra m j v).era a b := by grind
  refine ⟨h.bound, fun a ha => Nat.le_trans (h.pos a ha) (hera a a), fun a b => ?_, h.slot,
    fun a y hy => Nat.le_trans (h.landed_le a y hy) (hera a a), h.head, fun a e x rest hl => ?_⟩
  · have hold := h.era_lt a b
    grind
  · obtain hinfo | ⟨l, hlt, hne, hle⟩ := h.seen a e x rest hl
    · exact .inl hinfo
    · exact .inr ⟨l, hlt, hne, Nat.le_trans hle (hera l a)⟩

theorem Eras.note (h : Eras machines w) (hroles : Roles (w.move i
      (w.mem.setEra c.mid (dsmRefLcid old) (dsmRefEra old)) (.log c k old cur 0)))
    (hpc : w.pc i = .note c k old cur seen) (hgt : dsmRefEra old > seen) :
    Eras machines (w.move i (w.mem.setEra c.mid (dsmRefLcid old) (dsmRefEra old))
      (.log c k old cur 0)) := by
  have hphase := h.phase i
  rw [hpc] at hphase
  obtain ⟨hbelow, rfl⟩ := hphase
  have hlt : dsmRefEra old < 2 ^ 32 := Nat.mod_lt _ (by decide)
  refine h.moveOp (c := c) hroles (by rw [hpc]; rfl) (local_setEra fun _ => Nat.le_of_lt hgt) rfl
    (h.logs.setEra (Nat.le_of_lt hgt) hlt) ⟨⟨hbelow.pos, ?_, hbelow.redo, hbelow.landed⟩,
      Nat.zero_le _, ?_, ⟨by omega, by omega, by omega, by omega, by omega⟩⟩
    (by simp [op?]) (.inr rfl)
  · have hle := hbelow.le
    grind
  · simp [setEra]

theorem local_setRedo : Local m s (s.setRedo m slot r) where
  redo l hl := by simp [setRedo, hl]
  landed _ _ := rfl
  era _ _ := rfl
  grow _ _ := Nat.le_refl _

@[grind =] theorem setRedo_redo (s : Shared) (m slot m' slot' : ℕ) (r : Redo) :
    (s.setRedo m slot r).redo m' slot' = if m' = m ∧ slot' = slot then r else s.redo m' slot' := by
  by_cases hm : m' = m <;> by_cases hslot : slot' = slot <;> simp [setRedo, hm, hslot]

theorem Call.funcId_ne_empty (c : Call) : c.funcId ≠ .empty := by
  rw [funcId]
  split <;> simp

theorem Written.write (h : Written r new n) (hn : n < 5) : Written (new.write r n) new (n + 1) := by
  obtain ⟨h1, h2, h3, h4, h5⟩ := h
  obtain rfl | rfl | rfl | rfl | rfl : n = 0 ∨ n = 1 ∨ n = 2 ∨ n = 3 ∨ n = 4 := by omega
  all_goals constructor <;> intro hle <;> simp_all [write]

theorem Redo.write_curEra (new old : Redo) (n : ℕ) :
    (new.write old n).curEra = if n = 2 then new.curEra else old.curEra := by
  match n with
  | 0 | 1 | 2 | 3 | _ + 4 => simp [write]

theorem Redo.write_funcId (new old : Redo) (n : ℕ) :
    (new.write old n).funcId = if n = 0 then new.funcId else old.funcId := by
  match n with
  | 0 | 1 | 2 | 3 | _ + 4 => simp [write]

theorem Redo.write_refedOff_of_lt (new old : Redo) (hn : n < 4) :
    (new.write old n).refedOff = old.refedOff := by
  obtain rfl | rfl | rfl | rfl : n = 0 ∨ n = 1 ∨ n = 2 ∨ n = 3 := by omega
  all_goals rfl

theorem Eras.log (h : Eras machines w) (hroles : Roles (w.move i (w.mem.setRedo c.mid
      (cur % redoCnt) ((c.redo old cur).write (w.mem.redo c.mid (cur % redoCnt)) n))
      (.log c k old cur (n + 1)))) (hpc : w.pc i = .log c k old cur n) (hn : n < 5) :
    Eras machines (w.move i (w.mem.setRedo c.mid (cur % redoCnt)
      ((c.redo old cur).write (w.mem.redo c.mid (cur % redoCnt)) n)) (.log c k old cur (n + 1))) := by
  have hphase := h.phase i
  rw [hpc] at hphase
  obtain ⟨hbelow, -, hnoted, hwritten⟩ := hphase
  set r := w.mem.redo c.mid (cur % redoCnt) with hr
  set r' := (c.redo old cur).write r n with hr'
  have hused : r'.funcId ≠ .empty := by
    rw [hr', write_funcId]
    split
    · exact c.funcId_ne_empty
    · rw [hwritten.funcId (by omega)]
      exact c.funcId_ne_empty
  have hera : r'.curEra = cur ∨ r'.curEra = r.curEra := by
    rw [hr', write_curEra]
    split
    · exact .inl rfl
    · exact .inr rfl
  refine h.moveOp (c := c) hroles (by rw [hpc]; rfl) local_setRedo rfl ?_
    ⟨⟨hbelow.pos, hbelow.le, fun j => ?_, hbelow.landed⟩, by omega, hnoted, ?_⟩
    (by simp [op?]) (.inr rfl)
  · refine ⟨h.logs.bound, h.logs.pos, h.logs.era_lt, fun m j => ?_, h.logs.landed_le,
      fun m e x rest hl => ?_, h.logs.seen⟩
    · have hold := h.logs.slot m j
      grind
    · change w.mem.landed m = _ at hl
      obtain ⟨hpos, hrest, hfunc, hold⟩ := h.logs.head m e x rest hl
      refine ⟨hpos, hrest, ?_⟩
      rw [setRedo_redo]
      split_ifs with hslot
      · obtain ⟨rfl, hmod⟩ := hslot
        rw [hmod, ← hr] at hold
        have hlt : e < cur := hbelow.landed (e, x) (by rw [hl]; exact mem_cons_self)
        refine ⟨hused, ?_⟩
        -- the record is still the old one as long as its era is
        have hrefed : r.curEra = e → r'.refedOff = r.refedOff := fun hcur =>
          write_refedOff_of_lt _ _ (by have := hwritten.curEra; grind [Call.redo])
        grind
      · exact ⟨hfunc, hold⟩
  · have hold := hbelow.redo j
    grind
  · rw [setRedo_redo, if_pos ⟨rfl, rfl⟩]
    exact hwritten.write hn

theorem Written.eq (h : Written r new 5) : r = new := by
  obtain ⟨h1, h2, h3, h4, h5⟩ := h
  cases r
  cases new
  simp_all

theorem local_land : Local c.mid s (s.land c old cur) where
  redo _ _ := rfl
  landed l hl := by simp [land, hl]
  era _ _ := rfl
  grow _ _ := Nat.le_refl _

theorem Eras.cas (h : Eras machines w)
    (hroles : Roles (w.move i (w.mem.land c old cur) (.store c k old cur)))
    (hpc : w.pc i = .log c k old cur 5) (heq : w.mem.refInfo c.target = old) :
    Eras machines (w.move i (w.mem.land c old cur) (.store c k old cur)) := by
  have hphase := h.phase i
  rw [hpc] at hphase
  obtain ⟨hbelow, -, hnoted, hwritten⟩ := hphase
  have hrecord := hwritten.eq
  have hup : w.mem.up c.mid = true := h.roles.up i c.mid (by rw [hpc]; rfl)
  obtain ⟨hlt, hmax⟩ := h.logs.bound c.mid hup
  have hself : (w.mem.land c old cur).landed c.mid = (cur, c.target) :: w.mem.landed c.mid := by
    simp [land]
  have hother : ∀ m, m ≠ c.mid → (w.mem.land c old cur).landed m = w.mem.landed m := fun m hm => by
    simp [land, hm]
  refine h.moveOp (c := c) hroles (by rw [hpc]; rfl) local_land rfl ?_
    ⟨hbelow.le, hrecord, hbelow.redo, _, hself⟩ (by simp [op?]) (.inr rfl)
  refine ⟨h.logs.bound, h.logs.pos, h.logs.era_lt, h.logs.slot, fun m y hy => ?_,
    fun m e x rest hl => ?_, fun m e x rest hl => ?_⟩
  · have hold := h.logs.landed_le m y
    have hle := hbelow.le
    grind [show (w.mem.land c old cur).era = w.mem.era from rfl]
  · by_cases hm : m = c.mid
    · subst hm
      rw [hself] at hl
      obtain ⟨heq', rfl⟩ := cons.inj hl
      obtain ⟨rfl, rfl⟩ := Prod.mk.inj heq'
      refine ⟨hbelow.pos, hbelow.landed, ?_⟩
      change (w.mem.redo c.mid (cur % redoCnt)).funcId ≠ .empty ∧ _
      rw [show (w.mem.land c old cur).redo = w.mem.redo from rfl, hrecord]
      exact ⟨c.funcId_ne_empty, .inl ⟨rfl, rfl⟩⟩
    · rw [hother m hm] at hl
      exact h.logs.head m e x rest hl
  · by_cases hm : m = c.mid
    · subst hm
      rw [hself] at hl
      obtain ⟨heq', rfl⟩ := cons.inj hl
      obtain ⟨rfl, rfl⟩ := Prod.mk.inj heq'
      refine .inl ?_
      have hera := Nat.lt_of_le_of_lt hbelow.le (h.logs.era_lt c.mid c.mid)
      simp only [land, update_self, dsmRefLcid_pack, dsmRefEra_pack]
      rw [maxMachines] at hmax
      exact ⟨Nat.mod_eq_of_lt (by omega), Nat.mod_eq_of_lt hera⟩
    · rw [hother m hm] at hl
      obtain ⟨hlcid, hera⟩ | hseen := h.logs.seen m e x rest hl
      · by_cases hx : x = c.target
        · -- this machine has noted the era of the word it replaces
          subst hx
          rw [heq] at hlcid hera
          rw [hlcid, hera] at hnoted
          exact .inr ⟨c.mid, hlt, Ne.symm hm, hnoted⟩
        · exact .inl (by simp [land, hx, hlcid, hera])
      · exact .inr hseen

theorem Eras.inc (h : Eras machines w) (hroles : Roles (w.move i
      (w.mem.setEra c.mid c.mid ((w.mem.era c.mid c.mid + 1) % 2 ^ 32)) (c.after k old)))
    (hpc : w.pc i = .inc c k old cur) (hlt : w.mem.era c.mid c.mid + 1 < 2 ^ 32) :
    Eras machines (w.move i (w.mem.setEra c.mid c.mid ((w.mem.era c.mid c.mid + 1) % 2 ^ 32))
      (c.after k old)) := by
  have hphase := h.phase i
  rw [hpc] at hphase
  obtain ⟨hle, hredo, hothers, rest, hlanded⟩ := hphase
  obtain ⟨hpos, hrest, -, -⟩ := h.logs.head c.mid cur c.target rest hlanded
  rw [Nat.mod_eq_of_lt hlt] at hroles ⊢
  have hera : (w.mem.setEra c.mid c.mid (w.mem.era c.mid c.mid + 1)).era c.mid c.mid =
      w.mem.era c.mid c.mid + 1 := by simp [setEra]
  refine h.moveOp (c := c) hroles (by rw [hpc]; rfl) (local_setEra fun hne => absurd rfl hne) rfl
    (h.logs.setEra (by omega) hlt) ?_ (fun _ => ?_) (.inl (c.after_op? k old))
  · rw [Call.after]
    split
    · trivial
    · cases k <;> trivial
  · rw [hera]
    refine ⟨by omega, Nat.le_of_eq hera.symm, fun j => ?_, fun y hy => ?_⟩
    · exact Nat.le_trans (hothers j) (by omega)
    · rw [show (w.mem.setEra c.mid c.mid (w.mem.era c.mid c.mid + 1)).landed = w.mem.landed from rfl,
        hlanded] at hy
      obtain rfl | hy := mem_cons.mp hy
      · exact Nat.lt_succ_of_le hle
      · have := hrest y hy
        omega

/-! ### Recovery -/

section

variable {m : ℕ} (h : Logs machines s) (hfind : findLatestRedo (s.redo m) = some r)
include h hfind

/-- When the operation of the latest record took effect, it is the last one that did. -/
theorem Logs.latest (hlanded : s.Landed m r) :
    ∃ rest, s.landed m = (r.curEra, r.refedOff) :: rest := by
  obtain ⟨⟨j, hj, hr⟩, -, hmax⟩ := findLatestRedo_eq_some hfind
  rw [Shared.Landed] at hlanded
  cases hl : s.landed m with
  | nil => simp [hl] at hlanded
  | cons y rest =>
    obtain ⟨e, x⟩ := y
    obtain ⟨hpos, hrest, hused, hold⟩ := h.head m e x rest hl
    have hslot := hmax (e % redoCnt) (Nat.mod_lt _ (by decide)) hused
    have hle : r.curEra ≤ e := by
      rw [hl, map_cons, mem_cons] at hlanded
      obtain heq | hmem := hlanded
      · exact Nat.le_of_eq heq
      · obtain ⟨z, hz, hze⟩ := mem_map.mp hmem
        have := hrest z hz
        omega
    obtain ⟨hcur, hrefed⟩ | hgt := hold
    · have heq : r.curEra = e := by omega
      obtain hzero | hplace := h.slot m j
      · rw [hr] at hzero
        omega
      · rw [hr, heq] at hplace
        rw [← hplace, hr] at hrefed
        exact ⟨rest, by rw [heq, hrefed]⟩
    · omega

/-- When case A does not show that the operation took effect, case B will. -/
theorem Logs.noted
    (hnot : ¬ (dsmRefLcid (s.refInfo r.refedOff) = m ∧ dsmRefEra (s.refInfo r.refedOff) = r.curEra))
    (hlanded : s.Landed m r) : ∃ j, 0 ≤ j ∧ j < machines ∧ j ≠ m ∧ r.curEra ≤ s.era j m := by
  obtain ⟨rest, hl⟩ := h.latest hfind hlanded
  obtain hinfo | ⟨j, hj, hne, hle⟩ := h.seen m _ _ rest hl
  · exact absurd hinfo hnot
  · exact ⟨j, Nat.zero_le j, hj, hne, hle⟩

end

/-! ### Joining and crashing -/

section join
variable (s : Shared) (mid : ℕ)

@[grind =] theorem join_era (a b : ℕ) :
    (s.join mid).era a b = if a = mid ∧ b = mid then 1 else s.era a b := setEra_era ..

@[grind =] theorem join_redo (a j : ℕ) :
    (s.join mid).redo a j = if a = mid then .zero else s.redo a j := by
  by_cases ha : a = mid <;> simp [join, ha]

@[grind =] theorem join_landed (a : ℕ) :
    (s.join mid).landed a = if a = mid then [] else s.landed a := update_apply ..

@[grind =] theorem join_up (a : ℕ) :
    (s.join mid).up a = if a = mid then true else s.up a := update_apply ..

end join

theorem Logs.join (h : Logs machines s) (hmid : mid < machines)
    (hmax : mid < maxMachines) : Logs machines (s.join mid) := by
  have hlanded : (s.join mid).landed mid = [] := by simp [Shared.join]
  obtain ⟨hbound, hpos, hera, hslot, hle, hhead, hseen⟩ := h
  have hzero : zero.curEra = 0 := rfl
  refine ⟨by grind, by grind, by grind, by grind, by grind, fun a e x rest hl => ?_,
    fun a e x rest hl => ?_⟩
  · grind
  · obtain hinfo | ⟨j, hj, hne, hle⟩ := hseen a e x rest (by grind)
    · exact .inl hinfo
    · exact .inr ⟨j, hj, hne, by grind⟩

theorem Eras.join {mid : ℕ} (h : Eras machines w) (hroles : Roles (w.move i (w.mem.join mid) .idle))
    (hpc : w.pc i = .idle) (hmid : mid < machines) (hmax : mid < maxMachines)
    (hdown : w.mem.up mid = false) (hrec : w.mem.unrecovered mid = false) :
    Eras machines (w.move i (w.mem.join mid) .idle) := by
  have hera : ∀ a, a ≠ mid → (w.mem.join mid).era a = w.mem.era a := fun a ha => by
    simp [Shared.join, Shared.setEra, ha]
  have hredo : ∀ a, a ≠ mid → (w.mem.join mid).redo a = w.mem.redo a := fun a ha => by
    simp [Shared.join, ha]
  have hlanded : ∀ a, a ≠ mid → (w.mem.join mid).landed a = w.mem.landed a := fun a ha => by
    simp [Shared.join, ha]
  refine ⟨hroles, h.logs.join hmid hmax, fun m hm hno => ?_, fun t => ?_⟩
  · rw [w.move_mem] at hm ⊢
    by_cases hmm : m = mid
    · subst hmm
      constructor <;> grind [zero]
    · have hready := h.ready m (by grind) fun t c => by have hno := hno t c; grind [op?]
      rw [hera m hmm]
      exact hready.congr (hera m hmm) (hredo m hmm) (hlanded m hmm)
  · by_cases hti : t = i
    · subst hti
      rw [w.move_pc_self]
      trivial
    · rw [w.move_pc_of_ne hti, w.move_mem]
      refine (h.phase t).congr (fun c hc => ?_) fun d hd => ?_
      · have hup := h.roles.up t c.mid (mid?_of_op? hc)
        have hne : c.mid ≠ mid := by grind
        exact ⟨hera _ hne, hredo _ hne, hlanded _ hne⟩
      · have hold := (h.roles.down t d hd).2
        have hne : d ≠ mid := by grind
        exact ⟨hredo d hne, hlanded d hne, fun j hj => by grind⟩

omit [DecidableEq T] in
theorem Eras.crash (h : Eras machines w) (mid : ℕ) : Eras machines (crash w mid) := by
  obtain ⟨h1, h2, h3, h4, h5, h6, h7⟩ := h.logs
  have hold (m : ℕ) (hm : (DsmRef.crash w mid).mem.up m = true) : m ≠ mid ∧ w.mem.up m = true := by
    grind
  refine ⟨h.roles.crash mid, ⟨fun m hm => h1 m (hold m hm).2, fun m hm => h2 m (hold m hm).2, h3,
    h4, h5, h6, h7⟩, fun m hm hno => ?_, fun t => ?_⟩
  · obtain ⟨hmm, hm⟩ := hold m hm
    refine (h.ready m hm fun t c ht heq => ?_).congr rfl rfl rfl
    have hmid := mid?_of_op? ht
    exact hno t c (by grind) heq
  · rw [crash_pc]
    split_ifs
    · trivial
    · exact (h.phase t).congr (fun _ _ => ⟨rfl, rfl, rfl⟩)
        fun _ _ => ⟨rfl, rfl, fun _ _ => Nat.le_refl _⟩

/-! ### All steps -/

theorem Eras.enter (h : Eras machines w) (hroles : Roles (w.move i w.mem (.load c k)))
    (hpc : (w.pc i).op? = none) (hup : w.mem.up c.mid = true) (hord : Orderly w i (.load c k)) :
    Eras machines (w.move i w.mem (.load c k)) := by
  refine h.look hroles rfl rfl rfl rfl rfl (.inl hpc) (h.ready c.mid hup fun t c' ht => ?_)
  by_cases hti : t = i
  · simp [hti, hpc] at ht
  · exact hord.call c k rfl t hti c' ht

theorem Cont.phaseOk_resume (k : Cont) : PhaseOk machines s (k.resume mid) := by
  cases k <;> trivial

theorem Redo.phaseOk_after (r : Redo) : PhaseOk machines s (r.after mid dead) := by
  rw [after]
  split <;> trivial

theorem Eras.step (h : Eras machines w) (hacts : Acts machines w.mem (w.pc i) s' p')
    (hord : Orderly w i p') : Eras machines (w.move i s' p') := by
  have hroles := h.roles.step hacts hord
  have hphase := h.phase i
  generalize hpc : w.pc i = p at hacts hphase
  have hop : (w.pc i).op? = p.op? := by rw [hpc]
  cases hacts with
  | join hmid hmax hdown hrec => exact h.join hroles hpc hmid hmax hdown hrec
  | call hup => exact h.enter hroles hop hup hord
  | load | store => exact h.look hroles rfl rfl rfl rfl rfl (.inr hop.symm) hphase
  | age =>
    exact h.look hroles rfl rfl rfl rfl rfl (.inr hop.symm) hphase
  | see => exact h.look hroles rfl rfl rfl rfl rfl (.inr hop.symm) ⟨hphase, rfl⟩
  | note hgt => exact h.note hroles hpc hgt
  | noteNot hgt =>
    obtain ⟨hbelow, rfl⟩ := hphase
    exact h.look hroles rfl rfl rfl rfl rfl (.inr hop.symm) ⟨hbelow, Nat.zero_le _, by omega,
      ⟨by omega, by omega, by omega, by omega, by omega⟩⟩
  | log hn => exact h.log hroles hpc hn
  | cas heq => exact h.cas hroles hpc heq
  | casNot hne =>
    obtain ⟨hbelow, -⟩ := hphase
    exact h.look hroles rfl rfl rfl rfl rfl (.inr hop.symm) (hbelow.mono hbelow.le (Nat.le_refl _))
  | inc => exact h.inc hroles hpc (hord.inc _ _ _ _ hpc)
  | sweepCall hi hne =>
    exact h.enter hroles hop (h.roles.up i _ (by rw [hpc]; rfl)) hord
  | sweepNext | callRecover | findNot | scanEnd | clear =>
    exact h.look hroles rfl rfl rfl rfl rfl (.inl hop) trivial
  | sweepEnd hi => exact h.look hroles rfl rfl rfl rfl rfl (.inl hop) (Cont.phaseOk_resume _)
  | find hr => exact h.look hroles rfl rfl rfl rfl rfl (.inl hop) hr
  | check hlcid hera => exact h.look hroles rfl rfl rfl rfl rfl (.inl hop) hphase
  | checkNot hne =>
    exact h.look hroles rfl rfl rfl rfl rfl (.inl hop) ⟨hphase, h.logs.noted hphase hne⟩
  | scan hj hne hge => exact h.look hroles rfl rfl rfl rfl rfl (.inl hop) hphase.1
  | scanNext hj hne =>
    refine h.look hroles rfl rfl rfl rfl rfl (.inl hop) ⟨hphase.1, fun hl => ?_⟩
    obtain ⟨j', hle, hlt, hdead, hera⟩ := hphase.2 hl
    refine ⟨j', Nat.lt_of_le_of_ne hle fun heq => ?_, hlt, hdead, hera⟩
    exact hne (heq ▸ ⟨hdead, hera⟩)
  | apply => exact h.look hroles rfl rfl rfl rfl rfl (.inl hop) (phaseOk_after _)

end steps

theorem start_eras {T : Type} {embeddedRefCnt : ℕ → ℕ} :
    Eras machines (start (T := T) embeddedRefCnt) := by
  refine ⟨⟨?_, ?_, ?_, ?_⟩, ⟨?_, ?_, ?_, ?_, ?_, ?_, ?_⟩, ?_, fun t => trivial⟩ <;>
    simp [start, op?, dead?, zero]

end Starfish.DsmRef
