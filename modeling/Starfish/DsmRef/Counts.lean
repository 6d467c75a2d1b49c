import Mathlib.Data.Set.Card
import Starfish.Places
import Starfish.DsmRef.Alone

/-!
# Starfish.DsmRef.Counts

The count of an object is the number of the locations that hold it.  An operation changes
the count first and the location afterwards, and a crash in between leaves the location for
recovery to write.  So the counts agree with `due`: what the locations hold once every
operation that took effect is finished.

Recovery does not know whether the store of the last record was lost.  It repeats the store,
which is right as long as nobody has changed the location since.
-/

namespace Starfish.DsmRef

open Option Phase Shared List Relation Function

attribute [local simp] dead? setLoc plain

/-- The count in every object is the number of the locations that hold it, and no location
holds an object whose count is 0. -/
structure RefsCounted (s : Shared) : Prop where
  count : ∀ x, x ≠ 0 → {l | s.loc l = x}.encard = dsmRefCnt (s.refInfo x)
  pos : ∀ l, s.loc l ≠ 0 → dsmRefCnt (s.refInfo (s.loc l)) ≠ 0

/-- No operation is under way and every machine that crashed is recovered. -/
structure Settled {T : Type} (w : World T) : Prop where
  done : ∀ t, (w.pc t).op? = none
  recovered : ∀ m, w.mem.unrecovered m = false

/-- What a location holds before an operation. -/
def Call.before (c : Call) : ℕ := if c.link then 0 else c.target

/-- What the callers take care of, what a `u16` can count, and that recovery repeats a store
only while nobody has changed the location. -/
structure Safe {T : Type} (w : World T) (i : T) (p' : Phase) : Prop where
  target : ∀ c k, p' = .load c k → (w.pc i).op? = none → c.target ≠ 0
  before : ∀ c k, p' = .load c k → (w.pc i).op? = none → w.mem.loc c.loc = c.before
  /-- No other operation on the location is under way. -/
  apart : ∀ c k, p' = .load c k → (w.pc i).op? = none →
    ∀ t, t ≠ i → ∀ c', (w.pc t).op? = some c' → c'.loc ≠ c.loc
  /-- Nor has a crash interrupted one. -/
  whole : ∀ c k, p' = .load c k → (w.pc i).op? = none → ∀ m, c.loc ∉ w.mem.lost m
  count : ∀ c k old cur, w.pc i = .log c k old cur 5 → c.link = true →
    dsmRefCnt (w.mem.refInfo c.target) + 1 < 2 ^ 16
  recover : ∀ mid dead r, w.pc i = .apply mid dead r →
    r.refLocOff ∈ w.mem.lost dead ∨ w.mem.loc r.refLocOff = r.value

inductive SafeStep {T : Type} [DecidableEq T] (machines : ℕ) : World T → World T → Prop
  | act {w : World T} {i : T} {s' : Shared} {p' : Phase}
      (h : Acts machines w.mem (w.pc i) s' p') (hord : Orderly w i p') (hsafe : Safe w i p') :
      SafeStep machines w (w.move i s' p')
  | crash {w : World T} {mid : ℕ} (h : w.mem.up mid = true) : SafeStep machines w (crash w mid)

/-- The operation of a CPU that has not taken effect. -/
@[simp] def Phase.open? : Phase → Option Call
  | load c _ => some c
  | age c _ _ => some c
  | see c _ _ _ => some c
  | note c _ _ _ _ => some c
  | log c _ _ _ _ => some c
  | _ => none

/-- The operation of a CPU that has taken effect and has not reached the location. -/
def Phase.pending? : Phase → Option Call
  | store c _ _ _ => some c
  | _ => none

/-- The machine whose recovery has done its store. -/
@[simp] def Phase.cleared? : Phase → Option ℕ
  | find .. | check .. | scan .. | apply .. => none
  | p => p.dead?

/-- The record of a store that was lost. -/
structure LostBy (s : Shared) (m l v : ℕ) (r : Redo) : Prop where
  find : findLatestRedo (s.redo m) = some r
  landed : s.Landed m r
  loc : r.refLocOff = l
  value : r.value = v

/-- The counts are those of `due`, and `due` is what the locations hold except where a store
is to come. -/
structure Counts {T : Type} (w : World T) (due : ℕ → ℕ) : Prop where
  count : ∀ x, x ≠ 0 → ∃ ls : List ℕ, ls.Nodup ∧ Lists due x ls ∧
    ls.length = dsmRefCnt (w.mem.refInfo x)
  held : ∀ l, (∀ t c, (w.pc t).pending? = some c → c.loc ≠ l) → (∀ m, l ∉ w.mem.lost m) →
    w.mem.loc l = due l
  pending : ∀ t c, (w.pc t).pending? = some c → due c.loc = c.value
  before : ∀ t c, (w.pc t).open? = some c → due c.loc = c.before ∧ c.target ≠ 0
  lost : ∀ m l, l ∈ w.mem.lost m → w.mem.up m = false ∧ w.mem.unrecovered m = true ∧
    ∃ r, LostBy w.mem m l (due l) r
  apart : ∀ t t' c c', (w.pc t).op? = some c → (w.pc t').op? = some c' → c.loc = c'.loc → t = t'
  whole : ∀ t c m, (w.pc t).op? = some c → c.loc ∉ w.mem.lost m
  cleared : ∀ t d, (w.pc t).cleared? = some d → w.mem.lost d = ∅

@[grind →] theorem Phase.op?_of_open? {p : Phase} (h : p.open? = some c) : p.op? = some c := by
  cases p <;> simp_all [op?]

@[grind →] theorem Phase.op?_of_pending? {p : Phase} (h : p.pending? = some c) :
    p.op? = some c := by
  cases p <;> simp_all [pending?, op?]

@[grind →] theorem Phase.dead?_of_cleared? {p : Phase} (h : p.cleared? = some d) :
    p.dead? = some d := by
  cases p <;> simp_all

section steps

variable {T : Type} {w : World T} {due due' : ℕ → ℕ} {s' : Shared}

theorem LostBy.congr (h : LostBy s m l v r)
    (hredo : s'.redo m = s.redo m) (hlanded : s'.landed m = s.landed m) : LostBy s' m l v r where
  find := by
    rw [hredo]
    exact h.find
  landed := by
    rw [Shared.Landed, hlanded]
    exact h.landed
  loc := h.loc
  value := h.value

theorem Call.value_redo (c : Call) (old cur : ℕ) : (c.redo old cur).value = c.value := by
  by_cases hlink : c.link = true <;> simp [Call.redo, Redo.value, Call.value, Call.funcId, hlink]

/-- A crash leaves the store of an operation that took effect to recovery. -/
theorem lostBy_of_done (hl : Logs machines s) (hd : Done s c old cur)
    (hm : c.mid = m) : LostBy s m c.loc c.value (c.redo old cur) := by
  subst hm
  obtain ⟨hle, hredo, hothers, rest, hlanded⟩ := hd
  obtain ⟨hpos, -, -, -⟩ := hl.head c.mid cur c.target rest hlanded
  have hused : (s.redo c.mid (cur % redoCnt)).funcId ≠ .empty := by
    rw [hredo]
    exact c.funcId_ne_empty
  have hslot : cur % redoCnt < redoCnt := Nat.mod_lt _ (by decide)
  have hfind : findLatestRedo (s.redo c.mid) = some (c.redo old cur) := by
    cases hr : findLatestRedo (s.redo c.mid) with
    | none => exact absurd (findLatestRedo_eq_none hr _ hslot) hused
    | some r =>
      obtain ⟨⟨j, hj, hjr⟩, -, hmax⟩ := findLatestRedo_eq_some hr
      have hge := hmax _ hslot hused
      rw [hredo] at hge
      have hcur : r.curEra = cur := Nat.le_antisymm (hjr ▸ hothers j) hge
      obtain hzero | hplace := hl.slot c.mid j
      · rw [hjr] at hzero
        omega
      · rw [hjr, hcur] at hplace
        rw [← hjr, hplace, hredo]
  refine ⟨hfind, ?_, rfl, c.value_redo old cur⟩
  rw [Shared.Landed, hlanded]
  exact mem_cons_self

section

variable (h : Counts w due)
include h

/-- Nobody else works on the location of an operation. -/
theorem Counts.exclusive (hop : (w.pc i).op? = some c) :
    (∀ t, t ≠ i → ∀ c', (w.pc t).op? = some c' → c'.loc ≠ c.loc) ∧ ∀ m, c.loc ∉ w.mem.lost m :=
  ⟨fun t hti c' hc' heq => hti (h.apart t i c' c hc' hop heq), fun m => h.whole i c m hop⟩

theorem Counts.ne_of_up (hm : ∃ l, l ∈ w.mem.lost m) (hup : w.mem.up m' = true) : m ≠ m' := by
  obtain ⟨l, hl⟩ := hm
  intro heq
  have hdown := (h.lost m l hl).1
  rw [heq, hup] at hdown
  simp at hdown

theorem Counts.cas_count (hopen : (w.pc i).open? = some c)
    (hcount : c.link = true → dsmRefCnt (w.mem.refInfo c.target) + 1 < 2 ^ 16) (hx : x ≠ 0) :
    ∃ ls : List ℕ, ls.Nodup ∧ Lists (update due c.loc c.value) x ls ∧ ls.length =
      dsmRefCnt ((w.mem.land c (w.mem.refInfo c.target) cur).refInfo x) := by
  obtain ⟨hbefore, htarget⟩ := h.before i c hopen
  obtain ⟨ls, hnd, hls, hlen⟩ := h.count x hx
  by_cases hxt : x = c.target
  · subst hxt
    simp only [land, update_self, dsmRefCnt_pack]
    by_cases hlink : c.link = true
    · have hnot : c.loc ∉ ls := hls.notMem (by
        rw [hbefore, Call.before, if_pos hlink]
        exact Ne.symm htarget)
      refine ⟨c.loc :: ls, nodup_cons.mpr ⟨hnot, hnd⟩, ?_, ?_⟩
      · rw [Call.value, if_pos hlink]
        exact hls.cons c.loc
      · rw [Call.count, if_pos hlink, Nat.mod_eq_of_lt (hcount hlink), length_cons, hlen]
    · have hmem : c.loc ∈ ls := hls.mem (by rw [hbefore, Call.before, if_neg hlink])
      refine ⟨ls.erase c.loc, hnd.erase _, ?_, ?_⟩
      · rw [Call.value, if_neg hlink]
        exact hls.erase hnd htarget
      · have hpos : 0 < ls.length := length_pos_of_mem hmem
        have hlt : dsmRefCnt (w.mem.refInfo c.target) < 2 ^ 16 := Nat.mod_lt _ (by decide)
        rw [Call.count, if_neg hlink, length_erase_of_mem hmem]
        omega
  · have hinfo : (w.mem.land c (w.mem.refInfo c.target) cur).refInfo x = w.mem.refInfo x := by
      simp [land, hxt]
    rw [hinfo]
    refine ⟨ls, hnd, hls.update ?_ ?_, hlen⟩
    · rw [hbefore, Call.before]
      split
      · exact Ne.symm hx
      · exact Ne.symm hxt
    · rw [Call.value]
      split
      · exact Ne.symm hxt
      · exact Ne.symm hx

variable [DecidableEq T]

/-- A step of CPU `i` leaves the operations of the others alone. -/
theorem Counts.move (hcount : ∀ x, x ≠ 0 → ∃ ls : List ℕ, ls.Nodup ∧ Lists due' x ls ∧
      ls.length = dsmRefCnt (s'.refInfo x))
    (hheld : ∀ l, (∀ c, p'.pending? = some c → c.loc ≠ l) →
      (∀ t c, t ≠ i → (w.pc t).pending? = some c → c.loc ≠ l) → (∀ m, l ∉ s'.lost m) →
      s'.loc l = due' l)
    (hsame : ∀ t c, t ≠ i → (w.pc t).op? = some c → due' c.loc = due c.loc)
    (hpending : ∀ c, p'.pending? = some c → due' c.loc = c.value)
    (hopen : ∀ c, p'.open? = some c → due' c.loc = c.before ∧ c.target ≠ 0)
    (hlost : ∀ m l, l ∈ s'.lost m → l ∈ w.mem.lost m ∧ s'.up m = false ∧
      s'.unrecovered m = true ∧ ∃ r, LostBy s' m l (due' l) r)
    (hop : ∀ c, p'.op? = some c → (∀ t, t ≠ i → ∀ c', (w.pc t).op? = some c' → c'.loc ≠ c.loc) ∧
      ∀ m, c.loc ∉ w.mem.lost m)
    (hcleared : ∀ d, p'.cleared? = some d → s'.lost d = ∅) : Counts (w.move i s' p') due' := by
  obtain ⟨-, -, hpend, hbefore, -, hapart, hwhole, hclear⟩ := h
  refine ⟨hcount, fun l hl hnot => ?_, by grind, by grind, fun m l hl => (hlost m l hl).2, by grind,
    by grind, fun t d ht => ?_⟩
  · refine hheld l (fun c hc => hl i c (by rwa [w.move_pc_self])) (fun t c hti ht => ?_) hnot
    exact hl t c (by rwa [w.move_pc_of_ne hti])
  · by_cases hti : t = i
    · rw [hti, w.move_pc_self] at ht
      exact hcleared d ht
    · rw [w.move_pc_of_ne hti] at ht
      have hempty := hclear t d ht
      refine Set.eq_empty_of_forall_notMem fun l hl => ?_
      have hold := (hlost d l hl).1
      simp [hempty] at hold

/-- Nothing changes for a machine that has lost locations. -/
abbrev KeepsLost (s s' : Shared) : Prop :=
  ∀ m, (∃ l, l ∈ s.lost m) → s'.up m = s.up m ∧ s'.unrecovered m = s.unrecovered m ∧
    s'.redo m = s.redo m ∧ s'.landed m = s.landed m

/-- A step that changes neither objects nor locations nor what was lost. -/
theorem Counts.look (hinfo : s'.refInfo = w.mem.refInfo)
    (hloc : s'.loc = w.mem.loc) (hlost : s'.lost = w.mem.lost)
    (hkeep : KeepsLost w.mem s')
    (hpending : (w.pc i).pending? = none) (hpending' : p'.pending? = none)
    (hopen : ∀ c, p'.open? = some c → due c.loc = c.before ∧ c.target ≠ 0)
    (hop : ∀ c, p'.op? = some c → (∀ t, t ≠ i → ∀ c', (w.pc t).op? = some c' → c'.loc ≠ c.loc) ∧
      ∀ m, c.loc ∉ w.mem.lost m)
    (hcleared : ∀ d, p'.cleared? = some d → w.mem.lost d = ∅) : Counts (w.move i s' p') due := by
  refine h.move (fun x hx => ?_) (fun l _ hl hnot => ?_) (fun _ _ _ _ => rfl)
    (by simp [hpending']) hopen (fun m l hl => ?_) hop fun d hd => ?_
  · rw [hinfo]
    exact h.count x hx
  · rw [hlost] at hnot
    rw [hloc]
    exact h.held l (by grind) hnot
  · rw [hlost] at hl
    obtain ⟨hup, hunrec, hredo, hlanded⟩ := hkeep m ⟨l, hl⟩
    obtain ⟨hdown, hun, r, hr⟩ := h.lost m l hl
    exact ⟨hl, hup.trans hdown, hunrec.trans hun, r, hr.congr hredo hlanded⟩
  · rw [hlost]
    exact hcleared d hd

theorem Counts.cas (he : Eras machines w) (hpc : w.pc i = .log c k old cur 5)
    (heq : w.mem.refInfo c.target = old)
    (hcount : c.link = true → dsmRefCnt (w.mem.refInfo c.target) + 1 < 2 ^ 16) :
    Counts (w.move i (w.mem.land c old cur) (.store c k old cur)) (update due c.loc c.value) := by
  subst heq
  have hop : (w.pc i).op? = some c := by rw [hpc]; rfl
  have hopen : (w.pc i).open? = some c := by rw [hpc]; rfl
  obtain ⟨hother, hwhole⟩ := h.exclusive hop
  have hup : w.mem.up c.mid = true := he.roles.up i c.mid (by rw [hpc]; rfl)
  refine h.move (fun x hx => h.cas_count hopen hcount hx) (fun l hl hothers hnot => ?_)
    (fun t c' hti hc' => update_of_ne (hother t hti c' hc') ..) (fun c' hc' => ?_)
    (by simp) (fun m l hl => ?_) (fun c' hc' => ?_) fun d hd => ?_
  · have hne : c.loc ≠ l := hl c rfl
    rw [update_of_ne (Ne.symm hne)]
    exact h.held l (by grind [pending?]) hnot
  · obtain rfl := some.inj hc'
    exact update_self ..
  · have hne : l ≠ c.loc := fun heq => hwhole m (heq ▸ hl)
    have hm : m ≠ c.mid := h.ne_of_up ⟨l, hl⟩ hup
    obtain ⟨hdown, hunrec, r, hr⟩ := h.lost m l hl
    refine ⟨hl, hdown, hunrec, r, ?_⟩
    rw [update_of_ne hne]
    exact hr.congr rfl (by simp [land, hm])
  · obtain rfl := some.inj hc'
    exact ⟨hother, hwhole⟩
  · exact h.cleared i d (by rw [hpc]; exact hd)

theorem Counts.store (hpc : w.pc i = .store c k old cur) :
    Counts (w.move i (w.mem.setLoc c.loc c.value) (.inc c k old cur)) due := by
  have hop : (w.pc i).op? = some c := by rw [hpc]; rfl
  have hdue : due c.loc = c.value := h.pending i c (by rw [hpc]; rfl)
  refine h.move h.count (fun l _ hothers hnot => ?_) (fun _ _ _ _ => rfl) (by simp [pending?])
    (by simp) (fun m l hl => ?_) (fun c' hc' => ?_) fun d hd => ?_
  · by_cases hlc : l = c.loc
    · simp [hlc, hdue]
    · have hold := h.held l (by grind [pending?]) hnot
      simpa [hlc] using hold
  · obtain ⟨hdown, hunrec, r, hr⟩ := h.lost m l hl
    exact ⟨hl, hdown, hunrec, r, hr.congr rfl rfl⟩
  · obtain rfl := some.inj hc'
    exact h.exclusive hop
  · exact h.cleared i d (by rw [hpc]; exact hd)

theorem Counts.apply {mid dead : ℕ}
    (hpc : w.pc i = .apply mid dead r) (hfind : findLatestRedo (w.mem.redo dead) = some r)
    (hsafe : r.refLocOff ∈ w.mem.lost dead ∨ w.mem.loc r.refLocOff = r.value) :
    Counts (w.move i (w.mem.applyRedo dead r) (r.after mid dead)) due := by
  -- a lost store is the one of the record
  have hrecord : ∀ l, l ∈ w.mem.lost dead → l = r.refLocOff ∧ due l = r.value := by
    intro l hl
    obtain ⟨-, -, r', hr'⟩ := h.lost dead l hl
    have hfind' := hr'.find
    rw [hfind] at hfind'
    obtain rfl := some.inj hfind'
    exact ⟨hr'.loc.symm, hr'.value.symm⟩
  have hself : (w.mem.applyRedo dead r).lost dead = ∅ := by
    refine Set.eq_empty_of_forall_notMem fun l hl => ?_
    simp only [applyRedo, update_self] at hl
    exact hl.2 (hrecord l hl.1).1
  have hother : ∀ m, m ≠ dead → (w.mem.applyRedo dead r).lost m = w.mem.lost m := fun m hm => by
    simp [applyRedo, hm]
  have hpending : (w.pc i).pending? = none := by rw [hpc]; rfl
  refine h.move h.count (fun l _ hothers hnot => ?_) (fun _ _ _ _ => rfl) (fun c hc => ?_)
    (fun c hc => ?_) (fun m l hl => ?_) (fun c hc => ?_) fun d hd => ?_
  · have hrest (hl : l ∉ w.mem.lost dead) : w.mem.loc l = due l :=
      h.held l (by grind) fun m hm => by have hnot := hnot m; grind
    by_cases hlr : l = r.refLocOff
    · subst hlr
      have hvalue : (w.mem.applyRedo dead r).loc r.refLocOff = r.value := by
        simp [applyRedo]
      rw [hvalue]
      by_cases hl : r.refLocOff ∈ w.mem.lost dead
      · exact (hrecord _ hl).2.symm
      · rw [← hrest hl]
        exact (hsafe.resolve_left hl).symm
    · have hloc : (w.mem.applyRedo dead r).loc l = w.mem.loc l := by
        simp [applyRedo, hlr]
      rw [hloc]
      exact hrest fun hl => hlr (hrecord l hl).1
  · simpa using op?_of_pending? hc
  · simpa using op?_of_open? hc
  · by_cases hmd : m = dead
    · subst hmd
      simp [hself] at hl
    · rw [hother m hmd] at hl
      obtain ⟨hdown, hunrec, r', hr'⟩ := h.lost m l hl
      exact ⟨hl, hdown, hunrec, r', hr'.congr rfl rfl⟩
  · simp at hc
  · have hdead := dead?_of_cleared? hd
    rw [r.after_dead?] at hdead
    obtain rfl := some.inj hdead
    exact hself

omit [DecidableEq T] in
theorem Counts.crash {mid : ℕ} (he : Eras machines w)
    (hup : w.mem.up mid = true) : Counts (crash w mid) due := by
  have hidle : idle.op? = none ∧ idle.dead? = none := ⟨rfl, rfl⟩
  have hop (t : T) (c : Call) (ht : ((DsmRef.crash w mid).pc t).op? = some c) :
      (DsmRef.crash w mid).pc t = w.pc t ∧ c.mid ≠ mid := by
    have hmid (hold : (w.pc t).op? = some c) := mid?_of_op? hold
    grind
  have hother : ∀ m, m ≠ mid → (DsmRef.crash w mid).mem.lost m = w.mem.lost m := fun m hm => by
    simp [DsmRef.crash, hm]
  have hself : ∀ l, l ∈ (DsmRef.crash w mid).mem.lost mid ↔ ∃ t c k old cur,
      w.pc t = .store c k old cur ∧ c.mid = mid ∧ c.loc = l := fun l => by
    simp [DsmRef.crash]
  refine ⟨h.count, fun l hl hnot => ?_, fun t c ht => ?_, fun t c ht => ?_, fun m l hl => ?_,
    fun t t' c c' ht ht' heq => ?_, fun t c m ht hmem => ?_, fun t d ht => ?_⟩
  · refine h.held l (fun t c ht heq => ?_) fun m hm => ?_
    · by_cases hc : (w.pc t).mid? = some mid
      · -- the store of this CPU is lost
        cases hp : w.pc t with
        | store c' k old cur =>
          rw [hp] at ht hc
          obtain rfl := some.inj ht
          exact hnot mid ((hself l).mpr ⟨t, c', k, old, cur, hp, some.inj hc, heq⟩)
        | _ => simp [hp, pending?] at ht
      · exact hl t c (by rwa [crash_pc, if_neg hc]) heq
    · have hne := h.ne_of_up ⟨l, hm⟩ hup
      exact hnot m (by rwa [hother m hne])
  · have hpending := h.pending t c
    grind
  · have hbefore := h.before t c
    grind
  · by_cases hm : m = mid
    · subst hm
      obtain ⟨t, c, k, old, cur, hp, hcm, rfl⟩ := (hself l).mp hl
      have hdone := he.phase t
      rw [hp] at hdone
      have hdue : due c.loc = c.value := h.pending t c (by rw [hp]; rfl)
      refine ⟨by simp [DsmRef.crash], by simp [DsmRef.crash], c.redo old cur, ?_⟩
      rw [hdue]
      exact (lostBy_of_done he.logs hdone hcm).congr rfl rfl
    · rw [hother m hm] at hl
      obtain ⟨hdown, hunrec, r, hr⟩ := h.lost m l hl
      exact ⟨by grind, by grind, r, hr.congr rfl rfl⟩
  · rw [(hop t c ht).1] at ht
    rw [(hop t' c' ht').1] at ht'
    exact h.apart t t' c c' ht ht' heq
  · obtain ⟨hsame, hne⟩ := hop t c ht
    have hold := hsame ▸ ht
    by_cases hm : m = mid
    · subst hm
      obtain ⟨t', c', k, old, cur, hp, hcm, hloc⟩ := (hself c.loc).mp hmem
      obtain rfl := h.apart t t' c c' hold (by rw [hp]; rfl) hloc.symm
      rw [hp] at hold
      obtain rfl := some.inj hold
      exact hne hcm
    · rw [hother m hm] at hmem
      exact h.whole t c m hold hmem
  · have hcleared := h.cleared t d
    have hdown := he.roles.down t d
    have hother := hother d
    grind

theorem Counts.goOn (hopen : (w.pc i).open? = some c) (hopen' : p'.open? = some c)
    (hcleared : p'.cleared? = (w.pc i).cleared?) (hinfo : s'.refInfo = w.mem.refInfo)
    (hloc : s'.loc = w.mem.loc) (hlost : s'.lost = w.mem.lost)
    (hkeep : KeepsLost w.mem s') : Counts (w.move i s' p') due := by
  have hnone : ∀ {p : Phase}, p.open? = some c → p.pending? = none ∧ p.op? = some c := by
    intro p hp
    exact ⟨by cases p <;> simp_all [pending?], op?_of_open? hp⟩
  refine h.look hinfo hloc hlost hkeep (hnone hopen).1 (hnone hopen').1 (fun c' hc' => ?_)
    (fun c' hc' => ?_) fun d hd => ?_
  · rw [hopen'] at hc'
    obtain rfl := some.inj hc'
    exact h.before i c hopen
  · rw [(hnone hopen').2] at hc'
    obtain rfl := some.inj hc'
    exact h.exclusive (hnone hopen).2
  · exact h.cleared i d (hcleared ▸ hd)

theorem Counts.enter (hpc : (w.pc i).op? = none)
    (hcleared : k.dead? = (w.pc i).cleared?) (hsafe : Safe w i (.load c k)) :
    Counts (w.move i w.mem (.load c k)) due := by
  have hpending : (w.pc i).pending? = none := by
    cases hp : (w.pc i).pending? with
    | none => rfl
    | some c' => simp [op?_of_pending? hp] at hpc
  have hapart := hsafe.apart c k rfl hpc
  have hwhole := hsafe.whole c k rfl hpc
  have hheld : w.mem.loc c.loc = due c.loc := by
    refine h.held c.loc (fun t c' ht => ?_) hwhole
    by_cases hti : t = i
    · simp [hti, hpending] at ht
    · exact hapart t hti c' (op?_of_pending? ht)
  refine h.look rfl rfl rfl (fun _ _ => ⟨rfl, rfl, rfl, rfl⟩) hpending rfl (fun c' hc' => ?_)
    (fun c' hc' => ?_) fun d hd => ?_
  · obtain rfl := some.inj hc'
    exact ⟨hheld.symm.trans (hsafe.before c k rfl hpc), hsafe.target c k rfl hpc⟩
  · obtain rfl := some.inj hc'
    exact ⟨hapart, hwhole⟩
  · exact h.cleared i d (hcleared ▸ hd)

theorem Counts.outside (hop : p'.op? = none) (hpending : (w.pc i).pending? = none)
    (hcleared : ∀ d, p'.cleared? = some d → w.mem.lost d = ∅) (hinfo : s'.refInfo = w.mem.refInfo)
    (hloc : s'.loc = w.mem.loc) (hlost : s'.lost = w.mem.lost)
    (hkeep : KeepsLost w.mem s') : Counts (w.move i s' p') due := by
  have hpending' : p'.pending? = none := by
    cases hp : p'.pending? with
    | none => rfl
    | some c' => simp [op?_of_pending? hp] at hop
  refine h.look hinfo hloc hlost hkeep hpending hpending' (fun c hc => ?_) (by simp [hop]) hcleared
  simp [op?_of_open? hc] at hop

theorem Counts.step (he : Eras machines w)
    (hacts : Acts machines w.mem (w.pc i) s' p') (hsafe : Safe w i p') :
    ∃ due', Counts (w.move i s' p') due' := by
  have hphase := he.phase i
  generalize hpc : w.pc i = p at hacts hphase
  have hcleared : ∀ d, p.cleared? = some d → w.mem.lost d = ∅ := fun d hd =>
    h.cleared i d (hpc ▸ hd)
  have hsame : ∀ m, (∃ l, l ∈ w.mem.lost m) → w.mem.up m = w.mem.up m ∧
      w.mem.unrecovered m = w.mem.unrecovered m ∧ w.mem.redo m = w.mem.redo m ∧
      w.mem.landed m = w.mem.landed m := fun _ _ => ⟨rfl, rfl, rfl, rfl⟩
  cases hacts with
  | @join mid hmid hmax hdown hrec =>
    refine ⟨due, h.outside rfl (by rw [hpc]; rfl) (by simp) rfl rfl rfl fun m hm => ?_⟩
    obtain ⟨l, hl⟩ := hm
    have hun := (h.lost m l hl).2.1
    have hne : m ≠ mid := by grind
    simp [Shared.join, Shared.setEra, hne]
  | call hup => exact ⟨due, h.enter (by rw [hpc]; rfl) (by rw [hpc]; rfl) hsafe⟩
  | load | age | see | note | noteNot | casNot =>
    exact ⟨due, h.goOn (by rw [hpc]; rfl) rfl (by rw [hpc]; rfl) rfl rfl rfl hsame⟩
  | @log c k old cur n hn =>
    refine ⟨due, h.goOn (by rw [hpc]; rfl) rfl (by rw [hpc]; rfl) rfl rfl rfl fun m hm => ?_⟩
    have hne : m ≠ c.mid := h.ne_of_up hm (he.roles.up i c.mid (by rw [hpc]; rfl))
    simp [setRedo, hne]
  | cas heq => exact ⟨_, h.cas he hpc heq (hsafe.count _ _ _ _ hpc)⟩
  | store => exact ⟨due, h.store hpc⟩
  | @inc c k old cur =>
    refine ⟨due, h.outside (c.after_op? k old) (by rw [hpc]; rfl) (fun d hd => ?_) rfl rfl rfl
      hsame⟩
    have hdead := dead?_of_cleared? hd
    rw [c.after_dead?] at hdead
    exact hcleared d hdead
  | sweepCall hi hne => exact ⟨due, h.enter (by rw [hpc]; rfl) (by rw [hpc]; rfl) hsafe⟩
  | sweepNext hi hz => exact ⟨due, h.outside rfl (by rw [hpc]; rfl) hcleared rfl rfl rfl hsame⟩
  | @sweepEnd mid obj j k hi =>
    refine ⟨due, h.outside (k.resume_op? mid) (by rw [hpc]; rfl) (fun d hd => ?_) rfl rfl rfl hsame⟩
    have hdead := dead?_of_cleared? hd
    rw [k.resume_dead?] at hdead
    exact hcleared d hdead
  | findNot hnone =>
    refine ⟨due, h.outside rfl (by rw [hpc]; rfl) (fun d hd => ?_) rfl rfl rfl hsame⟩
    obtain rfl := some.inj hd
    refine Set.eq_empty_of_forall_notMem fun l hl => ?_
    obtain ⟨-, -, r, hr⟩ := h.lost _ l hl
    exact absurd hr.find (by simp [hnone])
  | callRecover | find | check | checkNot | scan | scanNext =>
    exact ⟨due, h.outside rfl (by rw [hpc]; rfl) (by simp) rfl rfl rfl hsame⟩
  | scanEnd hj =>
    refine ⟨due, h.outside rfl (by rw [hpc]; rfl) (fun d hd => ?_) rfl rfl rfl hsame⟩
    obtain rfl := some.inj hd
    refine Set.eq_empty_of_forall_notMem fun l hl => ?_
    -- a lost store shows in one of the two cases
    obtain ⟨-, -, r', hr'⟩ := h.lost _ l hl
    have hfind := hr'.find
    rw [hphase.1] at hfind
    obtain rfl := some.inj hfind
    obtain ⟨j', hle, hlt, -, -⟩ := hphase.2 hr'.landed
    omega
  | apply => exact ⟨due, h.apply hpc hphase (hsafe.recover _ _ _ hpc)⟩
  | @clear mid dead =>
    refine ⟨due, h.outside rfl (by rw [hpc]; rfl) (by simp) rfl rfl rfl fun m hm => ?_⟩
    have hne : m ≠ dead := by
      obtain ⟨l, hl⟩ := hm
      intro heq
      rw [heq, hcleared dead rfl] at hl
      simp at hl
    simp [hne]

omit [DecidableEq T] in
/-- When nothing is under way the locations hold what they are due. -/
theorem Counts.refsCounted (hs : Settled w) : RefsCounted w.mem := by
  have hlost : ∀ m l, l ∉ w.mem.lost m := by
    intro m l hl
    have hun := (h.lost m l hl).2.1
    rw [hs.recovered m] at hun
    simp at hun
  have hloc : w.mem.loc = due := by
    funext l
    refine h.held l (fun t c ht => ?_) fun m => hlost m l
    have hop := op?_of_pending? ht
    rw [hs.done t] at hop
    simp at hop
  constructor
  · intro x hx
    obtain ⟨ls, hnd, hls, hlen⟩ := h.count x hx
    have hset : {l | w.mem.loc l = x} = (ls.toFinset : Set ℕ) := by
      ext l
      simp [hloc, hls l]
    rw [hset, Set.encard_coe_eq_coe_finsetCard, toFinset_card_of_nodup hnd, hlen]
  · intro l hl hzero
    obtain ⟨ls, -, hls, hlen⟩ := h.count (w.mem.loc l) hl
    rw [hzero] at hlen
    have hmem : l ∈ ls := hls.mem (by rw [hloc])
    rw [eq_nil_of_length_eq_zero hlen] at hmem
    simp at hmem

end

end steps

theorem start_counts {T : Type} {embeddedRefCnt : ℕ → ℕ} :
    Counts (start (T := T) embeddedRefCnt) fun _ => 0 := by
  refine ⟨fun x hx => ⟨[], nodup_nil, fun l => ?_, ?_⟩, ?_, ?_, ?_, ?_, ?_, ?_, ?_⟩
  · simpa using hx.symm
  all_goals
    simp [start, pending?, op?, dsmRefCnt]

/-- In every run in which the callers use a location for one operation at a time and recovery
repeats a store only while the location is unchanged, the counts are right whenever nothing
is under way. -/
theorem refs_counted_in_safe_runs {T : Type} [DecidableEq T] (machines : ℕ)
    (embeddedRefCnt : ℕ → ℕ) {w : World T}
    (hrun : ReflTransGen (SafeStep machines) (start embeddedRefCnt) w)
    (hsettled : Settled w) : RefsCounted w.mem := by
  have hall : Eras machines w ∧ ∃ due, Counts w due := by
    clear hsettled
    induction hrun with
    | refl => exact ⟨start_eras, _, start_counts⟩
    | tail _ hstep ih =>
      obtain ⟨heras, due, hcounts⟩ := ih
      cases hstep with
      | act hacts hord hsafe => exact ⟨heras.step hacts hord, hcounts.step heras hacts hsafe⟩
      | crash hup => exact ⟨heras.crash _, due, hcounts.crash heras hup⟩
  obtain ⟨-, due, hcounts⟩ := hall
  exact hcounts.refsCounted hsettled

/-! ## Two machines -/

/-- Machine 0 has linked an object and machine 1 has given up the reference. -/
def givenUp : Shared := (joined.called ⟨0, true, 8, 64⟩).called ⟨1, false, 8, 64⟩

theorem alone_givenUp : Alone 2 (joined, .idle) (givenUp, .idle) :=
  (alone_call rfl (.inl rfl)).trans (alone_call_last rfl rfl (by decide) rfl)

/-- Machine 0 crashes long after its only operation.  Recovery repeats the store of that
operation, although another machine has given up the reference since. -/
theorem recovery_revives_reference : ∃ w : World Bool,
    ReflTransGen (Step 2) (start fun _ => 0) w ∧ Settled w ∧ ¬ RefsCounted w.mem := by
  have hrun := run_resting (alone_joined.trans alone_givenUp)
  have hcrash : Step 2 (resting givenUp) (resting (crashed givenUp)) := .crash rfl
  have hrecover : Alone 2 (crashed givenUp, .idle)
      (recovered (crashed givenUp) ⟨.link, 0, 1, 8, 64⟩, .idle) :=
    alone_recover rfl rfl rfl rfl (by decide) (by decide) rfl
  refine ⟨_, (hrun.tail hcrash).trans (run_resting hrecover), ⟨fun _ => rfl, fun m => ?_⟩,
    fun hcounted => ?_⟩
  · by_cases hm : m = 0
    · rw [hm]
      rfl
    · simp only [resting, recovered, crashed, crash, update_of_ne hm]
      rfl
  · exact hcounted.pos 8 (by decide) (by decide)

/-- One step of a CPU that meets the conditions while all others are idle. -/
structure SafeActs (machines : ℕ) (s t : Shared × Phase) : Prop where
  acts : Acts machines s.1 s.2 t.1 t.2
  call : ∀ c k, t.2 = .load c k → s.2.op? = none →
    c.target ≠ 0 ∧ s.1.loc c.loc = c.before ∧ ∀ m, c.loc ∉ s.1.lost m
  count : ∀ c k old cur, s.2 = .log c k old cur 5 → c.link = true →
    dsmRefCnt (s.1.refInfo c.target) + 1 < 2 ^ 16
  inc : ∀ c k old cur, s.2 = .inc c k old cur → s.1.era c.mid c.mid + 1 < 2 ^ 32
  recover : ∀ mid dead r, s.2 = .apply mid dead r →
    r.refLocOff ∈ s.1.lost dead ∨ s.1.loc r.refLocOff = r.value

theorem safeRun_of_acts {T : Type} [DecidableEq T] {w : World T} {i : T}
    (hidle : ∀ t, t ≠ i → w.pc t = .idle)
    (h : ReflTransGen (SafeActs machines) (w.mem, w.pc i) s) :
    ReflTransGen (SafeStep machines) w (w.move i s.1 s.2) := by
  refine Threads.run_alone_of i (fun w' m p hsame hacts => ?_) h
  have hother : ∀ t, t ≠ i → w'.pc t = .idle := fun t ht => (hsame t ht).trans (hidle t ht)
  refine .act hacts.acts ⟨fun _ _ _ t ht c' hc' => ?_, fun _ _ _ t ht => ?_, hacts.inc⟩
    ⟨fun c k hp ho => (hacts.call c k hp ho).1, fun c k hp ho => (hacts.call c k hp ho).2.1,
      fun _ _ _ _ t ht c' hc' => ?_, fun c k hp ho => (hacts.call c k hp ho).2.2, hacts.count,
      hacts.recover⟩
  · simp [hother t ht, op?] at hc'
  · simp [hother t ht]
  · simp [hother t ht, op?] at hc'

theorem safeActs_of_plain (s : Shared) (p : Phase) (s' : Shared) (p' : Phase)
    (hacts : Acts machines s p s' p') (hplain : p.plain = true) :
    SafeActs machines (s, p) (s', p') := by
  refine ⟨hacts, fun c k _ hop => ?_, fun c k old cur hp => ?_, fun c k old cur hp => ?_,
    fun mid dead r hp => ?_⟩
  · cases p <;> simp [op?] at hplain hop
  · simp [show p = _ from hp] at hplain
  · simp [show p = _ from hp] at hplain
  · simp [show p = _ from hp] at hplain

/-- The call of machine 0 that is interrupted. -/
def linkCall : Call := ⟨0, true, 8, 64⟩

/-- The operation has taken effect and has not reached the location. -/
def interrupted : World Bool := (start fun _ => 0).move false
  ((joined.logged linkCall).land linkCall 0 1) (.store linkCall .ret 0 1)

theorem run_interrupted : ReflTransGen (SafeStep 2) (start fun _ => 0) interrupted := by
  have hjoined := run_joined (R := SafeActs 2) fun s mid hmid hdown hrec =>
    ⟨.join hmid (Nat.lt_trans hmid (by decide)) hdown hrec, by simp, by simp, by simp, by simp⟩
  have hcall : SafeActs 2 (joined, .idle) (joined, .load linkCall .ret) := by
    refine ⟨.call rfl, fun c k hp _ => ?_, by simp, by simp, by simp⟩
    obtain ⟨rfl, -⟩ := load.inj hp
    exact ⟨by decide, rfl, fun _ hmem => hmem⟩
  have hcas : SafeActs 2 (joined.logged linkCall, .log linkCall .ret 0 1 5)
      ((joined.logged linkCall).land linkCall 0 1, .store linkCall .ret 0 1) := by
    refine ⟨acts_cas (s := joined), by simp, fun c k old cur hp _ => ?_, by simp, by simp⟩
    obtain ⟨rfl, -⟩ := log.inj hp
    decide
  exact safeRun_of_acts (fun _ _ => rfl)
    (hjoined.trans ((alone_logged safeActs_of_plain hcall).tail hcas))

/-- Machine 0 crashes between the count and the location, and machine 1 finishes its
operation. -/
theorem refs_counted_after_crash : ∃ w : World Bool,
    w.mem.loc 8 = 64 ∧ dsmRefCnt (w.mem.refInfo 64) = 1 ∧ Settled w ∧ RefsCounted w.mem := by
  have hcrash : SafeStep 2 interrupted (crash interrupted 0) := .crash rfl
  have hidle : ∀ t, t ≠ true → (crash interrupted 0).pc t = .idle := by
    intro t ht
    obtain rfl : t = false := by simpa using ht
    rfl
  let s := (crash interrupted 0).mem
  let r : Redo := ⟨.link, 0, 1, 8, 64⟩
  have hlost : 8 ∈ s.lost 0 := ⟨false, linkCall, .ret, 0, 1, rfl, rfl, rfl⟩
  have hcall : SafeActs 2 (s, .idle) (s, .find 1 0) :=
    ⟨.callRecover rfl rfl rfl, by simp, by simp, by simp, by simp⟩
  have hfind : SafeActs 2 (s, .find 1 0) (s, .check 1 0 r) :=
    ⟨.find rfl, by simp, by simp, by simp, by simp⟩
  have hcheck : SafeActs 2 (s, .check 1 0 r) (s.decideRedo 0 r true, .apply 1 0 r) :=
    ⟨.check (by decide) (by decide), by simp, by simp, by simp, by simp⟩
  have happly : SafeActs 2 (s.decideRedo 0 r true, .apply 1 0 r)
      ((s.decideRedo 0 r true).applyRedo 0 r, .clear 1 0) := by
    refine ⟨.apply, by simp, by simp, by simp, fun mid dead r' hp => ?_⟩
    obtain ⟨-, rfl, rfl⟩ := apply.inj hp
    exact .inl hlost
  have hclear : SafeActs 2 ((s.decideRedo 0 r true).applyRedo 0 r, .clear 1 0)
      (recovered s r, .idle) := ⟨.clear, by simp, by simp, by simp, by simp⟩
  have hrun := safeRun_of_acts hidle (ReflTransGen.tail (.tail (.tail (.tail
    (.single hcall) hfind) hcheck) happly) hclear)
  have hsettled : Settled ((crash interrupted 0).move true (recovered s r) .idle) := by
    refine ⟨fun t => ?_, fun m => ?_⟩
    · cases t <;> rfl
    · by_cases hm : m = 0
      · rw [hm]
        rfl
      · simp only [Threads.move_mem, recovered, update_of_ne hm, s, crash]
        rfl
  exact ⟨_, rfl, by decide, hsettled, refs_counted_in_safe_runs 2 (fun _ => 0)
    ((run_interrupted.tail hcrash).trans hrun) hsettled⟩

end Starfish.DsmRef
