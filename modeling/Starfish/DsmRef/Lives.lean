import Starfish.DsmRef.Alone

/-!
# Starfish.DsmRef.Lives

Machines that crash, are recovered and join again.  The own era of a machine starts at 1 in
every life, but the eras of its earlier lives stay in the objects and in the tables of the
other machines.  Recovery cannot tell them from those of the latest life: its decision about
the last record is right when the era of the record is above all eras of earlier lives.
-/

namespace Starfish.DsmRef

open Phase Nat List Relation

attribute [local simp] Shared.land Shared.join

/-- The word of the object that a CPU has loaded. -/
def Phase.old? : Phase → Option ℕ
  | age _ _ old => some old
  | see _ _ old _ => some old
  | note _ _ old _ _ => some old
  | log _ _ old _ _ => some old
  | store _ _ old _ => some old
  | inc _ _ old _ => some old
  | _ => none

/-- The machine and the record that a recovery decides about. -/
def Phase.record? : Phase → Option (ℕ × Redo)
  | check _ dead r => some (dead, r)
  | scan _ dead r _ => some (dead, r)
  | _ => none

/-- An era of a machine that can be seen somewhere is of an earlier life, or its operation
took effect. -/
def Mark (s : Shared) (m e : ℕ) : Prop := e ≤ s.stale m ∨ e ∈ (s.landed m).map Prod.fst

structure Marks {T : Type} (w : World T) : Prop where
  info : ∀ x, Mark w.mem (dsmRefLcid (w.mem.refInfo x)) (dsmRefEra (w.mem.refInfo x))
  eras : ∀ j m, j ≠ m → Mark w.mem m (w.mem.era j m)
  olds : ∀ t old, (w.pc t).old? = some old → Mark w.mem (dsmRefLcid old) (dsmRefEra old)
  past : ∀ t d r, (w.pc t).record? = some (d, r) → w.mem.stale d < r.curEra
  verdicts : ∀ v ∈ w.mem.verdicts, v.committed = v.landed

/-- One step, when a recovery only meets records whose era is above all eras of the earlier
lives of the machine. -/
inductive CarefulStep {T : Type} [DecidableEq T] (machines : ℕ) : World T → World T → Prop
  | act {w : World T} {i : T} {s' : Shared} {p' : Phase}
      (h : Acts machines w.mem (w.pc i) s' p') (hord : Orderly w i p')
      (hpast : ∀ mid dead r, p' = .check mid dead r → w.mem.stale dead < r.curEra) :
      CarefulStep machines w (w.move i s' p')
  | crash {w : World T} {mid : ℕ} (h : w.mem.up mid = true) : CarefulStep machines w (crash w mid)

section steps

variable {T : Type} [DecidableEq T] {w : World T} {i : T} {s' : Shared} {p' : Phase}
  {machines : ℕ}

theorem Marks.move (h : Marks w) (hmark : ∀ m e, Mark w.mem m e → Mark s' m e)
    (hstale : ∀ d r, p'.record? = some (d, r) ∨ (∃ t, t ≠ i ∧ (w.pc t).record? = some (d, r)) →
      s'.stale d = w.mem.stale d)
    (hinfo : ∀ x, Mark s' (dsmRefLcid (s'.refInfo x)) (dsmRefEra (s'.refInfo x)))
    (heras : ∀ j m, j ≠ m → Mark s' m (s'.era j m))
    (hold : ∀ old, p'.old? = some old → Mark s' (dsmRefLcid old) (dsmRefEra old))
    (hrecord : ∀ d r, p'.record? = some (d, r) → w.mem.stale d < r.curEra)
    (hverdicts : ∀ v ∈ s'.verdicts, v.committed = v.landed) : Marks (w.move i s' p') := by
  obtain ⟨-, -, holds, hpast, -⟩ := h
  refine ⟨hinfo, heras, by grind, fun t d r ht => ?_, hverdicts⟩
  have hown := fun h => hstale d r (.inl h)
  have hother := fun hti h => hstale d r (.inr ⟨t, hti, h⟩)
  grind

/-- A step that leaves the eras alone. -/
theorem Marks.look (h : Marks w) (hinfo : s'.refInfo = w.mem.refInfo) (hera : s'.era = w.mem.era)
    (hlanded : s'.landed = w.mem.landed) (hstale : s'.stale = w.mem.stale)
    (hold : ∀ old, p'.old? = some old → (w.pc i).old? = some old ∨ ∃ x, old = w.mem.refInfo x)
    (hrecord : ∀ d r, p'.record? = some (d, r) → w.mem.stale d < r.curEra)
    (hverdicts : ∀ v ∈ s'.verdicts, v.committed = v.landed) : Marks (w.move i s' p') := by
  have hmark : ∀ m e, Mark w.mem m e → Mark s' m e := by
    intro m e he
    rwa [Mark, hlanded, hstale]
  refine h.move hmark (fun d _ _ => by rw [hstale]) (fun x => ?_) (fun j m hjm => ?_)
    (fun old ho => ?_) hrecord hverdicts
  · rw [hinfo]
    exact hmark _ _ (h.info x)
  · rw [hera]
    exact hmark _ _ (h.eras j m hjm)
  · obtain ho | ⟨x, rfl⟩ := hold old ho
    · exact hmark _ _ (h.olds i old ho)
    · exact hmark _ _ (h.info x)

omit [DecidableEq T] in
/-- A recovery that sees the era of a record is right. -/
theorem Marks.landed_of_mark (h : Marks w) (he : Eras machines w)
    (hrecord : (w.pc i).record? = some (d, r)) (hfind : findLatestRedo (w.mem.redo d) = some r)
    (hmark : Mark w.mem d e) (hle : r.curEra ≤ e) : w.mem.Landed d r := by
  have hpast := h.past i d r hrecord
  obtain hstale | hmem := hmark
  · omega
  -- the last operation that took effect is at least as new, and the record is the newest one
  obtain ⟨y, hy, rfl⟩ := mem_map.mp hmem
  obtain ⟨-, -, hmax⟩ := findLatestRedo_eq_some hfind
  rw [Shared.Landed]
  cases hl : w.mem.landed d with
  | nil => simp [hl] at hy
  | cons z rest =>
    obtain ⟨e, x⟩ := z
    obtain ⟨-, hrest, hused, hold⟩ := he.logs.head d e x rest hl
    have hslot := hmax (e % redoCnt) (mod_lt _ (by decide)) hused
    have hye : y.1 ≤ e := by
      rw [hl] at hy
      obtain rfl | hy := mem_cons.mp hy
      · exact le_refl _
      · exact le_of_lt (hrest y hy)
    have heq : r.curEra = e := by
      obtain ⟨hcur, -⟩ | hgt := hold <;> omega
    rw [heq]
    exact mem_cons_self

omit [DecidableEq T] in
theorem Marks.verdict (h : Marks w) (hb : b = true ↔ w.mem.Landed d r) :
    ∀ v ∈ (w.mem.decideRedo d r b).verdicts, v.committed = v.landed := by
  intro v hv
  obtain rfl | hv := mem_cons.mp hv
  · by_cases hl : w.mem.Landed d r
    · simp [hb.mpr hl, hl]
    · have hfalse : b = false := by
        by_contra hne
        exact hl (hb.mp (by simpa using hne))
      simp [hfalse, hl]
  · exact h.verdicts v hv

theorem Marks.step (h : Marks w) (he : Eras machines w) (hacts : Acts machines w.mem (w.pc i) s' p')
    (hpast : ∀ mid dead r, p' = .check mid dead r → w.mem.stale dead < r.curEra) :
    Marks (w.move i s' p') := by
  have hphase := he.phase i
  generalize hpc : w.pc i = p at hacts hphase
  cases hacts with
  | @join mid hmid hmax hdown hrec =>
    have hmark : ∀ m e, Mark w.mem m e → Mark (w.mem.join mid) m e := by
      intro m e hm
      by_cases hmm : m = mid
      · subst hmm
        refine .inl ?_
        have hstale : (w.mem.join m).stale m = max (w.mem.stale m) (w.mem.era m m) := by
          simp
        rw [hstale]
        obtain hm | hm := hm
        · exact le_trans hm (le_max_left _ _)
        · obtain ⟨y, hy, rfl⟩ := mem_map.mp hm
          exact le_trans (he.logs.landed_le m y hy) (le_max_right _ _)
      · simpa [Mark, hmm] using hm
    refine h.move hmark (fun d r hd => ?_) (fun x => hmark _ _ (h.info x)) (fun j m hjm => ?_)
      (by simp [old?]) (by simp [record?]) h.verdicts
    · have hne : d ≠ mid := by
        obtain hd | ⟨t, hti, hd⟩ := hd
        · simp [record?] at hd
        · have hdead : (w.pc t).dead? = some d := by
            cases hpt : w.pc t <;> simp_all [record?, dead?]
          have hold := (he.roles.down t d hdead).2
          grind
      simp [hne]
    · rw [join_era, if_neg (by omega)]
      exact hmark _ _ (h.eras j m hjm)
  | @note c k old cur seen hgt =>
    refine h.move (fun _ _ hm => hm) (fun _ _ _ => rfl) h.info (fun j m hjm => ?_)
      (fun old' ho => ?_) (by simp [record?]) h.verdicts
    · rw [setEra_era]
      split_ifs with hj
      · obtain ⟨rfl, rfl⟩ := hj
        exact h.olds i old (by rw [hpc]; rfl)
      · exact h.eras j m hjm
    · obtain rfl := Option.some.inj ho
      exact h.olds i old (by rw [hpc]; rfl)
  | @cas c k old cur heq =>
    have hmark : ∀ m e, Mark w.mem m e → Mark (w.mem.land c old cur) m e := by
      intro m e hm
      by_cases hmm : m = c.mid
      · subst hmm
        exact hm.imp_right fun hmem => by
          rw [show (w.mem.land c old cur).landed c.mid = _ from Function.update_self ..]
          exact mem_cons_of_mem _ hmem
      · simpa [Mark, hmm] using hm
    have hup : w.mem.up c.mid = true := he.roles.up i c.mid (by rw [hpc]; rfl)
    have hmax := (he.logs.bound c.mid hup).2
    have hcur := lt_of_le_of_lt hphase.1.le (he.logs.era_lt c.mid c.mid)
    refine h.move hmark (fun _ _ _ => rfl) (fun x => ?_) (fun j m hjm => hmark _ _ (h.eras j m hjm))
      (fun old' ho => ?_) (by simp [record?]) h.verdicts
    · by_cases hx : x = c.target
      · refine .inr ?_
        have hmid : c.mid % 2 ^ 16 = c.mid := mod_eq_of_lt (by rw [maxMachines] at hmax; omega)
        have hinfo : (w.mem.land c old cur).refInfo x =
            dsmRefPack c.mid (c.count (dsmRefCnt old)) cur := by simp [hx]
        rw [hinfo, dsmRefLcid_pack, dsmRefEra_pack, hmid, mod_eq_of_lt hcur]
        simp
      · have hinfo : (w.mem.land c old cur).refInfo x = w.mem.refInfo x := by
          simp [hx]
        rw [hinfo]
        exact hmark _ _ (h.info x)
    · obtain rfl := Option.some.inj ho
      exact hmark _ _ (h.olds i old (by rw [hpc]; rfl))
  | @inc c k old cur =>
    have hnone : (c.after k old).old? = none ∧ (c.after k old).record? = none := by
      rw [Call.after]
      split
      · exact ⟨rfl, rfl⟩
      · cases k <;> exact ⟨rfl, rfl⟩
    refine h.move (fun _ _ hm => hm) (fun _ _ _ => rfl) h.info (fun j m hjm => ?_)
      (by simp [hnone.1]) (by simp [hnone.2]) h.verdicts
    rw [setEra_era, if_neg (by omega)]
    exact h.eras j m hjm
  | load =>
    exact h.look rfl rfl rfl rfl (fun old ho => .inr ⟨_, (Option.some.inj ho).symm⟩)
      (by simp [record?]) h.verdicts
  | casNot hne =>
    exact h.look rfl rfl rfl rfl (by simp [old?]) (by simp [record?]) h.verdicts
  | @sweepEnd mid obj j k hi =>
    have hnone : (k.resume mid).old? = none ∧ (k.resume mid).record? = none := by
      cases k <;> exact ⟨rfl, rfl⟩
    exact h.look rfl rfl rfl rfl (by simp [hnone.1]) (by simp [hnone.2]) h.verdicts
  | find hr =>
    refine h.look rfl rfl rfl rfl (by simp [old?]) (fun d r hd => ?_) h.verdicts
    obtain ⟨rfl, rfl⟩ := Prod.mk.inj (Option.some.inj hd)
    exact hpast _ _ _ rfl
  | @check mid dead r hlcid hera =>
    refine h.look rfl rfl rfl rfl (by simp [old?]) (by simp [record?])
      (h.verdict ⟨fun _ => ?_, fun _ => rfl⟩)
    have hmark := h.info r.refedOff
    rw [hlcid, hera] at hmark
    exact h.landed_of_mark he (by rw [hpc]; rfl) hphase hmark (le_refl _)
  | checkNot | scanNext =>
    refine h.look rfl rfl rfl rfl (by simp [old?]) (fun d r hd => ?_) h.verdicts
    exact h.past i d r (by rw [hpc]; exact hd)
  | @scan mid dead j r hj hne hge =>
    refine h.look rfl rfl rfl rfl (by simp [old?]) (by simp [record?])
      (h.verdict ⟨fun _ => ?_, fun _ => rfl⟩)
    exact h.landed_of_mark he (by rw [hpc]; rfl) hphase.1 (h.eras j dead hne) hge
  | @scanEnd mid dead j r hj =>
    refine h.look rfl rfl rfl rfl (by simp [old?]) (by simp [record?])
      (h.verdict ⟨by simp, fun hl => ?_⟩)
    obtain ⟨j', hle, hlt, -, -⟩ := hphase.2 hl
    omega
  | @apply mid dead r =>
    have hnone : (r.after mid dead).old? = none ∧ (r.after mid dead).record? = none := by
      rw [Redo.after]
      split <;> exact ⟨rfl, rfl⟩
    exact h.look rfl rfl rfl rfl (by simp [hnone.1]) (by simp [hnone.2]) h.verdicts
  | _ =>
    exact h.look rfl rfl rfl rfl (fun old ho => .inl (by rw [hpc]; exact ho))
      (by simp [record?]) h.verdicts

omit [DecidableEq T] in
theorem Marks.crash (h : Marks w) : Marks (crash w mid) := by
  obtain ⟨hinfo, heras, holds, hpast, hverdicts⟩ := h
  have hold' (t : T) (old : ℕ) (ht : ((DsmRef.crash w mid).pc t).old? = some old) :
      (w.pc t).old? = some old := by grind [old?]
  have hrecord (t : T) (d : ℕ) (r : Redo) (ht : ((DsmRef.crash w mid).pc t).record? = some (d, r)) :
      (w.pc t).record? = some (d, r) := by grind [record?]
  exact ⟨hinfo, heras, fun t old ht => holds t old (hold' t old ht),
    fun t d r ht => hpast t d r (hrecord t d r ht), hverdicts⟩

end steps

theorem start_marks {T : Type} : Marks (start (T := T) embeddedRefCnt) := by
  refine ⟨?_, ?_, ?_, ?_, ?_⟩ <;> simp [start, old?, record?, Mark, dsmRefEra]

/-- In every run in which the recovered records are newer than the earlier lives of their
machines, recovery treats a record as committed exactly when its CAS took effect in the
latest life. -/
theorem verdicts_right_in_careful_runs {T : Type} [DecidableEq T] (machines : ℕ)
    (embeddedRefCnt : ℕ → ℕ) {w : World T}
    (hrun : ReflTransGen (CarefulStep machines) (start embeddedRefCnt) w) :
    ∀ v ∈ w.mem.verdicts, v.committed = v.landed := by
  have hall : Eras machines w ∧ Marks w := by
    induction hrun with
    | refl => exact ⟨start_eras, start_marks⟩
    | tail _ hstep ih =>
      obtain ⟨heras, hmarks⟩ := ih
      cases hstep with
      | act hacts hord hpast => exact ⟨heras.step hacts hord, hmarks.step heras hacts hpast⟩
      | crash hup => exact ⟨heras.crash _, hmarks.crash⟩
  exact hall.2.verdicts

/-! ## Two machines -/

/-- Machine 0 has linked an object in its first life and machine 1 has noted the era. -/
def firstLife : Shared := (joined.called ⟨0, true, 8, 64⟩).called ⟨1, true, 16, 64⟩

theorem alone_firstLife : Alone 2 (joined, .idle) (firstLife, .idle) :=
  (alone_call rfl (.inl rfl)).trans (alone_call rfl (.inl rfl))

/-- Machine 0 has joined again. -/
def rejoined : Shared := (recovered (crashed firstLife) ⟨.link, 0, 1, 8, 64⟩).join 0

theorem run_rejoined : ReflTransGen (Step 2) (start fun _ => 0) (resting rejoined) := by
  have hrun := run_resting (alone_joined.trans alone_firstLife)
  have hcrash : Step 2 (resting firstLife) (resting (crashed firstLife)) := .crash rfl
  have hrecover : Alone 2 (crashed firstLife, .idle)
      (recovered (crashed firstLife) ⟨.link, 0, 1, 8, 64⟩, .idle) :=
    alone_recover rfl rfl rfl rfl (by decide) (by decide) rfl
  have hjoin : Alone 2 (recovered (crashed firstLife) ⟨.link, 0, 1, 8, 64⟩, .idle)
      (rejoined, .idle) := alone_join 0 (by decide) rfl rfl
  exact (hrun.tail hcrash).trans (run_resting (hrecover.trans hjoin))

/-- Machine 0 crashes in its second life before its first operation takes effect.  Its
record has era 1, which machine 1 has noted in the first life. -/
theorem earlier_life_counts : ∃ w : World Bool,
    ReflTransGen (Step 2) (start fun _ => 0) w ∧
      ∃ v ∈ w.mem.verdicts, v.committed = true ∧ v.landed = false := by
  have hlogged : Alone 2 (rejoined, .idle) (rejoined.logged ⟨0, true, 24, 72⟩,
      .log ⟨0, true, 24, 72⟩ .ret 0 1 5) := alone_logged (fun _ _ _ _ hacts _ => hacts) (.call rfl)
  have hrun := run_rejoined.trans (run_of_alone false hlogged)
  -- the CPU of machine 0 is gone
  have hcrash : Step 2 ((resting rejoined).move false (rejoined.logged ⟨0, true, 24, 72⟩)
      (.log ⟨0, true, 24, 72⟩ .ret 0 1 5)) (crash _ 0) := .crash rfl
  have hidle : (crash ((resting rejoined).move false (rejoined.logged ⟨0, true, 24, 72⟩)
      (.log ⟨0, true, 24, 72⟩ .ret 0 1 5)) 0).pc true = .idle := rfl
  have hrecover := run_of_alone true (hidle ▸ alone_recover
    (s := (crash ((resting rejoined).move false (rejoined.logged ⟨0, true, 24, 72⟩)
      (.log ⟨0, true, 24, 72⟩ .ret 0 1 5)) 0).mem) (r := ⟨.link, 0, 1, 24, 72⟩)
    rfl rfl rfl rfl (by decide) (by decide) rfl)
  exact ⟨_, (hrun.tail hcrash).trans hrecover, _, mem_cons_self, rfl, rfl⟩

/-- One step of a CPU that meets the conditions while all others are idle. -/
def CarefulActs (machines : ℕ) (s t : Shared × Phase) : Prop :=
  Acts machines s.1 s.2 t.1 t.2 ∧
    (∀ c k old cur, s.2 = .inc c k old cur → s.1.era c.mid c.mid + 1 < 2 ^ 32) ∧
    ∀ mid dead r, t.2 = .check mid dead r → s.1.stale dead < r.curEra

theorem carefulRun_of_acts {T : Type} [DecidableEq T] {w : World T} {i : T}
    (hidle : ∀ t, t ≠ i → w.pc t = .idle)
    (h : ReflTransGen (CarefulActs machines) (w.mem, w.pc i) s) :
    ReflTransGen (CarefulStep machines) w (w.move i s.1 s.2) := by
  refine Threads.run_alone_of i (fun w' m p hsame hacts => ?_) h
  refine .act hacts.1 ⟨fun _ _ _ t ht c' hc' => ?_, fun _ _ _ t ht => ?_, hacts.2.1⟩ hacts.2.2
  · simp [hsame t ht, hidle t ht, op?] at hc'
  · simp [hsame t ht, hidle t ht, dead?]

theorem carefulActs_of_plain (s : Shared) (p : Phase) (s' : Shared) (p' : Phase)
    (hacts : Acts machines s p s' p') (hplain : p.plain = true) :
    CarefulActs machines (s, p) (s', p') := by
  refine ⟨hacts, fun c k old cur hp => ?_, fun mid dead r hp => ?_⟩
  · obtain rfl : p = .inc c k old cur := hp
    simp [plain] at hplain
  · cases hacts <;> simp_all [plain]

/-- Machine 0 has crashed before its first operation and has no record. -/
def released : Shared :=
  { crashed joined with unrecovered := Function.update (crashed joined).unrecovered 0 false }

/-- Machine 0 has joined again and linked an object. -/
def secondLife : Shared := (released.join 0).called ⟨0, true, 8, 64⟩

theorem run_secondLife :
    ReflTransGen (CarefulStep 2) (start fun _ => 0) (resting secondLife) := by
  have hrest {s t : Shared} (h : ReflTransGen (CarefulActs 2) (s, .idle) (t, .idle)) :
      ReflTransGen (CarefulStep 2) (resting s) (resting t) := by
    have hrun := carefulRun_of_acts (w := resting s) (i := false) (fun _ _ => rfl) h
    rwa [show (resting s).move false t .idle = resting t from Threads.move_self ..] at hrun
  have hjoin (s : Shared) (mid : ℕ) (hmid : mid < 2) (hdown : s.up mid = false)
      (hrec : s.unrecovered mid = false) : CarefulActs 2 (s, .idle) (s.join mid, .idle) :=
    ⟨.join hmid (lt_trans hmid (by decide)) hdown hrec, by simp, by simp⟩
  have hcrash : CarefulStep 2 (resting joined) (resting (crashed joined)) := .crash rfl
  have hcall : CarefulActs 2 (crashed joined, .idle) (crashed joined, .find 1 0) :=
    ⟨.callRecover rfl rfl rfl, by simp, by simp⟩
  have hfind : CarefulActs 2 (crashed joined, .find 1 0) (crashed joined, .clear 1 0) :=
    ⟨.findNot rfl, by simp, by simp⟩
  have hclear : CarefulActs 2 (crashed joined, .clear 1 0) (released, .idle) :=
    ⟨.clear, by simp, by simp⟩
  have hstored : ReflTransGen (CarefulActs 2) (released.join 0, .idle)
      ((released.join 0).stored ⟨0, true, 8, 64⟩, .inc ⟨0, true, 8, 64⟩ .ret 0 1) :=
    alone_stored carefulActs_of_plain ⟨.call rfl, by simp, by simp⟩ ⟨acts_cas, by simp, by simp⟩
  have hinc : CarefulActs 2 ((released.join 0).stored ⟨0, true, 8, 64⟩,
      .inc ⟨0, true, 8, 64⟩ .ret 0 1) (secondLife, .idle) := by
    refine ⟨.inc, fun c k old cur heq => ?_, by simp⟩
    obtain ⟨rfl, -⟩ := inc.inj heq
    decide
  exact (((hrest (run_joined hjoin)).tail hcrash).trans (hrest (.tail (.tail (.single hcall) hfind)
    hclear))).trans (hrest ((ReflTransGen.single (hjoin released 0 (by decide) rfl rfl)).trans
      (hstored.tail hinc)))

/-- Machine 0 has written the record of an unlink, before its CAS. -/
def halfUnlinked : World Bool := (resting secondLife).move false
  (secondLife.logged ⟨0, false, 8, 64⟩) (.log ⟨0, false, 8, 64⟩ .ret (dsmRefPack 0 1 1) 2 5)

/-- Machine 0 gives the object up in its second life and crashes before that takes effect.
Its record has era 2, above the only one of the first life, and machine 1 sees that the
operation did not take effect. -/
theorem verdicts_right_second_life : ∃ w : World Bool, w.mem.stale 0 = 1 ∧
    w.mem.landed 0 = [(1, 64)] ∧ w.mem.verdicts = [⟨false, false⟩] ∧
    ∀ v ∈ w.mem.verdicts, v.committed = v.landed := by
  let r : Redo := ⟨.unlink, 1, 2, 8, 64⟩
  have hlogged : ReflTransGen (CarefulActs 2) (secondLife, .idle) (halfUnlinked.mem, _) :=
    alone_logged carefulActs_of_plain ⟨.call rfl, by simp, by simp⟩
  have hstopped : ReflTransGen (CarefulStep 2) (resting secondLife) halfUnlinked :=
    carefulRun_of_acts (w := resting secondLife) (i := false) (fun _ _ => rfl) hlogged
  have hcrash : CarefulStep 2 halfUnlinked (crash halfUnlinked 0) := .crash rfl
  have hidle : ∀ t, t ≠ true → (crash halfUnlinked 0).pc t = .idle := by
    intro t ht
    obtain rfl : t = false := by simpa using ht
    rfl
  -- machine 1 recovers machine 0
  let s := (crash halfUnlinked 0).mem
  have hcall : CarefulActs 2 (s, .idle) (s, .find 1 0) :=
    ⟨.callRecover rfl rfl rfl, by simp, by simp⟩
  have hfind : CarefulActs 2 (s, .find 1 0) (s, .check 1 0 r) := by
    refine ⟨.find rfl, by simp, fun mid dead r' heq => ?_⟩
    obtain ⟨-, rfl, rfl⟩ := check.inj heq
    decide
  have hcheck : CarefulActs 2 (s, .check 1 0 r) (s, .scan 1 0 r 0) :=
    ⟨.checkNot (by decide), by simp, by simp⟩
  have hscan0 : CarefulActs 2 (s, .scan 1 0 r 0) (s, .scan 1 0 r 1) :=
    ⟨.scanNext (by decide) (by decide), by simp, by simp⟩
  have hscan1 : CarefulActs 2 (s, .scan 1 0 r 1) (s, .scan 1 0 r 2) :=
    ⟨.scanNext (by decide) (by decide), by simp, by simp⟩
  have hend : CarefulActs 2 (s, .scan 1 0 r 2) (s.decideRedo 0 r false, .clear 1 0) :=
    ⟨.scanEnd (by decide), by simp, by simp⟩
  have hrun := carefulRun_of_acts hidle (ReflTransGen.tail (.tail (.tail (.tail (.tail
    (.single hcall) hfind) hcheck) hscan0) hscan1) hend)
  exact ⟨_, rfl, rfl, rfl, verdicts_right_in_careful_runs 2 (fun _ => 0)
    (((run_secondLife.trans hstopped).tail hcrash).trans hrun)⟩

end Starfish.DsmRef
