import Starfish.Object.Threads

/-!
# Starfish.Object.Revoke

`cap_free_all` among the other threads.  Between two steps the invariant of the
capabilities holds, with what the calls under way have taken over: a slot out of its
table is loose, a slot id that `cap_copy` has got is reserved, and the references
of the calls are counted.  What one thread knows about its slots stays true when
another one moves, because of the locks it has.

`cap_free_all` works if no `cap_free` is between its two locks with the slot that
`cap_free_all` is about to free.
-/

namespace Starfish.Object

open Relation Function Prog Phase Finset

/-! ## What the calls under way have taken over -/

namespace Phase

/-- The slot id that the thread has reserved. -/
@[simp] def reserves : Phase → ℕ → ℕ → Prop
  | linking _ dest i _ _ _, g, idx => g = dest ∧ i = idx
  | installing _ dest i _, g, idx => g = dest ∧ i = idx
  | _, _, _ => False

/-- The slot on a copies list and in no table. -/
@[simp] def loose : Phase → ℕ → Prop
  | unlinking s, x => x = s
  | installing _ _ _ d, x => x = d
  | _, _ => False

/-- The slot that is on no list yet. -/
@[simp] def pending : Phase → ℕ → Prop
  | linking _ _ _ d _ _, x => x = d
  | _, _ => False

/-- The slots that nobody else touches. -/
@[simp] def owns (p : Phase) (x : ℕ) : Prop := p.loose x ∨ p.pending x

/-- The slot on a list that the next step needs. -/
def uses : Phase → ℕ → Prop
  | unlinking s, x => x = s
  | linking _ _ _ _ s _, x => x = s
  | installing _ _ _ d, x => x = d
  | _, _ => False

/-- The references that the thread holds. -/
def refs : Phase → ℕ → ℕ
  | putting o, x => if x = o then 1 else 0
  | linking _ _ _ _ _ o, x => if x = o then 1 else 0
  | _, _ => 0

theorem holds_of_reserves {p : Phase} (h : p.reserves g idx) : p.holds g := by
  cases p <;> simp_all [holds]

theorem holds_of_writes {p : Phase} (h : p.writes g) : p.holds g := by
  cases p <;> simp_all [writes, holds]

end Phase

namespace Revocation

@[simp] def loose : Revocation → ℕ → Prop
  | unlinking _ s _, x => x = s
  | _, _ => False

def refs : Revocation → ℕ → ℕ
  | again o, x => if x = o then 1 else 0
  | loop o _ _, x => if x = o then 1 else 0
  | inner o _ _ _ _, x => if x = o then 1 else 0
  | unlinking o _ _, x => if x = o then 1 else 0
  | putting o o' _, x => (if x = o then 1 else 0) + if x = o' then 1 else 0
  | ending o, x => if x = o then 1 else 0
  | _, _ => 0

theorem refs_of_holds {r : Revocation} (h : r.holds o) : 0 < r.refs o := by
  cases r <;> simp_all [holds, refs]

end Revocation

namespace World

variable {n : ℕ} {w : World n} {j : Fin n} {base : ℕ → ℕ}

def reserved (w : World n) (g idx : ℕ) : Prop := ∃ j, (w.other j).reserves g idx

@[simp] def loose (w : World n) (x : ℕ) : Prop := w.revoker.loose x ∨ ∃ j, (w.other j).loose x

/-- The references of the calls under way, and those held elsewhere. -/
def refs (base : ℕ → ℕ) (w : World n) (o : ℕ) : ℕ :=
  base o + w.revoker.refs o + ∑ j, (w.other j).refs o

/-! The same without thread `j`. -/

def reservedBut (w : World n) (j : Fin n) (g idx : ℕ) : Prop :=
  ∃ k ≠ j, (w.other k).reserves g idx

def looseBut (w : World n) (j : Fin n) (x : ℕ) : Prop :=
  w.revoker.loose x ∨ ∃ k ≠ j, (w.other k).loose x

def refsBut (base : ℕ → ℕ) (w : World n) (j : Fin n) (o : ℕ) : ℕ :=
  base o + w.revoker.refs o + ∑ k ∈ Finset.univ.erase j, (w.other k).refs o

theorem reserved_move (m : CapMem) (p : Phase) (g idx : ℕ) :
    (w.move j m p).reserved g idx ↔ p.reserves g idx ∨ w.reservedBut j g idx :=
  exists_update_iff w.other fun _ q => q.reserves g idx

theorem loose_move (m : CapMem) (p : Phase) (x : ℕ) :
    (w.move j m p).loose x ↔ p.loose x ∨ w.looseBut j x := by
  have hex := exists_update_iff w.other (a := j) (b := p) fun _ q => q.loose x
  simp only [loose, looseBut, move, hex]
  tauto

theorem refs_move (m : CapMem) (p : Phase) (o : ℕ) :
    (w.move j m p).refs base o = p.refs o + w.refsBut base j o := by
  have hsum : ∑ k, (update w.other j p k).refs o =
      p.refs o + ∑ k ∈ univ.erase j, (w.other k).refs o := by
    rw [← add_sum_erase _ _ (mem_univ j), update_self]
    refine congrArg (p.refs o + ·) (sum_congr rfl fun k hk => ?_)
    rw [update_of_ne (ne_of_mem_erase hk)]
  simp only [refs, refsBut, move, hsum]
  omega

theorem move_self (w : World n) (j : Fin n) : w.move j w.mem (w.other j) = w := by
  simp [move]

end World

/-! ## What a thread knows -/

/-- The node that a list with the slots `rs` starts with. -/
def first (rs : List ℕ) (o : ℕ) : CapNode := (rs.map CapNode.copy).headD (.head o)

/-- A slot id without a slot, in a group that exists. -/
structure Vacant (m : CapMem) (g : ℕ) (i : ℤ) : Prop where
  group : Group m g
  index : ∃ idx : ℕ, i = idx ∧ idx < (m.table g).slotsSize
  free : m.getSlot g i = 0

/-- What `cap_copy` has written to the new slot. -/
structure Ready (m : CapMem) (g : ℕ) (i : ℤ) (d : ℕ) : Prop where
  ne : d ≠ 0
  slotId : (m.slot d).slotId = i
  capGroup : (m.slot d).capGroup = g
  valid : (m.slot d).isvalid = true
  live : (m.slot d).live = true

/-- What a thread knows when it waits for a lock. -/
def At (xs : ℕ → List ℕ) (m : CapMem) : Phase → Prop
  | .unlinking s => ∃ o, s ∈ xs o
  | .linking src dest i d s o => Vacant m dest i ∧ Ready m dest i d ∧ (m.slot d).object = o ∧
      (∀ o, d ∉ xs o) ∧ s ∈ xs o ∧ Group m src ∧ m.getSlot src (m.slot s).slotId = s
  | .installing _ dest i d => Vacant m dest i ∧ Ready m dest i d ∧ ∃ o, d ∈ xs o
  | _ => True

/-- What `cap_free_all` knows. -/
def Walking (xs : ℕ → List ℕ) (m : CapMem) : Revocation → Prop
  | .loop o elem tmp => elem = first (xs o) o ∧ tmp = first (xs o).tail o
  | .inner o s g i tmp => (∃ rs, xs o = s :: rs ∧ tmp = first rs o) ∧
      (m.slot s).capGroup = g ∧ (m.slot s).slotId = i
  | .unlinking o s tmp => ∃ rs, xs o = s :: rs ∧ tmp = first rs o
  | .putting o o' tmp => o' = o ∧ tmp = first (xs o) o
  | .bug => False
  | _ => True

section knowledge

variable {xs : ℕ → List ℕ}

theorem Vacant.keep (h : Vacant m g i) (hg : Group m' g)
    (ht : m'.table g = m.table g) : Vacant m' g i where
  group := hg
  index := by
    rw [ht]
    exact h.index
  free := by
    rw [CapMem.getSlot, ht]
    exact h.free

theorem Ready.keep (h : Ready m g i d) (hs : m'.slot d = m.slot d) : Ready m' g i d where
  ne := h.ne
  slotId := hs ▸ h.slotId
  capGroup := hs ▸ h.capGroup
  valid := hs ▸ h.valid
  live := hs ▸ h.live

/-- What has to stay for a thread. -/
theorem At.keep (h : At xs m p) (hgroup : ∀ g, p.holds g → Group m g → Group m' g)
    (htable : ∀ g, p.holds g → m'.table g = m.table g)
    (hlist : ∀ x o, p.uses x → x ∈ xs o → x ∈ xs' o)
    (hpend : ∀ x, p.pending x → (∀ o, x ∉ xs o) → ∀ o, x ∉ xs' o)
    (hslot : ∀ x, p.uses x ∨ p.pending x → m'.slot x = m.slot x) : At xs' m' p := by
  cases p with
  | idle => trivial
  | unlinking s =>
    obtain ⟨o, hs⟩ := h
    exact ⟨o, hlist s o rfl hs⟩
  | putting o => trivial
  | linking src dest i d s o =>
    obtain ⟨hvacant, hready, hobj, hnot, hs, hsrc, hget⟩ := h
    have hd : m'.slot d = m.slot d := hslot d (.inr rfl)
    refine ⟨hvacant.keep (hgroup dest (.inr rfl) hvacant.group) (htable dest (.inr rfl)),
      hready.keep hd, hd ▸ hobj, hpend d rfl hnot, hlist s o rfl hs,
      hgroup src (.inl rfl) hsrc, ?_⟩
    rw [CapMem.getSlot, htable src (.inl rfl), hslot s (.inl rfl)]
    exact hget
  | installing src dest i d =>
    obtain ⟨hvacant, hready, o, hd⟩ := h
    exact ⟨hvacant.keep (hgroup dest (.inr rfl) hvacant.group) (htable dest (.inr rfl)),
      hready.keep (hslot d (.inl rfl)), o, hlist d o rfl hd⟩

theorem At.notMem (h : At xs m p) (hx : p.pending x) (o : ℕ) : x ∉ xs o := by
  cases p with
  | linking src dest i d s o =>
    obtain rfl := hx
    exact h.2.2.2.1 _
  | _ => exact absurd hx id

theorem At.mem (h : At xs m p) (hx : p.uses x) : ∃ o, x ∈ xs o := by
  cases p with
  | unlinking s =>
    obtain rfl := hx
    exact h
  | linking src dest i d s o =>
    obtain rfl := hx
    exact ⟨o, h.2.2.2.2.1⟩
  | installing src dest i d =>
    obtain rfl := hx
    exact h.2.2
  | _ => exact absurd hx id

theorem At.mem_loose (h : At xs m p) (hx : p.loose x) : ∃ o, x ∈ xs o := by
  refine h.mem ?_
  cases p <;> simp_all [uses]

theorem At.live {G loose : ℕ → Prop} (h : At xs m p) (hcaps : Caps G loose xs m)
    (hx : p.uses x ∨ p.pending x) : x ≠ 0 ∧ (m.slot x).live = true := by
  rcases hx with hx | hx
  · obtain ⟨o, hmem⟩ := h.mem hx
    obtain ⟨hne, -, -, hlive⟩ := hcaps.slot o x hmem
    exact ⟨hne, hlive⟩
  · cases p with
    | linking src dest i d s o =>
      obtain rfl := hx
      exact ⟨h.2.1.ne, h.2.1.live⟩
    | _ => exact absurd hx id

theorem Walking.keep (h : Walking xs m r) (hxs : ∀ o, r.holds o → xs' o = xs o)
    (hslot : ∀ o, r.holds o → ∀ x ∈ xs o, m'.slot x = m.slot x) : Walking xs' m' r := by
  cases r with
  | idle => trivial
  | again o => trivial
  | loop o elem tmp | putting o o' tmp =>
    have heq : xs' o = xs o := hxs o rfl
    rw [Walking, heq]
    exact h
  | inner o s g i tmp =>
    obtain ⟨⟨rs, hrs, htmp⟩, hg, hi⟩ := h
    have hs : m'.slot s = m.slot s := hslot o rfl s (by simp [hrs])
    exact ⟨⟨rs, (hxs o rfl).trans hrs, htmp⟩, hs ▸ hg, hs ▸ hi⟩
  | unlinking o s tmp =>
    obtain ⟨rs, hrs, htmp⟩ := h
    exact ⟨rs, (hxs o rfl).trans hrs, htmp⟩
  | ending o => trivial
  | bug => exact h

end knowledge

/-! ## All of them together -/

/-- What holds between two steps. -/
structure Together {n : ℕ} (base : ℕ → ℕ) (xs : ℕ → List ℕ) (w : World n) : Prop where
  inv : Inv (Group w.mem) w.reserved w.loose (w.refs base) xs w.mem
  each : ∀ j, At xs w.mem (w.other j)
  walk : Walking xs w.mem w.revoker
  owner : ∀ j k x, (w.other j).owns x → (w.other k).owns x → j = k
  guard : ∀ j k g, (w.other j).writes g → (w.other k).holds g → j = k
  own : ∀ j x, w.revoker.loose x → ¬ (w.other j).owns x

theorem Inv.of_iff {G loose loose' : ℕ → Prop} {J J' : ℕ → ℕ → Prop} {refs refs' : ℕ → ℕ}
    {xs : ℕ → List ℕ} (h : Inv G J loose refs xs m) (hJ : ∀ g i, J g i ↔ J' g i)
    (hl : ∀ x, loose x ↔ loose' x) (hr : ∀ o, refs o = refs' o) : Inv G J' loose' refs' xs m := by
  have hJ' : J = J' := funext fun g => funext fun i => propext (hJ g i)
  have hl' : loose = loose' := funext fun x => propext (hl x)
  exact hJ' ▸ hl' ▸ (funext hr : refs = refs') ▸ h

/-- One more reference to `o`. -/
theorem update_add_one (f : ℕ → ℕ) (o x : ℕ) :
    update f o (f o + 1) x = (if x = o then 1 else 0) + f x := by
  by_cases h : x = o
  · subst h
    simp [Nat.add_comm]
  · simp [h]

namespace Together

variable {n : ℕ} {base : ℕ → ℕ} {xs : ℕ → List ℕ} {w : World n}

section

variable (h : Together base xs w)
include h

theorem knowsAt (hat : w.other j = p) : At xs w.mem p := hat ▸ h.each j

theorem walkingAt (hat : w.revoker = r) : Walking xs w.mem r := hat ▸ h.walk

/-- The invariant, with the part of thread `j` set apart. -/
theorem split (j : Fin n) :
    Inv (Group w.mem) (fun g idx => (w.other j).reserves g idx ∨ w.reservedBut j g idx)
      (fun x => (w.other j).loose x ∨ w.looseBut j x)
      (fun o => (w.other j).refs o + w.refsBut base j o) xs w.mem := by
  refine h.inv.of_iff (fun g idx => ?_) (fun x => ?_) fun o => ?_
  · rw [← World.reserved_move w.mem, w.move_self]
  · rw [← World.loose_move w.mem, w.move_self]
  · rw [← World.refs_move w.mem, w.move_self]

theorem move (hinv : Inv (Group m') (fun g idx => p.reserves g idx ∨ w.reservedBut j g idx)
      (fun x => p.loose x ∨ w.looseBut j x) (fun o => p.refs o + w.refsBut base j o) xs' m')
    (hat : At xs' m' p) (heach : ∀ k ≠ j, At xs' m' (w.other k))
    (hwalk : Walking xs' m' w.revoker)
    (howner : ∀ x, p.owns x → ¬ w.revoker.loose x ∧ ∀ k ≠ j, ¬ (w.other k).owns x)
    (hwrites : ∀ g, p.writes g → ∀ k ≠ j, ¬ (w.other k).holds g)
    (hholds : ∀ g, p.holds g → ∀ k ≠ j, ¬ (w.other k).writes g) :
    Together base xs' (w.move j m' p) := by
  refine ⟨hinv.of_iff (fun g idx => ?_) (fun x => ?_) fun o => ?_, ?_, hwalk,
    fun k l x hk hl => ?_, fun k l g hk hl => ?_, ?_⟩
  · exact (World.reserved_move m' p g idx).symm
  · exact (World.loose_move m' p x).symm
  · exact (World.refs_move m' p o).symm
  · exact (forall_update_iff w.other fun _ q => At xs' m' q).mpr ⟨hat, heach⟩
  · exact unique_update (R := fun q q' : Phase => q.owns x ∧ q'.owns x)
      (fun k l hkl => h.owner k l x hkl.1 hkl.2) (fun k hk hkl => (howner x hkl.1).2 k hk hkl.2)
      (fun k hk hkl => (howner x hkl.2).2 k hk hkl.1) k l ⟨hk, hl⟩
  · exact unique_update (R := fun q q' : Phase => q.writes g ∧ q'.holds g)
      (fun k l hkl => h.guard k l g hkl.1 hkl.2) (fun k hk hkl => hwrites g hkl.1 k hk hkl.2)
      (fun k hk hkl => hholds g hkl.2 k hk hkl.1) k l ⟨hk, hl⟩
  · exact (forall_update_iff w.other fun _ q => ∀ x, w.revoker.loose x → ¬ q.owns x).mpr
      ⟨fun x hx hown => (howner x hown).1 hx, fun k _ => h.own k⟩

/-- A thread that has finished has nothing to care for. -/
theorem finish (hinv : Inv (Group m') (w.reservedBut j) (w.looseBut j) (w.refsBut base j) xs' m')
    (heach : ∀ k ≠ j, At xs' m' (w.other k)) (hwalk : Walking xs' m' w.revoker) :
    Together base xs' (w.move j m' .idle) := by
  refine h.move (hinv.of_iff ?_ ?_ ?_) trivial heach hwalk ?_ ?_ ?_
  all_goals simp [refs, writes, holds]

/-- The thread in `cap_free_all` moves. -/
theorem walkTo (hinv : Inv (Group m') w.reserved (fun x => r.loose x ∨ ∃ j, (w.other j).loose x)
      (fun o => base o + r.refs o + ∑ j, (w.other j).refs o) xs' m')
    (heach : ∀ j, At xs' m' (w.other j)) (hwalk : Walking xs' m' r)
    (hown : ∀ x, r.loose x → ∀ j, ¬ (w.other j).owns x) : Together base xs' (w.walk m' r) :=
  ⟨hinv, heach, hwalk, h.owner, h.guard, fun j x hx => hown x hx j⟩

/-- A slot on a list that is in a table belongs to no thread. -/
theorem not_owned (hs : s ∈ xs o) (hl : ¬ w.loose s) (k : Fin n) : ¬ (w.other k).owns s := by
  rintro (hloose | hpend)
  · exact hl (.inr ⟨k, hloose⟩)
  · exact (h.each k).notMem hpend o hs

/-- No thread uses a loose slot of another one. -/
theorem uses_ne (hs : w.loose s) (hk : ¬ (w.other k).owns s) (hx : (w.other k).uses x) : x ≠ s := by
  rintro rfl
  have hat := h.each k
  cases hp : w.other k with
  | linking src dest i d s' o =>
    rw [hp] at hx hat
    obtain rfl := hx
    obtain ⟨-, -, -, -, hmem, hsrc, hget⟩ := hat
    have hne : w.mem.getSlot src (w.mem.slot x).slotId ≠ 0 := by
      rw [hget]
      exact (h.inv.caps.slot o x hmem).1
    have hlisted := (h.inv.caps.listed src _ hsrc hne).2.1
    rw [hget] at hlisted
    exact hlisted hs
  | unlinking | installing =>
    rw [hp] at hx hk
    exact hk (.inl hx)
  | idle | putting =>
    rw [hp] at hx
    exact hx

end

end Together

theorem World.Unlocked.not_reserved {w : World n} (h : w.Unlocked g) (idx : ℕ) :
    ¬ w.reserved g idx := fun ⟨k, hk⟩ => h k (Phase.holds_of_reserves hk)

/-! ## What a call leaves alone -/

/-- Only the table of `g` and the slot `s` change, and of the objects only the
counts. -/
structure Touches (g s : ℕ) (m m' : CapMem) : Prop where
  table : ∀ g', g' ≠ g → m'.table g' = m.table g'
  slot : ∀ x, x ≠ s → m'.slot x = m.slot x
  kept : ∀ o, (m'.object o).live = (m.object o).live ∧ (m'.object o).type = (m.object o).type

namespace Touches

@[refl] theorem refl (m : CapMem) : Touches g s m m :=
  ⟨fun _ _ => rfl, fun _ _ => rfl, fun _ => ⟨rfl, rfl⟩⟩

theorem trans (h : Touches g s m m') (h' : Touches g s m' m'') : Touches g s m m'' where
  table g' hg := (h'.table g' hg).trans (h.table g' hg)
  slot x hx := (h'.slot x hx).trans (h.slot x hx)
  kept o := ⟨(h'.kept o).1.trans (h.kept o).1, (h'.kept o).2.trans (h.kept o).2⟩

theorem setTable (m : CapMem) (t : SlotTable) : Touches g s m (m.setTable g t) :=
  ⟨fun g' hg => by simp [hg], fun _ _ => rfl, fun _ => ⟨rfl, rfl⟩⟩

theorem setSlot (m : CapMem) (v : ObjectSlot) : Touches g s m (m.setSlot s v) :=
  ⟨fun _ _ => rfl, fun x hx => by simp [hx], fun _ => ⟨rfl, rfl⟩⟩

theorem setLinks (m : CapMem) (L : Links CapNode) : Touches g s m (m.setLinks L) :=
  ⟨fun _ _ => rfl, fun _ _ => rfl, fun _ => ⟨rfl, rfl⟩⟩

theorem setObject (hlive : v.live = (m.object o).live)
    (htype : v.type = (m.object o).type) : Touches g s m (m.setObject o v) :=
  ⟨fun _ _ => rfl, fun _ _ => rfl, kept_of_update rfl hlive htype⟩

theorem group_eq (h : Touches g s m m') : Group m' = Group m := group_iff_of_kept h.kept

theorem within_installSlot : (installSlot g i s).Within (Touches g s) fun _ => True :=
  within_read_bind fun _ => within_bugOn_bind fun m => ⟨setTable m _, trivial⟩

theorem within_capAlloc : (capAlloc g o rights arrays s).Within (Touches g s) fun _ => True := by
  refine fun m => ⟨setTable m _, within_ite (within_pure trivial) (within_ite ?_ ?_)⟩
  · exact within_store_bind (fun m => setTable m _) (within_pure trivial)
  · refine within_store_bind (fun m => setSlot m _) ?_
    refine within_seq (within_zoom fun L m => setLinks m L) fun _ => ?_
    refine within_read_bind fun _ => within_bugOn_bind ?_
    refine within_store_bind (fun m => setObject rfl rfl) ?_
    exact within_seq within_installSlot fun _ => within_pure trivial

theorem within_copyBegin : (copyBegin src g i arrays s).Within (Touches g s) fun _ => True := by
  refine within_read_bind fun _ => within_ite (within_pure trivial) fun m =>
    ⟨setTable m _, within_ite (within_pure trivial) (within_ite ?_ ?_)⟩
  · exact within_store_bind (fun m => setTable m _) (within_pure trivial)
  · refine within_store_bind (fun m => setSlot m _) (within_read_bind fun _ => within_ite ?_ ?_)
    · refine within_store_bind (fun m => setSlot m _) ?_
      exact within_store_bind (fun m => setTable m _) (within_pure trivial)
    · refine within_store_bind (fun m => setObject rfl rfl) ?_
      exact within_store_bind (fun m => setSlot m _) (within_pure trivial)

theorem within_getOpaque {type : Option ObjectType} :
    (getOpaque o slotId type).Within (Touches g s) fun _ => True := by
  refine within_read_bind fun _ => within_ite (within_pure trivial)
    (within_ite (within_pure trivial) (within_bugOn_bind (within_read_bind fun _ =>
      within_bugOn_bind (within_read_bind fun _ => within_bugOn_bind (within_ite ?_ ?_)))))
  · exact within_store_bind (fun m => setObject rfl rfl) (within_pure trivial)
  · exact within_pure trivial

theorem of_outcome {α : Type} {c : Prog CapMem α} {r : α}
    (h : c.Within (Touches g s) fun _ => True) (ho : c.outcome m = .ok r m') : Touches g s m m' :=
  (h.outcome refl trans ho).1

end Touches

theorem wlp_capFreeTable {G loose : ℕ → Prop} {xs : ℕ → List ℕ} (h : Caps G loose xs m) (hg : G g) :
    wlp (capFreeTable g i) (fun r m' => (m.getSlot g i = 0 ∧ r = none ∧ m' = m) ∨
      (m.getSlot g i ≠ 0 ∧ r = some (m.getSlot g i) ∧
        m' = m.setTable g ((m.table g).freeSlotId i))) m := by
  simp only [capFreeTable, freeSlotId, wlp_bind, wlp_read, wlp_ite, wlp_store, wlp_pure, id_eq,
    h.validSlot_iff hg]
  exact ⟨fun hs => .inr ⟨hs, trivial, trivial⟩, fun hs => .inl ⟨not_not.mp hs, trivial, trivial⟩⟩

/-! ## The steps of the other threads -/

namespace Together

variable {n : ℕ} {base : ℕ → ℕ} {xs : ℕ → List ℕ} {w : World n}

section

variable (h : Together base xs w)
include h

theorem split_idle (hidle : w.other j = .idle) :
    Inv (Group w.mem) (w.reservedBut j) (w.looseBut j) (w.refsBut base j) xs w.mem := by
  refine (h.split j).of_iff ?_ ?_ ?_ <;> simp [hidle, refs]

omit h in
theorem not_reservedBut (hlock : w.Unlocked g) (idx : ℕ) : ¬ w.reservedBut j g idx :=
  fun ⟨k, _, hk⟩ => hlock k (holds_of_reserves hk)

/-- The others do not notice that a slot is taken out of a table nobody has
locked. -/
theorem each_setTable (hlock : w.Unlocked g) (t : SlotTable) (k : Fin n) :
    At xs (w.mem.setTable g t) (w.other k) := by
  refine (h.each k).keep (fun _ _ hg => hg) (fun g' hg' => ?_) (fun _ _ _ hx => hx)
    (fun _ _ hx => hx) fun _ _ => rfl
  have hne : g' ≠ g := by
    rintro rfl
    exact hlock k hg'
  simp [hne]

theorem capFree (hidle : w.other j = .idle) (hg : Group w.mem g)
    (hlock : w.Unlocked g) (hs : w.mem.getSlot g i ≠ 0) :
    Together base xs (w.move j (w.mem.setTable g ((w.mem.table g).freeSlotId i))
      (.unlinking (w.mem.getSlot g i))) := by
  obtain ⟨hmem, hloose, -, -⟩ := h.inv.caps.listed g i hg hs
  have hinv := (h.split_idle hidle).takeOut hg (not_reservedBut hlock) rfl hs
  refine h.move (hinv.of_iff ?_ ?_ ?_) ⟨_, hmem⟩ (fun k _ => h.each_setTable hlock _ k)
    (h.walk.keep (fun _ _ => rfl) fun _ _ _ _ => rfl) (fun x hx => ?_) ?_ ?_
  · simp
  · simp
  · simp [refs]
  · obtain rfl : x = w.mem.getSlot g i := by simpa using hx
    exact ⟨fun hr => hloose (.inl hr), fun k _ => h.not_owned hmem hloose k⟩
  · simp [writes]
  · simp [holds]

/-- A loose slot is taken off its list; the threads that do not own it do not
notice. -/
theorem each_unlink (hs : w.loose s) (hxs : xs o = as ++ s :: bs)
    (hk : ¬ (w.other k).owns s) (hgroup : Group m' = Group w.mem)
    (htable : m'.table = w.mem.table) (hslot : ∀ x, x ≠ s → m'.slot x = w.mem.slot x) :
    At (update xs o (as ++ bs)) m' (w.other k) := by
  have huses : ∀ x, (w.other k).uses x → x ≠ s := fun x hx => h.uses_ne hs hk hx
  refine (h.each k).keep (fun g _ hg => hgroup ▸ hg) (fun g _ => by rw [htable])
    (fun x o' hx hmem => ?_) (fun x _ hnot o' hmem => ?_) fun x hx => ?_
  · by_cases ho : o' = o
    · subst ho
      have hne := huses x hx
      rw [hxs] at hmem
      rw [update_self]
      simp_all
    · rwa [update_of_ne ho]
  · exact hnot o' (Caps.mem_of_mem_update_erase hxs hmem)
  · rcases hx with hx | hx
    · exact hslot x (huses x hx)
    · refine hslot x ?_
      rintro rfl
      exact (h.each k).notMem hx o (by simp [hxs])

/-- `cap_free` takes the slot off the list. -/
theorem unlink (hat : w.other j = .unlinking s) (hlock : ¬ w.revoker.holds (w.mem.slot s).object)
    (hout : (capFreeUnlink s).outcome w.mem = .ok u m') :
    ∃ xs', Together base xs' (w.move j m' (.putting (w.mem.slot s).object)) := by
  obtain ⟨o, hs⟩ := h.knowsAt hat
  have hobj := h.inv.caps.object_eq hs
  rw [hobj] at hlock ⊢
  obtain ⟨as, bs, hxs⟩ := List.append_of_mem hs
  have hsplit : Inv (Group w.mem) (w.reservedBut j) (fun x => x = s ∨ w.looseBut j x)
      (w.refsBut base j) xs w.mem := by
    refine (h.split j).of_iff ?_ ?_ ?_ <;> simp [hat, refs]
  obtain ⟨hinv, htable, hobject, hslot⟩ := wlp_of_wp (wp_capFreeUnlink hsplit hxs) _ _ hout
  have hgroup : Group m' = Group w.mem := group_iff_of_kept fun o => by simp [hobject]
  have howns : (w.other j).owns s := by simp [hat]
  have hloose : w.loose s := .inr ⟨j, by simp [hat]⟩
  rw [← hgroup] at hinv
  refine ⟨_, h.move (hinv.of_iff (by simp) (by simp) (update_add_one _ o)) trivial
    (fun k hk => ?_) (h.walk.keep (fun o' ho' => ?_) fun o' ho' x hx => ?_) ?_ ?_ ?_⟩
  · exact h.each_unlink hloose hxs (fun hown => hk (h.owner k j s hown howns)) hgroup htable hslot
  · have hne : o' ≠ o := fun heq => hlock (heq ▸ ho')
    rw [update_of_ne hne]
  · refine hslot x ?_
    rintro rfl
    exact hlock ((hobj.symm.trans (h.inv.caps.object_eq hx)) ▸ ho')
  all_goals simp [writes, holds]

/-- `cap_free` drops its reference. -/
theorem put (hat : w.other j = .putting o)
    (hout : (objPut o).outcome w.mem = .ok u m') (hgone : Abandoned w (w.move j m' .idle)) :
    Together base xs (w.move j m' .idle) := by
  have hsplit : Inv (Group w.mem) (w.reservedBut j) (w.looseBut j)
      (fun o' => (if o' = o then 1 else 0) + w.refsBut base j o') xs w.mem := by
    refine (h.split j).of_iff ?_ ?_ ?_ <;> simp [hat, refs]
  obtain ⟨hinv, hsteady, htable, hslot⟩ := wlp_of_wp (wp_objPut hsplit (by simp)) _ _ hout
  have hinv' := hinv.regroup hsteady.live hsteady.type fun g hg hn => (hgone g hg hn).1
  refine h.finish (hinv'.of_iff (fun _ _ => Iff.rfl) (fun _ => Iff.rfl) fun o' => ?_)
    (fun k hk => ?_) (h.walk.keep (fun _ _ => rfl) fun _ _ x _ => by rw [hslot])
  · by_cases ho : o' = o
    · subst ho
      simp
    · simp [ho]
  · refine (h.each k).keep (fun g hholds hg => ?_) (fun g _ => by rw [htable]) (fun _ _ _ hx => hx)
      (fun _ _ hx => hx) fun x _ => by rw [hslot]
    by_contra hn
    have hfree := (hgone g hg hn).2 k
    simp only [World.move, update_of_ne hk] at hfree
    exact hfree hholds

theorem mem_of_loose (hx : w.loose x) : ∃ o, x ∈ xs o := by
  rcases hx with hx | ⟨k, hk⟩
  · have hwalk := h.walk
    cases hr : w.revoker with
    | unlinking o s tmp =>
      rw [hr] at hx hwalk
      obtain rfl := hx
      obtain ⟨rs, hrs, -⟩ := hwalk
      exact ⟨o, by simp [hrs]⟩
    | _ =>
      rw [hr] at hx
      exact absurd hx id
  · exact (h.each k).mem_loose hk

/-- Memory that `kmalloc` returns belongs to nobody. -/
theorem fresh_not_loose (hs : FreshSlot w.mem s) : ¬ w.loose s := by
  intro hl
  obtain ⟨o, hmem⟩ := h.mem_of_loose hl
  obtain ⟨hne, -, -, hlive⟩ := h.inv.caps.slot o s hmem
  simp [hs hne] at hlive

theorem fresh_ne (hs : FreshSlot w.mem s)
    (hx : (w.other k).uses x ∨ (w.other k).pending x) : x ≠ s := by
  rintro rfl
  obtain ⟨hne, hlive⟩ := (h.each k).live h.inv.caps hx
  simp [hs hne] at hlive

theorem each_fresh (ht : Touches g s w.mem m') (hs : FreshSlot w.mem s)
    (hlock : w.Unlocked g) (hlist : ∀ x o, x ∈ xs o → x ∈ xs' o)
    (hpend : ∀ x, x ≠ s → (∀ o, x ∉ xs o) → ∀ o, x ∉ xs' o) (k : Fin n) :
    At xs' m' (w.other k) := by
  refine (h.each k).keep (fun g' _ hg' => ht.group_eq ▸ hg') (fun g' hg' => ht.table g' ?_)
    (fun x o _ hx => hlist x o hx) (fun x hx => hpend x (h.fresh_ne hs (.inr hx)))
    fun x hx => ht.slot x (h.fresh_ne hs hx)
  rintro rfl
  exact hlock k hg'

theorem walk_fresh (ht : Touches g s w.mem m') (hs : FreshSlot w.mem s)
    (hxs : ∀ o, w.revoker.holds o → xs' o = xs o) : Walking xs' m' w.revoker := by
  refine h.walk.keep hxs fun o _ x hx => ht.slot x ?_
  rintro rfl
  obtain ⟨hne, -, -, hlive⟩ := h.inv.caps.slot o x hx
  simp [hs hne] at hlive

theorem capAlloc (hidle : w.other j = .idle) (hg : Group w.mem g)
    (ho : Live w.mem o) (hs : FreshSlot w.mem s) (hlock : w.Unlocked g) {rights : ℕ}
    {r : ℤ}
    (hout : (Object.capAlloc g o rights arrays s).outcome w.mem = .ok r m') :
    ∃ xs', Together base xs' (w.move j m' .idle) := by
  have ht : Touches g s w.mem m' := .of_outcome Touches.within_capAlloc hout
  have hl : ¬ w.looseBut j s := fun hl => h.fresh_not_loose hs (hl.imp id fun ⟨k, _, hk⟩ => ⟨k, hk⟩)
  rcases wlp_capAlloc (h.split_idle hidle) hg (not_reservedBut hlock) ho hs hl _ _ hout with
    ⟨-, hinv, -⟩ | ⟨-, hzero, hinv, -⟩
  · rw [← ht.group_eq] at hinv
    exact ⟨xs, h.finish hinv (fun k _ => h.each_fresh ht hs hlock (fun _ _ hx => hx)
      (fun _ _ hx => hx) k) (h.walk_fresh ht hs fun _ _ => rfl)⟩
  · rw [← ht.group_eq] at hinv
    refine ⟨_, h.finish hinv (fun k _ => h.each_fresh ht hs hlock (fun x o' hx => ?_)
      (fun x hne hnot o' => ?_) k) (h.walk_fresh ht hs fun o' ho' => ?_)⟩
    · by_cases heq : o' = o
      · subst heq
        simp [hx]
      · rwa [update_of_ne heq]
    · by_cases heq : o' = o
      · subst heq
        simp [hne, hnot o']
      · rw [update_of_ne heq]
        exact hnot o'
    · -- the object that is revoked has a reference
      have hne : o' ≠ o := by
        rintro rfl
        have hpos := Revocation.refs_of_holds ho'
        simp only [total, World.refsBut] at hzero
        omega
      rw [update_of_ne hne]

theorem capCopy {src dest : ℕ} (hidle : w.other j = .idle)
    (hsrc : Group w.mem src) (hdest : Group w.mem dest) (hs : FreshSlot w.mem s)
    (hread : w.Readable src) (hlock : w.Unlocked dest)
    {r : Except ℤ (ℤ × ℕ)} (hsafe : ¬ Runaway w.mem src dest i arrays) (hroom : Room w.mem)
    (hout : (copyBegin src dest i arrays s).outcome w.mem = .ok r m') :
    Together base xs (w.move j m' (afterFilling src dest s m' r)) := by
  have ht : Touches dest s w.mem m' := .of_outcome Touches.within_copyBegin hout
  have heach : ∀ k, At xs m' (w.other k) :=
    h.each_fresh ht hs hlock (fun _ _ hx => hx) fun _ _ hx => hx
  have hwalk := h.walk_fresh ht hs fun _ _ => rfl
  have hsplit := h.split_idle hidle
  rcases wlp_of_wp (wp_copyBegin hsplit hsrc hdest hs hsafe (hsplit.room hroom)
    (not_reservedBut hlock)) _ _ hout with
    ⟨e, -, rfl, hinv, -⟩ | ⟨idx, o, rfl, hmem, hs0, hinv, -, hnot, hslot, hfree, hi⟩
  · rw [← ht.group_eq] at hinv
    exact h.finish hinv (fun k _ => heach k) hwalk
  have hne : w.mem.getSlot src i ≠ s := fun heq => hnot o (heq ▸ hmem)
  have hsame : m'.slot (w.mem.getSlot src i) = w.mem.slot (w.mem.getSlot src i) := ht.slot _ hne
  have hobj : (m'.slot (w.mem.getSlot src i)).object = o := by
    rw [hsame]
    exact h.inv.caps.object_eq hmem
  obtain ⟨-, hin, hgrp, -⟩ := hsplit.caps.listed src i hsrc (h.inv.caps.slot o _ hmem).1
  have hplaced := (hinv.caps.placed o _ hmem hin).2
  rw [hsame, hgrp, ← hsame] at hplaced
  rw [← ht.group_eq] at hsrc hdest hinv
  have hat : At xs m' (.linking src dest idx s (w.mem.getSlot src i) o) :=
    ⟨⟨hdest, ⟨idx, rfl, hi⟩, hfree⟩, ⟨hs0, by rw [hslot], by rw [hslot], by rw [hslot], by rw [hslot]⟩,
      by rw [hslot], hnot, hmem, hsrc, hplaced⟩
  simp only [afterFilling, hobj]
  refine h.move (hinv.of_iff (fun g' idx' => ?_) ?_ fun o' => ?_) hat (fun k _ => heach k) hwalk
    (fun x hx => ?_) (fun g' hg' k _ => ?_) fun g' hg' k _ => ?_
  · simp only [also, reserves, Nat.cast_inj, eq_comm]
  · simp
  · exact update_add_one _ o o'
  · obtain rfl : x = s := by simpa using hx
    refine ⟨fun hl => h.fresh_not_loose hs (.inl hl), fun k _ hown => ?_⟩
    rcases hown with hown | hown
    · exact h.fresh_not_loose hs (.inr ⟨k, hown⟩)
    · exact h.fresh_ne hs (.inr hown) rfl
  · obtain rfl := hg'
    exact hlock k
  · rcases hg' with rfl | rfl
    · exact hread k
    · exact fun hw => hlock k (holds_of_writes hw)

/-- `cap_copy` puts the slot on the list, behind the one that it copies. -/
theorem link (hat : w.other j = .linking src dest i d s o) (hlock : ¬ w.revoker.holds o)
    (hout : (onLinks (listAdd (.copy d) (.copy s))).outcome w.mem = .ok u m') :
    ∃ xs', Together base xs' (w.move j m' (.installing src dest i d)) := by
  obtain ⟨hvacant, hready, hobj, hnot, hs, hsrc, hget⟩ := h.knowsAt hat
  obtain ⟨as, bs, hxs⟩ := List.append_of_mem hs
  have hxs' : xs o = (as ++ [s]) ++ bs := by simp [hxs]
  have hlast : ((as ++ [s]).map CapNode.copy).getLastD (.head o) = .copy s := by simp
  have ho := h.inv.caps.live_of_mem hs
  have hsplit : Inv (Group w.mem) (fun g idx => (g = dest ∧ i = idx) ∨ w.reservedBut j g idx)
      (w.looseBut j) (fun o' => (if o' = o then 1 else 0) + w.refsBut base j o') xs w.mem := by
    refine (h.split j).of_iff ?_ ?_ ?_ <;> simp [hat, refs]
  have hadd := wp_listAdd_copies hsplit.caps ho hxs' hnot
    (Q := fun _ m' => ∃ L, m' = w.mem.setLinks L ∧
      CopyFwds w.mem L (update xs o (as ++ [s] ++ d :: bs)) ∧
      CopyBwds w.mem L (update xs o (as ++ [s] ++ d :: bs)))
    fun L hF hB => ⟨L, rfl, hF, hB⟩
  rw [hlast] at hadd
  obtain ⟨L, rfl, hF, hB⟩ := wlp_of_wp hadd _ _ hout
  have hinv := hsplit.link ho hxs' hnot hready.ne hobj hready.valid hready.live (by simp) hF hB
  have hmem : ∀ o' x, x ∈ update xs o (as ++ [s] ++ d :: bs) o' ↔
      x ∈ xs o' ∨ (o' = o ∧ x = d) := fun o' x => mem_update_insert hxs'
  have howns : (w.other j).owns d := by simp [hat]
  refine ⟨_, h.move (hinv.of_iff (by simp) (by simp) fun o' => ?_)
    ⟨hvacant.keep hvacant.group rfl, hready.keep rfl, o, (hmem o d).mpr (.inr ⟨rfl, rfl⟩)⟩
    (fun k hk => ?_) (h.walk.keep (fun o' ho' => ?_) fun _ _ _ _ => rfl) (fun x hx => ?_)
    (fun g' hg' k hk hholds => ?_) fun g' hg' k hk hwrites => ?_⟩
  · by_cases heq : o' = o
    · subst heq
      simp [refs]
    · simp [refs, heq]
  · refine (h.each k).keep (fun _ _ hg => hg) (fun _ _ => rfl)
      (fun x o' _ hx => (hmem o' x).mpr (.inl hx)) (fun x hx hnot' o' hin => ?_) fun _ _ => rfl
    rcases (hmem o' x).mp hin with hin | ⟨-, rfl⟩
    · exact hnot' o' hin
    · exact hk (h.owner k j x (.inr hx) howns)
  · have hne : o' ≠ o := fun heq => hlock (heq ▸ ho')
    rw [update_of_ne hne]
  · obtain rfl : x = d := by simpa using hx
    exact ⟨fun hl => h.own j x hl howns, fun k hk hown => hk (h.owner k j x hown howns)⟩
  · exact hk (h.guard j k g' (by simpa [hat, writes] using hg') hholds).symm
  · exact hk (h.guard k j g' hwrites (by simpa [hat, holds] using hg'))

/-- `cap_copy` installs the slot. -/
theorem install (hat : w.other j = .installing src dest i d)
    (hout : (installSlot dest i d).outcome w.mem = .ok u m') :
    Together base xs (w.move j m' .idle) := by
  obtain ⟨⟨hdest, ⟨idx, rfl, hi⟩, hfree⟩, hready, o, hd⟩ := h.knowsAt hat
  have howns : (w.other j).owns d := by simp [hat]
  have hwrites : (w.other j).writes dest := by simp [hat, writes]
  have hsplit : Inv (Group w.mem) (also (w.reservedBut j) dest idx)
      (fun x => x = d ∨ w.looseBut j x) (w.refsBut base j) xs w.mem := by
    refine (h.split j).of_iff (fun g' idx' => ?_) ?_ ?_
    · simp only [also, hat, reserves, Nat.cast_inj, eq_comm]
    · simp [hat]
    · simp [hat, refs]
  have hl : ¬ w.looseBut j d := by
    rintro (hr | ⟨k, hne, hk⟩)
    · exact h.own j d hr howns
    · exact hne (h.owner k j d (.inl hk) howns)
  have hJ : ∀ idx', ¬ w.reservedBut j dest idx' := by
    rintro idx' ⟨k, hne, hk⟩
    exact hne (h.guard j k dest hwrites (holds_of_reserves hk)).symm
  obtain ⟨hinv, rfl⟩ := wlp_of_wp (wp_installSlot hsplit hl hd hJ hdest hready.capGroup
    hready.slotId hfree hi) _ _ hout
  refine h.finish hinv (fun k hk => ?_) (h.walk.keep (fun _ _ => rfl) fun _ _ _ _ => rfl)
  refine (h.each k).keep (fun _ _ hg => hg) (fun g' hg' => ?_) (fun _ _ _ hx => hx)
    (fun _ _ hx => hx) fun _ _ => rfl
  have hne : g' ≠ dest := by
    rintro rfl
    exact hk (h.guard j k g' hwrites hg').symm
  simp [hne]

end

end Together

/-! ## The steps of `cap_free_all` -/

section lists

variable {G loose : ℕ → Prop} {J : ℕ → ℕ → Prop} {refs : ℕ → ℕ} {xs : ℕ → List ℕ}

theorem Inv.next_head (h : Inv G J loose refs xs m) (ho : Live m o) :
    m.links.next (.head o) = first (xs o) o := (h.caps.fwd o ho).apply_start

theorem Inv.next_first (h : Inv G J loose refs xs m) (ho : Live m o) :
    m.links.next (first (xs o) o) = first (xs o).tail o := by
  have hpath := h.caps.fwd o ho
  rw [copyNodes] at hpath
  cases hxs : xs o with
  | nil => simpa [first, hxs] using hpath.apply_start
  | cons s rs =>
    rw [hxs] at hpath
    exact hpath.2.apply_start

theorem Inv.live_of_refs (h : Inv G J loose refs xs m) (ho : 0 < refs o) : Live m o := by
  by_contra hdead
  have h0 := h.counts.dead o hdead
  unfold total at h0
  omega

end lists

namespace Together

variable {n : ℕ} {base : ℕ → ℕ} {xs : ℕ → List ℕ} {w : World n}
  {g o o' s : ℕ} {i : ℤ} {tmp : CapNode}

section

variable (h : Together base xs w)
include h

/-- A step that changes nothing but the place in the code. -/
theorem stepTo (hwalk : Walking xs w.mem r)
    (hloose : ∀ x, w.revoker.loose x ↔ r.loose x) (hrefs : ∀ o, w.revoker.refs o = r.refs o) :
    Together base xs (w.walk w.mem r) := by
  refine h.walkTo (h.inv.of_iff (fun _ _ => Iff.rfl) (fun x => ?_) fun o => ?_) h.each hwalk
    fun x hx j => h.own j x ((hloose x).mpr hx)
  · rw [World.loose, hloose x]
  · rw [World.refs, hrefs o]

theorem capFreeAll (hidle : w.revoker = .idle) (hg : Group w.mem g)
    (hroom : Room w.mem) {a : Option ℕ}
    (hout : (getOpaque g i none).outcome w.mem = .ok a m') :
    Together base xs (w.walk m' (afterGet a)) := by
  rcases wlp_getOpaque h.inv hg none (h.inv.room hroom) _ _ hout with
    ⟨rfl, rfl⟩ | ⟨o, rfl, ho, hmem, hinv, hsteady, htable, hslot⟩
  · exact h.stepTo trivial (by simp [hidle, afterGet]) (by simp [hidle, afterGet])
  have ht : Touches g 0 w.mem m' := .of_outcome Touches.within_getOpaque hout
  rw [← ht.group_eq] at hinv
  refine h.walkTo (hinv.of_iff (fun _ _ => Iff.rfl) (fun x => ?_) fun o' => ?_) (fun k => ?_) trivial
    fun x hx => absurd hx id
  · simp [hidle, afterGet]
  · rw [update_add_one]
    simp only [World.refs, hidle, afterGet, Revocation.refs]
    omega
  · exact (h.each k).keep (fun g' _ hg' => ht.group_eq ▸ hg') (fun g' _ => by rw [htable])
      (fun _ _ _ hx => hx) (fun _ _ hx => hx) fun x _ => by rw [hslot]

/-- `cap_free_all` holds a reference to its object. -/
theorem live_of_revoking (ho : 0 < w.revoker.refs o) : Live w.mem o :=
  h.inv.live_of_refs (by simp only [World.refs]; omega)

theorem lockList (hat : w.revoker = .again o) :
    Together base xs (w.walk w.mem (.loop o (w.mem.links.next (.head o))
      (w.mem.links.next (w.mem.links.next (.head o))))) := by
  have ho : Live w.mem o := h.live_of_revoking (by simp [hat, Revocation.refs])
  have hhead := h.inv.next_head ho
  refine h.stepTo ⟨hhead, ?_⟩ (by simp [hat]) (by simp [hat, Revocation.refs])
  rw [hhead]
  exact h.inv.next_first ho

theorem leave (hat : w.revoker = .loop o (.head o) tmp) :
    Together base xs (w.walk w.mem (.ending o)) :=
  h.stepTo trivial (by simp [hat]) (by simp [hat, Revocation.refs])

/-- The slots are met in the order of the list. -/
theorem enter (hat : w.revoker = .loop o (.copy s) tmp) : Together base xs (w.walk w.mem
      (.inner o s (w.mem.slot s).capGroup (w.mem.slot s).slotId tmp)) := by
  obtain ⟨helem, htmp⟩ := h.walkingAt hat
  refine h.stepTo ⟨?_, rfl, rfl⟩ (by simp [hat]) (by simp [hat, Revocation.refs])
  cases hxs : xs o with
  | nil => simp [hxs, first] at helem
  | cons s' rs =>
    obtain rfl : s = s' := by simpa [hxs, first] using helem
    exact ⟨rs, rfl, by rw [htmp, hxs, List.tail_cons]⟩

section

variable (hat : w.revoker = .inner o s g i tmp)
include hat

theorem busy : Together base xs (w.walk w.mem (.again o)) :=
  h.stepTo trivial (by simp [hat]) (by simp [hat, Revocation.refs])

/-- The slot is where it says: a `cap_copy` that has not installed it yet has its
table locked. -/
theorem placed (hlock : w.Unlocked g) (hund : Undisturbed w) : ¬ w.loose s := by
  obtain ⟨-, hgrp, -⟩ := h.walkingAt hat
  rintro (hr | ⟨k, hk⟩)
  · rw [hat] at hr
    exact hr
  · have hknown := h.each k
    cases hp : w.other k with
    | unlinking s' =>
      rw [hp] at hk
      exact hund o s g i tmp hat hlock k (by rw [hp, hk])
    | installing src dest i' d =>
      rw [hp] at hk hknown
      obtain rfl : s = d := hk
      obtain ⟨-, hready, -⟩ := hknown
      have hdest : g = dest := hgrp.symm.trans hready.capGroup
      refine hlock k ?_
      rw [hp]
      exact .inr hdest
    | _ =>
      rw [hp] at hk
      exact absurd hk id

/-- `cap_free_all` takes a slot out of its table, and it is the one it has met. -/
theorem inner (hlock : w.Unlocked g) (hund : Undisturbed w) {a : Option ℕ}
    (hout : (capFreeTable g i).outcome w.mem = .ok a m') :
    Together base xs (w.walk m' (afterInner o tmp a)) := by
  have hl := h.placed hat hlock hund
  obtain ⟨⟨rs, hrs, htmp⟩, rfl, rfl⟩ := h.walkingAt hat
  have hmem : s ∈ xs o := by simp [hrs]
  obtain ⟨hg, hget⟩ := h.inv.caps.placed o s hmem hl
  have hs := (h.inv.caps.slot o s hmem).1
  rcases wlp_capFreeTable h.inv.caps hg _ _ hout with ⟨h0, -, -⟩ | ⟨-, rfl, rfl⟩
  · exact absurd (hget.symm.trans h0) hs
  rw [hget]
  have hinv := h.inv.takeOut hg hlock.not_reserved hget hs
  refine h.walkTo (hinv.of_iff (fun _ _ => Iff.rfl) (fun x => ?_) fun o' => ?_)
    (h.each_setTable hlock _) ⟨rs, hrs, htmp⟩ fun x hx => ?_
  · simp [hat, afterInner]
  · simp [World.refs, hat, afterInner, Revocation.refs]
  · obtain rfl : x = s := hx
    exact h.not_owned hmem hl

end

theorem innerUnlink (hat : w.revoker = .unlinking o s tmp)
    (hout : (capFreeUnlink s).outcome w.mem = .ok u m') :
    ∃ xs', Together base xs' (w.walk m' (.putting o (w.mem.slot s).object tmp)) := by
  obtain ⟨rs, hrs, htmp⟩ := h.walkingAt hat
  have hxs : xs o = [] ++ s :: rs := hrs
  have hobj := h.inv.caps.object_eq (show s ∈ xs o by simp [hrs])
  rw [hobj]
  have hsplit : Inv (Group w.mem) w.reserved (fun x => x = s ∨ ∃ j, (w.other j).loose x)
      (w.refs base) xs w.mem :=
    h.inv.of_iff (fun _ _ => Iff.rfl) (fun x => by simp [hat]) fun _ => rfl
  obtain ⟨hinv, htable, hobject, hslot⟩ := wlp_of_wp (wp_capFreeUnlink hsplit hxs) _ _ hout
  have hgroup : Group m' = Group w.mem := group_iff_of_kept fun o => by simp [hobject]
  have hloose : w.revoker.loose s := by simp [hat]
  rw [← hgroup] at hinv
  refine ⟨_, h.walkTo (hinv.of_iff (fun _ _ => Iff.rfl) (fun x => ?_) fun o' => ?_) (fun k => ?_)
    ⟨rfl, ?_⟩ fun x hx => absurd hx id⟩
  · simp
  · rw [update_add_one]
    simp only [World.refs, hat, Revocation.refs]
    omega
  · exact h.each_unlink (.inl hloose) hxs (h.own k s hloose) hgroup htable hslot
  · rw [htmp, update_self, List.nil_append]

/-- A reference of `cap_free_all` is dropped. -/
theorem revokerPut (hout : (objPut o').outcome w.mem = .ok u m') (hgone : Abandoned w (w.walk m' r))
    (hrefs : ∀ x, w.revoker.refs x = r.refs x + if x = o' then 1 else 0)
    (hloose : ∀ x, w.revoker.loose x ↔ r.loose x)
    (hwalk : ∀ {J loose refs}, Inv (Group m') J loose refs xs m' →
      (∀ x, r.refs x ≤ refs x) → Walking xs m' r) : Together base xs (w.walk m' r) := by
  have hpos : 0 < w.refs base o' := by
    simp only [World.refs, hrefs o', if_true]
    omega
  obtain ⟨hinv, hsteady, htable, hslot⟩ := wlp_of_wp (wp_objPut h.inv hpos) _ _ hout
  have hinv' := hinv.regroup hsteady.live hsteady.type fun g hg hn => (hgone g hg hn).1
  have hleft : ∀ x, update (w.refs base) o' (w.refs base o' - 1) x =
      base x + r.refs x + ∑ j, (w.other j).refs x := by
    intro x
    by_cases heq : x = o'
    · subst heq
      simp only [World.refs, hrefs x, update_self, if_true]
      omega
    · simp [World.refs, hrefs x, heq]
  refine h.walkTo (hinv'.of_iff (fun _ _ => Iff.rfl) (fun x => ?_) hleft) (fun k => ?_)
    (hwalk hinv' fun x => ?_) fun x hx j => h.own j x ((hloose x).mpr hx)
  · rw [World.loose, hloose x]
  · refine (h.each k).keep (fun g hholds hg => ?_) (fun g _ => by rw [htable]) (fun _ _ _ hx => hx)
      (fun _ _ hx => hx) fun x _ => by rw [hslot]
    by_contra hn
    exact (hgone g hg hn).2 k hholds
  · rw [hleft x]
    omega

theorem innerPut (hat : w.revoker = .putting o o' tmp) (hout : (objPut o').outcome w.mem = .ok u m')
    (hgone : Abandoned w (w.walk m' (.loop o tmp (m'.links.next tmp)))) :
    Together base xs (w.walk m' (.loop o tmp (m'.links.next tmp))) := by
  obtain ⟨rfl, htmp⟩ := h.walkingAt hat
  refine h.revokerPut hout hgone (by simp [hat, Revocation.refs]) (by simp [hat])
    fun hinv hle => ⟨htmp, ?_⟩
  have hle' := hle o'
  simp only [Revocation.refs, if_true] at hle'
  rw [htmp]
  exact hinv.next_first (hinv.live_of_refs (by omega))

theorem ending (hat : w.revoker = .ending o)
    (hout : (objPut o).outcome w.mem = .ok u m') (hgone : Abandoned w (w.walk m' .idle)) :
    Together base xs (w.walk m' .idle) :=
  h.revokerPut hout hgone (by simp [hat, Revocation.refs]) (by simp [hat]) fun _ _ => trivial

end

end Together

/-! ## Runs -/

section runs

theorem CarefulMove.together (hmove : CarefulMove w w') (h : Together base xs w) :
    ∃ xs', Together base xs' w' := by
  obtain ⟨a, hcareful, hroom, hgone, hmove⟩ := hmove
  cases hmove with
  | capFree hidle hg hlock hout =>
    rcases wlp_capFreeTable h.inv.caps hg _ _ hout with ⟨-, rfl, rfl⟩ | ⟨hs, rfl, rfl⟩
    · exact ⟨xs, h.finish (h.split_idle hidle) (fun k _ => h.each k) h.walk⟩
    · exact ⟨xs, h.capFree hidle hg hlock hs⟩
  | unlink hat hlock hout => exact h.unlink hat hlock hout
  | put hat hout => exact ⟨xs, h.put hat hout hgone⟩
  | capAlloc hidle hg ho hs hlock hout => exact h.capAlloc hidle hg ho hs hlock hout
  | capCopy hidle hsrc hdest hs hread hlock hout =>
    exact ⟨xs, h.capCopy hidle hsrc hdest hs hread hlock hcareful hroom hout⟩
  | link hat hlock hout => exact h.link hat hlock hout
  | install hat hout => exact ⟨xs, h.install hat hout⟩
  | capFreeAll hidle hg hread hout => exact ⟨xs, h.capFreeAll hidle hg hroom hout⟩
  | lockList hat => exact ⟨xs, h.lockList hat⟩
  | leave hat => exact ⟨xs, h.leave hat⟩
  | enter hat => exact ⟨xs, h.enter hat⟩
  | busy hat hlock => exact ⟨xs, h.busy hat⟩
  | inner hat hlock hout => exact ⟨xs, h.inner hat hlock hcareful hout⟩
  | innerUnlink hat hout => exact h.innerUnlink hat hout
  | innerPut hat hout => exact ⟨xs, h.innerPut hat hout hgone⟩
  | ending hat hout => exact ⟨xs, h.ending hat hout hgone⟩

theorem together_start (h : Settled base xs m) : Together base xs (World.start m : World n) where
  inv := by
    refine Inv.of_iff h ?_ ?_ ?_ <;> simp [World.start, World.reserved, World.refs, refs, Revocation.refs]
  each _ := trivial
  walk := trivial
  owner _ _ _ hx := by simp [World.start] at hx
  guard _ _ _ hg := by simp [World.start, writes] at hg
  own _ _ hx := absurd hx id

theorem Together.revoking (h : Together base xs w) : Revoking w where
  noBug heq := h.walkingAt heq
  own o s tmp heq := by
    obtain ⟨rs, hrs, -⟩ := h.walkingAt heq
    exact h.inv.caps.object_eq (show s ∈ xs o by simp [hrs])
  all o tmp heq := by
    obtain ⟨helem, -⟩ := h.walkingAt heq
    -- the walk is at the end only if nothing is left of the list
    have hnil : xs o = [] := by
      cases hxs : xs o with
      | nil => rfl
      | cons s rs => simp [hxs, first] at helem
    refine Set.eq_empty_of_forall_notMem fun ⟨g, i⟩ hp => ?_
    obtain ⟨hg, hs, hobj⟩ := hp
    have hmem := (h.inv.caps.listed g i hg hs).1
    rw [hobj, hnil] at hmem
    simp at hmem

/-- In every interleaving in which `cap_free_all` never gets to free a slot that a
`cap_free` has between its two locks, `cap_free_all` revokes the capabilities of its
object: its check does not fail, it takes no capability of another object, and at the
end none is left. -/
theorem revocation_in_careful_runs {m₀ : CapMem} (h₀ : ∀ o, ¬ Live m₀ o) {s : State}
    (hbefore : ReflTransGen SafeStep ⟨m₀, fun _ => 0⟩ s)
    (hrun : ReflTransGen CarefulMove (World.start s.mem) w) : Revoking w := by
  obtain ⟨xs, h⟩ := exists_settled h₀ hbefore
  have htogether : ∃ xs', Together s.refs xs' w := by
    induction hrun with
    | refl => exact ⟨xs, together_start h⟩
    | tail _ hmove ih =>
      obtain ⟨xs', hxs'⟩ := ih
      exact hmove.together hxs'
  obtain ⟨xs', h'⟩ := htogether
  exact h'.revoking

end runs

/-! ## A `cap_free` in the way -/

/-- The memory of the root cap group after `get_opaque` of its first capability. -/
def rootGot : CapMem := after (getOpaque 1 0 none) (after (capAlloc 1 1 0 [] 10) rootMem)

theorem rooted_object : (after (capAlloc 1 1 0 [] 10) rootMem).object =
    update bootMem.object 1 ⟨.capGroup, 1, true, true⟩ := by
  show update (update bootMem.object 1 ⟨.capGroup, 0, false, true⟩) 1 ⟨.capGroup, 1, true, true⟩ = _
  rw [update_idem]

theorem rootGot_object : rootGot.object = update bootMem.object 1 ⟨.capGroup, 2, true, true⟩ := by
  show update (update (update bootMem.object 1
    ⟨.capGroup, 0, false, true⟩) 1 ⟨.capGroup, 1, true, true⟩) 1 ⟨.capGroup, 2, true, true⟩ = _
  rw [update_idem, update_idem]

theorem room_of_update (h : m.object = update bootMem.object 1 v) (hv : v.refcount + 1 < 2 ^ 64) :
    Room m := by
  intro o _
  rw [h]
  by_cases ho : o = 1
  · subst ho
    simpa using hv
  · rw [update_of_ne ho]
    show 0 + 1 < 2 ^ 64
    decide

/-- A step that leaves the groups alone abandons none. -/
theorem Moves.careful (h : Moves a w w') (ha : a.Careful w)
    (hroom : Room w.mem) (hgroup : Group w'.mem = Group w.mem) : CarefulMove w w' :=
  ⟨a, ha, hroom, fun _ hg hn => absurd (hgroup ▸ hg) hn, h⟩

/-- `cap_free_all` on its way to the only slot of the list, while the others are idle. -/
theorem moves_to_first (hg : Group m 1) (hget : (getOpaque 1 0 none).outcome m = .ok (some o) m')
    (hfirst : m'.links.next (.head o) = .copy s) (hsecond : m'.links.next (.copy s) = .head o)
    (hgroup : (m'.slot s).capGroup = 1) (hslot : (m'.slot s).slotId = 0) :
    Moves (.capFreeAll 1 0) (World.start m : World n) ⟨m', fun _ => .idle, .again o⟩ ∧
      Moves .walkOn (⟨m', fun _ => .idle, .again o⟩ : World n)
        ⟨m', fun _ => .idle, .loop o (.copy s) (.head o)⟩ ∧
      Moves .walkOn (⟨m', fun _ => .idle, .loop o (.copy s) (.head o)⟩ : World n)
        ⟨m', fun _ => .idle, .inner o s 1 0 (.head o)⟩ := by
  have hlock := Moves.lockList (w := (⟨m', fun _ => .idle, .again o⟩ : World n)) rfl
  have henter := Moves.enter
    (w := (⟨m', fun _ => .idle, .loop o (.copy s) (.head o)⟩ : World n)) rfl
  rw [hfirst, hsecond] at hlock
  rw [hgroup, hslot] at henter
  exact ⟨.capFreeAll (w := World.start m) rfl hg (fun _ h => h) hget, hlock, henter⟩

/-- `cap_free_all` on the root cap group takes its only capability out of the table. -/
theorem revocation_root_group :
    Revoking (⟨after (capFreeTable 1 0) rootGot, fun _ => .idle, .unlinking 1 10 (.head 1)⟩ :
      World 1) := by
  have h1 : (getOpaque 1 0 none).outcome (after (capAlloc 1 1 0 [] 10) rootMem) =
      .ok (some 1) rootGot := outcome_eq_after (by decide +kernel)
  have h4 := outcome_eq_after (c := capFreeTable 1 0) (m := rootGot) (r := some 10)
    (by decide +kernel)
  obtain ⟨hget, hlist, henter⟩ := moves_to_first (n := 1) (s := 10) (by decide +kernel) h1
    (by decide +kernel) (by decide +kernel) (by decide +kernel) (by decide +kernel)
  have hroom0 : Room (after (capAlloc 1 1 0 [] 10) rootMem) :=
    room_of_update rooted_object (by decide)
  have hroom : Room rootGot := room_of_update rootGot_object (by decide)
  have htouch : Touches 0 0 (after (capAlloc 1 1 0 [] 10) rootMem) rootGot :=
    Touches.of_outcome Touches.within_getOpaque h1
  have hmove1 := hget.careful trivial hroom0 htouch.group_eq
  have hmove2 := hlist.careful (fun _ _ _ _ _ h => by simp at h) hroom rfl
  have hmove3 := henter.careful (fun _ _ _ _ _ h => by simp at h) hroom rfl
  have hmove4 : CarefulMove (⟨rootGot, fun _ => .idle, .inner 1 10 1 0 (.head 1)⟩ : World 1)
      ⟨after (capFreeTable 1 0) rootGot, fun _ => .idle, .unlinking 1 10 (.head 1)⟩ :=
    (Moves.inner (w := ⟨rootGot, fun _ => .idle, .inner 1 10 1 0 (.head 1)⟩) rfl (fun _ h => h)
      h4).careful (fun _ _ _ _ _ _ _ _ => by simp) hroom rfl
  exact revocation_in_careful_runs bootMem_dead safe_run_root
    ((((ReflTransGen.single hmove1).tail hmove2).tail hmove3).tail hmove4)

/-- The memory after `get_opaque` of the capability, and after `cap_free` has taken it
out of the table. -/
def sharedGot : CapMem := after (getOpaque 1 0 none) shared

def sharedTaken : CapMem := after (capFreeTable 1 0) sharedGot

/-- The first of two threads is in `cap_free`, between its locks. -/
def disturbed : Fin 2 → Phase := update (fun _ => .idle) 0 (.unlinking 10)

/-- `cap_free_all` has read a slot id, and another thread has freed it. -/
theorem run_disturbed : ReflTransGen AnyMove (World.start shared : World 2)
    ⟨sharedTaken, disturbed, .inner 2 10 1 0 (.head 2)⟩ := by
  have h1 : (getOpaque 1 0 none).outcome shared = .ok (some 2) sharedGot :=
    outcome_eq_after (by decide +kernel)
  have h4 := outcome_eq_after (c := capFreeTable 1 0) (m := sharedGot) (r := some 10)
    (by decide +kernel)
  obtain ⟨hget, hlist, henter⟩ := moves_to_first (n := 2) (s := 10) (by decide +kernel) h1
    (by decide +kernel) (by decide +kernel) (by decide +kernel) (by decide +kernel)
  have hmove4 : AnyMove (⟨sharedGot, fun _ => .idle, .inner 2 10 1 0 (.head 2)⟩ : World 2)
      ⟨sharedTaken, disturbed, .inner 2 10 1 0 (.head 2)⟩ :=
    ⟨.capFree 0 1 0, Moves.capFree (w := ⟨sharedGot, fun _ => .idle, .inner 2 10 1 0 (.head 2)⟩)
      rfl (by decide +kernel) (fun _ h => h) h4⟩
  exact (((ReflTransGen.single ⟨_, hget⟩).tail ⟨_, hlist⟩).tail ⟨_, henter⟩).tail hmove4

/-- A `cap_free` between its two locks makes the check of `cap_free_all` fail; and if the
slot id has been given to another object by then, its capability is taken away. -/
theorem revocation_disturbed_by_free :
    ∃ (m₀ : CapMem) (s : State), (∀ o, ¬ Live m₀ o) ∧
      ReflTransGen AnyStep ⟨m₀, fun _ => 0⟩ s ∧
      (∃ w : World 2, ReflTransGen AnyMove (World.start s.mem) w ∧ w.revoker = .bug) ∧
      ∃ w : World 2, ReflTransGen AnyMove (World.start s.mem) w ∧
        ∃ slot tmp, w.revoker = .unlinking 2 slot tmp ∧ (w.mem.slot slot).object = 3 := by
  have hunlocked : ∀ m r, (⟨m, disturbed, r⟩ : World 2).Unlocked 1 := by
    intro m r k hk
    by_cases h0 : k = 0
    · subst h0
      exact hk
    · simp only [disturbed, update_of_ne h0] at hk
      exact hk
  refine ⟨bootMem, ⟨shared, fun _ => 0⟩, bootMem_dead, run_shared, ?_, ?_⟩
  · have h5 := outcome_eq_after (c := capFreeTable 1 0) (m := sharedTaken) (r := none)
      (by decide +kernel)
    exact ⟨_, run_disturbed.tail ⟨.walkOn, .inner rfl (hunlocked _ _) h5⟩, rfl⟩
  · have h5 := outcome_eq_after (c := capAlloc 1 3 0 [] 11) (m := sharedTaken) (r := 0)
      (by decide +kernel)
    have h6 := outcome_eq_after (c := capFreeTable 1 0)
      (m := after (capAlloc 1 3 0 [] 11) sharedTaken) (r := some 11) (by decide +kernel)
    have hmove5 : AnyMove (⟨sharedTaken, disturbed, .inner 2 10 1 0 (.head 2)⟩ : World 2)
        ⟨after (capAlloc 1 3 0 [] 11) sharedTaken, disturbed, .inner 2 10 1 0 (.head 2)⟩ := by
      have hstep := Moves.capAlloc (j := 1)
        (w := (⟨sharedTaken, disturbed, .inner 2 10 1 0 (.head 2)⟩ : World 2)) rfl
        (by decide +kernel) (by decide +kernel) (by decide +kernel) (hunlocked _ _) h5
      have hself : update disturbed 1 .idle = disturbed := update_eq_self 1 disturbed
      simp only [World.move, hself] at hstep
      exact ⟨_, hstep⟩
    exact ⟨_, (run_disturbed.tail hmove5).tail ⟨.walkOn, .inner rfl (hunlocked _ _) h6⟩, 11,
      .head 2, rfl, by decide +kernel⟩

end Starfish.Object
