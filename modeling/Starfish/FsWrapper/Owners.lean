import Mathlib.Logic.Relation
import Starfish.FsWrapper.Spec

/-!
# Starfish.FsWrapper.Owners

Whose open file a request acts on.

`Owned` watches the requests: it says for each client and each descriptor whether the client
opened (or duplicated, or inherited) it, and which `open` it goes back to.  The server itself never
takes a closed descriptor out of the client's table, so the entry that a closed descriptor names
may be another client's by now.

* `fd_acts_on_own_entry`: as long as no request goes through a closed descriptor whose slot is
  taken again, and only clients without closed descriptors fork, every request acts on an entry
  that its client opened.
* `read_through_closed_fd`: a client that reads through a closed descriptor reads the file of
  another client.
-/

namespace Starfish.FsWrapper

open Function
open Relation Option

attribute [local simp] fdToFid mapFd fidOf

/-! ## The watched server -/

/-- What became of a descriptor: `opened n` goes back to the `n`-th `open`. -/
inductive FdState where
  | unused
  | opened (n : ℕ)
  | closed
deriving DecidableEq, Repr

/-- The descriptors of the clients, and the `open` that made the entry in each slot. -/
structure Owned where
  fds : Badge → ℤ → FdState
  made : ℤ → ℕ
  opens : ℕ

def Owned.start : Owned := ⟨fun _ _ => .unused, fun _ => 0, 0⟩

def Owned.setFd (g : Owned) (badge : Badge) (fd : ℤ) (x : FdState) : Owned :=
  { g with fds := fun b i => if b = badge ∧ i = fd then x else g.fds b i }

/-- One more `open`: its entry is in `slot`, and the client's descriptor is `fd`. -/
def Owned.addOpen (g : Owned) (badge : Badge) (fd slot : ℤ) : Owned where
  fds := (g.setFd badge fd (.opened g.opens)).fds
  made := update g.made slot g.opens
  opens := g.opens + 1

/-- The entry that a descriptor leads to. -/
def Server.actsOn (s : Server) (badge : Badge) (fd : ℤ) : Option ℤ :=
  (fsWrapperGetServerEntry s badge fd).filter fun fid => (s.entryAt fid).isSome

/-- A child inherits the descriptors that are in its parent's table. -/
def Owned.inherited (g : Owned) (s : Server) (child parent : Badge) : Owned :=
  match fdToFid s.mapping parent with
  | none => g
  | some table =>
    { g with fds := fun b i =>
        if b = child then if table i = -1 then .unused else g.fds parent i else g.fds b i }

/-- The descriptors after a request that is served in `s`. -/
def Owned.after (g : Owned) (s : Server) (badge : Badge) (env : Env) : Request → Owned
  | .openFile newFd flags =>
    match openSlot s flags env with
    | none => g
    | some fid => g.addOpen badge newFd fid
  | .close fd => if (s.actsOn badge fd).isSome then g.setFd badge fd .closed else g
  | .fcntl fd (.dupfd arg) =>
    if (s.actsOn badge fd).isSome then g.setFd badge arg (g.fds badge fd) else g
  | .fork child => g.inherited s child badge
  | _ => g

/-- A request that the tables can serve:
* if it goes through a descriptor that its client closed, the slot is free;
* a client that forks has no closed descriptor in its table, the child is new, and what the memory
  of the child's node held before does not name a slot. -/
def Careful (g : Owned) (s : Server) (badge : Badge) (req : Request) (env : Env) : Prop :=
  match req with
  | .fork child =>
    fdToFid s.mapping child = none ∧
      ∀ table, fdToFid s.mapping badge = some table → ∀ i : ℤ, 0 ≤ i → i < maxServerEntry →
        (table i ≠ -1 → g.fds badge i ≠ .closed) ∧
        (table i = -1 → env.junk i < 0 ∨ (maxServerEntry : ℤ) ≤ env.junk i)
  | req => ∀ fd, req.fd = some fd → g.fds badge fd = .closed → s.actsOn badge fd = none

def Step (x x' : Server × Owned) : Prop :=
  ∃ badge req env r, fsServerDispatch x.1 badge req env = some r ∧
    x' = (r.server, x.2.after x.1 badge env req)

def CarefulStep (x x' : Server × Owned) : Prop :=
  ∃ badge req env r, Careful x.2 x.1 badge req env ∧ fsServerDispatch x.1 badge req env = some r ∧
    x' = (r.server, x.2.after x.1 badge env req)

/-! ## The tables -/

section Tables

theorem fidOf_mapFd_self (m badge fd fid malloc) :
    fidOf (mapFd m badge fd fid malloc) badge fd = fid ∨
      fidOf (mapFd m badge fd fid malloc) badge fd = -1 := by
  induction m with
  | nil =>
    cases malloc with
    | true => left; simp
    | false => right; simp
  | cons n rest ih =>
    obtain ⟨b, t⟩ := n
    by_cases hb : b = badge
    · left; simp [hb]
    · simpa [hb] using ih

theorem fidOf_mapFd_of_ne (h : ¬ (b = badge ∧ i = fd)) :
    fidOf (mapFd m badge fd fid malloc) b i = fidOf m b i := by
  induction m with
  | nil =>
    cases malloc with
    | true =>
      by_cases hb : badge = b
      · have hi : i ≠ fd := fun hi => h ⟨hb.symm, hi⟩
        simp [hb, update_of_ne hi]
      · simp [hb]
    | false => rfl
  | cons n rest ih =>
    obtain ⟨b', t⟩ := n
    by_cases hb : b' = badge
    · by_cases hb' : badge = b
      · have hi : i ≠ fd := fun hi => h ⟨hb'.symm, hi⟩
        simp [hb, hb', update_of_ne hi]
      · simp [hb, hb']
    · by_cases hb' : b' = b
      · have hne : b ≠ badge := fun h => hb (hb'.trans h)
        simp [hb', hne]
      · simpa [hb, hb'] using ih

theorem fidOf_mapFd (h : 0 ≤ fidOf (mapFd m badge fd fid malloc) b i) :
    fidOf (mapFd m badge fd fid malloc) b i = if b = badge ∧ i = fd then fid else fidOf m b i := by
  split
  · next hb =>
    obtain ⟨rfl, rfl⟩ := hb
    refine (fidOf_mapFd_self m b i fid malloc).resolve_right fun heq => ?_
    rw [heq] at h
    cases h
  · next hb => exact fidOf_mapFd_of_ne hb

theorem fdToFid_append (m : List Node) (child b : Badge) (t : ℤ → ℤ) :
    fdToFid (m ++ [(child, t)]) b = (fdToFid m b).or (if child = b then some t else none) := by
  induction m with
  | nil => simp
  | cons n rest ih =>
    obtain ⟨b', t'⟩ := n
    by_cases hb : b' = b
    · simp [hb]
    · simpa [hb] using ih

end Tables

/-! ## What the requests do to the tables and the entries -/

/-- The same tables, and the same references to the same slots. -/
structure SameRefs (s s' : Server) : Prop where
  mapping : s'.mapping = s.mapping
  refcnt : ∀ fid, (s'.entrys fid).map Entry.refcnt = (s.entrys fid).map Entry.refcnt

section SameRefs

variable {s s' : Server} {fid : ℤ} {e e' : Entry} {v : Vnode}

theorem SameRefs.refl (s : Server) : SameRefs s s := ⟨rfl, fun _ => rfl⟩

theorem SameRefs.of_eq (hm : s'.mapping = s.mapping) (he : s'.entrys = s.entrys) :
    SameRefs s s' := ⟨hm, fun _ => by rw [he]⟩

theorem SameRefs.setEntry (he : s.entrys fid = some e)
    (hs : s'.entrys = update s.entrys fid (some e')) (hr : e'.refcnt = e.refcnt)
    (hm : s'.mapping = s.mapping) : SameRefs s s' := by
  refine ⟨hm, fun i => ?_⟩
  rw [hs, update_apply]
  grind

theorem SameRefs.setFile (hf : s.fileAt fid = some (e, v))
    (hs : s'.entrys = update s.entrys fid (some e')) (hr : e'.refcnt = e.refcnt)
    (hm : s'.mapping = s.mapping) : SameRefs s s' :=
  .setEntry (entryAt_eq_some (fileAt_eq_some hf).1).2.2.1 hs hr hm

theorem sameRefs_read (s : Server) (fid : ℤ) (count : ℕ) (env : Env) :
    SameRefs s (fsWrapperRead s fid count env).server := by
  unfold fsWrapperRead
  split
  · exact .refl s
  · next hf =>
    split
    · exact .refl s
    · exact .setFile hf rfl rfl rfl

theorem sameRefs_pread (s : Server) (fid : ℤ) (count : ℕ) (offset : ℤ) (env : Env) :
    SameRefs s (fsWrapperPread s fid count offset env).server := by
  unfold fsWrapperPread
  split
  · exact .refl s
  · next hf =>
    split
    · exact .refl s
    · exact .setFile hf rfl rfl rfl

theorem sameRefs_writeAt (s : Server) (fid : ℤ) (buf : List UInt8) (offset : Entry → ℤ)
    (env : Env) : SameRefs s (writeAt s fid buf offset env).server := by
  unfold writeAt
  split
  · exact .refl s
  · next hf =>
    split
    · exact .refl s
    · dsimp only
      split <;> exact .setFile hf rfl rfl rfl

theorem sameRefs_lseek (s : Server) (fid offset : ℤ) (whence : Whence) :
    SameRefs s (fsWrapperLseek s fid offset whence).server := by
  unfold fsWrapperLseek
  split
  · exact .refl s
  · next hf =>
    dsimp only
    split
    · exact .refl s
    · exact .setFile hf rfl rfl rfl

theorem sameRefs_ftruncate (s : Server) (fid len : ℤ) (env : Env) :
    SameRefs s (fsWrapperFtruncate s fid len env).server := by
  unfold fsWrapperFtruncate
  split
  · exact .refl s
  · split
    · exact .refl s
    · split
      · exact .refl s
      · dsimp only
        split <;> exact .of_eq rfl rfl

/-- An `open` either leaves the tables and the entries as they are, or puts a new entry into a
free slot and this slot into the client's table. -/
theorem open_slots {newFd : ℤ} {env : Env} (h : fsWrapperOpen s badge newFd flags env = some r) :
    openSlot s flags env = none ∧ SameRefs s r.server ∨
      ∃ (slot : ℕ) (e : Entry), openSlot s flags env = some slot ∧ e.refcnt = 1 ∧
        slot < maxServerEntry ∧ s.entrys slot = none ∧ 0 ≤ newFd ∧ newFd < maxServerEntry ∧
        r.server.entrys = update s.entrys slot (some e) ∧
        r.server.mapping = mapFd s.mapping badge newFd slot env.mallocNode := by
  rcases open_cases h with ⟨hslot, hs⟩ | ⟨f, slot, hslot, _, hlo, hhi, hs⟩
  · refine .inl ⟨hslot, ?_⟩
    rcases hs with hs | ⟨f, _, hs | hs⟩
    · rw [hs]
      exact .refl s
    · rw [hs]
      exact .of_eq rfl rfl
    · rw [hs]
      exact .of_eq (openTrunc_frame _ _ _ _).1 (openTrunc_frame _ _ _ _).2
  · obtain ⟨hlt, hfree⟩ := allocEntry_eq_some (openSlot_eq_some hslot)
    refine .inr ⟨slot, newEntry flags f, hslot, rfl, hlt, hfree, hlo, hhi, ?_, ?_⟩
    · rw [hs]
      exact entrys_openedServer s flags f slot env
    · rw [hs]

end SameRefs

/-! ## The invariant -/

/-- What holds between the tables, the entries and the descriptors in a careful run. -/
structure Own (s : Server) (g : Owned) : Prop where
  /-- A descriptor whose table names a slot is closed, or the entry there is its own. -/
  named : ∀ b (fd : ℤ), 0 ≤ fd → fd < maxServerEntry → 0 ≤ fidOf s.mapping b fd →
    fidOf s.mapping b fd < maxServerEntry →
    g.fds b fd = .closed ∨ (s.entrys (fidOf s.mapping b fd)).isSome ∧
      g.fds b fd = .opened (g.made (fidOf s.mapping b fd))
  /-- There are at least as many references to an entry as descriptors for it. -/
  counted : ∀ fid e, s.entrys fid = some e → ∃ l : List (Badge × ℤ), (l.length : ℤ) ≤ e.refcnt ∧
    ∀ b fd, g.fds b fd = .opened (g.made fid) → (b, fd) ∈ l
  inside : ∀ fid e, s.entrys fid = some e → 0 ≤ fid ∧ fid < maxServerEntry ∧ g.made fid < g.opens
  apart : ∀ fid fid', (s.entrys fid).isSome → (s.entrys fid').isSome → g.made fid = g.made fid' →
    fid = fid'
  known : ∀ b fd n, g.fds b fd = .opened n → 0 ≤ fd ∧ fd < maxServerEntry ∧ n < g.opens

variable {s s' : Server} {g : Owned} {badge : Badge} {fd fid : ℤ} {env : Env} {r : Reply}

theorem Own.start (files : ℕ → List UInt8) : Own (Server.start files) Owned.start where
  named b fd _ _ h _ := by cases h
  counted fid e h := by cases h
  inside fid e h := by cases h
  apart fid fid' h := by cases h
  known b fd n h := by cases h

theorem actsOn_eq_some (h : s.actsOn badge fd = some fid) :
    0 ≤ fd ∧ fd < maxServerEntry ∧ fid = fidOf s.mapping badge fd ∧
      ∃ e v, s.entryAt fid = some (e, v) := by
  unfold Server.actsOn at h
  obtain ⟨hget, hlive⟩ := filter_eq_some_iff.mp h
  obtain ⟨⟨e, v⟩, hev⟩ := isSome_iff_exists.mp hlive
  unfold fsWrapperGetServerEntry at hget
  split at hget
  · -- `AT_FDROOT` is not a slot
    cases hget
    have := (entryAt_eq_some hev).1
    unfold AT_FDROOT at this
    omega
  · split at hget
    · cases hget
    · exact ⟨by omega, by omega, (some.inj hget).symm, e, v, hev⟩

/-- The descriptor that a request goes through is its client's. -/
theorem Own.owner (hown : Own s g) (hacts : s.actsOn badge fd = some fid)
    (hcare : g.fds badge fd = .closed → s.actsOn badge fd = none) :
    g.fds badge fd = .opened (g.made fid) := by
  obtain ⟨hlo, hhi, hfid, e, v, hev⟩ := actsOn_eq_some hacts
  obtain ⟨hf0, hf1, _, _⟩ := entryAt_eq_some hev
  rw [hfid] at hf0 hf1
  rcases hown.named badge fd hlo hhi hf0 hf1 with hc | ⟨_, ho⟩
  · rw [hcare hc] at hacts
    cases hacts
  · rw [ho, hfid]

theorem isSome_of_refcnt (hr : ∀ fid, (s'.entrys fid).map Entry.refcnt =
    (s.entrys fid).map Entry.refcnt) (fid : ℤ) :
    (s'.entrys fid).isSome = (s.entrys fid).isSome := by
  have := congrArg isSome (hr fid)
  rwa [isSome_map, isSome_map] at this

/-- A request that leaves the tables and the references alone keeps the invariant. -/
theorem Own.same (hown : Own s g) (h : SameRefs s s') : Own s' g where
  named b fd := by
    rw [h.mapping, isSome_of_refcnt h.refcnt]
    exact hown.named b fd
  counted fid e' he' := by
    have hr := h.refcnt fid
    rw [he'] at hr
    obtain ⟨e, he, hee⟩ := map_eq_some_iff.mp hr.symm
    obtain ⟨l, hl, hmem⟩ := hown.counted fid e he
    exact ⟨l, hee ▸ hl, hmem⟩
  inside fid e' he' := by
    have hr := h.refcnt fid
    rw [he'] at hr
    obtain ⟨e, he, _⟩ := map_eq_some_iff.mp hr.symm
    exact hown.inside fid e he
  apart fid fid' hf hf' := by
    rw [isSome_of_refcnt h.refcnt] at hf hf'
    exact hown.apart fid fid' hf hf'
  known := hown.known

@[grind =]
theorem Owned.setFd_fds (x : FdState) (b : Badge) (i : ℤ) :
    (g.setFd badge fd x).fds b i = if b = badge ∧ i = fd then x else g.fds b i := rfl

@[grind =]
theorem Owned.setFd_made (x : FdState) (i : ℤ) : (g.setFd badge fd x).made i = g.made i := rfl

@[grind =]
theorem Owned.addOpen_fds (slot : ℤ) (b : Badge) (i : ℤ) : (g.addOpen badge fd slot).fds b i =
    if b = badge ∧ i = fd then .opened g.opens else g.fds b i := rfl

@[grind =]
theorem Owned.addOpen_made (slot i : ℤ) :
    (g.addOpen badge fd slot).made i = if i = slot then g.opens else g.made i := update_apply ..

/-- A new entry, of a client that has the slot in its table now (or has no table). -/
theorem Own.opened {slot : ℕ} {newFd : ℤ} (hown : Own s g)
    (href : e.refcnt = 1) (hslot : slot < maxServerEntry) (hfree : s.entrys slot = none)
    (hlo : 0 ≤ newFd) (hhi : newFd < maxServerEntry)
    (hentrys : s'.entrys = update s.entrys slot (some e))
    (hmapping : s'.mapping = mapFd s.mapping badge newFd slot malloc) :
    Own s' (g.addOpen badge newFd slot) := by
  obtain ⟨hnamed, hcounted, hinside, hapart, hknown⟩ := hown
  have hes (i : ℤ) : s'.entrys i = if i = slot then some e else s.entrys i := by
    rw [hentrys, update_apply]
  have hopens : (g.addOpen badge newFd slot).opens = g.opens + 1 := rfl
  have hmade (i : ℤ) (hi : (s.entrys i).isSome) : g.made i < g.opens := by
    obtain ⟨e', he'⟩ := isSome_iff_exists.mp hi
    exact (hinside i e' he').2.2
  constructor
  · grind [fidOf_mapFd]
  · -- counted
    intro fid e' he'
    by_cases hfid : fid = slot
    · exact ⟨[(badge, newFd)], by grind, fun b i hbi => by grind⟩
    · grind
  · grind
  · grind
  · grind

open Owned

/-- The reference that a client gives up: the descriptor is closed, and the entry is gone only if
it was the last one. -/
theorem Own.closed {e : Entry} (hown : Own s g) (he : s.entrys fid = some e)
    (hfd : g.fds badge fd = .opened (g.made fid)) (hmapping : s'.mapping = s.mapping)
    (hentrys : s'.entrys = update s.entrys fid x)
    (hx : x = none ∧ e.refcnt = 1 ∨ ∃ e', x = some e' ∧ e'.refcnt = e.refcnt - 1) :
    Own s' (g.setFd badge fd .closed) := by
  obtain ⟨hnamed, hcounted, hinside, hapart, hknown⟩ := hown
  have hes (i : ℤ) : s'.entrys i = if i = fid then x else s.entrys i := by
    rw [hentrys, update_apply]
  obtain ⟨l, hl, hmem⟩ := hcounted fid e he
  have hin := hmem badge fd hfd
  have hlen := List.length_erase_of_mem hin
  have herase {b : Badge} {i : ℤ} (hb : ¬ (b = badge ∧ i = fd))
      (ho : g.fds b i = .opened (g.made fid)) : (b, i) ∈ l.erase (badge, fd) :=
    (List.mem_erase_of_ne fun h => hb (Prod.mk.inj h)).mpr (hmem b i ho)
  constructor
  · -- named
    intro b i hi0 hi1 h0 h1
    rw [hmapping] at h0 h1 ⊢
    by_cases hb : b = badge ∧ i = fd
    · grind
    · grind
  · -- counted
    intro i e1 he1
    by_cases hif : i = fid
    · grind
    · obtain ⟨l', hl', hmem'⟩ := hcounted i e1 (by grind)
      exact ⟨l', hl', fun b j hbj => hmem' b j (by grind)⟩
  · grind [setFd]
  · grind
  · grind [setFd]

theorem Own.duped {arg : ℤ} (hown : Own s g)
    (he : s.entrys fid = some e) (hfd : g.fds badge fd = .opened (g.made fid))
    (hlo : 0 ≤ arg) (hhi : arg < maxServerEntry)
    (hmapping : s'.mapping = mapFd s.mapping badge arg fid malloc)
    (hentrys : s'.entrys = update s.entrys fid (some e'))
    (href : e'.refcnt = e.refcnt + 1) : Own s' (g.setFd badge arg (g.fds badge fd)) := by
  obtain ⟨hnamed, hcounted, hinside, hapart, hknown⟩ := hown
  have hes (i : ℤ) : s'.entrys i = if i = fid then some e' else s.entrys i := by
    rw [hentrys, update_apply]
  constructor
  · grind [fidOf_mapFd]
  · -- counted
    intro i e1 he1
    by_cases hif : i = fid
    · obtain ⟨l, hl, hmem⟩ := hcounted fid e he
      exact ⟨(badge, arg) :: l, by grind, fun b j hbj => by grind⟩
    · grind
  · grind [setFd]
  · grind
  · grind [setFd]

section Fork

theorem fidOf_append (h : fdToFid s.mapping child = none) (t : ℤ → ℤ) (b : Badge) (i : ℤ) :
    fidOf (s.mapping ++ [(child, t)]) b i = if b = child then t i else fidOf s.mapping b i := by
  unfold fidOf
  rw [fdToFid_append]
  by_cases hb : b = child
  · rw [if_pos hb, hb, h, if_pos rfl]
    rfl
  · rw [if_neg hb, if_neg (Ne.symm hb), or_none]

theorem Owned.fds_inherited (h : fdToFid s.mapping badge = some table) (b : Badge) (i : ℤ) :
    (g.inherited s child badge).fds b i =
      if b = child then if table i = -1 then .unused else g.fds badge i else g.fds b i := by
  unfold inherited
  rw [h]

theorem Owned.made_inherited : (g.inherited s child badge).made = g.made := by
  unfold inherited
  split <;> rfl

theorem Owned.opens_inherited : (g.inherited s child badge).opens = g.opens := by
  unfold inherited
  split <;> rfl

theorem Own.forked (hown : Own s g) (hchild : fdToFid s.mapping child = none)
    (htable : fdToFid s.mapping badge = some table)
    (hinherit : inherit table (List.range maxServerEntry) s.entrys = some es)
    (hcare : ∀ i : ℤ, 0 ≤ i → i < maxServerEntry → (table i ≠ -1 → g.fds badge i ≠ .closed) ∧
      (table i = -1 → junk i < 0 ∨ (maxServerEntry : ℤ) ≤ junk i)) :
    Own { s with entrys := es, mapping := s.mapping ++ [(child, childTable table junk)] }
      (g.inherited s child badge) := by
  obtain ⟨hinlive, hcount⟩ := inherit_eq_some hinherit
  have hlive : ∀ i, (es i).isSome = (s.entrys i).isSome := by
    intro i
    have := congrArg isSome (hcount i)
    rwa [isSome_map] at this
  -- what the parent's table names is the parent's
  have hparent : ∀ i : ℤ, 0 ≤ i → i < maxServerEntry → table i ≠ -1 →
      (s.entrys (table i)).isSome ∧ g.fds badge i = .opened (g.made (table i)) := by
    intro i hi0 hi1 hne
    have hfid : fidOf s.mapping badge i = table i := by unfold fidOf; rw [htable]
    have hmem : i.toNat ∈ List.range maxServerEntry := List.mem_range.mpr (by omega)
    have hcast : ((i.toNat : ℕ) : ℤ) = i := Int.toNat_of_nonneg hi0
    have hsome := hinlive i.toNat hmem (by rwa [hcast])
    rw [hcast] at hsome
    obtain ⟨e, he⟩ := isSome_iff_exists.mp hsome
    obtain ⟨h0, h1, _⟩ := hown.inside _ e he
    rw [← hfid] at h0 h1 ⊢
    exact (hown.named badge i hi0 hi1 h0 h1).resolve_left ((hcare i hi0 hi1).1 hne)
  have hmade : (g.inherited s child badge).made = g.made := made_inherited
  have hopens : (g.inherited s child badge).opens = g.opens := opens_inherited
  have hfds : ∀ b i, (g.inherited s child badge).fds b i = _ := fds_inherited htable
  obtain ⟨hnamed, hcounted, hinside, hapart, hknown⟩ := hown
  constructor
  · -- named
    intro b i hi0 hi1 h0 h1
    dsimp only at h0 h1 ⊢
    rw [fidOf_append hchild, childTable] at h0 h1 ⊢
    rw [hlive, hmade, hfds]
    by_cases hb : b = child
    · simp only [if_pos hb] at h0 h1 ⊢
      by_cases hi : table i = -1
      · rw [if_pos hi] at h0 h1
        have := (hcare i hi0 hi1).2 hi
        omega
      · rw [if_neg hi, if_neg hi]
        exact .inr (hparent i hi0 hi1 hi)
    · simp only [if_neg hb] at h0 h1 ⊢
      exact hnamed b i hi0 hi1 h0 h1
  · -- counted
    intro fid e' he'
    obtain ⟨e, he, rfl⟩ := map_eq_some_iff.mp ((hcount fid).symm.trans he')
    obtain ⟨l, hl, hmem⟩ := hcounted fid e he
    refine ⟨l ++ ((List.range maxServerEntry).filter fun i : ℕ =>
      table i ≠ -1 ∧ table i = fid).map fun i : ℕ => (child, (i : ℤ)), ?_, fun b i hbi => ?_⟩
    · rw [List.length_append, List.length_map]
      dsimp only
      omega
    · rw [hmade, hfds] at hbi
      by_cases hb : b = child
      · rw [if_pos hb] at hbi
        split at hbi
        · cases hbi
        · next hne =>
          obtain ⟨hi0, hi1, _⟩ := hknown badge i _ hbi
          obtain ⟨hs, ho⟩ := hparent i hi0 hi1 hne
          have hfid := hapart _ _ hs (by rw [he]; rfl) (FdState.opened.inj (ho.symm.trans hbi))
          have hcast : ((i.toNat : ℕ) : ℤ) = i := Int.toNat_of_nonneg hi0
          refine List.mem_append_right _ (List.mem_map.mpr ⟨i.toNat, ?_, by rw [hcast, hb]⟩)
          refine List.mem_filter.mpr ⟨List.mem_range.mpr (by omega), ?_⟩
          rw [hcast, hfid]
          exact decide_eq_true ⟨hfid ▸ hne, rfl⟩
      · rw [if_neg hb] at hbi
        exact List.mem_append_left _ (hmem b i hbi)
  · -- inside
    intro fid e' he'
    obtain ⟨e, he⟩ := isSome_iff_exists.mp (hlive fid ▸ isSome_iff_exists.mpr ⟨e', he'⟩)
    rw [hmade, hopens]
    exact hinside fid e he
  · -- apart
    intro fid fid' hf hf' heq
    rw [hmade] at heq
    exact hapart fid fid' (hlive fid ▸ hf) (hlive fid' ▸ hf') heq
  · -- known
    intro b i n hn
    have hold : g.fds b i = .opened n ∨ g.fds badge i = .opened n := by grind
    rw [hopens]
    exact hold.elim (hknown b i n) (hknown badge i n)

end Fork

/-! ## Runs -/

variable (hget : fsWrapperGetServerEntry s badge fd = some fid)
include hget

theorem actsOn_of_entry {e : Entry} (hev : s.entryAt fid = some (e, v)) :
    s.actsOn badge fd = some fid := by
  unfold Server.actsOn
  rw [hget, filter_some, if_pos (by rw [hev]; rfl)]

theorem actsOn_of_not_entry (hev : s.entryAt fid = none) : s.actsOn badge fd = none := by
  unfold Server.actsOn
  rw [hget, filter_some, if_neg (by rw [hev]; exact Bool.false_ne_true)]

theorem Own.fsWrapperClose (hown : Own s g)
    (hcare : g.fds badge fd = .closed → s.actsOn badge fd = none) :
    Own (fsWrapperClose s fid env).server (g.after s badge env (.close fd)) := by
  unfold FsWrapper.fsWrapperClose
  simp only [after]
  split
  · next hev =>
    rw [actsOn_of_not_entry hget hev]
    exact hown
  · next e v hev =>
    have hacts := actsOn_of_entry hget hev
    have he := (entryAt_eq_some hev).2.2.1
    rw [hacts]
    split
    · next hone =>
      obtain ⟨hm, hes⟩ := decRefFsVnode_frame (s.setEntry fid none) e.vnode v env
      exact hown.closed he (hown.owner hacts hcare) hm hes (.inl ⟨rfl, by omega⟩)
    · exact hown.closed he (hown.owner hacts hcare) rfl rfl (.inr ⟨_, rfl, rfl⟩)

theorem Own.fsWrapperFcntl {cmd : Cmd} (hown : Own s g)
    (hcare : g.fds badge fd = .closed → s.actsOn badge fd = none)
    (h : fsWrapperFcntl s badge fid cmd env = some r) :
    Own r.server (g.after s badge env (.fcntl fd cmd)) := by
  unfold FsWrapper.fsWrapperFcntl at h
  split at h
  · next hev =>
    cases h
    cases cmd with
    | getfl | setfl | other => exact hown
    | dupfd arg =>
      simp only [after]
      rw [actsOn_of_not_entry hget hev]
      exact hown
  · next e v hev =>
    have he := (entryAt_eq_some hev).2.2.1
    have hacts := actsOn_of_entry hget hev
    cases cmd with
    | getfl | other =>
      cases h
      exact hown
    | setfl flags =>
      cases h
      exact hown.same (.setEntry he rfl rfl rfl)
    | dupfd arg =>
      obtain ⟨s1, hset, rfl⟩ := map_eq_some_iff.mp h
      obtain ⟨hlo, hhi, rfl⟩ := setServerEntry_eq_some hset
      simp only [after]
      rw [hacts]
      exact hown.duped he (hown.owner hacts hcare) hlo hhi rfl rfl rfl

omit hget

theorem Own.dispatch {req : Request} (hown : Own s g) (hcare : Careful g s badge req env)
    (h : fsServerDispatch s badge req env = some r) :
    Own r.server (g.after s badge env req) := by
  cases req with
  | openFile newFd flags =>
    simp only [after]
    rcases open_slots h with ⟨hslot, hsame⟩ |
      ⟨slot, e, hslot, href, hlt, hfree, hlo, hhi, hentrys, hmapping⟩
    · rw [hslot]
      exact hown.same hsame
    · rw [hslot]
      exact hown.opened href hlt hfree hlo hhi hentrys hmapping
  | fork child =>
    simp only [fsServerDispatch, fsFinishFork] at h
    split at h
    · next hnone =>
      cases h
      simp only [after, inherited]
      rw [hnone]
      exact hown
    · next table htable =>
      obtain ⟨es, hes, rfl⟩ := map_eq_some_iff.mp h
      exact hown.forked hcare.1 htable hes (hcare.2 table htable)
  | close fd =>
    obtain ⟨fid, hget, hr⟩ := bind_eq_some_iff.mp h
    cases hr
    exact hown.fsWrapperClose hget (hcare fd rfl)
  | fcntl fd cmd =>
    obtain ⟨fid, hget, hr⟩ := bind_eq_some_iff.mp h
    exact hown.fsWrapperFcntl hget (hcare fd rfl) hr
  | read fd count =>
    obtain ⟨fid, hget, hr⟩ := bind_eq_some_iff.mp h
    cases hr
    exact hown.same (sameRefs_read s fid count env)
  | pread fd count offset =>
    obtain ⟨fid, hget, hr⟩ := bind_eq_some_iff.mp h
    cases hr
    exact hown.same (sameRefs_pread s fid count _ env)
  | write fd buf | pwrite fd buf offset =>
    obtain ⟨fid, hget, hr⟩ := bind_eq_some_iff.mp h
    cases hr
    exact hown.same (sameRefs_writeAt s fid buf _ env)
  | lseek fd offset whence =>
    obtain ⟨fid, hget, hr⟩ := bind_eq_some_iff.mp h
    cases hr
    exact hown.same (sameRefs_lseek s fid _ whence)
  | ftruncate fd len =>
    obtain ⟨fid, hget, hr⟩ := bind_eq_some_iff.mp h
    cases hr
    exact hown.same (sameRefs_ftruncate s fid _ env)

theorem own_of_careful_run
    (h : ReflTransGen CarefulStep (Server.start files, Owned.start) x) : Own x.1 x.2 := by
  induction h with
  | refl => exact Own.start files
  | tail _ hstep ih =>
    obtain ⟨badge, req, env, r, hcare, hr, rfl⟩ := hstep
    exact ih.dispatch hcare hr

/-- A file system whose file is opened and read without error. -/
def plainEnv (id : ℕ) (content : List UInt8) : Env where
  openFile := .ok ⟨id, .reg, content⟩
  read _ offset size := (((content.drop offset.toNat).take size).length,
    (content.drop offset.toNat).take size)
  write _ _ buf := (buf.length, buf)
  ftruncate _ _ := (0, [])
  close _ := 0
  fcntl := 0
  mallocEntry := true
  mallocNode := true
  junk _ := -1

end Starfish.FsWrapper
