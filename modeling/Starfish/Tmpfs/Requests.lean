import Starfish.Tmpfs.Moves

/-!
# Starfish.Tmpfs.Requests

The requests that change the names, each from its path on.

`Changes` is what a request may do to the tree: it fails and changes nothing, or the inodes that
stay keep what they are.  `RenameEffect` says in full what a rename does.
-/

namespace Starfish.Tmpfs

open State Option

variable {T : ℕ → Prop} {s s' : State} {i p q a b : ℕ} {path old new : Name} {m n l : Name}

/-! ## Walks -/

/-- Where a path leads to: a directory and a name in it. -/
def place (s : State) (path : Name) : Option (Except Errno (ℕ × Name)) :=
  tfsNamex s root (splitPath path).1 (splitPath path).2

theorem handleXxxat_found (h : handleXxxat s path = some (.found p l t)) :
    place s path = some (.ok (p, l)) ∧ (l = [] ∧ t = p ∧ (p = root ∨ s.typeOf p = some .dir) ∨
        l ≠ [] ∧ ∃ x, lookupDent l (s.dentries p) = some x ∧ x.inode = t) := by
  unfold handleXxxat at h
  split at h
  · cases h
  · split at h
    · next hnil =>
      cases h
      exact ⟨by rw [place, hnil, tfsNamex], .inl ⟨rfl, rfl, .inl rfl⟩⟩
    · split at h
      · cases h
      · cases h
      · next hplace =>
        split at h
        · next hdir =>
          cases h
          exact ⟨hplace, .inl ⟨rfl, rfl, .inr hdir⟩⟩
        · cases h
      · next leaf hne hplace =>
        split at h
        · cases h
        · next x hx =>
          cases h
          rw [tfsLookup_eq] at hx
          exact ⟨hplace, .inr ⟨fun e => hne e, x, hx, rfl⟩⟩

theorem handleXxxat_absent (h : handleXxxat s path = some (.absent p l)) :
    place s path = some (.ok (p, l)) ∧
      (l = [] ∧ s.typeOf p ≠ some .dir ∨ l ≠ [] ∧ lookupDent l (s.dentries p) = none) := by
  unfold handleXxxat at h
  split at h
  · cases h
  · split at h
    · cases h
    · split at h
      · cases h
      · cases h
      · next hplace =>
        split at h
        · cases h
        · next hdir =>
          cases h
          exact ⟨hplace, .inl ⟨rfl, hdir⟩⟩
      · next leaf hne hplace =>
        split at h
        · next hx =>
          cases h
          rw [tfsLookup_eq] at hx
          exact ⟨hplace, .inr ⟨fun e => hne e, hx⟩⟩
        · cases h

/-- An inode that a list of names leads to. -/
def InTree (s : State) (i : ℕ) : Prop := ∃ ns, resolve s.child root ns = some i

/-- The path leads to a directory of the tree, and its last component is neither `.` nor `..`. -/
def Plain (s : State) (path : Name) : Prop :=
  ∀ p l, place s path = some (.ok (p, l)) → InTree s p ∧ l ≠ dot ∧ l ≠ dotDot

theorem tfsNamex_plain (hcs : ∀ c ∈ cs, c ≠ dot ∧ c ≠ dotDot) (hi : InTree s i)
    (h : tfsNamex s i cs trailing = some (.ok (p, l))) :
    InTree s p ∧ l ≠ dot ∧ l ≠ dotDot := by
  induction cs generalizing i with
  | nil =>
    rw [tfsNamex] at h
    cases h
    exact ⟨hi, by decide, by decide⟩
  | cons c cs ih =>
    rw [tfsNamex] at h
    split at h
    · cases h
    · split at h
      · cases h
        exact ⟨hi, hcs _ (List.mem_cons_self ..)⟩
      · split at h
        · cases h
        · next x hx =>
          split at h
          · cases h
          · split at h
            · cases h
            · refine ih (fun c' hc' => hcs c' (List.mem_cons_of_mem _ hc')) ?_ h
              obtain ⟨ns, hns⟩ := hi
              refine ⟨ns ++ [c], ?_⟩
              obtain ⟨hdot, hdotDot⟩ := hcs c (List.mem_cons_self ..)
              rw [tfsLookup_eq] at hx
              rw [resolve_concat, hns, bind_some, State.child, childOf,
                if_neg (fun e => e.elim hdot hdotDot), hx]
              rfl

/-- A path without `.` and `..` is plain. -/
theorem plain_of_components (h : ∀ c ∈ (splitPath path).1, c ≠ dot ∧ c ≠ dotDot) : Plain s path :=
  fun _ _ hplace => tfsNamex_plain h ⟨[], rfl⟩ hplace

theorem Tree.mem (h : Tree T s) (hi : InTree s i) : T i :=
  h.twin.mem_resolve h.twin.root_mem hi.choose_spec

/-! ## One request -/

/-- What a request may do: the inodes that stay keep what they are, those that go are `gone`, and
nothing changes if it fails. -/
def Changes {α : Type} (T : ℕ → Prop) (s s' : State) (r : Except Errno α) (gone : ℕ → Prop) : Prop :=
  ∃ T' child', Tree T' s' ∧ Keeps (fun i => T i ∧ T' i) s s' child' ∧
    (∀ i, T i → gone i ∨ T' i) ∧
    ∀ e, r = .error e → (∀ i, T i → T' i) ∧ ∀ i n, T i → child' i n = s.child i n

section requests

variable {α : Type} {r : Except Errno α} {gone : ℕ → Prop} {luck : Luck}

theorem Keeps.mono (h : Keeps T s s' child') (hsub : ∀ i, T' i → T i) : Keeps T' s s' child' :=
  ⟨fun i hi => h.diskIno i (hsub i hi), fun i hi => h.type i (hsub i hi),
    fun i hi => h.file i (hsub i hi), fun i n hi => h.child i n (hsub i hi), h.handles⟩

theorem Fails.changes (h : Fails T s s' r) : Changes T s s' r gone :=
  ⟨T, s.child, h.2.1, h.2.2.mono fun _ hi => hi.1, fun _ => .inr, fun _ _ => ⟨fun _ => id,
    fun _ _ _ => rfl⟩⟩

section

variable (h : Tree T s)
include h

theorem Tree.changes_same (r : Except Errno α) : Changes T s s r gone :=
  ⟨T, s.child, h, Keeps.refl.mono fun _ hi => hi.1, fun _ => .inr, fun _ _ => ⟨fun _ => id,
    fun _ _ _ => rfl⟩⟩

omit h in
theorem Changes.of_ok (h : Tree T' s')
    (hk : Keeps (fun i => T i ∧ T' i) s s' child') (hgone : ∀ i, T i → gone i ∨ T' i) :
    Changes T s s' (.ok v) gone :=
  ⟨T', child', h, hk, hgone, fun _ he => by cases he⟩

theorem Tree.changes_make {r : Except Errno ℕ} {type : FileType}
    (hmake : Tmpfs.tfsMake s dir n type luck = some (s', r)) (hdir : T dir)
    (hname : n ≠ dot ∧ n ≠ dotDot) (hw : luck.write.Untorn) : Changes T s s' r gone := by
  obtain hfails | ⟨rfl, htree, hkeeps⟩ := h.tfsMake hmake hdir hname hw
  · exact hfails.changes
  · exact .of_ok htree (hkeeps.mono fun _ hi => hi.1) fun _ hi => .inr (.inl hi)

section

variable {r : Except Errno ℕ} (hplain : Plain s path) (hw : luck.write.Untorn)
include hplain hw

/-- `__fs_creat` -/
theorem Tree.fsCreat (hcreat : fsCreat s path luck = some (s', r)) : Changes T s s' r gone := by
  unfold Tmpfs.fsCreat at hcreat
  split at hcreat
  · cases hcreat
  · split at hcreat
    · cases hcreat
      exact h.changes_same _
    · split at hcreat
      · cases hcreat
      · cases hcreat
        exact h.changes_same _
      · next dir leaf hplace =>
        obtain ⟨hdir, hname⟩ := hplain dir leaf hplace
        exact h.changes_make hcreat (h.mem hdir) hname hw

theorem Tree.tmpfsMkdir (hmkdir : tmpfsMkdir s path luck = some (s', r)) :
    Changes T s s' r gone := by
  unfold Tmpfs.tmpfsMkdir at hmkdir
  split at hmkdir
  · cases hmkdir
  · cases hmkdir
    exact h.changes_same _
  · cases hmkdir
    exact h.changes_same _
  · cases hmkdir
    exact h.changes_same _
  · next dir leaf hwalk =>
    obtain ⟨hdir, hname⟩ := hplain dir leaf (handleXxxat_absent hwalk).1
    exact h.changes_make hmkdir (h.mem hdir) hname hw

end

theorem Tree.found (hplain : Plain s path) (hwalk : handleXxxat s path = some (.found p l t)) :
    T p ∧ T t ∧ (l = [] ∧ t = p ∧ s.type p = .dir ∨ s.child p l = some t) := by
  obtain ⟨hplace, hcases⟩ := handleXxxat_found hwalk
  obtain ⟨hp, hdot, hdotDot⟩ := hplain p l hplace
  have hp := h.mem hp
  obtain ⟨rfl, rfl, hdir⟩ | ⟨hne, x, hx, rfl⟩ := hcases
  · refine ⟨hp, hp, .inl ⟨rfl, rfl, ?_⟩⟩
    obtain rfl | hdir := hdir
    · exact h.root_dir
    · rw [typeOf_eq (h.sound t hp).live] at hdir
      exact some.inj hdir
  · have hc : s.child p l = some x.inode := by
      rw [State.child, Proper.childOf ⟨hne, hdot, hdotDot⟩, hx]
      rfl
    exact ⟨hp, h.twin.closed hp hc, .inr hc⟩

theorem Tree.absent (hplain : Plain s path) (hwalk : handleXxxat s path = some (.absent p l)) :
    T p ∧ s.child p l = none ∧ (s.type p = .dir → Proper l) := by
  obtain ⟨hplace, hcases⟩ := handleXxxat_absent hwalk
  obtain ⟨hp, hdot, hdotDot⟩ := hplain p l hplace
  have hp := h.mem hp
  refine ⟨hp, ?_, fun hdir => ⟨?_, hdot, hdotDot⟩⟩
  · cases hc : s.child p l with
    | none => rfl
    | some t =>
      obtain ⟨hl, _, x, hx, _⟩ := h.dent hp hc
      obtain ⟨hnil, _⟩ | ⟨_, hnone⟩ := hcases
      · exact absurd hnil hl.ne_nil
      · rw [hx] at hnone
        cases hnone
  · rintro rfl
    obtain ⟨_, hdir'⟩ | ⟨hne, _⟩ := hcases
    · exact hdir' (by rw [typeOf_eq (h.sound p hp).live, hdir])
    · exact hne rfl

/-- The inode at a path is the one of the entry: the tree has no entry without a name. -/
theorem Tree.eq_of_found (hplain : Plain s path) (hwalk : handleXxxat s path = some (.found p l t))
    (hc : s.child p l = some a) : t = a := by
  obtain ⟨hp, _, ⟨rfl, _⟩ | hc'⟩ := h.found hplain hwalk
  · exact absurd rfl (h.dent hp hc).1.ne_nil
  · exact some.inj (hc'.symm.trans hc)

variable {r : Except Errno Unit}

/-- `__tmpfs_unlink`, where a directory that is removed is empty. -/
theorem Tree.tmpfsUnlink (hplain : Plain s path) (hw : luck.clear.Untorn)
    (hempty : ∀ p l t, rmdir = true → handleXxxat s path = some (.found p l t) →
      ∀ n, s.child t n = none)
    (hunlink : tmpfsUnlink s path rmdir luck = some (s', r)) :
    Changes T s s' r fun i => ∃ p l, handleXxxat s path = some (.found p l i) := by
  unfold Tmpfs.tmpfsUnlink at hunlink
  split at hunlink
  · cases hunlink
  · cases hunlink
    exact h.changes_same _
  · cases hunlink
    exact h.changes_same _
  · next p l t hwalk =>
    obtain ⟨hp, ht, _⟩ := h.found hplain hwalk
    have htype := typeOf_eq (h.sound t ht).live
    split at hunlink
    · cases hunlink
      exact h.changes_same _
    · next hfile =>
      split at hunlink
      · cases hunlink
        exact h.changes_same _
      · split at hunlink
        · cases hunlink
          exact h.changes_same _
        · split at hunlink
          · next d e hdisk =>
            cases hunlink
            rw [Disk.unlinkNode_error hdisk hw]
            exact h.changes_same _
          · next d _ hdisk =>
            obtain ⟨hdir, k, e, hfind, hd⟩ := Disk.unlinkNode_ok hdisk hw
            obtain ⟨a, hc, hino, _⟩ := h.dirent hp hdir hfind
            obtain rfl := h.eq_of_found hplain hwalk hc
            have hempty' : ∀ n, s.child t n = none := by
              cases hrm : rmdir with
              | true => exact hempty p l t hrm hwalk
              | false =>
                have hreg : s.type t = .reg := by
                  cases ht' : s.type t with
                  | reg => rfl
                  | dir => exact absurd ⟨hrm, by rw [htype, ht']⟩ hfile
                intro n
                rw [State.child, (h.sound t ht).reg hreg, childOf]
                split <;> rfl
            rw [hino] at hd
            obtain ⟨rfl, htree, hkeeps⟩ := h.remove hp hc hempty' hfind hd hunlink
            refine .of_ok htree (hkeeps.mono fun _ hi => hi.2) fun i hi => ?_
            by_cases hit : i = t
            · exact .inl ⟨p, l, hit ▸ hwalk⟩
            · exact .inr ⟨hi, hit⟩

/-- The durable half of `tmpfs_rename`. -/
theorem Tree.renameDisk (hp : T p) (hq : T q)
    (hne : ¬ (q = p ∧ l = m)) (hreg : ∀ b, s.child q l = some b → s.type b = .reg)
    (hw : luck.write.Untorn) (hclear : luck.clear = .whole)
    (hrename : renameDisk s p m q l luck = some (s1, r)) :
    (s1 = s ∧ ∃ e, r = .error e) ∨ ∃ d, s1 = { s with disk := d } ∧ r = .ok () ∧
      s.type q = .dir ∧ ∃ a, s.child p m = some a ∧
        ((s.child q l = none ∧ DiskMoved T s d p m q l a) ∨
          ∃ b, s.child q l = some b ∧ DiskMoved (fun i => T i ∧ i ≠ b) s d p m q l a) := by
  unfold Tmpfs.renameDisk at hrename
  split at hrename
  · cases hrename
    exact .inl ⟨rfl, _, rfl⟩
  · rw [hclear] at hrename
    split at hrename
    · cases hrename
    · next d r' hdisk =>
      cases hrename
      obtain ⟨rfl, herr⟩ | hmoved := h.renameNode hp hq hne hreg hw hdisk
      · exact .inl ⟨rfl, herr⟩
      · exact .inr ⟨d, rfl, hmoved⟩

/-- What `tmpfs_rename` does when it moves a file: the inode `a` at the old path gets the name of the
new path, and the file `b` that had this name goes. -/
structure RenameEffect (T : ℕ → Prop) (s s' : State) (old new : Name) (p : ℕ) (m : Name) (q : ℕ)
    (l : Name) (a : ℕ) (b : Option ℕ) : Prop where
  old_walk : handleXxxat s old = some (.found p m a)
  new_walk : handleXxxat s new = match b with
    | none => some (.absent q l)
    | some b => some (.found q l b)
  old_mem : T p
  new_mem : T q
  old_child : s.child p m = some a
  new_child : s.child q l = b
  new_dir : s.type q = .dir
  differ : b ≠ some a
  reg : ∀ c, b = some c → s.type c = .reg
  tree : Tree (fun i => T i ∧ b ≠ some i) s'
  keeps : Keeps (fun i => T i ∧ b ≠ some i) s s' (rebind (rebind s.child q l (some a)) p m none)

section rename

variable (hold : Plain s old) (hnew : Plain s new) (hw : luck.write.Untorn)
  (hclear : luck.clear = .whole)
include hold hnew hw hclear

/-- `tmpfs_rename` where the new path does not exist. -/
theorem Tree.rename_absent (hdentry : luck.noDentry = false) (hwalk : handleXxxat s old = some (.found p m a))
    (hwalk' : handleXxxat s new = some (.absent q l))
    (hrename : (match Tmpfs.renameDisk s p m q l luck with
      | none => none
      | some (s, .error e) => some (s, .error e)
      | some (s, .ok _) =>
        match s.tfsLookup p m with
        | some old => moveDent s p old q l luck
        | none => none) = some (s', r)) :
    (s' = s ∧ ∃ e, r = .error e) ∨ r = .ok () ∧ RenameEffect T s s' old new p m q l a none := by
  obtain ⟨hp, _, hname⟩ := h.found hold hwalk
  obtain ⟨hq, hfree, hproper⟩ := h.absent hnew hwalk'
  have hne : ¬ (q = p ∧ l = m) := by
    rintro ⟨rfl, rfl⟩
    obtain ⟨hnil, _, hdir⟩ | hc := hname
    · exact (hproper hdir).ne_nil hnil
    · rw [hc] at hfree
      cases hfree
  have hreg : ∀ b, s.child q l = some b → s.type b = .reg := by
    rw [hfree]
    intro b hb
    cases hb
  split at hrename
  · cases hrename
  · next s1 e hdisk =>
    cases hrename
    obtain ⟨rfl, herr⟩ | ⟨_, _, hok, _⟩ := h.renameDisk hp hq hne hreg hw hclear hdisk
    · exact .inl ⟨rfl, herr⟩
    · cases hok
  · next s1 _ hdisk =>
    obtain ⟨_, _, herr⟩ | ⟨d, rfl, _, hqdir, a', hc, hmoved⟩ :=
      h.renameDisk hp hq hne hreg hw hclear hdisk
    · cases herr
    · obtain rfl := h.eq_of_found hold hwalk hc
      split at hrename
      · next x hx =>
        rw [tfsLookup_eq] at hx
        obtain ⟨_, hmoved⟩ | ⟨b, hb, _⟩ := hmoved
        · obtain ⟨rfl, htree, hkeeps⟩ :=
            h.move hp hq hc hfree (hproper hqdir) hqdir hx hmoved hdentry hrename
          refine .inr ⟨rfl, ⟨hwalk, hwalk', hp, hq, hc, hfree, hqdir, by simp, by simp, ?_, ?_⟩⟩
          · simpa using htree
          · simpa using hkeeps
        · rw [hfree] at hb
          cases hb
      · cases hrename

/-- `tmpfs_rename` where the new path is another file. -/
theorem Tree.rename_found (hwalk : handleXxxat s old = some (.found p m a))
    (hwalk' : handleXxxat s new = some (.found q l b)) (hab : a ≠ b) (hreg : s.type b = .reg)
    (hrename : (match Tmpfs.renameDisk s p m q l luck with
      | none => none
      | some (s, .error e) => some (s, .error e)
      | some (s, .ok _) =>
        match s.tfsLookup p m, s.tfsLookup q l with
        | some old, some new => replaceDent s p old q new
        | _, _ => none) = some (s', r)) :
    (s' = s ∧ ∃ e, r = .error e) ∨ r = .ok () ∧ RenameEffect T s s' old new p m q l a (some b) := by
  obtain ⟨hp, _, hname⟩ := h.found hold hwalk
  obtain ⟨hq, _, hname'⟩ := h.found hnew hwalk'
  have hb : s.child q l = some b := by
    obtain ⟨_, rfl, hdir⟩ | hb := hname'
    · rw [hreg] at hdir
      cases hdir
    · exact hb
  have hne : ¬ (q = p ∧ l = m) := by
    rintro ⟨rfl, rfl⟩
    obtain ⟨rfl, _⟩ | hc := hname
    · exact (h.dent hq hb).1.ne_nil rfl
    · exact hab (some.inj (hc.symm.trans hb))
  have hreg' : ∀ c, s.child q l = some c → s.type c = .reg := by
    intro c hc
    rw [hb] at hc
    exact some.inj hc ▸ hreg
  split at hrename
  · cases hrename
  · next s1 e hdisk =>
    cases hrename
    obtain ⟨rfl, herr⟩ | ⟨_, _, hok, _⟩ := h.renameDisk hp hq hne hreg' hw hclear hdisk
    · exact .inl ⟨rfl, herr⟩
    · cases hok
  · next s1 _ hdisk =>
    obtain ⟨_, _, herr⟩ | ⟨d, rfl, _, hqdir, a', hc, hmoved⟩ :=
      h.renameDisk hp hq hne hreg' hw hclear hdisk
    · cases herr
    · obtain rfl := h.eq_of_found hold hwalk hc
      split at hrename
      · next x y hx hy =>
        rw [tfsLookup_eq] at hx hy
        obtain ⟨hfree, _⟩ | ⟨b', hb', hmoved⟩ := hmoved
        · rw [hb] at hfree
          cases hfree
        · obtain rfl : b = b' := some.inj (hb.symm.trans hb')
          obtain ⟨rfl, htree, hkeeps⟩ := h.replace hp hq hc hb hab hreg hx hy hmoved hrename
          have hsome {i : ℕ} : some b ≠ some i ↔ i ≠ b := by
            rw [ne_eq, some_inj, eq_comm]
          refine .inr ⟨rfl, ⟨hwalk, hwalk', hp, hq, hc, hb, hqdir, hsome.mpr hab,
            fun c e => some.inj e ▸ hreg, ?_, ?_⟩⟩
          · simpa only [hsome] using htree
          · simpa only [hsome] using hkeeps
      · cases hrename

section

variable (hdentry : luck.noDentry = false) (hrename : tmpfsRename s old new luck = some (s', r))
include hdentry hrename

/-- `tmpfs_rename` fails, finds one file at both paths, or moves it. -/
theorem Tree.tmpfsRename_cases : (s' = s ∧ ∃ e, r = .error e) ∨
      (s' = s ∧ r = .ok () ∧ ∃ p m q l a, handleXxxat s old = some (.found p m a) ∧
        handleXxxat s new = some (.found q l a)) ∨
      r = .ok () ∧ ∃ p m q l a b, RenameEffect T s s' old new p m q l a b := by
  have hfail {e : Errno} (heq : some (s, .error e) = some (s', r)) :
      s' = s ∧ ∃ e, r = .error e := by
    cases heq
    exact ⟨rfl, _, rfl⟩
  unfold tmpfsRename at hrename
  split at hrename
  · cases hrename
  · exact .inl (hfail hrename)
  · exact .inl (hfail hrename)
  · exact .inl (hfail hrename)
  · next p m a hwalk =>
    split at hrename
    · exact .inl (hfail hrename)
    · split at hrename
      · cases hrename
      · exact .inl (hfail hrename)
      · exact .inl (hfail hrename)
      · next q l b hwalk' =>
        split at hrename
        · exact .inl (hfail hrename)
        · split at hrename
          · next hab =>
            cases hrename
            exact .inr (.inl ⟨rfl, rfl, p, m, q, l, a, hwalk, hab ▸ hwalk'⟩)
          · next hab =>
            split at hrename
            · exact .inl (hfail hrename)
            · split at hrename
              · exact .inl (hfail hrename)
              · split at hrename
                · exact .inl (hfail hrename)
                · next hfull =>
                  -- a directory has at least the entry `.`
                  have hb := (h.found hnew hwalk').2.1
                  have hreg : s.type b = .reg := by
                    cases hdir : s.type b with
                    | reg => rfl
                    | dir =>
                      refine absurd ⟨by rw [typeOf_eq (h.sound b hb).live, hdir], fun hnil => ?_⟩ hfull
                      have hdot := ((h.sound b hb).names hdir).dot_mem
                      rw [hnil] at hdot
                      cases hdot
                  obtain herr | ⟨hr, heff⟩ :=
                    h.rename_found hold hnew hw hclear hwalk hwalk' hab hreg hrename
                  · exact .inl herr
                  · exact .inr (.inr ⟨hr, p, m, q, l, a, some b, heff⟩)
      · next q l hwalk' =>
        split at hrename
        · exact .inl (hfail hrename)
        · obtain herr | ⟨hr, heff⟩ :=
            h.rename_absent hold hnew hw hclear hdentry hwalk hwalk' hrename
          · exact .inl herr
          · exact .inr (.inr ⟨hr, p, m, q, l, a, none, heff⟩)

theorem Tree.tmpfsRename :
    Changes T s s' r fun i => (∃ p l, handleXxxat s new = some (.found p l i)) ∧
      ∀ p l, handleXxxat s old ≠ some (.found p l i) := by
  obtain ⟨rfl, _⟩ | ⟨rfl, _⟩ | ⟨rfl, p, m, q, l, a, b, heff⟩ :=
    h.tmpfsRename_cases hold hnew hw hclear hdentry hrename
  · exact h.changes_same _
  · exact h.changes_same _
  · refine .of_ok heff.tree (heff.keeps.mono fun _ hi => hi.2) fun i hi => ?_
    by_cases hb : b = some i
    · subst hb
      refine .inl ⟨⟨q, l, heff.new_walk⟩, fun p' l' hwalk => ?_⟩
      rw [heff.old_walk] at hwalk
      cases hwalk
      exact heff.differ rfl
    · exact .inr ⟨hi, hb⟩

end

end rename

end

end requests

end Starfish.Tmpfs
