import Mathlib.Data.List.Count
import Mathlib.Logic.Relation
import Starfish.Tmpfs.Requests

/-!
# Starfish.Tmpfs.Runs

The requests to tmpfs, one after another.

* `trees_agree_in_careful_runs` is the main result: as long as each request is `Careful`, the tree
  in memory and the durable tree are the same after it, and a request that fails leaves both as
  they were.
* `rmdir_of_full_directory`: the durable directory is gone although the request failed.
-/

namespace Starfish.Tmpfs

open Relation State Option Disk List

variable {T : ℕ → Prop} {s s' : State} {i : ℕ}

/-! ## Requests -/

inductive Request where
  | openFile (path : Name) (creat : Bool)
  | creat (path : Name)
  | mkdir (path : Name)
  | unlink (path : Name)
  | rmdir (path : Name)
  | rename (oldpath newpath : Name)
  | close (h : Handle)
  | read (h : Handle) (offset size : ℕ)
  | write (h : Handle) (offset : ℕ) (bs : List UInt8) (room : ℕ)

/-- A request to the server.  Only a file that is open is read, written or closed. -/
def serve (s : State) (req : Request) (luck : Luck) : Option (State × Except Errno Unit) :=
  match req with
  | .openFile path creat => (tmpfsOpen s path creat luck).map fun (s, r) => (s, r.map fun _ => ())
  | .creat path => (fsCreat s path luck).map fun (s, r) => (s, r.map fun _ => ())
  | .mkdir path => (tmpfsMkdir s path luck).map fun (s, r) => (s, r.map fun _ => ())
  | .unlink path => tmpfsUnlink s path false luck
  | .rmdir path => tmpfsUnlink s path true luck
  | .rename oldpath newpath => tmpfsRename s oldpath newpath luck
  | .close h => if h ∈ s.handles then tmpfsClose s h else none
  | .read h offset size =>
    if h ∈ s.handles then
      (tmpfsRead s h.inode offset size).map fun r => (s, r.map fun _ => ())
    else none
  | .write h offset bs room =>
    if h ∈ s.handles then
      (tmpfsWrite s h.inode offset bs room luck).map fun (s, r) => (s, r.map fun _ => ())
    else none

@[simp] def Request.paths : Request → List Name
  | .openFile path _ | .creat path | .mkdir path | .unlink path | .rmdir path => [path]
  | .rename oldpath newpath => [oldpath, newpath]
  | .close _ | .read _ _ _ | .write _ _ _ _ => []

/-- A request that keeps the trees together:
* its paths lead to directories that are still in the tree, and do not end with `.` or `..`;
* no write of a directory entry is torn;
* a directory that is removed is empty;
* a rename clears the old entry, and has the memory for the new one. -/
def Careful (s : State) (req : Request) (luck : Luck) : Prop :=
  (∀ path ∈ req.paths, Plain s path) ∧ luck.write.Untorn ∧ luck.clear.Untorn ∧
    match req with
    | .rmdir path =>
      ∀ p l t, handleXxxat s path = some (.found p l t) → ∀ n, s.child t n = none
    | .rename _ _ => luck.clear = .whole ∧ luck.noDentry = false
    | _ => True

def Step (s s' : State) : Prop := ∃ req luck r, serve s req luck = some (s', r)

def CarefulStep (s s' : State) : Prop :=
  ∃ req luck r, Careful s req luck ∧ serve s req luck = some (s', r)

/-! ## The two trees -/

/-- The number and the type that a list of names leads to in memory. -/
def memTree (s : State) (ns : List Name) : Option (ℕ × FileType) :=
  (resolve s.child root ns).bind fun i => (s.inode i).map fun x => (x.diskIno, x.type)

/-- The number and the type that it leads to on the disk, as `restore_dir` finds them. -/
def diskTree (d : Disk) (ns : List Name) : Option (ℕ × FileType) :=
  (resolve (fun ino n => (d.entry ino n).map Prod.fst) cxlfsRootIno ns).bind fun ino =>
    (d.node ino).map fun n => (ino, n.type)

theorem inode_fields (h : s.live i) :
    (s.inode i).map (fun x => (x.diskIno, x.type)) = some (s.diskIno i, s.type i) := by
  obtain ⟨x, hx⟩ := live_iff.mp h
  simp [hx, diskIno, type]

theorem Tree.memTree_eq_diskTree (h : Tree T s) (ns : List Name) :
    memTree s ns = diskTree s.disk ns := by
  have hresolve := h.twin.resolve_eq h.twin.root_mem ns
  rw [h.root_ino] at hresolve
  rw [diskTree, hresolve, memTree]
  cases hi : resolve s.child root ns with
  | none => rfl
  | some i =>
    have hsound := h.sound i (h.twin.mem_resolve h.twin.root_mem hi)
    obtain ⟨n, hn, htype⟩ := typeOf_eq_some.mp hsound.typeOf
    rw [bind_some, map_some, bind_some, inode_fields hsound.live, hn, map_some, htype]

/-- Nothing in the tree has changed. -/
theorem Tree.memTree_congr (h : Tree T s) (h' : Tree T' s')
    (hsub : ∀ i, T i → T' i) (hino : ∀ i, T i → s'.diskIno i = s.diskIno i)
    (htype : ∀ i, T i → s'.type i = s.type i) (hchild : ∀ i n, T i → s'.child i n = s.child i n)
    (ns : List Name) : memTree s' ns = memTree s ns := by
  rw [memTree, h.twin.resolve_congr hchild h.twin.root_mem, memTree]
  cases hi : resolve s.child root ns with
  | none => rfl
  | some i =>
    have hmem := h.twin.mem_resolve h.twin.root_mem hi
    rw [bind_some, bind_some, inode_fields (h.sound i hmem).live,
      inode_fields (h'.sound i (hsub i hmem)).live, hino i hmem, htype i hmem]

/-! ## Open files -/

section files

theorem opens_openInode : (s.openInode i).opens i = s.opens i + 1 := by
  simp [opens, openInode]

theorem opens_openInode_of_ne (h : j ≠ i) : (s.openInode i).opens j = s.opens j := by
  simp [opens, openInode, Ne.symm h]

theorem kept_openInode (hlive : s.live i) (j : ℕ) : Kept s (s.openInode i) j := by
  refine ⟨⟨(live_addRefs (a := i)).mpr, diskIno_addRefs (a := i), type_addRefs (a := i), ?_, ?_⟩,
    dentries_addRefs (a := i), ?_⟩
  · have href : (s.openInode i).refcnt j = (s.addRefs i 1).refcnt j := rfl
    by_cases hj : j = i
    · subst hj
      rw [opens_openInode, href, refcnt_addRefs_self hlive]
      omega
    · exact Int.le_of_eq (by rw [opens_openInode_of_ne hj, href, refcnt_addRefs_of_ne hj])
  · exact congrArg (Disk.typeOf · _) (disk_addRefs (s := s) (a := i) (k := 1))
  · exact congrArg (Disk.slots · _) (disk_addRefs (s := s) (a := i) (k := 1))

theorem Tree.openInode (h : Tree T s) (hi : T i) : Tree T (s.openInode i) := by
  have hnext : (s.openInode i).next = s.next := next_addRefs
  refine h.of_kept (fun j _ => kept_openInode (h.sound i hi).live j) (fun j hj => ?_) ?_
  · rw [hnext]
    exact h.fresh j ((live_addRefs (s := s) (a := i) (k := 1)).mp hj)
  · rw [hnext]
    intro y hy
    obtain rfl | hy := mem_cons.mp hy
    · exact h.lt_next hi
    · exact h.opened y hy

theorem Tree.tmpfsOpen {creat : Bool} (h : Tree T s) (hplain : Plain s path)
    (hw : luck.write.Untorn) (hopen : tmpfsOpen s path creat luck = some (s', r)) :
    Fails T s s' r ∨ ∃ s1 T' child' i, Tree T' s1 ∧ Keeps T s s1 child' ∧ (∀ j, T j → T' j) ∧
      T' i ∧ s' = s1.openInode i ∧ r = .ok i := by
  unfold Tmpfs.tmpfsOpen at hopen
  split at hopen
  · cases hopen
  · cases hopen
    exact .inl (h.fails _)
  · cases hopen
    exact .inl (h.fails _)
  · next p l t hwalk =>
    cases hopen
    exact .inr ⟨s, T, s.child, t, h, Keeps.refl, fun _ => id, (h.found hplain hwalk).2.1, rfl, rfl⟩
  · next dir leaf hwalk =>
    obtain ⟨hdir, hname⟩ := hplain dir leaf (handleXxxat_absent hwalk).1
    split at hopen
    · cases hopen
      exact .inl (h.fails _)
    · split at hopen
      · cases hopen
      · next s1 e hmake =>
        cases hopen
        obtain hfails | ⟨hok, _⟩ := h.tfsMake hmake (h.mem hdir) hname hw
        · exact .inl hfails
        · cases hok
      · next s1 i hmake =>
        cases hopen
        obtain ⟨⟨_, herr⟩, _⟩ | ⟨hok, htree, hkeeps⟩ := h.tfsMake hmake (h.mem hdir) hname hw
        · cases herr
        · cases hok
          exact .inr ⟨s1, _, _, s.next, htree, hkeeps, fun _ => .inl, .inr rfl, rfl, rfl⟩

theorem Tree.tmpfsClose {r : Except Errno Unit} (h : Tree T s) (hx : x ∈ s.handles)
    (hclose : tmpfsClose s x = some (s', r)) :
    Tree T s' ∧ (∀ i, T i → Kept s s' i) ∧ s'.disk = s.disk ∧ s'.handles = s.handles.erase x := by
  unfold Tmpfs.tmpfsClose at hclose
  obtain ⟨hinode, hdisk, hhandles, hnext, hlive⟩ := putInode_frame hclose
  have hopens (j : ℕ) : s'.opens j = s.opens j - if x.inode = j then 1 else 0 := by
    rw [opens, hhandles, opens, countP_erase]
    simp [hx]
  have hkept {j : ℕ} (hj : T j) : Kept s s' j := by
    have hopens_j := hopens j
    by_cases hjx : j = x.inode
    · subst hjx
      have hpos : 0 < s.opens x.inode := countP_pos_iff.mpr ⟨x, hx, by simp⟩
      have hrefs := (h.sound x.inode hj).refs
      have hone : 1 ≤ ownRefs (s.type x.inode) := by cases s.type x.inode <;> decide
      have href : ({ s with handles := s.handles.erase x } : State).refcnt x.inode =
          s.refcnt x.inode := rfl
      rw [if_pos rfl] at hopens_j
      obtain ⟨hlive', ⟨_, rfl, _⟩ | ⟨hbad, _⟩ | ⟨hbad, _⟩⟩ := putInode_cases hclose
      · refine ⟨⟨fun hl => live_addRefs.mpr hl, diskIno_addRefs, type_addRefs, ?_, ?_⟩,
          dentries_addRefs, ?_⟩
        · rw [refcnt_addRefs_self hlive']
          omega
        · rw [hdisk]
        · rw [hdisk]
      · omega
      · omega
    · obtain ⟨h1, h2, h3, h4, h5⟩ := fields_of_inode (hinode j hjx)
      rw [if_neg (Ne.symm hjx)] at hopens_j
      refine ⟨⟨h1.mpr, h3, h4, ?_, by rw [hdisk]⟩, h2, by rw [hdisk]⟩
      rw [h5, hopens_j]
      exact Int.le_refl _
  refine ⟨h.of_kept (fun _ => hkept) (fun j hj => hnext ▸ h.fresh j (hlive j hj)) ?_, fun _ => hkept,
    hdisk, hhandles⟩
  rw [hhandles, hnext]
  exact fun y hy => h.opened y (mem_of_mem_erase hy)

theorem kept_tmpfsWrite {bs : List UInt8}
    (hwrite : tmpfsWrite s i offset bs room luck = some (s', r)) :
    ∃ d, s' = { s with disk := d } ∧ (∀ j, Kept s s' j) ∧
      (d = s.disk ∨ ∃ n data, s.disk.node (s.diskIno i) = some n ∧
        d = s.disk.setNode (s.diskIno i) (some { n with data := data })) := by
  unfold tmpfsWrite at hwrite
  split at hwrite
  · cases hwrite
    exact ⟨s.disk, rfl, fun _ => Kept.refl, .inl rfl⟩
  · split at hwrite
    · cases hwrite
    · rcases hres : s.disk.write (s.diskIno i) offset bs room with ⟨d, r'⟩
      rw [hres] at hwrite
      cases hwrite
      have hcases := write_cases hres
      have hsame (k : ℕ) : d.typeOf k = s.disk.typeOf k ∧ d.slots k = s.disk.slots k := by
        obtain rfl | ⟨n, data, hn, rfl⟩ := hcases
        · exact ⟨rfl, rfl⟩
        · exact typeOf_slots_setNode hn k
      exact ⟨d, rfl, fun j => ⟨⟨id, rfl, rfl, Int.le_refl _, (hsame _).1⟩, rfl, (hsame _).2⟩, hcases⟩

end files

/-! ## One step -/

/-- Each open file is in the tree, and its durable node is the one that was opened. -/
def Opened (T : ℕ → Prop) (s : State) : Prop :=
  ∀ x ∈ s.handles, T x.inode ∧
    ∃ type data, s.disk.file (s.diskIno x.inode) = some (type, data, x.id)

/-- The request takes the inode out of the tree, unless it fails. -/
def Removes (s : State) (req : Request) (i : ℕ) : Prop :=
  match req with
  | .unlink path | .rmdir path => ∃ p l, handleXxxat s path = some (.found p l i)
  | .rename oldpath newpath => (∃ p l, handleXxxat s newpath = some (.found p l i)) ∧
      ∀ p l, handleXxxat s oldpath ≠ some (.found p l i)
  | _ => False

/-- What a careful request does. -/
structure Served (T T' : ℕ → Prop) (s s' : State) (req : Request) (r : Except Errno Unit) :
    Prop where
  tree : Tree T' s'
  error : ∀ e, r = .error e → ∀ ns, memTree s' ns = memTree s ns
  opened : (r = .ok () → ∀ x ∈ s.handles, ¬ Removes s req x.inode) → Opened T s → Opened T' s'

section served

variable {req : Request} {luck : Luck}

theorem Keeps.opened (hk : Keeps T s s' child')
    (hsub : ∀ i, T i → T' i) (ho : Opened T s) : Opened T' s' := by
  intro x hx
  rw [hk.handles] at hx
  obtain ⟨hmem, type, data, hfile⟩ := ho x hx
  exact ⟨hsub _ hmem, type, data, by rw [hk.diskIno _ hmem, hk.file _ hmem, hfile]⟩

theorem Changes.served {α : Type} {r : Except Errno α} (h : Tree T s)
    (hc : Changes T s s' r (Removes s req)) :
    ∃ T', Served T T' s s' req (r.map fun _ => ()) := by
  obtain ⟨T', child', htree, hkeeps, hgone, herr⟩ := hc
  refine ⟨T', htree, fun e he => ?_, fun hrem ho => ?_⟩
  · cases r with
    | ok v => cases he
    | error e =>
      obtain ⟨hsub, hchild⟩ := herr e rfl
      exact h.memTree_congr htree hsub (fun i hi => hkeeps.diskIno i ⟨hi, hsub i hi⟩)
        (fun i hi => hkeeps.type i ⟨hi, hsub i hi⟩)
        fun i n hi => (hkeeps.child i n ⟨hi, hsub i hi⟩).trans (hchild i n hi)
  · have hmem (x : Handle) (hx : x ∈ s.handles) : T' x.inode := by
      cases r with
      | ok v => exact (hgone _ (ho x hx).1).resolve_left (hrem rfl x hx)
      | error e => exact (herr e rfl).1 _ (ho x hx).1
    refine hkeeps.opened (fun _ hi => hi.2) fun x hx => ⟨⟨(ho x hx).1, hmem x hx⟩, (ho x hx).2⟩

variable {r : Except Errno Unit}

/-- A request that changes no name. -/
theorem Tree.served_of_kept (h : Tree T s) (h' : Tree T s')
    (hkept : ∀ i, T i → Kept s s' i) (ho : Opened T s → Opened T s') : Served T T s s' req r where
  tree := h'
  error _ _ := h.memTree_congr h' (fun _ => id) (fun i hi => (hkept i hi).diskIno)
    (fun i hi => (hkept i hi).type) fun i _ hi => (hkept i hi).child
  opened _ := ho

theorem Opened.openInode (h : Tree T s) (hi : T i) (ho : Opened T s) :
    Opened T (s.openInode i) := by
  intro x hx
  have hino : (s.openInode i).diskIno x.inode = s.diskIno x.inode := diskIno_addRefs
  have hdisk : (s.openInode i).disk = s.disk := disk_addRefs
  rw [hino, hdisk]
  obtain rfl | hx := mem_cons.mp hx
  · obtain ⟨n, hn, _⟩ := typeOf_eq_some.mp (h.sound i hi).typeOf
    exact ⟨hi, n.type, n.data, by simp [file, hn]⟩
  · exact ho x hx

theorem Changes.served_unit (h : Tree T s)
    (hc : Changes T s s' r (Removes s req)) : ∃ T', Served T T' s s' req r := by
  have hr : r.map (fun _ => ()) = r := by cases r <;> rfl
  have hserved := hc.served h
  rwa [hr] at hserved

theorem Tree.serve (h : Tree T s) (hc : Careful s req luck)
    (hs : serve s req luck = some (s', r)) : ∃ T', Served T T' s s' req r := by
  obtain ⟨hplain, hwrite, hclear, hreq⟩ := hc
  cases req with
  | openFile path creat =>
    obtain ⟨⟨s1, r₁⟩, hopen, hpair⟩ := map_eq_some_iff.mp hs
    cases hpair
    obtain hfails | ⟨s2, T', child', i, htree, hkeeps, hsub, hi, rfl, rfl⟩ :=
      h.tmpfsOpen (hplain path (by simp)) hwrite hopen
    · exact hfails.changes.served h
    · exact ⟨T', htree.openInode hi, fun _ he => (by cases he),
        fun _ ho => (hkeeps.opened hsub ho).openInode htree hi⟩
  | creat path =>
    obtain ⟨⟨s1, r₁⟩, hcreat, hpair⟩ := map_eq_some_iff.mp hs
    cases hpair
    exact (h.fsCreat (hplain path (by simp)) hwrite hcreat).served h
  | mkdir path =>
    obtain ⟨⟨s1, r₁⟩, hmkdir, hpair⟩ := map_eq_some_iff.mp hs
    cases hpair
    exact (h.tmpfsMkdir (hplain path (by simp)) hwrite hmkdir).served h
  | unlink path =>
    exact (h.tmpfsUnlink (hplain path (by simp)) hclear
      (fun _ _ _ hrmdir => by cases hrmdir) hs).served_unit h
  | rmdir path =>
    exact (h.tmpfsUnlink (hplain path (by simp)) hclear
      (fun p l t _ => hreq p l t) hs).served_unit h
  | rename old new =>
    exact (h.tmpfsRename (hplain old (by simp))
      (hplain new (by simp)) hwrite hreq.1 hreq.2 hs).served_unit h
  | close x =>
    rw [Tmpfs.serve] at hs
    split at hs
    · next hx =>
      obtain ⟨htree, hkept, hdisk, hhandles⟩ := h.tmpfsClose hx hs
      refine ⟨T, h.served_of_kept htree hkept fun ho y hy => ?_⟩
      rw [hhandles] at hy
      obtain ⟨hmem, hfile⟩ := ho y (mem_of_mem_erase hy)
      exact ⟨hmem, by rwa [hdisk, (hkept _ hmem).diskIno]⟩
    · cases hs
  | read x offset size =>
    rw [Tmpfs.serve] at hs
    split at hs
    · obtain ⟨r₁, _, hpair⟩ := map_eq_some_iff.mp hs
      cases hpair
      exact ⟨T, h.served_of_kept h (fun _ _ => Kept.refl) id⟩
    · cases hs
  | write x offset bs room =>
    rw [Tmpfs.serve] at hs
    split at hs
    · obtain ⟨⟨s1, r₁⟩, hw, hpair⟩ := map_eq_some_iff.mp hs
      cases hpair
      obtain ⟨d, rfl, hkept, hcases⟩ := kept_tmpfsWrite hw
      refine ⟨T, h.served_of_kept (h.of_kept (fun i _ => hkept i) h.fresh h.opened)
        (fun i _ => hkept i) fun ho y hy => ?_⟩
      obtain ⟨hmem, type, data, hfile⟩ := ho y hy
      refine ⟨hmem, ?_⟩
      obtain rfl | ⟨n, data', hn, rfl⟩ := hcases
      · exact ⟨type, data, hfile⟩
      · exact file_id_setNode hn hfile
    · cases hs

/-! ## Runs -/

theorem tree_start : Tree (fun i => i = root) start := by
  have hdents : start.dentries root = newDentries .dir root root := rfl
  have hnode : start.disk.node cxlfsRootIno = some ⟨.dir, [], [], 0⟩ := rfl
  have hchild (n : Name) : start.child root n = none := child_newDentries hdents
  have hentry (n : Name) : start.disk.entry cxlfsRootIno n = none := by
    simp [entry, slots, hnode, lookupSlot]
  refine ⟨⟨rfl, ?_, ?_, ?_, ?_, ?_⟩, ?_, rfl, rfl, fun i hi => ?_, by simp [Tmpfs.start]⟩
  · rintro i n j rfl hj
    rw [hchild] at hj
    cases hj
  · rintro i j n m c rfl rfl hc
    rw [hchild] at hc
    cases hc
  · rintro i n rfl hr
    rw [hchild] at hr
    cases hr
  · rintro i j rfl rfl _
    rfl
  · rintro i n rfl
    rw [hchild]
    exact hentry n
  · rintro i rfl
    exact ⟨rfl, fun hreg => (by cases hreg), fun _ => ⟨by decide, by decide, by decide⟩, by decide,
      rfl, by decide⟩
  · by_cases hroot : i = root
    · subst hroot
      decide
    · simp [live, Tmpfs.start, hroot] at hi

/-- In every run of careful requests the two trees are the same, and a careful request that fails
leaves both as they were. -/
theorem trees_agree_in_careful_runs (hrun : ReflTransGen CarefulStep start s) :
    (∀ ns, memTree s ns = diskTree s.disk ns) ∧
      ∀ req luck s' r, Careful s req luck → Tmpfs.serve s req luck = some (s', r) →
        (∀ ns, memTree s' ns = diskTree s'.disk ns) ∧
        ∀ e, r = .error e → ∀ ns, memTree s' ns = memTree s ns ∧
          diskTree s'.disk ns = diskTree s.disk ns := by
  have htree : ∃ T, Tree T s := by
    induction hrun with
    | refl => exact ⟨_, tree_start⟩
    | tail _ hstep ih =>
      obtain ⟨T, hT⟩ := ih
      obtain ⟨req, luck, r, hcareful, hserve⟩ := hstep
      obtain ⟨T', hserved⟩ := hT.serve hcareful hserve
      exact ⟨T', hserved.tree⟩
  obtain ⟨T, hT⟩ := htree
  refine ⟨hT.memTree_eq_diskTree, fun req luck s' r hcareful hserve => ?_⟩
  obtain ⟨T', hserved⟩ := hT.serve hcareful hserve
  refine ⟨hserved.tree.memTree_eq_diskTree, fun e he ns => ⟨hserved.error e he ns, ?_⟩⟩
  rw [← hserved.tree.memTree_eq_diskTree, hserved.error e he, hT.memTree_eq_diskTree]

end served

/-- Everything goes right. -/
def fine : Luck := ⟨false, false, false, .whole, .whole⟩

theorem trees_agree_after_two_requests : ∃ s, ReflTransGen CarefulStep start s ∧
    memTree s [['d'], ['f']] = some (3, .reg) ∧ ∀ ns, memTree s ns = diskTree s.disk ns := by
  have hplain (s : State) : Plain s ['/', 'd'] ∧ Plain s ['/', 'd', '/', 'f'] :=
    ⟨plain_of_components (by decide), plain_of_components (by decide)⟩
  have hmkdir : Careful start (.mkdir ['/', 'd']) fine :=
    ⟨by simpa using (hplain _).1, trivial, trivial, trivial⟩
  have hcreat (s : State) : Careful s (.creat ['/', 'd', '/', 'f']) fine :=
    ⟨by simpa using (hplain s).2, trivial, trivial, trivial⟩
  obtain ⟨s, hrun, htree⟩ : ∃ s, ReflTransGen CarefulStep start s ∧
      memTree s [['d'], ['f']] = some (3, .reg) :=
    ⟨_, .tail (.tail .refl ⟨_, _, _, hmkdir, rfl⟩) ⟨_, _, _, hcreat _, rfl⟩, by decide⟩
  exact ⟨s, hrun, htree, (trees_agree_in_careful_runs hrun).1⟩

/-- `rmdir` of a directory that is not empty: it fails, but the durable directory is gone. -/
theorem rmdir_of_full_directory : ∃ s s' luck, ReflTransGen Step start s ∧
    serve s (.rmdir ['/', 'd']) luck = some (s', .error .notempty) ∧
    memTree s' [['d']] = some (2, .dir) ∧ diskTree s.disk [['d']] = some (2, .dir) ∧
    diskTree s'.disk [['d']] = none :=
  ⟨_, _, fine, .tail (.tail .refl ⟨.mkdir ['/', 'd'], fine, _, rfl⟩)
    ⟨.creat ['/', 'd', '/', 'f'], fine, _, rfl⟩, rfl, by decide, by decide, by decide⟩

end Starfish.Tmpfs
