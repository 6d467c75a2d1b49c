import Starfish.Tmpfs.Runs

/-!
# Starfish.Tmpfs.Handles

Reads and writes through open files.

* `Disk.Ids`: no two durable nodes are the same file, whatever the requests do.
* `open_file_is_its_own` is the main result: as long as the requests are careful and take no open
  file out of the tree, a read or a write through an open file is a read or a write of the file
  that was opened.
* `write_to_recycled_inode`: the inode number of a file that is unlinked while it is open is given
  to the next new file, and a write through the old handle changes the new file.
-/

namespace Starfish.Tmpfs

open Function Option Relation State

/-- What an operation leaves behind satisfies `P`, if the operation returns. -/
def Leaves {σ α : Type} (P : σ → Prop) : Option (σ × α) → Prop
  | none => True
  | some x => P x.1

theorem Leaves.of_eq {σ α : Type} {P : σ → Prop} {e : Option (σ × α)} {s : σ} {r : α}
    (h : Leaves P e) (he : e = some (s, r)) : P s := by
  subst he
  exact h

/-! ## Identities -/

/-- Each durable node is a file of its own. -/
structure Disk.Ids (d : Disk) : Prop where
  lt : ∀ ino n, d.node ino = some n → n.id < d.nextId
  inj : ∀ ino ino' n n', d.node ino = some n → d.node ino' = some n' → n.id = n'.id → ino = ino'

namespace Disk.Ids

variable {d d' : Disk} {ino p k : ℕ} {n n' : DiskNode} {w clear : WriteResult}

theorem destroyDiskInode (h : d.Ids) (ino : ℕ) : (d.destroyDiskInode ino).Ids := by
  have hnode {k n} (hk : (d.destroyDiskInode ino).node k = some n) : d.node k = some n := by
    simp only [Disk.destroyDiskInode, setNode] at hk
    by_cases hki : k = ino
    · rw [hki, update_self] at hk
      cases hk
    · rwa [update_of_ne hki] at hk
  exact ⟨fun k n hk => h.lt k n (hnode hk),
    fun k k' n n' hk hk' => h.inj k k' n n' (hnode hk) (hnode hk')⟩

/-- A node changes but stays the same file. -/
theorem setNode (h : d.Ids) (hn : d.node ino = some n) (hid : n'.id = n.id) :
    (d.setNode ino (some n')).Ids := by
  have hnode {k m} (hk : (d.setNode ino (some n')).node k = some m) :
      ∃ m', d.node k = some m' ∧ m'.id = m.id := by
    simp only [Disk.setNode] at hk
    by_cases hki : k = ino
    · rw [hki, update_self] at hk
      cases hk
      exact ⟨n, hki ▸ hn, hid.symm⟩
    · rw [update_of_ne hki] at hk
      exact ⟨m, hk, rfl⟩
  refine ⟨fun k m hk => ?_, fun k k' m m' hk hk' hmm => ?_⟩
  · obtain ⟨m₁, hm1, hid1⟩ := hnode hk
    rw [← hid1]
    exact h.lt k m₁ hm1
  · obtain ⟨m₁, hm1, hid1⟩ := hnode hk
    obtain ⟨m2, hm2, hid2⟩ := hnode hk'
    exact h.inj k k' m₁ m2 hm1 hm2 (by rw [hid1, hid2, hmm])

theorem addNode (h : d.Ids) {type : FileType} : (d.addNode ino type).Ids := by
  have hnode {k m} (hk : (d.addNode ino type).node k = some m) :
      k = ino ∧ m.id = d.nextId ∨ d.node k = some m := by
    simp only [Disk.addNode, Disk.setNode] at hk
    by_cases hki : k = ino
    · rw [hki, update_self] at hk
      cases hk
      exact .inl ⟨hki, rfl⟩
    · rw [update_of_ne hki] at hk
      exact .inr hk
  refine ⟨fun k m hk => ?_, fun k k' m m' hk hk' hmm => ?_⟩
  · show m.id < d.nextId + 1
    obtain ⟨_, hid⟩ | hk := hnode hk
    · omega
    · exact Nat.lt_succ_of_lt (h.lt k m hk)
  · obtain ⟨hki, hid⟩ | hold := hnode hk
    · obtain ⟨hki', _⟩ | hold' := hnode hk'
      · rw [hki, hki']
      · have := h.lt k' m' hold'
        omega
    · obtain ⟨_, hid⟩ | hold' := hnode hk'
      · have := h.lt k m hold
        omega
      · exact h.inj k k' m m' hold hold' hmm

theorem writeDirent (h : d.Ids) (hw : d.writeDirent p k y w = (d', b)) : d'.Ids := by
  unfold Disk.writeDirent at hw
  split at hw
  · cases hw
    exact h
  · next m hm =>
    split at hw
    · cases hw
      exact h.setNode hm rfl
    · cases hw
      exact h
    · cases hw
      exact h.setNode hm rfl

theorem createNode (h : d.Ids) {type : FileType} : Leaves Ids (d.createNode p name type w) := by
  unfold Disk.createNode
  split
  · exact h
  · split
    · split
      · exact h
      · exact h
    · split
      · trivial
      · split
        · exact h
        · split
          · exact h
          · dsimp only
            split
            · next hw => exact h.addNode.writeDirent hw
            · next hw => exact (h.addNode.writeDirent hw).destroyDiskInode _

variable {r : Except Errno Unit}

theorem unlinkNode (h : d.Ids) {name : Name} (hu : d.unlinkNode p name w = (d', r)) : d'.Ids := by
  unfold Disk.unlinkNode at hu
  split at hu
  · cases hu
    exact h
  · split at hu
    · cases hu
      exact h
    · split at hu
      · cases hu
        exact h
      · split at hu
        · next hw =>
          cases hu
          exact (h.writeDirent hw).destroyDiskInode _
        · next hw =>
          cases hu
          exact h.writeDirent hw

theorem moveDirent (h : d.Ids)
    (hm : d.moveDirent p k e q j replaced l w clear = (d', r)) : d'.Ids := by
  unfold Disk.moveDirent at hm
  split at hm
  · next hw =>
    cases hm
    exact h.writeDirent hw
  · next d1 hw =>
    have hwritten := h.writeDirent hw
    have hcleared : (if p = q ∧ k = j then d1 else (d1.writeDirent p k none clear).1).Ids := by
      split
      · exact hwritten
      · exact hwritten.writeDirent rfl
    cases hm
    cases replaced with
    | none => exact hcleared
    | some e' =>
      dsimp only
      split
      · exact hcleared.destroyDiskInode _
      · exact hcleared

theorem renameNode (h : d.Ids) : Leaves Ids (d.renameNode p m q l w clear) := by
  unfold Disk.renameNode
  split
  · exact h
  · split
    · exact h
    · split
      · exact h
      · split
        · exact h
        · split
          · trivial
          · split
            · exact h.moveDirent (Prod.eta _).symm
            · exact h.moveDirent (Prod.eta _).symm

end Disk.Ids

section requests

variable {s s' : State} {p q : ℕ} {m l path : Name} {luck : Luck} {type : FileType}

variable {r : Except Errno Unit}

/-- The disk is `d` afterwards. -/
abbrev KeepsDisk {α : Type} (d : Disk) : Option (State × α) → Prop := Leaves (·.disk = d)

theorem Leaves.ids {α : Type} {d : Disk} {e : Option (State × α)} (he : KeepsDisk d e)
    (h : d.Ids) : Leaves (·.disk.Ids) e := by
  cases e with
  | none => trivial
  | some x =>
    obtain rfl : x.1.disk = d := he
    exact h

theorem disk_dropOld : KeepsDisk s.disk (dropOld s p x) := by
  unfold dropOld
  split
  · trivial
  · next hput => exact (putInode_frame hput).2.1
  · next hput => exact disk_setDentries.trans (putInode_frame hput).2.1

theorem disk_tfsRemove : KeepsDisk s.disk (tfsRemove s p m) := by
  unfold tfsRemove
  split
  · rfl
  · split
    · rfl
    · split
      · rfl
      · exact disk_dropOld

theorem disk_moveDent {x : Dent} : KeepsDisk s.disk (moveDent s p x q l luck) := by
  unfold moveDent
  split
  · rfl
  · refine Eq.subst (motive := (KeepsDisk · _)) ?_ disk_dropOld
    rw [disk_setDentries, getInode_eq, disk_addRefs]

theorem disk_replaceDent {x y : Dent} : KeepsDisk s.disk (replaceDent s p x q y) := by
  unfold replaceDent
  dsimp only
  split
  · trivial
  · next hput =>
    have hdisk := (putInode_frame hput).2.1
    rwa [disk_setDentries, getInode_eq, disk_addRefs] at hdisk
  · next hput =>
    have hdisk := (putInode_frame hput).2.1
    rw [disk_setDentries, getInode_eq, disk_addRefs] at hdisk
    rw [← hdisk]
    exact disk_dropOld

section

variable (h : s.disk.Ids)
include h

theorem ids_tfsMake : Leaves (·.disk.Ids) (tfsMake s p m type luck) := by
  unfold tfsMake tfsMknod
  split
  · exact h
  · split
    · trivial
    · split
      · exact h
      · dsimp only
        rw [disk_newInode]
        split
        · trivial
        · next hc => exact h.createNode.of_eq hc
        · next hc =>
          split
          · trivial
          · show Disk.Ids _
            rw [linkInode_eq, disk_setDentries, disk_alter]
            exact h.createNode.of_eq hc

theorem ids_renameDisk : Leaves (·.disk.Ids) (renameDisk s p m q l luck) := by
  unfold renameDisk
  split
  · exact h
  · split
    · trivial
    · next hd => exact h.renameNode.of_eq hd

theorem ids_tmpfsOpen {creat : Bool} : Leaves (·.disk.Ids) (tmpfsOpen s path creat luck) := by
  have hdisk {s : State} {i : ℕ} (h : s.disk.Ids) : (s.openInode i).disk.Ids := by
    have hsame : (s.openInode i).disk = s.disk := disk_addRefs
    rwa [hsame]
  unfold tmpfsOpen
  split
  · trivial
  · exact h
  · exact h
  · exact hdisk h
  · split
    · exact h
    · split
      · trivial
      · next hmake => exact (ids_tfsMake h).of_eq hmake
      · next hmake => exact hdisk ((ids_tfsMake h).of_eq hmake)

theorem ids_fsCreat : Leaves (·.disk.Ids) (fsCreat s path luck) := by
  unfold fsCreat
  split
  · trivial
  · split
    · exact h
    · split
      · trivial
      · exact h
      · exact ids_tfsMake h

theorem ids_tmpfsMkdir : Leaves (·.disk.Ids) (tmpfsMkdir s path luck) := by
  unfold tmpfsMkdir
  split
  · trivial
  · exact h
  · exact h
  · exact h
  · exact ids_tfsMake h

theorem ids_tmpfsUnlink {rmdir : Bool} : Leaves (·.disk.Ids) (tmpfsUnlink s path rmdir luck) := by
  unfold tmpfsUnlink
  split
  · trivial
  · exact h
  · exact h
  · split
    · exact h
    · split
      · exact h
      · split
        · exact h
        · split
          · next hd => exact h.unlinkNode hd
          · next hd => exact disk_tfsRemove.ids (h.unlinkNode hd)

theorem ids_tmpfsRename {old new : Name} : Leaves (·.disk.Ids) (tmpfsRename s old new luck) := by
  unfold tmpfsRename
  split
  · trivial
  · exact h
  · exact h
  · exact h
  · split
    · exact h
    · split
      · trivial
      · exact h
      · exact h
      · split
        · exact h
        · split
          · exact h
          · split
            · exact h
            · split
              · exact h
              · split
                · exact h
                · split
                  · trivial
                  · next hd => exact (ids_renameDisk h).of_eq hd
                  · next hd =>
                    split
                    · exact disk_replaceDent.ids ((ids_renameDisk h).of_eq hd)
                    · trivial
      · split
        · exact h
        · split
          · trivial
          · next hd => exact (ids_renameDisk h).of_eq hd
          · next hd =>
            split
            · exact disk_moveDent.ids ((ids_renameDisk h).of_eq hd)
            · trivial

/-- No request makes two nodes of one file. -/
theorem ids_serve {req : Request} (hs : serve s req luck = some (s', r)) : s'.disk.Ids := by
  cases req with
  | openFile path creat =>
    obtain ⟨⟨s1, r₁⟩, hopen, hpair⟩ := map_eq_some_iff.mp hs
    cases hpair
    exact (ids_tmpfsOpen h).of_eq hopen
  | creat path =>
    obtain ⟨⟨s1, r₁⟩, hcreat, hpair⟩ := map_eq_some_iff.mp hs
    cases hpair
    exact (ids_fsCreat h).of_eq hcreat
  | mkdir path =>
    obtain ⟨⟨s1, r₁⟩, hmkdir, hpair⟩ := map_eq_some_iff.mp hs
    cases hpair
    exact (ids_tmpfsMkdir h).of_eq hmkdir
  | unlink | rmdir => exact (ids_tmpfsUnlink h).of_eq hs
  | rename old new => exact (ids_tmpfsRename h).of_eq hs
  | close x =>
    rw [serve] at hs
    split at hs
    · rw [(putInode_frame hs).2.1]
      exact h
    · cases hs
  | read x offset size =>
    rw [serve] at hs
    split at hs
    · obtain ⟨r₁, _, hpair⟩ := map_eq_some_iff.mp hs
      cases hpair
      exact h
    · cases hs
  | write x offset bs room =>
    rw [serve] at hs
    split at hs
    · obtain ⟨⟨s1, r₁⟩, hw, hpair⟩ := map_eq_some_iff.mp hs
      cases hpair
      obtain ⟨d, rfl, _, rfl | ⟨n, data, hn, rfl⟩⟩ := kept_tmpfsWrite hw
      · exact h
      · exact h.setNode hn rfl
    · cases hs

end

end requests

/-! ## Runs -/

/-- A careful request that takes no open file out of the tree. -/
def QuietStep (s s' : State) : Prop :=
  ∃ req luck r, Careful s req luck ∧ serve s req luck = some (s', r) ∧
    (r = .ok () → ∀ x ∈ s.handles, ¬ Removes s req x.inode)

theorem ids_start : start.disk.Ids := by
  have hnode {k n} (hk : start.disk.node k = some n) : k = cxlfsRootIno ∧ n.id = 0 := by
    simp only [start] at hk
    by_cases hki : k = cxlfsRootIno
    · rw [hki, update_self] at hk
      cases hk
      exact ⟨hki, rfl⟩
    · rw [update_of_ne hki] at hk
      cases hk
  refine ⟨fun k n hk => ?_, fun k k' n n' hk hk' _ => (hnode hk).1.trans (hnode hk').1.symm⟩
  rw [(hnode hk).2]
  decide

/-- In every run of such requests, an open file `x` has its own durable node: a read through it
returns the bytes of this node, and a write changes no other one.  A node has its bytes as they are
read; the blocks they are stored in are left out. -/
theorem open_file_is_its_own {s : State} (hrun : ReflTransGen QuietStep start s) {x : Handle}
    (hx : x ∈ s.handles) :
    ∃ n, s.disk.node (s.diskIno x.inode) = some n ∧ n.id = x.id ∧
      (∀ ino n', s.disk.node ino = some n' → n'.id = x.id → ino = s.diskIno x.inode) ∧
      (∀ offset size r, tmpfsRead s x.inode offset size = some r →
        r = .ok ((n.data.drop offset).take size)) ∧
      ∀ offset bs room luck s' r, tmpfsWrite s x.inode offset bs room luck = some (s', r) →
        ∀ ino n', s.disk.node ino = some n' → n'.id ≠ x.id → s'.disk.node ino = some n' := by
  have hinv : (∃ T, Tree T s ∧ Opened T s) ∧ s.disk.Ids := by
    clear hx
    induction hrun with
    | refl => exact ⟨⟨_, tree_start, fun y hy => by cases hy⟩, ids_start⟩
    | tail _ hstep ih =>
      obtain ⟨⟨T, hT, ho⟩, hids⟩ := ih
      obtain ⟨req, luck, r, hcareful, hserve, hquiet⟩ := hstep
      obtain ⟨T', hserved⟩ := hT.serve hcareful hserve
      exact ⟨⟨T', hserved.tree, hserved.opened hquiet ho⟩, ids_serve hids hserve⟩
  obtain ⟨⟨T, hT, ho⟩, hids⟩ := hinv
  obtain ⟨hmem, type, data, hfile⟩ := ho x hx
  obtain ⟨n, hn, htriple⟩ := map_eq_some_iff.mp hfile
  have hid : n.id = x.id := congrArg (fun f => f.2.2) htriple
  refine ⟨n, hn, hid, fun ino n' hn' hid' => hids.inj _ _ _ _ hn' hn (hid'.trans hid.symm), ?_, ?_⟩
  · intro offset size r hread
    unfold tmpfsRead at hread
    split at hread
    · cases hread
    · cases hread
      simp only [Disk.read, hn]
  · intro offset bs room luck s' r hwrite ino n' hn' hid'
    obtain ⟨d, rfl, _, rfl | ⟨n1, data, hn1, rfl⟩⟩ := kept_tmpfsWrite hwrite
    · exact hn'
    · have hne : ino ≠ s.diskIno x.inode := by
        rintro rfl
        rw [hn] at hn'
        cases hn'
        exact hid' hid
      exact (update_of_ne hne _ _).trans hn'

theorem open_file_beside_another : ∃ s, ReflTransGen QuietStep start s ∧
    s.handles = [⟨2, 2⟩, ⟨1, 1⟩] ∧ ∃ n, s.disk.node (s.diskIno 1) = some n ∧ n.id = 1 := by
  have hcareful (s : State) (c : Char) (hc : c = 'f' ∨ c = 'g') :
      Careful s (.openFile ['/', c] true) fine := by
    refine ⟨?_, trivial, trivial, trivial⟩
    obtain rfl | rfl := hc <;> simpa [Request.paths] using plain_of_components (by decide)
  obtain ⟨s, hrun, hs⟩ : ∃ s, ReflTransGen QuietStep start s ∧
      s.handles = [⟨2, 2⟩, ⟨1, 1⟩] :=
    ⟨_, .tail (.tail .refl ⟨_, _, _, hcareful _ 'f' (.inl rfl), rfl, fun _ x hx => by cases hx⟩)
      ⟨_, _, _, hcareful _ 'g' (.inr rfl), rfl, fun _ _ _ => id⟩, by decide⟩
  obtain ⟨n, hn, hid, _⟩ := open_file_is_its_own hrun (x := ⟨1, 1⟩) (by simp [hs])
  exact ⟨s, hrun, hs, n, hn, hid⟩

/-- A file is unlinked while it is open, and another one is created: a write through the open file
changes the new one. -/
theorem write_to_recycled_inode : ∃ s s' x n, ReflTransGen Step start s ∧ x ∈ s.handles ∧
    memTree s [['b']] = some (2, .reg) ∧ s.disk.node 2 = some n ∧ n.id ≠ x.id ∧ n.data = [] ∧
    serve s (.write x 0 [7] 1) fine = some (s', .ok ()) ∧
    s'.disk.node 2 = some { n with data := [7] } :=
  ⟨_, _, ⟨1, 1⟩, ⟨.reg, [], [], 2⟩,
    .tail (.tail (.tail .refl ⟨.openFile ['/', 'a'] true, fine, _, rfl⟩)
      ⟨.unlink ['/', 'a'], fine, _, rfl⟩) ⟨.creat ['/', 'b'], fine, _, rfl⟩,
    by decide, by decide, by decide, by decide, rfl, rfl, by decide⟩

end Starfish.Tmpfs
