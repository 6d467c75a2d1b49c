import Mathlib.Algebra.BigOperators.Group.Finset.Piecewise
import Mathlib.Algebra.Order.BigOperators.Group.Finset
import Mathlib.Algebra.Order.Ring.Int
import Starfish.FsWrapper.Spec
import Starfish.Tmpfs.Disk

/-!
# Starfish.FsWrapper.Sizes

The size that a vnode keeps, and the size of its file.

`Contract` is what the comments of the wrapper ask of `server_ops`.  `Tame` leaves out what the
wrapper gets wrong: a truncation by `open`, which no vnode hears of; `pread` and `pwrite`, which
move the offset of the entry; errors of the file system, which are added to the offset; and counts
that do not fit into the `int` that is returned.

* `sizes_agree_in_tame_runs`: the size in a vnode is the size of the file, and a request for data
  is served as it should be.
* `wrong_after_trunc_pread_pwrite`: what happens without `Tame`.
-/

namespace Starfish.FsWrapper

open Function Int Finset Relation List Option

/-! ## What the wrapper expects of the file system -/

def resize (content : List UInt8) (len : ℕ) : List UInt8 :=
  content.take len ++ List.replicate (len - content.length) 0

/-- The calls of a file system that holds `files`. -/
structure Honest (files : ℕ → List UInt8) (env : Env) : Prop where
  read : ∀ id off size, 0 ≤ off →
    (env.read id off size).1 < 0 ∨
      (env.read id off size).2 = ((files id).drop off.toNat).take size ∧
        (env.read id off size).1 = (env.read id off size).2.length
  write : ∀ id off buf, 0 ≤ off → buf ≠ [] →
    (env.write id off buf).1 < 0 ∨
      ∃ k : ℕ, 0 < k ∧ k ≤ buf.length ∧ off + k < 2 ^ 63 ∧ (env.write id off buf).1 = k ∧
        (env.write id off buf).2 = Tmpfs.Disk.writeBytes (files id) off.toNat (buf.take k)
  ftruncate : ∀ id len, 0 ≤ len →
    (env.ftruncate id len).1 = 0 ∧ (env.ftruncate id len).2 = resize (files id) len.toNat ∨
      (env.ftruncate id len).1 ≠ 0 ∧ (env.ftruncate id len).2 = files id

/-- What `server_ops` answers is right for the files as they are.  The file that is opened may be
new, or may have changed while no vnode stood for it. -/
def Contract (s : Server) (env : Env) : Request → Prop
  | .openFile _ _ => ∀ f, env.openFile = .ok f → f.content.length < 2 ^ 63 ∧
      ((s.vnodes f.id).isSome → f.content = s.files f.id) ∧
      Honest (s.setFile f.id f.content).files env
  | _ => Honest s.files env

/-- The entry of a regular file that a descriptor leads to. -/
def Server.fileOf (s : Server) (badge : Badge) (fd : ℤ) : Option (ℤ × Entry × Vnode) :=
  (fsWrapperGetServerEntry s badge fd).bind fun fid => (s.fileAt fid).map fun p => (fid, p)

/-- A request that the wrapper serves without an error of its own:
* `O_TRUNC` only of a file that is empty;
* `pread` only where it ends at the offset of the entry, or at the end of the file;
* `pwrite` only of nothing;
* the file system has no error, and the count is a positive `int`. -/
def Tame (s : Server) (badge : Badge) (env : Env) : Request → Prop
  | .openFile _ flags => flags.trunc → ∀ f, env.openFile = .ok f → f.content = []
  | .read _ count => count < 2 ^ 31 ∧ ∀ id off size, 0 ≤ (env.read id off size).1
  | .pread fd count offset =>
    count < 2 ^ 31 ∧ (∀ id off size, 0 ≤ (env.read id off size).1) ∧
      ∀ fid e v, s.fileOf badge fd = some (fid, e, v) →
        v.size ≤ sizeT (offT offset) ∨
          offT offset + (min count (v.size - (offT offset).toNat) : ℕ) = e.offset
  | .write _ buf => buf.length < 2 ^ 31 ∧ ∀ id off buf, 0 ≤ (env.write id off buf).1
  | .pwrite _ buf _ => buf = []
  | _ => True

def HonestStep (s s' : Server) : Prop :=
  ∃ badge req env r, Contract s env req ∧ fsServerDispatch s badge req env = some r ∧
    s' = r.server

def TameStep (s s' : Server) : Prop :=
  ∃ badge req env r, Contract s env req ∧ Tame s badge env req ∧
    fsServerDispatch s badge req env = some r ∧ s' = r.server

/-- What the client of a request for data gets, and what becomes of the entry's offset. -/
def Served (s : Server) (badge : Badge) (r : Reply) : Request → Prop
  | .read fd count => ∀ fid e v, s.fileOf badge fd = some (fid, e, v) →
      r.ret = (min count ((s.files e.vnode).length - e.offset.toNat) : ℕ) ∧
      r.data = ((s.files e.vnode).drop e.offset.toNat).take count ∧
      r.server.entrys fid = some { e with offset := e.offset + r.ret }
  | .pread fd count offset => ∀ fid e v, s.fileOf badge fd = some (fid, e, v) →
      (0 ≤ offT offset →
        r.ret = (min count ((s.files e.vnode).length - (offT offset).toNat) : ℕ) ∧
        r.data = ((s.files e.vnode).drop (offT offset).toNat).take count) ∧
      r.server.entrys fid = some e
  | .write fd _ => ∀ fid e v, s.fileOf badge fd = some (fid, e, v) →
      r.server.entrys fid = some { e with offset := e.offset + r.ret }
  | .pwrite fd _ _ => ∀ fid e v, s.fileOf badge fd = some (fid, e, v) →
      r.server.entrys fid = some e
  | _ => True

/-! ## Machine integers -/

variable {z : ℤ}

theorem offT_of_lt (h0 : 0 ≤ z) (h1 : z < 2 ^ 63) : offT z = z :=
  bmod_eq_of_le (by omega) (by omega)

theorem offT_lt (z : ℤ) : offT z < 2 ^ 63 := by
  have := bmod_lt (x := z) (m := 2 ^ 64) (by decide)
  unfold offT
  omega

theorem int_of_lt (h0 : 0 ≤ z) (h1 : z < 2 ^ 31) : int z = z :=
  bmod_eq_of_le (by omega) (by omega)

theorem sizeT_of_lt (h0 : 0 ≤ z) (h1 : z < 2 ^ 63) : sizeT z = z.toNat := by
  unfold sizeT
  rw [emod_eq_of_lt h0 (by omega)]

theorem sizeT_of_neg (h : offT z < 0) : 2 ^ 63 ≤ sizeT (offT z) := by
  have hlo := le_bmod (x := z) (m := 2 ^ 64) (by decide)
  unfold sizeT offT at *
  omega

/-! ## The references to the vnodes -/

/-- One if the slot holds an entry of the vnode. -/
def uses (id : ℕ) (x : Option Entry) : ℤ := if x.map Entry.vnode = some id then 1 else 0

theorem uses_none (id : ℕ) : uses id none = 0 := rfl

theorem uses_some (id : ℕ) (e : Entry) : uses id (some e) = if id = e.vnode then 1 else 0 := by
  unfold uses
  rw [map_some]
  by_cases h : id = e.vnode
  · rw [if_pos h, if_pos (by rw [h])]
  · rw [if_neg h, if_neg fun hc => h (some.inj hc).symm]

/-- The number of entries of a vnode. -/
def users (es : ℤ → Option Entry) (id : ℕ) : ℤ :=
  ∑ i ∈ Finset.range maxServerEntry, uses id (es i)

theorem users_update {slot : ℤ} (h0 : 0 ≤ slot)
    (h1 : slot < maxServerEntry) (x : Option Entry) (id : ℕ) :
    users (update es slot x) id = users es id - uses id (es slot) + uses id x := by
  have hmem : slot.toNat ∈ Finset.range maxServerEntry := Finset.mem_range.mpr (by omega)
  have hcast : (slot.toNat : ℤ) = slot := toNat_of_nonneg h0
  have hfun : (fun i : ℕ => uses id (update es slot x i)) =
      update (fun i : ℕ => uses id (es i)) slot.toNat (uses id x) := by
    funext i
    by_cases hi : i = slot.toNat
    · rw [hi, update_self, hcast, update_self]
    · have hne : (i : ℤ) ≠ slot := by omega
      rw [update_of_ne hi, update_of_ne hne]
  have hself := update_eq_self slot.toNat (fun i : ℕ => uses id (es i))
  have hold : users es id = uses id (es slot) +
      ∑ i ∈ range maxServerEntry \ {slot.toNat}, uses id (es i) := by
    unfold users
    conv_lhs => rw [← hself]
    rw [sum_update_of_mem hmem, hcast]
  have hnew : users (update es slot x) id = uses id x +
      ∑ i ∈ range maxServerEntry \ {slot.toNat}, uses id (es i) := by
    unfold users
    rw [hfun, sum_update_of_mem hmem]
  omega

theorem users_congr (h : ∀ i, (es' i).map Entry.vnode = (es i).map Entry.vnode) (id : ℕ) :
    users es' id = users es id := by
  unfold users uses
  simp only [h]

/-! ## The invariant -/

/-- The references that a vnode should have. -/
def refcntOf (v : Option Vnode) : ℤ :=
  match v with
  | some v => v.refcnt
  | none => 0

structure Sizes (s : Server) : Prop where
  size : ∀ id v, s.vnodes id = some v → v.size = (s.files id).length
  small : ∀ id v, s.vnodes id = some v → (s.files id).length < 2 ^ 63
  offset : ∀ fid e, s.entrys fid = some e → 0 ≤ e.offset ∧ e.offset < 2 ^ 63
  inside : ∀ fid e, s.entrys fid = some e → 0 ≤ fid ∧ fid < maxServerEntry
  counts : ∀ id, users s.entrys id = refcntOf (s.vnodes id)

variable {s s' : Server} {badge : Badge} {fd fid : ℤ} {env : Env} {r : Reply} {e e' : Entry}
  {v : Vnode} {id : ℕ}

theorem Sizes.start (files : ℕ → List UInt8) : Sizes (Server.start files) where
  size id v h := by cases h
  small id v h := by cases h
  offset fid e h := by cases h
  inside fid e h := by cases h
  counts id := sum_eq_zero fun i _ => if_neg (by intro h; cases h)

section

variable (h : Sizes s)
include h

/-- A slot and a vnode change together. -/
theorem Sizes.recount {x : Option Entry} (h0 : 0 ≤ fid)
    (h1 : fid < maxServerEntry) (hentrys : s'.entrys = update s.entrys fid x)
    (hvnodes : s'.vnodes = update s.vnodes id y) (hfiles : s'.files = s.files)
    (hx : ∀ e, x = some e → 0 ≤ e.offset ∧ e.offset < 2 ^ 63)
    (hy : ∀ v, y = some v → v.size = (s.files id).length ∧ (s.files id).length < 2 ^ 63)
    (huses : ∀ i, uses i x - uses i (s.entrys fid) =
      if i = id then refcntOf y - refcntOf (s.vnodes id) else 0) : Sizes s' where
  size i v hv := by
    rw [hfiles]
    rw [hvnodes] at hv
    by_cases hi : i = id
    · rw [hi, update_self] at hv
      exact hi ▸ (hy v hv).1
    · rw [update_of_ne hi] at hv
      exact h.size i v hv
  small i v hv := by
    rw [hfiles]
    rw [hvnodes] at hv
    by_cases hi : i = id
    · rw [hi, update_self] at hv
      exact hi ▸ (hy v hv).2
    · rw [update_of_ne hi] at hv
      exact h.small i v hv
  offset i e he := by
    rw [hentrys] at he
    by_cases hi : i = fid
    · rw [hi, update_self] at he
      exact hx e he
    · rw [update_of_ne hi] at he
      exact h.offset i e he
  inside i e he := by
    rw [hentrys] at he
    by_cases hi : i = fid
    · exact hi ▸ ⟨h0, h1⟩
    · rw [update_of_ne hi] at he
      exact h.inside i e he
  counts i := by
    have hold := h.counts i
    have hdiff := huses i
    rw [hentrys, users_update h0 h1, hvnodes]
    by_cases hi : i = id
    · subst hi
      rw [if_pos rfl] at hdiff
      rw [update_self]
      omega
    · rw [if_neg hi] at hdiff
      rw [update_of_ne hi]
      omega

theorem Sizes.moved (he : s.entrys fid = some e)
    (hentrys : s'.entrys = update s.entrys fid (some e')) (hvnodes : s'.vnodes = s.vnodes)
    (hfiles : s'.files = s.files) (hv : e'.vnode = e.vnode) (h0 : 0 ≤ e'.offset)
    (h1 : e'.offset < 2 ^ 63) : Sizes s' := by
  obtain ⟨hf0, hf1⟩ := h.inside fid e he
  have hsame : s'.vnodes = update s.vnodes e.vnode (s.vnodes e.vnode) := by
    rw [hvnodes, update_eq_self]
  refine h.recount hf0 hf1 hentrys hsame hfiles ?_ ?_ ?_
  · intro e1 he1
    cases he1
    exact ⟨h0, h1⟩
  · exact fun v hv => ⟨h.size _ v hv, h.small _ v hv⟩
  · intro i
    rw [he, uses_some, uses_some, hv]
    split <;> omega

theorem Sizes.resized (hv : s.vnodes id = some v)
    (hlen : content.length < 2 ^ 63) (hentrys : s'.entrys = s.entrys)
    (hvnodes : s'.vnodes = update s.vnodes id (some { v with size := content.length }))
    (hfiles : s'.files = update s.files id content) : Sizes s' where
  size i v1 hv1 := by
    rw [hvnodes, update_apply] at hv1
    rw [hfiles, update_apply]
    grind [h.size i]
  small i v1 hv1 := by
    rw [hvnodes, update_apply] at hv1
    rw [hfiles, update_apply]
    grind [h.small i]
  offset := hentrys ▸ h.offset
  inside := hentrys ▸ h.inside
  counts i := by
    rw [hentrys, hvnodes, update_apply]
    grind [h.counts i, refcntOf]

theorem Sizes.setFile
    (hsame : (s.vnodes id).isSome → content = s.files id) : Sizes (s.setFile id content) := by
  have hfile : ∀ i v1, s.vnodes i = some v1 → update s.files id content i = s.files i := by grind
  refine ⟨fun i v1 hv1 => ?_, fun i v1 hv1 => ?_, h.offset, h.inside, h.counts⟩
  · exact (h.size i v1 hv1).trans (congrArg length (hfile i v1 hv1).symm)
  · exact (congrArg length (hfile i v1 hv1)).trans_lt (h.small i v1 hv1)

theorem Sizes.addEntry (hslot : slot < maxServerEntry)
    (hfree : s.entrys slot = none) (hcontent : s.files f.id = f.content)
    (hlen : f.content.length < 2 ^ 63) (hvnode : e.vnode = f.id) (h0 : 0 ≤ e.offset)
    (h1 : e.offset < 2 ^ 63) : Sizes (holdVnode (s.setEntry slot (some e)) f) := by
  have hslot0 : (0 : ℤ) ≤ slot := by omega
  have hslot1 : (slot : ℤ) < maxServerEntry := by omega
  have hoffset : ∀ e1, some e = some e1 → 0 ≤ e1.offset ∧ e1.offset < 2 ^ 63 := by
    intro e1 he1
    cases he1
    exact ⟨h0, h1⟩
  have hone : ∀ i, uses i (some e) - uses i (s.entrys slot) = if i = f.id then 1 else 0 := by
    intro i
    rw [hfree, uses_none, uses_some, hvnode, sub_zero]
  unfold holdVnode
  cases hv : (s.setEntry slot (some e)).vnodes f.id with
  | some v =>
    replace hv : s.vnodes f.id = some v := hv
    refine h.recount hslot0 hslot1 rfl rfl rfl hoffset ?_ fun i => ?_
    · intro v1 hv1
      cases hv1
      exact ⟨h.size _ v hv, h.small _ v hv⟩
    · rw [hone, hv]
      simp only [refcntOf]
      split <;> omega
  | none =>
    replace hv : s.vnodes f.id = none := hv
    refine h.recount hslot0 hslot1 rfl rfl rfl hoffset ?_ fun i => ?_
    · intro v1 hv1
      cases hv1
      exact ⟨congrArg length hcontent.symm, hcontent ▸ hlen⟩
    · rw [hone, hv]
      rfl

theorem Sizes.dropEntry (he : s.entrys fid = some e) (hv : s.vnodes e.vnode = some v) :
    Sizes (decRefFsVnode (s.setEntry fid none) e.vnode v env) := by
  obtain ⟨h0, h1⟩ := h.inside fid e he
  have hless : ∀ i, uses i none - uses i (s.entrys fid) = if i = e.vnode then -1 else 0 := by
    intro i
    rw [he, uses_none, uses_some]
    split <;> omega
  unfold decRefFsVnode
  split
  · next hzero =>
    refine h.recount (y := none) h0 h1 rfl rfl rfl (fun _ hx => by cases hx)
      (fun _ hy => by cases hy) fun i => ?_
    rw [hless, hv]
    simp only [refcntOf]
    split <;> omega
  · refine h.recount h0 h1 rfl rfl rfl (fun _ hx => by cases hx) ?_ fun i => ?_
    · intro v1 hv1
      cases hv1
      exact ⟨h.size _ v hv, h.small _ v hv⟩
    · rw [hless, hv]
      simp only [refcntOf]
      split <;> omega

/-! ## Requests for data -/

omit h in
theorem fileAt_facts (h : s.fileAt fid = some (e, v)) :
    s.entrys fid = some e ∧ s.vnodes e.vnode = some v := by
  obtain ⟨_, _, he, hv⟩ := entryAt_eq_some (fileAt_eq_some h).1
  exact ⟨he, hv⟩

variable (hget : fsWrapperGetServerEntry s badge fd = some fid)

omit h in
include hget in
theorem fileOf_of_fileAt : s.fileOf badge fd = (s.fileAt fid).map fun p => (fid, p) := by
  rw [Server.fileOf, hget, bind_some]

variable {P : ℤ → Entry → Prop}

omit h in
include hget in
/-- Without a file there is nothing to serve. -/
theorem served_none (hnone : s.fileAt fid = none) (fid' : ℤ) (e : Entry) (v : Vnode)
    (h : s.fileOf badge fd = some (fid', e, v)) : P fid' e := by
  rw [fileOf_of_fileAt hget, hnone] at h
  cases h

omit h in
include hget in
theorem served_some (hf : s.fileAt fid = some (e, v)) (hP : P fid e) (fid' : ℤ) (e' : Entry) (v' : Vnode)
    (h : s.fileOf badge fd = some (fid', e', v')) : P fid' e' := by
  rw [fileOf_of_fileAt hget, hf] at h
  cases h
  exact hP

variable {count : ℕ}

omit h in
theorem readSize_eq (h0 : 0 ≤ o) (h1 : o < 2 ^ 63) (hcount : count < 2 ^ 31)
    (hlt : ¬ v.size ≤ sizeT o) : readSize v o count = min count (v.size - o.toNat) := by
  unfold readSize
  rw [sizeT_of_lt h0 h1] at hlt ⊢
  rw [Nat.mod_eq_of_lt (by omega)]
  split <;> omega

theorem Sizes.read_data (hhonest : Honest s.files env)
    (hok : ∀ id off size, 0 ≤ (env.read id off size).1) (hv : s.vnodes id = some v)
    (hcount : count < 2 ^ 31) (h0 : 0 ≤ o) (h1 : o < 2 ^ 63) (hlt : ¬ v.size ≤ sizeT o) :
    (env.read id o (readSize v o count)).2 = ((s.files id).drop o.toNat).take count ∧
      int (env.read id o (readSize v o count)).1 = (min count ((s.files id).length - o.toNat) : ℕ) ∧
      o + (min count ((s.files id).length - o.toNat) : ℕ) < 2 ^ 63 := by
  have hsize := h.size id v hv
  have hsmall := h.small id v hv
  have hlt' := hlt
  rw [sizeT_of_lt h0 h1, hsize] at hlt'
  rw [readSize_eq h0 h1 hcount hlt, hsize]
  obtain ⟨hdata, hlen⟩ := (hhonest.read id o (min count ((s.files id).length - o.toNat)) h0
    ).resolve_left (not_lt.mpr (hok _ _ _))
  have htake : ((s.files id).drop o.toNat).take (min count ((s.files id).length - o.toNat)) =
      ((s.files id).drop o.toNat).take count := by
    rw [take_eq_take_iff, length_drop]
    omega
  have hret : (env.read id o (min count ((s.files id).length - o.toNat))).1 =
      (min count ((s.files id).length - o.toNat) : ℕ) := by
    rw [hlen, hdata, length_take, length_drop]
    omega
  refine ⟨hdata.trans htake, ?_, by omega⟩
  rw [hret]
  exact int_of_lt (by omega) (by omega)

theorem drop_of_size_le (hv : s.vnodes id = some v) (h0 : 0 ≤ o)
    (h1 : o < 2 ^ 63) (hle : v.size ≤ sizeT o) : (s.files id).length ≤ o.toNat := by
  rwa [sizeT_of_lt h0 h1, h.size id v hv] at hle

include hget in
theorem Sizes.fsWrapperRead (hhonest : Honest s.files env)
    (htame : Tame s badge env (.read fd count)) :
    Sizes (fsWrapperRead s fid count env).server ∧
      Served s badge (fsWrapperRead s fid count env) (.read fd count) := by
  obtain ⟨hcount, hok⟩ := htame
  unfold FsWrapper.fsWrapperRead
  split
  · next hnone => exact ⟨h, served_none hget hnone⟩
  · next e v hf =>
    obtain ⟨he, hv⟩ := fileAt_facts hf
    obtain ⟨h0, h1⟩ := h.offset fid e he
    split
    · next hle =>
      have hlen := drop_of_size_le h hv h0 h1 hle
      refine ⟨h, served_some hget hf ⟨by simp only; omega, ?_, ?_⟩⟩
      · rw [drop_eq_nil_of_le hlen, take_nil]
      · simp only [add_zero]
        exact he
    · next hlt =>
      obtain ⟨hdata, hret, hsum⟩ := h.read_data hhonest hok hv hcount h0 h1 hlt
      have hoff : offT (e.offset + int (env.read e.vnode e.offset (readSize v e.offset count)).1) =
          e.offset + int (env.read e.vnode e.offset (readSize v e.offset count)).1 := by
        rw [hret]
        exact offT_of_lt (by omega) hsum
      dsimp only
      rw [hoff]
      refine ⟨h.moved he rfl rfl rfl rfl ?_ ?_,
        served_some hget hf ⟨hret, hdata, update_self _ _ _⟩⟩
      · rw [hret]
        dsimp only
        omega
      · rw [hret]
        exact hsum

variable {offset : ℤ}

include hget in
theorem Sizes.fsWrapperPread (hhonest : Honest s.files env)
    (htame : Tame s badge env (.pread fd count offset)) :
    Sizes (fsWrapperPread s fid count (offT offset) env).server ∧
      Served s badge (fsWrapperPread s fid count (offT offset) env) (.pread fd count offset) := by
  obtain ⟨hcount, hok, hend⟩ := htame
  have h1 := offT_lt offset
  unfold FsWrapper.fsWrapperPread
  split
  · next hnone => exact ⟨h, served_none hget hnone⟩
  · next e v hf =>
    obtain ⟨he, hv⟩ := fileAt_facts hf
    have hfileOf : s.fileOf badge fd = some (fid, e, v) := by
      rw [fileOf_of_fileAt hget, hf]
      rfl
    split
    · next hle =>
      refine ⟨h, served_some hget hf ⟨fun h0 => ?_, he⟩⟩
      have hlen := drop_of_size_le h hv h0 h1 hle
      refine ⟨by simp only; omega, ?_⟩
      rw [drop_eq_nil_of_le hlen, take_nil]
    · next hlt =>
      -- a negative offset counts as one beyond every file
      have h0 : 0 ≤ offT offset := by
        by_contra hneg
        have := sizeT_of_neg (not_le.mp hneg)
        have := h.size _ v hv
        have := h.small _ v hv
        omega
      obtain ⟨hdata, hret, hsum⟩ := h.read_data hhonest hok hv hcount h0 h1 hlt
      have hsame := (hend fid e v hfileOf).resolve_left hlt
      rw [h.size _ v hv] at hsame
      have hoff : offT (offT offset +
          int (env.read e.vnode (offT offset) (readSize v (offT offset) count)).1) = e.offset := by
        rw [hret, hsame]
        exact offT_of_lt (h.offset fid e he).1 (h.offset fid e he).2
      dsimp only
      rw [hoff]
      obtain ⟨ho0, ho1⟩ := h.offset fid e he
      exact ⟨h.moved he rfl rfl rfl rfl ho0 ho1,
        served_some hget hf ⟨fun _ => ⟨hret, hdata⟩, update_self _ _ _⟩⟩

omit h in
theorem length_writeBytes (data bs : List UInt8) (offset : ℕ) :
    (Tmpfs.Disk.writeBytes data offset bs).length = max data.length (offset + bs.length) := by
  unfold Tmpfs.Disk.writeBytes
  rw [length_append, length_append, length_take, length_append, length_replicate, length_drop]
  omega

include hget in
theorem Sizes.fsWrapperWrite (hhonest : Honest s.files env)
    (htame : Tame s badge env (.write fd buf)) :
    Sizes (fsWrapperWrite s fid buf env).server ∧
      Served s badge (fsWrapperWrite s fid buf env) (.write fd buf) := by
  obtain ⟨hcount, hok⟩ := htame
  unfold FsWrapper.fsWrapperWrite writeAt
  split
  · next hnone => exact ⟨h, served_none hget hnone⟩
  · next e v hf =>
    obtain ⟨he, hv⟩ := fileAt_facts hf
    obtain ⟨h0, h1⟩ := h.offset fid e he
    split
    · refine ⟨h, served_some hget hf ?_⟩
      simp only [add_zero]
      exact he
    · next hne =>
      have hbuf : buf ≠ [] := fun hb => hne (by rw [hb]; rfl)
      obtain ⟨k, hk0, hk1, hsum, hret, hcontent⟩ := (hhonest.write e.vnode e.offset buf h0 hbuf
        ).resolve_left (not_lt.mpr (hok _ _ _))
      have hint : int (env.write e.vnode e.offset buf).1 = k := by
        rw [hret]
        exact int_of_lt (by omega) (by omega)
      have hoff : offT (e.offset + k) = e.offset + k := offT_of_lt (by omega) hsum
      have hsizeT : sizeT (e.offset + k) = e.offset.toNat + k := by
        rw [sizeT_of_lt (by omega) hsum]
        omega
      have hlen : (env.write e.vnode e.offset buf).2.length = max v.size (e.offset.toNat + k) := by
        rw [hcontent, length_writeBytes, length_take, h.size _ v hv, Nat.min_eq_left hk1]
      have hsmall := h.small _ v hv
      rw [← h.size _ v hv] at hsmall
      have hbound : (env.write e.vnode e.offset buf).2.length < 2 ^ 63 := by
        rw [hlen]
        omega
      -- first the entry moves on, then the file and the size in the vnode grow
      have hmoved : Sizes (s.setEntry fid (some { e with offset := e.offset + k })) := by
        refine h.moved he rfl rfl rfl rfl ?_ hsum
        dsimp only
        omega
      dsimp only
      rw [hint, hoff, hsizeT]
      split
      · next hgrow =>
        refine ⟨hmoved.resized hv hbound rfl ?_ rfl, served_some hget hf (update_self _ _ _)⟩
        rw [hlen, Nat.max_eq_right (by omega)]
        rfl
      · next hkeep =>
        refine ⟨hmoved.resized hv hbound rfl ?_ rfl, served_some hget hf (update_self _ _ _)⟩
        rw [hlen, Nat.max_eq_left (by omega)]
        exact (update_eq_self_iff.mpr hv.symm).symm

include hget in
theorem Sizes.fsWrapperPwrite (htame : Tame s badge env (.pwrite fd buf offset)) :
    Sizes (fsWrapperPwrite s fid buf (offT offset) env).server ∧
      Served s badge (fsWrapperPwrite s fid buf (offT offset) env) (.pwrite fd buf offset) := by
  have hbuf : buf = [] := htame
  unfold FsWrapper.fsWrapperPwrite writeAt
  split
  · next hnone => exact ⟨h, served_none hget hnone⟩
  · next e v hf =>
    rw [if_pos (by rw [hbuf]; rfl)]
    exact ⟨h, served_some hget hf (fileAt_facts hf).1⟩

/-! ## The other requests -/

theorem Sizes.fsWrapperLseek
    (hoffset : offset < 2 ^ 63) : Sizes (fsWrapperLseek s fid offset whence).server := by
  unfold FsWrapper.fsWrapperLseek
  split
  · exact h
  · next e v hf =>
    dsimp only
    split
    · exact h
    · next hneg =>
      refine h.moved (fileAt_facts hf).1 rfl rfl rfl rfl (not_lt.mp hneg) ?_
      cases whence with
      | set => exact hoffset
      | cur => exact offT_lt _
      | fromEnd => exact offT_lt _
      | other => exact show (-1 : ℤ) < 2 ^ 63 by decide

theorem Sizes.fsWrapperFtruncate (hhonest : Honest s.files env)
    (hlen : len < 2 ^ 63) : Sizes (fsWrapperFtruncate s fid len env).server := by
  unfold FsWrapper.fsWrapperFtruncate
  split
  · exact h
  · next e v hf =>
    have hv := (fileAt_facts hf).2
    split
    · exact h
    · split
      · exact h
      · next hneg =>
        have h0 := not_lt.mp hneg
        dsimp only
        rcases hhonest.ftruncate e.vnode len h0 with ⟨hret, hcontent⟩ | ⟨hret, hcontent⟩
        · have hlength : (env.ftruncate e.vnode len).2.length = len.toNat := by
            rw [hcontent, resize, length_append, length_take, length_replicate]
            omega
          have hbound : (env.ftruncate e.vnode len).2.length < 2 ^ 63 := by
            rw [hlength]
            omega
          rw [if_pos hret]
          refine h.resized hv hbound rfl ?_ rfl
          rw [hlength, ← sizeT_of_lt h0 hlen]
          rfl
        · rw [if_neg hret]
          refine h.resized hv ?_ rfl ?_ rfl
          · rw [hcontent]
            exact h.small _ v hv
          · rw [hcontent, ← h.size _ v hv]
            exact (update_eq_self_iff.mpr hv.symm).symm

theorem Sizes.fsWrapperClose : Sizes (fsWrapperClose s fid env).server := by
  unfold FsWrapper.fsWrapperClose
  split
  · exact h
  · next e v hev =>
    obtain ⟨_, _, he, hv⟩ := entryAt_eq_some hev
    obtain ⟨h0, h1⟩ := h.offset fid e he
    split
    · exact h.dropEntry he hv
    · exact h.moved he rfl rfl rfl rfl h0 h1

theorem Sizes.fsWrapperFcntl
    (hr : fsWrapperFcntl s badge fid cmd env = some r) : Sizes r.server := by
  unfold FsWrapper.fsWrapperFcntl at hr
  split at hr
  · cases hr
    exact h
  · next e v hev =>
    obtain ⟨_, _, he, hv⟩ := entryAt_eq_some hev
    obtain ⟨h0, h1⟩ := h.offset fid e he
    cases cmd with
    | getfl | other =>
      cases hr
      exact h
    | setfl flags =>
      cases hr
      exact h.moved he rfl rfl rfl rfl h0 h1
    | dupfd arg =>
      obtain ⟨s1, hset, rfl⟩ := map_eq_some_iff.mp hr
      obtain ⟨_, _, rfl⟩ := setServerEntry_eq_some hset
      exact h.moved he rfl rfl rfl rfl h0 h1

theorem Sizes.fsFinishFork (hr : fsFinishFork s child badge env = some r) : Sizes r.server := by
  unfold FsWrapper.fsFinishFork at hr
  split at hr
  · cases hr
    exact h
  · obtain ⟨es, hes, rfl⟩ := map_eq_some_iff.mp hr
    have hcount := (inherit_eq_some hes).2
    have hold : ∀ i e, es i = some e → ∃ e0, s.entrys i = some e0 ∧ e0.offset = e.offset := by
      intro i e he
      obtain ⟨e0, he0, rfl⟩ := map_eq_some_iff.mp ((hcount i).symm.trans he)
      exact ⟨e0, he0, rfl⟩
    refine ⟨h.size, h.small, fun i e he => ?_, fun i e he => ?_, fun id => ?_⟩
    · obtain ⟨e0, he0, hoff⟩ := hold i e he
      rw [← hoff]
      exact h.offset i e0 he0
    · obtain ⟨e0, he0, _⟩ := hold i e he
      exact h.inside i e0 he0
    · refine (users_congr (fun i => ?_) id).trans (h.counts id)
      dsimp only
      rw [hcount i, Option.map_map]
      rfl

omit h in
theorem openTrunc_eq
    (hhonest : Honest (s.setFile f.id f.content).files env) (htame : flags.trunc → f.content = []) :
    openTrunc (s.setFile f.id f.content) flags f env = s.setFile f.id f.content := by
  unfold openTrunc
  split
  · next htrunc =>
    have hempty := htame htrunc.1
    have hself : (s.setFile f.id f.content).files f.id = f.content := update_self _ _ _
    have hfile := hself.trans hempty
    have hcontent : (env.ftruncate f.id 0).2 = [] := by
      rcases hhonest.ftruncate f.id 0 (le_refl 0) with ⟨_, hc⟩ | ⟨_, hc⟩
      · rw [hc, hfile]
        rfl
      · rw [hc, hfile]
    rw [hcontent, hempty]
    unfold Server.setFile
    rw [update_idem]
  · rfl

theorem Sizes.fsWrapperOpen (hcontract : Contract s env (.openFile newFd flags))
    (htame : Tame s badge env (.openFile newFd flags))
    (hr : fsWrapperOpen s badge newFd flags env = some r) : Sizes r.server := by
  rcases open_cases hr with ⟨_, hs | ⟨f, hf, hs⟩⟩ | ⟨f, slot, hslot, hf, _, _, hs⟩
  · rw [hs]
    exact h
  · obtain ⟨_, hsame, hhonest⟩ := hcontract f hf
    have heq : r.server = s.setFile f.id f.content := by
      rcases hs with hs | hs
      · exact hs
      · rw [hs, openTrunc_eq hhonest fun ht => htame ht f hf]
    rw [heq]
    exact h.setFile hsame
  · obtain ⟨hlen, hsame, hhonest⟩ := hcontract f hf
    obtain ⟨hlt, hfree⟩ := allocEntry_eq_some (openSlot_eq_some hslot)
    have hoff : 0 ≤ (newEntry flags f).offset ∧ (newEntry flags f).offset < 2 ^ 63 := by
      unfold newEntry
      dsimp only
      split
      · rw [offT_of_lt (by omega) (by omega)]
        omega
      · omega
    have hadd : Sizes (openedServer s flags f slot env) := by
      unfold openedServer
      rw [openTrunc_eq hhonest fun ht => htame ht f hf]
      exact (h.setFile hsame).addEntry hlt hfree (update_self _ _ _) hlen rfl hoff.1 hoff.2
    rw [hs]
    exact ⟨hadd.size, hadd.small, hadd.offset, hadd.inside, hadd.counts⟩

/-! ## Runs -/

theorem Sizes.dispatch (hcontract : Contract s env req)
    (htame : Tame s badge env req) (hr : fsServerDispatch s badge req env = some r) :
    Sizes r.server ∧ Served s badge r req := by
  cases req with
  | openFile newFd flags => exact ⟨h.fsWrapperOpen hcontract htame hr, trivial⟩
  | fork child => exact ⟨h.fsFinishFork hr, trivial⟩
  | close fd =>
    obtain ⟨fid, hget, hr⟩ := bind_eq_some_iff.mp hr
    cases hr
    exact ⟨h.fsWrapperClose, trivial⟩
  | fcntl fd cmd =>
    obtain ⟨fid, hget, hr⟩ := bind_eq_some_iff.mp hr
    exact ⟨h.fsWrapperFcntl hr, trivial⟩
  | read fd count =>
    obtain ⟨fid, hget, hr⟩ := bind_eq_some_iff.mp hr
    cases hr
    exact h.fsWrapperRead hget hcontract htame
  | pread fd count offset =>
    obtain ⟨fid, hget, hr⟩ := bind_eq_some_iff.mp hr
    cases hr
    exact h.fsWrapperPread hget hcontract htame
  | write fd buf =>
    obtain ⟨fid, hget, hr⟩ := bind_eq_some_iff.mp hr
    cases hr
    exact h.fsWrapperWrite hget hcontract htame
  | pwrite fd buf offset =>
    obtain ⟨fid, hget, hr⟩ := bind_eq_some_iff.mp hr
    cases hr
    exact h.fsWrapperPwrite hget htame
  | lseek fd offset whence =>
    obtain ⟨fid, hget, hr⟩ := bind_eq_some_iff.mp hr
    cases hr
    exact ⟨h.fsWrapperLseek (offT_lt offset), trivial⟩
  | ftruncate fd len =>
    obtain ⟨fid, hget, hr⟩ := bind_eq_some_iff.mp hr
    cases hr
    exact ⟨h.fsWrapperFtruncate hcontract (offT_lt len), trivial⟩

end

theorem sizes_of_tame_run (h : ReflTransGen TameStep (Server.start files) s) : Sizes s := by
  induction h with
  | refl => exact Sizes.start files
  | tail _ hstep ih =>
    obtain ⟨badge, req, env, r, hcontract, htame, hr, rfl⟩ := hstep
    exact (ih.dispatch hcontract htame hr).1

/-- As long as every request is tame, the size in each vnode is the size of its file, and every
request for data gets the bytes of the file and moves the offset as it should. -/
theorem sizes_agree_in_tame_runs (files : ℕ → List UInt8) (s : Server)
    (hrun : ReflTransGen TameStep (Server.start files) s) :
    (∀ id v, s.vnodes id = some v → v.size = (s.files id).length) ∧
      ∀ badge req env r, Contract s env req → Tame s badge env req →
        fsServerDispatch s badge req env = some r → Served s badge r req := by
  have h := sizes_of_tame_run hrun
  refine ⟨h.size, ?_⟩
  intro badge req env r hcontract htame hr
  exact (h.dispatch hcontract htame hr).2

/-- A file system that holds `files` and has no errors; `open` finds the file `id`. -/
def honestEnv (files : ℕ → List UInt8) (id : ℕ) : Env where
  openFile := .ok ⟨id, .reg, files id⟩
  read id off size := (((files id).drop off.toNat).take size |>.length,
    ((files id).drop off.toNat).take size)
  write id off buf :=
    if off + buf.length < 2 ^ 63 then
      (buf.length, Tmpfs.Disk.writeBytes (files id) off.toNat buf)
    else (-1, files id)
  ftruncate id len := (0, resize (files id) len.toNat)
  close _ := 0
  fcntl := 0
  mallocEntry := true
  mallocNode := true
  junk _ := -1

theorem honest_honestEnv (files : ℕ → List UInt8) (id : ℕ) : Honest files (honestEnv files id) where
  read i off size _ := .inr ⟨rfl, rfl⟩
  write i off buf _ hbuf := by
    by_cases hfits : off + buf.length < 2 ^ 63
    · refine .inr ⟨buf.length, length_pos_iff.mpr hbuf, Nat.le_refl _, hfits, ?_, ?_⟩
      · simp only [honestEnv, if_pos hfits]
      · simp only [honestEnv, if_pos hfits, take_length]
    · left
      simp only [honestEnv, if_neg hfits]
      decide
  ftruncate i len _ := .inl ⟨rfl, rfl⟩

theorem contract_honestEnv (s : Server) (id : ℕ) (hlen : (s.files id).length < 2 ^ 63)
    (req : Request) : Contract s (honestEnv s.files id) req := by
  cases req with
  | openFile newFd flags =>
    intro f hf
    cases hf
    refine ⟨hlen, fun _ => rfl, ?_⟩
    have hsame : (s.setFile id (s.files id)).files = s.files := update_eq_self id s.files
    rw [hsame]
    exact honest_honestEnv s.files id
  | close | read | pread | write | pwrite | lseek | ftruncate | fcntl | fork =>
    exact honest_honestEnv s.files id

set_option maxRecDepth 2000 in
theorem read_after_open : ∃ s r,
    ReflTransGen TameStep (Server.start fun _ => [1, 2]) s ∧
      fsServerDispatch s 1 (.read 3 8) (honestEnv s.files 7) = some r ∧
      Served s 1 r (.read 3 8) ∧ r.ret = 2 ∧ r.data = [1, 2] := by
  have hrun : ReflTransGen TameStep (Server.start fun _ => [1, 2]) _ :=
    .single ⟨1, .openFile 3 {}, honestEnv (fun _ => [1, 2]) 7, _,
      contract_honestEnv (Server.start fun _ => [1, 2]) 7 (by decide) _, (fun h => by cases h),
      rfl, rfl⟩
  refine ⟨_, _, hrun, rfl, ?_, by decide +kernel, by decide +kernel⟩
  refine (sizes_agree_in_tame_runs _ _ hrun).2 1 _ _ _ ?_ ?_ rfl
  · exact contract_honestEnv _ 7 (by decide +kernel) _
  · exact ⟨by decide, fun _ _ _ => natCast_nonneg _⟩

set_option maxRecDepth 2000 in
/-- A file of two bytes.
* Opened with `O_TRUNC`, it is empty, but the size in its vnode is still two.
* A `pread` of one byte at 0 moves the offset of the entry to 1.
* A `pwrite` of one byte at 0 moves it too. -/
theorem wrong_after_trunc_pread_pwrite :
    (∃ s v, ReflTransGen HonestStep (Server.start fun _ => [1, 2]) s ∧ s.vnodes 7 = some v ∧
      v.size = 2 ∧ s.files 7 = []) ∧
    (∃ s r e e', ReflTransGen HonestStep (Server.start fun _ => [1, 2]) s ∧
      fsServerDispatch s 1 (.pread 3 1 0) (honestEnv s.files 7) = some r ∧
      s.entrys 0 = some e ∧ r.server.entrys 0 = some e' ∧ e.offset = 0 ∧ e'.offset = 1) ∧
    ∃ s r e e', ReflTransGen HonestStep (Server.start fun _ => [1, 2]) s ∧
      fsServerDispatch s 1 (.pwrite 3 [9] 0) (honestEnv s.files 7) = some r ∧
      s.entrys 0 = some e ∧ r.server.entrys 0 = some e' ∧ e.offset = 0 ∧ e'.offset = 1 := by
  have hopen : ∀ flags, Contract (Server.start fun _ => [1, 2]) (honestEnv (fun _ => [1, 2]) 7)
      (.openFile 3 flags) := fun flags =>
    contract_honestEnv (Server.start fun _ => [1, 2]) 7 (by decide) (.openFile 3 flags)
  refine ⟨⟨_, _, .single ⟨1, .openFile 3 { wronly := true, trunc := true },
      honestEnv (fun _ => [1, 2]) 7, _, hopen _, rfl, rfl⟩, rfl, rfl, rfl⟩, ?_, ?_⟩
  · exact ⟨_, _, _, _, .single ⟨1, .openFile 3 { rdwr := true }, honestEnv (fun _ => [1, 2]) 7, _,
      hopen _, rfl, rfl⟩, rfl, rfl, rfl, by decide +kernel, by decide +kernel⟩
  · exact ⟨_, _, _, _, .single ⟨1, .openFile 3 { rdwr := true }, honestEnv (fun _ => [1, 2]) 7, _,
      hopen _, rfl, rfl⟩, rfl, rfl, rfl, by decide +kernel, by decide +kernel⟩

end Starfish.FsWrapper
