import Starfish.Plog.Model

/-!
# Starfish.Plog.Replay

Replay decodes what was committed.

* `EntryAt` says what an entry looks like in memory; `Chain` that entries lie one behind the other
  from the checkpoint to the tail.  `replayLoop_chain` decodes a chain.
* `Holds` is what every store of an append keeps: the stores behind the tail are not seen, the one
  to the tail adds an entry to the chain, and a checkpoint empties it.
* `replay_decodes_committed` is the main result, for every point at which the server stops except
  one: between the two stores of `plog_truncate` that reset the cursors the header is not valid
  (`torn_truncate_is_invalid`).
-/

namespace Starfish.Plog

open List Memory Nat Op

variable {m m' : Memory} {a pos tail n : ℕ} {o : Op} {os log : List Op} {r r' : Region}
  {p : List UInt8} {sync : Option Synced}

attribute [local simp] plogMaxPath truncateSize entryActions Op.code

/-! ## Paths -/

/-- The path can be stored: it has no `'\0'` in it and is shorter than `PLOG_MAX_PATH`. -/
def StoredPath (p : List UInt8) : Prop := 0 ∉ p ∧ p.length < plogMaxPath

/-- The field for a path. -/
def pathField (p : List UInt8) : List UInt8 := strncpyBytes p (plogMaxPath - 1) ++ [0]

@[simp] theorem length_strncpyBytes (p : List UInt8) (n : ℕ) : (strncpyBytes p n).length = n := by
  rw [strncpyBytes, length_append, length_take, length_replicate]
  omega

@[simp] theorem length_pathField (p : List UInt8) : (pathField p).length = plogMaxPath := by
  simp [pathField]

theorem zero_mem_pathField (p : List UInt8) : 0 ∈ pathField p := by simp [pathField]

/-- A path is read back as it was stored. -/
theorem StoredPath.takeWhile_pathField (h : StoredPath p) :
    (pathField p).takeWhile (· != 0) = p := by
  have hlen : p.length ≤ plogMaxPath - 1 := le_pred_of_lt h.2
  have hp : ∀ b ∈ p, (b != 0) = true := by
    intro b hb
    exact bne_iff_ne.mpr fun e => h.1 (e ▸ hb)
  rw [pathField, strncpyBytes, take_of_length_le hlen, append_assoc, takeWhile_append_of_pos hp]
  cases plogMaxPath - 1 - p.length <;> simp [replicate_succ]

/-! ## Entries in memory -/

/-- What the append of `o` can represent: its paths, and the length of its entry. -/
def Op.Fits : Op → Prop
  | .creat p _ | .mkdir p _ | .unlink p | .rmdir p | .truncate p _ => StoredPath p
  | .write p _ data => StoredPath p ∧ writeHdr + data.length < 2 ^ 32
  | .rename p q => StoredPath p ∧ StoredPath q

theorem Op.Fits.path (h : o.Fits) : StoredPath o.path := by
  cases o with
  | write p offset data => exact h.1
  | rename p q => exact h.1
  | creat p _ | mkdir p _ | unlink p | rmdir p | truncate p _ => exact h

/-- What follows the path of the entry at `a`. -/
def ArgAt (m : Memory) (a : ℕ) : Op → Prop
  | .creat _ mode | .mkdir _ mode => m.load (a + argOff) 4 = leBytes 4 mode.toNat
  | .unlink _ | .rmdir _ => True
  | .write _ offset data => m.load (a + argOff) 8 = leBytes 8 offset.toNat ∧
      m.load (a + argOff + 8) 4 = leBytes 4 data.length ∧
      m.load (a + writeHdr) data.length = data
  | .rename _ q => m.load (a + argOff) plogMaxPath = pathField q
  | .truncate _ size => m.load (a + argOff) 8 = leBytes 8 size.toNat

/-- The entry for `o` is at `a`. -/
structure EntryAt (m : Memory) (a : ℕ) (o : Op) : Prop where
  code : m.load a 4 = leBytes 4 o.code
  len : m.load (a + lenOff) 4 = leBytes 4 o.entryLen
  path : m.load (a + pathOff) plogMaxPath = pathField o.path
  arg : ArgAt m a o

theorem Op.entryLen_lt (o : Op) : o.entryLen < 256 ^ 4 := by
  cases o with
  | write p offset data => exact mod_lt _ (by decide)
  | creat p _ | mkdir p _ | unlink p | rmdir p | truncate p _ | rename p _ =>
    simp [entryLen, baseSize, renameSize, argOff]

theorem Op.Fits.baseSize_le (h : o.Fits) : baseSize ≤ o.entryLen := by
  cases o with
  | write p offset data =>
    rw [entryLen, mod_eq_of_lt h.2]
    simp only [baseSize, writeHdr]
    omega
  | creat p _ | mkdir p _ | unlink p | rmdir p | truncate p _ | rename p _ =>
    simp [entryLen, baseSize, renameSize, argOff]

theorem EntryAt.field_code (h : EntryAt m a o) : field m a 4 = o.code := by
  rw [field, h.code, leNat_leBytes_of_lt]
  cases o <;> simp

theorem EntryAt.field_len (h : EntryAt m a o) : field m (a + lenOff) 4 = o.entryLen := by
  rw [field, h.len, leNat_leBytes_of_lt o.entryLen_lt]

theorem EntryAt.cstr_path (h : EntryAt m a o) (ho : o.Fits) : cstr m (a + pathOff) = o.path := by
  rw [cstr, h.path, ho.path.takeWhile_pathField]

/-- An entry is its own bytes. -/
theorem EntryAt.congr (h : EntryAt m a o) (ho : o.Fits)
    (hm : ∀ i, a ≤ i → i < a + o.entryLen → m' i = m i) : EntryAt m' a o := by
  have hload (b n : ℕ) (hb : a ≤ b) (hn : b + n ≤ a + o.entryLen) : m'.load b n = m.load b n :=
    load_congr fun i hi => hm (b + i) (by omega) (by omega)
  have hbase : argOff + 4 ≤ o.entryLen := ho.baseSize_le
  have hoff : lenOff = 4 ∧ pathOff = 16 ∧ argOff = 272 ∧ plogMaxPath = 256 := by decide
  refine ⟨?_, ?_, ?_, ?_⟩
  · rw [hload a 4 (by omega) (by omega), h.code]
  · rw [hload _ 4 (by omega) (by omega), h.len]
  · rw [hload _ plogMaxPath (by omega) (by omega), h.path]
  · cases o with
    | creat p mode | mkdir p mode =>
      exact (hload _ 4 (by omega) (by omega)).trans h.arg
    | unlink p | rmdir p => trivial
    | write p offset data =>
      obtain ⟨hoffset, hlen, hdata⟩ := h.arg
      have hentry : entryLen (.write p offset data) = writeHdr + data.length :=
        mod_eq_of_lt ho.2
      have hhdr : writeHdr = argOff + 12 := rfl
      refine ⟨?_, ?_, ?_⟩
      · rw [hload _ 8 (by omega) (by omega), hoffset]
      · rw [hload _ 4 (by omega) (by omega), hlen]
      · rw [hload _ data.length (by omega) (by omega), hdata]
    | rename p q =>
      have hentry : entryLen (.rename p q) = argOff + plogMaxPath := rfl
      exact (hload _ plogMaxPath (by omega) (by omega)).trans h.arg
    | truncate p size =>
      have hentry : entryLen (.truncate p size) = argOff + 8 := rfl
      exact (hload _ 8 (by omega) (by omega)).trans h.arg

/-- Entries one behind the other, from `pos` to `tail`. -/
def Chain (m : Memory) (tail : ℕ) : ℕ → List Op → Prop
  | pos, [] => pos = tail
  | pos, o :: os => EntryAt m pos o ∧ o.Fits ∧ Chain m tail (pos + o.entryLen) os

namespace Chain

theorem le (h : Chain m tail pos os) : pos ≤ tail := by
  induction os generalizing pos with
  | nil => exact le_of_eq h
  | cons o os ih => exact (Nat.le_add_right ..).trans (ih h.2.2)

/-- Only the bytes below the tail matter. -/
theorem congr (h : Chain m tail pos os) (hm : ∀ i, i < tail → m' i = m i) :
    Chain m' tail pos os := by
  induction os generalizing pos with
  | nil => exact h
  | cons o os ih =>
    obtain ⟨hentry, ho, hrest⟩ := h
    refine ⟨hentry.congr ho fun i _ hi => hm i ?_, ho, ih hrest⟩
    exact hi.trans_le hrest.le

theorem concat (h : Chain m tail pos os) (hentry : EntryAt m tail o) (ho : o.Fits) :
    Chain m (tail + o.entryLen) pos (os ++ [o]) := by
  induction os generalizing pos with
  | nil =>
    have hpos : pos = tail := h
    exact ⟨hpos ▸ hentry, ho, congrArg (· + o.entryLen) hpos⟩
  | cons o' os ih => exact ⟨h.1, h.2.1, ih h.2.2⟩

end Chain

/-! ## Decoding -/

/-- The path that the operation removes. -/
def Op.removed : Op → Option (List UInt8)
  | .unlink p | .rmdir p => some p
  | _ => none

/-- The path that the operation renames to. -/
@[simp] def Op.renamesTo : Op → Option (List UInt8)
  | .rename _ q => some q
  | _ => none

/-- An entry is redone, but not the removal of the path that the next entry renames to. -/
def event (o : Op) (next : Option Op) : Event :=
  match o.removed with
  | none => .redo o
  | some p => if next.bind Op.renamesTo = some p then .skip o else .redo o

/-- What replay makes of a log. -/
def replayed : List Op → List Event
  | [] => []
  | o :: os => event o os.head? :: replayed os

/-- The operation that was decoded. -/
def Event.op? : Event → Option Op
  | .redo o | .skip o => some o
  | .corruptWrite | .unknown _ => none

theorem event_op? (o : Op) (next : Option Op) : (event o next).op? = some o := by
  rw [event]
  split
  · rfl
  · split <;> rfl

/-- Every entry of the log is decoded. -/
theorem replayed_op? (log : List Op) : (replayed log).map Event.op? = log.map some := by
  induction log with
  | nil => rfl
  | cons o os ih => rw [replayed, map_cons, map_cons, event_op?, ih]

theorem Chain.nextEntryRenamesTo (h : Chain m tail pos os) (p : List UInt8) :
    nextEntryRenamesTo m pos tail p = decide (os.head?.bind renamesTo = some p) := by
  cases os with
  | nil =>
    have hpos : pos = tail := h
    simp [Plog.nextEntryRenamesTo, hpos]
  | cons o os =>
    obtain ⟨hentry, ho, hrest⟩ := h
    have hle := hrest.le
    have hbase := ho.baseSize_le
    have hpos : ¬ tail ≤ pos := by
      have : 0 < baseSize := by decide
      omega
    rw [Plog.nextEntryRenamesTo, if_neg hpos, hentry.field_len, hentry.field_code]
    cases o with
    | rename q q' =>
      have harg : m.load (pos + argOff) plogMaxPath = pathField q' := hentry.arg
      have hmem : ¬ 0 ∉ m.load (pos + argOff) plogMaxPath := by
        rw [harg, not_not]
        exact zero_mem_pathField q'
      rw [if_neg (by
        simp only [hmem, or_false, not_or]
        exact ⟨by simp [entryLen], by omega, by simp⟩)]
      rw [cstr, harg, ho.2.takeWhile_pathField]
      simp
    | creat _ _ | mkdir _ _ | write _ _ _ | unlink _ | rmdir _ | truncate _ _ =>
      simp

theorem decodeOp_eq (h : Chain m tail pos (o :: os)) :
    decodeOp m pos tail o.entryLen = event o os.head? := by
  obtain ⟨hentry, ho, hrest⟩ := h
  have hpath := hentry.cstr_path ho
  have hnext := hrest.nextEntryRenamesTo
  have harg := hentry.arg
  rw [decodeOp, hentry.field_code, hpath]
  cases o with
  | creat p mode | mkdir p mode =>
    have hmode : m.load (pos + argOff) 4 = leBytes 4 mode.toNat := harg
    simp only [code, field, hmode, uint32_leNat_leBytes]
    rfl
  | write p offset data =>
    obtain ⟨hoffset, hlen, hdata⟩ := harg
    have hentryLen : entryLen (.write p offset data) = writeHdr + data.length :=
      mod_eq_of_lt ho.2
    have hdataLen : leNat (leBytes 4 data.length) = data.length :=
      leNat_leBytes_of_lt (by have := ho.2; omega)
    simp only [code, field, hoffset, hlen, hdataLen, hdata, uint64_leNat_leBytes, hentryLen]
    rw [if_neg (by omega)]
    rfl
  | unlink p | rmdir p =>
    simp only [code, event, removed, path, hnext, decide_eq_true_eq]
  | rename p q =>
    have hfield : m.load (pos + argOff) plogMaxPath = pathField q := harg
    have hq : cstr m (pos + argOff) = q := by rw [cstr, hfield, ho.2.takeWhile_pathField]
    simp only [code, hq]
    rfl
  | truncate p size =>
    have hsize : m.load (pos + argOff) 8 = leBytes 8 size.toNat := harg
    simp only [code, field, hsize, uint64_leNat_leBytes]
    rfl

theorem replayLoop_chain (h : Chain m tail pos os) (hn : tail - pos ≤ n) :
    replayLoop m tail n pos = (replayed os, true) := by
  induction os generalizing pos n with
  | nil =>
    have hpos : pos = tail := h
    cases n with
    | zero => rfl
    | succ n => simp [replayLoop, hpos, replayed]
  | cons o os ih =>
    obtain ⟨hentry, ho, hrest⟩ := h
    have hle := hrest.le
    have hbase := ho.baseSize_le
    have hpos : 0 < baseSize := by decide
    cases n with
    | zero => omega
    | succ n =>
      have hmem : 0 ∈ m.load (pos + pathOff) plogMaxPath := by
        rw [hentry.path]
        exact zero_mem_pathField _
      simp only [replayLoop, hentry.field_len]
      rw [if_neg (by omega), if_neg (by simp only [hmem, not_true_eq_false, or_false]; omega),
        ih hrest (by omega), decodeOp_eq ⟨hentry, ho, hrest⟩, replayed]

/-! ## What the stores of an entry leave -/

section

variable (r : Region)

@[simp] theorem execAll_append (l l' : List Action) :
    execAll r (l ++ l') = execAll (execAll r l) l' := List.foldl_append

@[simp] theorem execAll_cons (act : Action) (l : List Action) :
    execAll r (act :: l) = execAll (act.exec r) l := rfl

@[simp] theorem execAll_nil : execAll r [] = r := rfl

theorem execAll_copyActions (a : ℕ) (bs : List UInt8) :
    execAll r (copyActions a bs) = { r with mem := r.mem.store a bs } := by
  induction bs generalizing r a with
  | nil =>
    rw [copyActions, execAll_nil, store_nil]
  | cons b bs ih =>
    rw [copyActions, execAll_cons, ih]
    have hstore := r.mem.store_append a [b] bs
    rw [singleton_append, length_singleton] at hstore
    rw [hstore]
    rfl

theorem execAll_pathActions (a : ℕ) (p : List UInt8) :
    execAll r (pathActions a p) = { r with mem := r.mem.store a (pathField p) } := by
  rw [pathActions, execAll_append, execAll_copyActions, pathField, store_append,
    length_strncpyBytes]
  rfl

theorem argAt_execAll (a : ℕ) (o : Op) :
    (execAll r (argActions a o)).hdr = r.hdr ∧ ArgAt (execAll r (argActions a o)).mem a o ∧
      ∀ b n, b + n ≤ a + argOff → (execAll r (argActions a o)).mem.load b n = r.mem.load b n := by
  cases o with
  | creat p mode | mkdir p mode | unlink p | rmdir p | truncate p size =>
    refine ⟨rfl, ?_, fun b n hb => load_store_of_disjoint (.inl hb)⟩
    first | trivial | exact load_store_self ..
  | rename p q =>
    rw [argActions, execAll_pathActions]
    refine ⟨rfl, ?_, fun b n hb => load_store_of_disjoint (.inl hb)⟩
    have hself := r.mem.load_store_self (a + argOff) (pathField q)
    rwa [length_pathField] at hself
  | write p offset data =>
    have hhdr : writeHdr = argOff + 12 := rfl
    rw [argActions, execAll_append, execAll_copyActions]
    refine ⟨rfl, ⟨?_, ?_, load_store_self ..⟩, fun b n hb => ?_⟩
    · rw [load_store_of_disjoint (.inl (by omega))]
      exact (load_store_of_disjoint (.inl (by omega))).trans (load_store_self ..)
    · rw [load_store_of_disjoint (.inl (by omega))]
      exact load_store_self ..
    · rw [load_store_of_disjoint (.inl (by omega))]
      exact (load_store_of_disjoint (.inl (by omega))).trans (load_store_of_disjoint (.inl hb))

theorem entryAt_execAll (a seq : ℕ) (o : Op) :
    EntryAt (execAll r (bodyActions a seq o)).mem a o := by
  rw [bodyActions, execAll_append, execAll_append, execAll_pathActions]
  -- the stores before the path
  have hcode : (execAll r (headActions a seq o)).mem.load a 4 = leBytes 4 o.code :=
    load_store_self ..
  have hlen : (execAll r (headActions a seq o)).mem.load (a + lenOff) 4 = leBytes 4 o.entryLen := by
    refine (load_store_of_disjoint (.inr ?_)).trans
      ((load_store_of_disjoint (.inl ?_)).trans (load_store_self ..))
    · rw [length_leBytes, lenOff]
    · rw [lenOff, seqOff]
  generalize execAll r (headActions a seq o) = r₁ at hcode hlen ⊢
  obtain ⟨_, harg, hbelow⟩ :=
    argAt_execAll { r₁ with mem := r₁.mem.store (a + pathOff) (pathField o.path) } a o
  have hoff : lenOff = 4 ∧ pathOff = 16 ∧ argOff = 272 ∧ plogMaxPath = 256 := by decide
  have hpath := r₁.mem.load_store_self (a + pathOff) (pathField o.path)
  rw [length_pathField] at hpath
  refine ⟨?_, ?_, ?_, harg⟩
  · rw [hbelow _ _ (by omega), load_store_of_disjoint (.inl (by omega)), hcode]
  · rw [hbelow _ _ (by omega), load_store_of_disjoint (.inl (by omega)), hlen]
  · rw [hbelow _ _ (by omega), hpath]

end

/-! ## What every store keeps -/

/-- A store that replay does not see: behind `a`, or to a field that it does not read. -/
def Action.Behind (a : ℕ) : Action → Prop
  | .bytes b _ => a ≤ b
  | .seqCounter _ | .fsMachine _ | .checkpointGeneration _ | .checkpointRootIno _ => True
  | .tail _ | .checkpointTail _ | .commit _ _ | .checkpoint _ => False

variable {act : Action}

/-- Such a store commits nothing and leaves the cursors. -/
theorem Action.Behind.keeps (h : act.Behind a) (r : Region) (log : List Op) :
    (act.exec r).hdr.tail = r.hdr.tail ∧
      (act.exec r).hdr.checkpointTail = r.hdr.checkpointTail ∧ act.committed log = log := by
  cases act with
  | bytes _ _ | seqCounter _ | fsMachine _ | checkpointGeneration _ | checkpointRootIno _ =>
    exact ⟨rfl, rfl, rfl⟩
  | tail _ | checkpointTail _ | commit _ _ | checkpoint _ => exact h.elim

theorem behindAll_keeps (hl : ∀ act ∈ l, act.Behind a) (r : Region)
    (log : List Op) : (execAll r l).hdr.tail = r.hdr.tail ∧
      (execAll r l).hdr.checkpointTail = r.hdr.checkpointTail ∧ committedAll log l = log := by
  induction l generalizing r with
  | nil => exact ⟨rfl, rfl, rfl⟩
  | cons act l ih =>
    obtain ⟨htail, hckpt, hlog⟩ := (hl act mem_cons_self).keeps r log
    obtain ⟨htail', hckpt', hlog'⟩ :=
      ih (fun act' hmem => hl act' (mem_cons_of_mem act hmem)) (act.exec r)
    refine ⟨htail'.trans htail, hckpt'.trans hckpt, ?_⟩
    rw [committedAll, foldl_cons, hlog]
    exact hlog'

/-- The log in the region is `log`. -/
structure Holds (r : Region) (log : List Op) : Prop where
  magic : r.hdr.magic = plogMagic
  low : headerSize ≤ r.hdr.checkpointTail
  high : r.hdr.tail ≤ plogShmSize
  chain : Chain r.mem r.hdr.tail r.hdr.checkpointTail log

namespace Holds

theorem replay (h : Holds r log) : plogReplay r = some (replayed log, true) := by
  have hle := h.chain.le
  have hlow := h.low
  have hhigh := h.high
  rw [plogReplay, if_neg (not_not.mpr h.magic), if_neg (by omega), if_neg (by omega),
    replayLoop_chain h.chain le_rfl]

theorem behind (h : Holds r log) (hact : act.Behind r.hdr.tail) : Holds (act.exec r) log := by
  cases act with
  | bytes b bs =>
    refine ⟨h.magic, h.low, h.high, h.chain.congr fun i hi => ?_⟩
    exact store_of_lt (hi.trans_le hact)
  | seqCounter _ | fsMachine _ | checkpointGeneration _ | checkpointRootIno _ =>
    exact ⟨h.magic, h.low, h.high, h.chain⟩
  | tail _ | checkpointTail _ | commit _ _ | checkpoint _ => exact hact.elim

theorem behindAll (h : Holds r log) (hl : ∀ act ∈ l, act.Behind r.hdr.tail) :
    Holds (execAll r l) log := by
  induction l generalizing r with
  | nil => exact h
  | cons act l ih =>
    have hact := hl act mem_cons_self
    refine ih (h.behind hact) fun act' hmem => ?_
    rw [(hact.keeps r log).1]
    exact hl act' (mem_cons_of_mem act hmem)

theorem commit (h : Holds r log) (hentry : EntryAt r.mem r.hdr.tail o) (ho : o.Fits)
    (hfit : r.hdr.tail + o.entryLen ≤ plogShmSize) :
    Holds ((Action.commit (r.hdr.tail + o.entryLen) o).exec r) (log ++ [o]) :=
  ⟨h.magic, h.low, hfit, h.chain.concat hentry ho⟩

theorem checkpoint (h : Holds r log) : Holds ((Action.checkpoint r.hdr.tail).exec r) [] :=
  ⟨h.magic, h.low.trans h.chain.le, h.high, rfl⟩

end Holds

/-! ## The stores of an append -/

theorem Action.Behind.mono (h : act.Behind b) (hab : a ≤ b) : act.Behind a := by
  cases act with
  | bytes b' bs => exact hab.trans h
  | seqCounter _ | fsMachine _ | checkpointGeneration _ | checkpointRootIno _ => trivial
  | tail _ | checkpointTail _ | commit _ _ | checkpoint _ => exact h

theorem behind_copyActions (a : ℕ) (bs : List UInt8) : ∀ act ∈ copyActions a bs, act.Behind a := by
  induction bs generalizing a with
  | nil => simp [copyActions]
  | cons b bs ih =>
    intro act hact
    obtain rfl | hact := mem_cons.mp hact
    · exact le_refl a
    · exact (ih (a + 1) act hact).mono (le_succ a)

theorem behind_pathActions (a : ℕ) (p : List UInt8) : ∀ act ∈ pathActions a p, act.Behind a := by
  intro act hact
  obtain hact | hact := mem_append.mp hact
  · exact behind_copyActions a _ act hact
  · rw [mem_singleton.mp hact]
    exact Nat.le_add_right ..

theorem behind_argActions (a : ℕ) (o : Op) : ∀ act ∈ argActions a o, act.Behind a := by
  intro act hact
  cases o with
  | creat _ _ | mkdir _ _ | unlink _ | rmdir _ | truncate _ _ =>
    rw [mem_singleton.mp hact]
    exact Nat.le_add_right ..
  | rename _ q => exact (behind_pathActions _ q act hact).mono (Nat.le_add_right ..)
  | write _ offset data =>
    obtain hact | hact := mem_append.mp hact
    · simp only [mem_cons, not_mem_nil, or_false] at hact
      obtain rfl | rfl := hact
      · exact Nat.le_add_right ..
      · exact Nat.le_add_right_of_le (Nat.le_add_right ..)
    · exact (behind_copyActions _ data act hact).mono (Nat.le_add_right ..)

theorem behind_bodyActions (a seq : ℕ) (o : Op) : ∀ act ∈ bodyActions a seq o, act.Behind a := by
  intro act hact
  obtain hact | hact := mem_append.mp hact
  · obtain hact | hact := mem_append.mp hact
    · simp only [headActions, mem_cons, not_mem_nil, or_false] at hact
      obtain rfl | rfl | rfl | rfl := hact
      · exact Nat.le_add_right ..
      · trivial
      · exact Nat.le_add_right ..
      · exact le_refl a
    · exact (behind_pathActions _ _ act hact).mono (Nat.le_add_right ..)
  · exact behind_argActions a o act hact

/-- All stores of an entry. -/
theorem entryActions_keeps (a seq : ℕ) (o : Op) (r : Region) (log : List Op) :
    (execAll r (entryActions a seq o)).hdr.tail = a + o.entryLen ∧
      (execAll r (entryActions a seq o)).hdr.checkpointTail = r.hdr.checkpointTail ∧
      committedAll log (entryActions a seq o) = log ++ [o] := by
  obtain ⟨_, hckpt, hlog⟩ := behindAll_keeps (behind_bodyActions a seq o) r log
  refine ⟨?_, ?_, ?_⟩
  · rw [entryActions, execAll_append]
    rfl
  · rw [entryActions, execAll_append]
    exact hckpt
  · rw [committedAll] at hlog
    rw [entryActions, committedAll, foldl_append, hlog]
    rfl

namespace Holds

/-- An entry that fits behind the tail, at every point of its stores. -/
theorem entry (h : Holds r log) (ho : o.Fits) (hfit : r.hdr.tail + o.entryLen ≤ plogShmSize)
    (seq n : ℕ) : Holds (execAll r ((entryActions r.hdr.tail seq o).take n))
      (committedAll log ((entryActions r.hdr.tail seq o).take n)) := by
  have hbody := behind_bodyActions r.hdr.tail seq o
  rw [entryActions, take_append]
  cases hn : n - (bodyActions r.hdr.tail seq o).length with
  | zero =>
    rw [take_zero, append_nil]
    have htake : ∀ act ∈ (bodyActions r.hdr.tail seq o).take n, act.Behind r.hdr.tail :=
      fun act hact => hbody act (mem_of_mem_take hact)
    rw [(behindAll_keeps htake r log).2.2]
    exact h.behindAll htake
  | succ k =>
    rw [take_of_length_le (by omega), take_of_length_le (by simp)]
    obtain ⟨htail, _, hlog⟩ := behindAll_keeps hbody r log
    have hholds := h.behindAll hbody
    have hentry := entryAt_execAll r r.hdr.tail seq o
    rw [execAll_append, committedAll, foldl_append]
    rw [show (bodyActions r.hdr.tail seq o).foldl Action.committed log = log from hlog]
    generalize execAll r (bodyActions r.hdr.tail seq o) = r₁ at hholds htail hentry ⊢
    rw [← htail] at hentry hfit ⊢
    exact hholds.commit hentry ho hfit

/-- The stores of a checkpoint and of the truncation behind it, at every point but one. -/
theorem reset (h : Holds r log) (g : Synced) (n : ℕ)
    (hstop : ((checkpointActions g r.hdr.tail ++ truncateActions).take n).getLast? ≠
      some (.tail headerSize)) :
    Holds (execAll r ((checkpointActions g r.hdr.tail ++ truncateActions).take n))
      (committedAll log ((checkpointActions g r.hdr.tail ++ truncateActions).take n)) := by
  have hempty := h.checkpoint
  have hsmall : headerSize ≤ plogShmSize := by decide
  match n with
  | 0 => exact h
  | 1 => exact ⟨h.magic, h.low, h.high, h.chain⟩
  | 2 | 3 | 4 => exact ⟨hempty.magic, hempty.low, hempty.high, rfl⟩
  | 5 => exact absurd rfl hstop
  | 6 => exact ⟨h.magic, le_refl _, hsmall, rfl⟩
  | n + 7 =>
    rw [take_of_length_le (by simp [checkpointActions, truncateActions])]
    exact ⟨h.magic, le_refl _, hsmall, rfl⟩

theorem append (h : Holds r log) (ho : o.Fits) (sync : Option Synced) (n : ℕ)
    (hstop : ((appendActions sync r o).take n).getLast? ≠ some (.tail headerSize)) :
    Holds (execAll r ((appendActions sync r o).take n))
      (committedAll log ((appendActions sync r o).take n)) := by
  unfold appendActions at hstop ⊢
  split at hstop
  next hfull =>
    rw [if_pos hfull]
    cases sync with
    | none =>
      dsimp only
      rw [take_nil]
      exact h
    | some g =>
      dsimp only at hstop ⊢
      rw [take_append] at hstop ⊢
      cases hn : n - (checkpointActions g r.hdr.tail ++ truncateActions).length with
      | zero =>
        rw [hn, take_zero, append_nil] at hstop
        rw [take_zero, append_nil]
        exact h.reset g n hstop
      | succ k =>
        have hreset := h.reset g 7 (by simp [checkpointActions, truncateActions])
        rw [take_of_length_le (by omega), execAll_append, committedAll, foldl_append]
        split
        · rw [take_nil]
          exact hreset
        next hfits => exact hreset.entry ho (Nat.le_of_not_lt hfits) 0 (k + 1)
  next hfits =>
    rw [if_neg hfits]
    exact h.entry ho (by omega) _ n

end Holds

/-! ## Runs -/

/-- A log that `plog_init` has made. -/
def Region.Fresh (r : Region) : Prop :=
  r.hdr.magic = plogMagic ∧ r.hdr.tail = headerSize ∧ r.hdr.checkpointTail = headerSize

/-- After any appends the region is `r`, and `log` is committed since the last checkpoint. -/
inductive Appended : Region → List Op → Prop where
  | init {r : Region} (h : r.Fresh) : Appended r []
  | append {r : Region} {log : List Op} (h : Appended r log) (sync : Option Synced) {o : Op}
      (ho : o.Fits) : Appended (execAll r (appendActions sync r o))
        (committedAll log (appendActions sync r o))

/-- An append does not end with the store that resets the tail. -/
theorem getLast?_appendActions (sync : Option Synced) (r : Region) (o : Op) :
    (appendActions sync r o).getLast? ≠ some (.tail headerSize) := by
  unfold appendActions
  split
  · split
    · simp
    · split
      · simp [truncateActions]
      · simp
  · simp

theorem Appended.holds (h : Appended r log) : Holds r log := by
  induction h with
  | init h =>
    obtain ⟨hmagic, htail, hckpt⟩ := h
    refine ⟨hmagic, hckpt ▸ le_refl _, htail ▸ by decide, ?_⟩
    exact hckpt.trans htail.symm
  | append h sync ho ih =>
    rename_i r log o
    have hall := ih.append ho sync (appendActions sync r o).length
    rw [take_length] at hall
    exact hall (getLast?_appendActions sync r o)

/-- Wherever the server stops in an append, replay decodes the committed entries in their order and
finds nothing wrong, unless it stops right behind the store that resets the tail. -/
theorem replay_decodes_committed (h : Appended r log) (ho : o.Fits) (sync : Option Synced) (n : ℕ)
    (hstop : ((appendActions sync r o).take n).getLast? ≠ some (.tail headerSize)) :
    ∃ events, plogReplay (execAll r ((appendActions sync r o).take n)) = some (events, true) ∧
      events.map Event.op? =
        (committedAll log ((appendActions sync r o).take n)).map some := by
  have hholds := h.holds.append ho sync n hstop
  exact ⟨_, hholds.replay, replayed_op? _⟩

/-- A new log, all zeros behind its header. -/
def freshRegion : Region := ⟨⟨plogMagic, headerSize, 0, 0, headerSize, 0, 0⟩, fun _ => 0⟩

/-- A second append stops after three of its stores. -/
theorem replay_second_append_stopped : ∃ r events, Appended r [.unlink [47, 97]] ∧
    plogReplay (execAll r ((appendActions none r (.unlink [47, 98])).take 3)) = some (events, true) ∧
      events.map Event.op? = [some (.unlink [47, 97])] := by
  have hfits (c : UInt8) (hc : c ≠ 0) : Op.Fits (.unlink [47, c]) :=
    ⟨by simpa [eq_comm] using hc, by simp [plogMaxPath]⟩
  have hfirst : appendActions none freshRegion (.unlink [47, 97]) =
      entryActions headerSize 0 (.unlink [47, 97]) := if_neg (by decide)
  obtain ⟨htail, -, hlog⟩ := entryActions_keeps headerSize 0 (.unlink [47, 97]) freshRegion []
  have happended := Appended.append (.init ⟨rfl, rfl, rfl⟩ : Appended freshRegion []) none
    (hfits 97 (by decide))
  rw [hfirst, hlog] at happended
  generalize execAll freshRegion (entryActions headerSize 0 (.unlink [47, 97])) = r at htail happended
  have hsecond : appendActions none r (.unlink [47, 98]) =
      entryActions r.hdr.tail r.hdr.seqCounter (.unlink [47, 98]) :=
    if_neg (by rw [htail]; decide)
  obtain ⟨events, hreplay, hops⟩ := replay_decodes_committed happended (hfits 98 (by decide)) none 3
    (by rw [hsecond]; exact Option.some_inj.not.mpr nofun)
  refine ⟨r, events, happended, hreplay, hops.trans ?_⟩
  rw [hsecond]
  rfl

theorem plogReplay_eq_none (h : r.hdr.tail < r.hdr.checkpointTail) : plogReplay r = none := by
  rw [plogReplay]
  split
  · rfl
  · split
    · rfl
    · exact if_pos (.inr h)

theorem appended_full (ho : o.Fits) (hlen : o.entryLen = plogShmSize - headerSize) :
    ∃ r, Appended r [o] ∧ r.hdr.tail = plogShmSize := by
  have hactions : appendActions none freshRegion o = entryActions headerSize 0 o :=
    if_neg (by rw [hlen]; decide)
  have happended := Appended.append (.init ⟨rfl, rfl, rfl⟩ : Appended freshRegion []) none ho
  obtain ⟨htail, _, hlog⟩ := entryActions_keeps headerSize 0 o freshRegion []
  rw [hactions, hlog] at happended
  refine ⟨_, happended, ?_⟩
  rw [htail, hlen]
  decide

/-- The log is full and the server stops between the two stores of `plog_truncate` that reset the
cursors: replay finds a checkpoint behind the tail. -/
theorem torn_truncate_is_invalid :
    ∃ r log o n, Appended r log ∧ Op.Fits o ∧
      plogReplay (execAll r ((appendActions (some ⟨0, 0, 1⟩) r o).take n)) = none := by
  have hlen (k : ℕ) : (write [47] 0 (replicate k 0)).entryLen = (writeHdr + k) % 2 ^ 32 := by
    rw [entryLen, length_replicate]
  have hfits (k : ℕ) (hk : writeHdr + k < 2 ^ 32) : (write [47] 0 (replicate k 0)).Fits :=
    ⟨⟨by decide, by decide⟩, by rwa [length_replicate]⟩
  obtain ⟨r, happended, hfull⟩ := appended_full
    (hfits (plogShmSize - headerSize - writeHdr) (by decide)) ((hlen _).trans (by decide))
  refine ⟨r, _, .unlink [47, 97], 5, happended, ⟨by decide, by decide⟩, ?_⟩
  unfold appendActions
  rw [if_pos (by rw [hfull]; decide)]
  -- the tail is reset, the checkpoint is still the old tail
  refine plogReplay_eq_none ?_
  change headerSize < r.hdr.tail
  rw [hfull]
  decide

end Starfish.Plog
