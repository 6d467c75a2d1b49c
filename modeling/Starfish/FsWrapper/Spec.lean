import Starfish.FsWrapper.Model

/-!
# Starfish.FsWrapper.Spec

What the functions of the file server find and change, one lemma each.
-/

namespace Starfish.FsWrapper

open Function Option List

variable {s s' : Server}

theorem entryAt_eq_some (h : s.entryAt fid = some (e, v)) :
    0 ≤ fid ∧ fid < maxServerEntry ∧ s.entrys fid = some e ∧ s.vnodes e.vnode = some v := by
  unfold Server.entryAt at h
  split at h
  · cases h
  · next hr =>
    simp only [bind_eq_some_iff, map_eq_some_iff, Prod.mk.injEq] at h
    obtain ⟨e1, he, v1, hv, rfl, rfl⟩ := h
    exact ⟨by omega, by omega, he, hv⟩

theorem fileAt_eq_some (h : s.fileAt fid = some (e, v)) :
    s.entryAt fid = some (e, v) ∧ v.type = .reg := by
  simpa [Server.fileAt, filter_eq_some_iff] using h

theorem decRefFsVnode_frame (s : Server) (id : ℕ) (v : Vnode) (env : Env) :
    (decRefFsVnode s id v env).mapping = s.mapping ∧
      (decRefFsVnode s id v env).entrys = s.entrys := by
  unfold decRefFsVnode
  split
  · exact ⟨rfl, rfl⟩
  · exact ⟨rfl, rfl⟩

theorem holdVnode_frame (s : Server) (f : Found) :
    (holdVnode s f).mapping = s.mapping ∧ (holdVnode s f).entrys = s.entrys := by
  unfold holdVnode
  split
  · exact ⟨rfl, rfl⟩
  · exact ⟨rfl, rfl⟩

theorem openTrunc_frame (s : Server) (flags : Flags) (f : Found) (env : Env) :
    (openTrunc s flags f env).mapping = s.mapping ∧
      (openTrunc s flags f env).entrys = s.entrys := by
  unfold openTrunc
  split
  · exact ⟨rfl, rfl⟩
  · exact ⟨rfl, rfl⟩

/-- A new entry takes a free slot. -/
theorem allocEntry_eq_some (h : allocEntry s malloc = some i) :
    i < maxServerEntry ∧ s.entrys i = none := by
  unfold allocEntry at h
  split at h
  · have hi := mem_range.mp (mem_of_find?_eq_some h)
    have hn := find?_some h
    exact ⟨hi, isNone_iff_eq_none.mp hn⟩
  · cases h

theorem allocEntry_congr (h : s'.entrys = s.entrys) :
    allocEntry s' malloc = allocEntry s malloc := by
  unfold allocEntry
  rw [h]

theorem setServerEntry_eq_some (h : fsWrapperSetServerEntry s badge fd fid malloc = some s') :
    0 ≤ fd ∧ fd < maxServerEntry ∧
      s' = { s with mapping := mapFd s.mapping badge fd fid malloc } := by
  unfold fsWrapperSetServerEntry at h
  split at h
  · cases h
  · exact ⟨by omega, by omega, (some.inj h).symm⟩

/-! ## `fs_wrapper_open` -/

/-- The slot that an `open` takes, if it comes that far. -/
def openSlot (s : Server) (flags : Flags) (env : Env) : Option ℕ :=
  match env.openFile with
  | .error _ => none
  | .ok f =>
    match openCheck flags f with
    | .error _ => none
    | .ok _ => allocEntry s env.mallocEntry

/-- The server with a new entry in `slot`; the client's table is not written yet. -/
def openedServer (s : Server) (flags : Flags) (f : Found) (slot : ℕ) (env : Env) : Server :=
  holdVnode ((openTrunc (s.setFile f.id f.content) flags f env).setEntry slot
    (some (newEntry flags f))) f

theorem openSlot_eq_some
    (h : openSlot s flags env = some slot) : allocEntry s env.mallocEntry = some slot := by
  unfold openSlot at h
  split at h
  · cases h
  · split at h
    · cases h
    · exact h

theorem entrys_openedServer (s : Server) (flags : Flags) (f : Found) (slot : ℕ) (env : Env) :
    (openedServer s flags f slot env).entrys = update s.entrys slot (some (newEntry flags f)) := by
  unfold openedServer
  rw [(holdVnode_frame _ f).2]
  exact congrArg (update · _ _) (openTrunc_frame (s.setFile f.id f.content) flags f env).2

theorem mapping_openedServer (s : Server) (flags : Flags) (f : Found) (slot : ℕ) (env : Env) :
    (openedServer s flags f slot env).mapping = s.mapping := by
  unfold openedServer
  rw [(holdVnode_frame _ f).1]
  exact (openTrunc_frame (s.setFile f.id f.content) flags f env).1

/-- An `open` either takes no slot, and then changes at most the file, or it puts a new entry into
a free slot and this slot into the client's table. -/
theorem open_cases (h : fsWrapperOpen s badge newFd flags env = some r) :
    openSlot s flags env = none ∧ (r.server = s ∨ ∃ f, env.openFile = .ok f ∧
          (r.server = s.setFile f.id f.content ∨
            r.server = openTrunc (s.setFile f.id f.content) flags f env)) ∨
      ∃ (f : Found) (slot : ℕ), openSlot s flags env = some slot ∧ env.openFile = .ok f ∧
        0 ≤ newFd ∧ newFd < maxServerEntry ∧
        r.server = { openedServer s flags f slot env with
          mapping := mapFd s.mapping badge newFd slot env.mallocNode } := by
  unfold fsWrapperOpen at h
  unfold openSlot
  split at h
  · next e ho =>
    rw [ho]
    cases h
    exact .inl ⟨rfl, .inl rfl⟩
  · next f ho =>
    rw [ho]
    dsimp only at h ⊢
    split at h
    · cases h
    · next e hc =>
      rw [hc]
      cases h
      exact .inl ⟨rfl, .inr ⟨f, rfl, .inl rfl⟩⟩
    · next hc =>
      rw [hc]
      have halloc : allocEntry (openTrunc (s.setFile f.id f.content) flags f env)
          env.mallocEntry = allocEntry s env.mallocEntry :=
        allocEntry_congr (openTrunc_frame (s.setFile f.id f.content) flags f env).2
      unfold openEntry at h
      rw [halloc] at h
      split at h
      · next hn =>
        cases h
        exact .inl ⟨hn, .inr ⟨f, rfl, .inr rfl⟩⟩
      · next slot hslot =>
        obtain ⟨s1, hset, rfl⟩ := map_eq_some_iff.mp h
        obtain ⟨hlo, hhi, rfl⟩ := setServerEntry_eq_some hset
        refine .inr ⟨f, slot, hslot, rfl, hlo, hhi, ?_⟩
        rw [← mapping_openedServer s flags f slot env]
        rfl

/-! ## The loop of a fork -/

/-- Every entry gets a reference for each descriptor that stands for it. -/
theorem inherit_eq_some (h : inherit table l es = some es') :
    (∀ i ∈ l, table i ≠ -1 → (es (table i)).isSome) ∧
      ∀ fid, es' fid = (es fid).map fun e => { e with
        refcnt := e.refcnt + (l.filter fun i : ℕ => table i ≠ -1 ∧ table i = fid).length } := by
  -- on the list of descriptors, for the entries as they are when the loop comes to it
  induction l generalizing es with
  | nil =>
    cases h
    simp
  | cons i is ih =>
    unfold inherit at h
    split at h
    · next hi =>
      obtain ⟨hlive, hcount⟩ := ih h
      refine ⟨?_, fun fid => ?_⟩
      · intro j hj hne
        rcases mem_cons.mp hj with rfl | hj
        · exact absurd hi hne
        · exact hlive j hj hne
      · rw [hcount fid, filter_cons_of_neg (by simp [hi])]
    · next hi =>
      split at h
      · cases h
      · next e he =>
        obtain ⟨hlive, hcount⟩ := ih h
        refine ⟨?_, fun fid => ?_⟩
        · intro j hj hne
          rcases mem_cons.mp hj with rfl | hj
          · rw [he]; rfl
          · have := hlive j hj hne
            by_cases hji : table j = table i
            · rw [hji, he]; rfl
            · rwa [update_of_ne hji] at this
        · rw [hcount fid]
          by_cases hti : table i = fid
          · subst hti
            rw [update_self, he, filter_cons_of_pos (by simp [hi])]
            simp only [map_some, length_cons, some.injEq, Entry.mk.injEq, true_and,
              and_true]
            omega
          · rw [update_of_ne (Ne.symm hti), filter_cons_of_neg (by simp [hti])]

end Starfish.FsWrapper
