import Starfish.DList

/-!
# Starfish.Halfway

List operations that stopped halfway.  When a machine stops inside `list_add`
or `list_del` of the first node of a list, the node is not linked at all,
linked for a backward walk only, or fully linked (`Front`).  Recovery code
puts such a list right with two pieces of code, which both leave a whole list
whichever of the three it finds: unlink a node that a walk in either direction
meets (`delIfLinked`), and link a node as the first one if it is not
(`relinkFirst`).
-/

namespace Starfish

open Prog List

variable {κ ν : Type} {hd : κ → ν} {D : κ → Prop} {L L' : Links ν} {fw bw ys : κ → List ν}
  {k : κ} {h x : ν} {xs f b : List ν}

/-! ## Half-linked first nodes -/

/-- How `x` is linked in front of the nodes `xs` of the list with head `h`,
where forward walks find `f` and backward walks find `b`. -/
inductive Front (L : Links ν) (h x : ν) (xs : List ν) : List ν → List ν → Prop
  | out : Front L h x xs xs xs
  | half (hnext : L.next x = xs.headD h) (hprev : L.prev x = h) : Front L h x xs xs (x :: xs)
  | on : Front L h x xs (x :: xs) (x :: xs)

section

variable (hf : Front L h x xs f b)
include hf

theorem Front.fwd_eq : f = xs ∨ f = x :: xs := by
  cases hf with
  | out => exact .inl rfl
  | half => exact .inl rfl
  | on => exact .inr rfl

theorem Front.bwd_eq_of_mem (hx : x ∈ b) (hxs : x ∉ xs) : b = x :: xs := by
  cases hf with
  | out => exact absurd hx hxs
  | half => rfl
  | on => rfl

theorem Front.eq_of_notMem (hx : x ∉ b) : f = xs ∧ b = xs := by
  cases hf with
  | out => exact ⟨rfl, rfl⟩
  | half | on => exact absurd mem_cons_self hx

theorem Front.fwd_sublist_bwd : f.Sublist b := by
  cases hf with
  | out | on => exact List.Sublist.refl _
  | half => exact sublist_cons_self x xs

theorem Front.bwd_sublist : b.Sublist (x :: xs) := by
  cases hf with
  | out => exact sublist_cons_self x xs
  | half | on => exact List.Sublist.refl _

/-- Only the links of `x` itself matter, and only when `x` is linked. -/
theorem Front.congr (hnext : x ∈ b → L'.next x = L.next x)
    (hprev : x ∈ b → L'.prev x = L.prev x) : Front L' h x xs f b := by
  cases hf with
  | out => exact .out
  | half hn hp =>
    exact .half ((hnext mem_cons_self).trans hn) ((hprev mem_cons_self).trans hp)
  | on => exact .on

end

/-- A family of lists in which walks in the two directions may differ: all
nodes they meet are among `ys`, which has no node twice. -/
structure Walks (hd : κ → ν) (D : κ → Prop) (L : Links ν) (fw bw ys : κ → List ν) : Prop where
  apart : Apart hd D ys
  fwd : Fwds hd D L fw
  bwd : Bwds hd D L bw
  fwdSub : ∀ k, D k → (fw k).Sublist (ys k)
  bwdSub : ∀ k, D k → (bw k).Sublist (ys k)

theorem Apart.mono (hA : Apart hd D ys) (hsub : ∀ k, D k → (fw k).Sublist (ys k)) :
    Apart hd D fw where
  nodup k hk := (hA.nodup k hk).sublist ((hsub k hk).cons_cons _)
  disj j k hj hk hjk n hn hn' := hA.disj j k hj hk hjk n (((hsub j hj).cons_cons _).subset hn)
      (((hsub k hk).cons_cons _).subset hn')

/-! ## The links of a first node -/

variable (w : Walks hd D L fw bw ys) (hk : D k)
  (hf : Front L (hd k) x xs (fw k) (bw k))

include w hk hf in
theorem Walks.next_of_mem (hx : x ∈ bw k) (hxs : x ∉ xs) : L.next x = xs.headD (hd k) := by
  generalize hfk : fw k = f at hf
  generalize hbk : bw k = b at hf hx
  cases hf with
  | out => exact absurd hx hxs
  | half hn _ => exact hn
  | on => exact w.fwd.next_getLastD hk (show fw k = [x] ++ xs from hfk)

include w hk hf in
theorem Walks.prev_of_mem (hx : x ∈ bw k) (hxs : x ∉ xs) : L.prev x = hd k := by
  generalize hfk : fw k = f at hf
  generalize hbk : bw k = b at hf hx
  cases hf with
  | out => exact absurd hx hxs
  | half _ hp => exact hp
  | on => exact w.bwd.prev_headD hk (show bw k = [] ++ x :: xs from hbk)

theorem Walks.fwd_apart (w : Walks hd D L fw bw ys) : Apart hd D fw := w.apart.mono w.fwdSub

theorem Walks.bwd_apart (w : Walks hd D L fw bw ys) : Apart hd D bw := w.apart.mono w.bwdSub

variable [DecidableEq κ]

open Function

/-- Both walks find `xs'` in list `k` now. -/
theorem Walks.update (w : Walks hd D L fw bw ys)
    (hF : Fwds hd D L' (Function.update fw k xs')) (hB : Bwds hd D L' (Function.update bw k xs'))
    (hsub : xs'.Sublist (ys k)) :
    Walks hd D L' (Function.update fw k xs') (Function.update bw k xs') ys := by
  refine ⟨w.apart, hF, hB, fun j hj => ?_, fun j hj => ?_⟩
  · by_cases hjk : j = k
    · subst hjk
      rwa [update_self]
    · rw [update_of_ne hjk]
      exact w.fwdSub j hj
  · by_cases hjk : j = k
    · subst hjk
      rwa [update_self]
    · rw [update_of_ne hjk]
      exact w.bwdSub j hj

omit [DecidableEq κ] in
/-- A node of list `k` that is not linked there is in no other list either. -/
theorem Apart.fresh_of_notMem (hA : Apart hd D ys) (hsub : ∀ k, D k → (fw k).Sublist (ys k))
    (hk : D k) (hx : x ∈ ys k) (hno : x ∉ fw k) : Fresh hd D fw x := by
  intro j hj hm
  by_cases hjk : j = k
  · subst hjk
    cases mem_cons.mp hm with
    | inl he => exact hA.head_notMem hj (he ▸ hx)
    | inr hm => exact hno hm
  · exact hA.disj k j hk hj (Ne.symm hjk) x (mem_cons_of_mem _ hx)
      (((hsub j hj).cons_cons (hd j)).subset hm)

/-! ## Unlinking a node that a walk meets -/

variable [DecidableEq ν]

/-- `list_del` of a node that a walk in either direction meets. -/
def delIfLinked (fuel : ℕ) (x h : ν) : Prog (Links ν) Unit := do
  let fwd ← read fun L => seek L.next h x fuel (L.next h)
  let bwd ← read fun L => seek L.prev h x fuel (L.prev h)
  match fwd, bwd with
  | some fwd, some bwd => when (fwd ∨ bwd) (listDel x)
  | _, _ => bug

omit [DecidableEq κ] in
/-- The two walks end and find `x` exactly where it is linked. -/
theorem Walks.wp_delIfLinked_iff (w : Walks hd D L fw bw ys) (hk : D k)
    (hfuel : (ys k).length < fuel) :
    wp (delIfLinked fuel x (hd k)) Q C L ↔
      (x ∈ fw k ∨ x ∈ bw k → wp (listDel x) Q C L) ∧ (¬ (x ∈ fw k ∨ x ∈ bw k) → Q () L) := by
  have hfl := (w.fwdSub k hk).length_le
  have hbl := (w.bwdSub k hk).length_le
  have hsf := seek_eq_of_path (t := x) (k := fuel) (w.fwd k hk) (w.fwd_apart.head_notMem hk)
    (by omega)
  have hbn : hd k ∉ (bw k).reverse := fun hm =>
    w.bwd_apart.head_notMem hk (mem_reverse.mp hm)
  have hsb := seek_eq_of_path (t := x) (k := fuel) (w.bwd k hk) hbn (by rw [length_reverse]; omega)
  simp only [delIfLinked, wp_bind, wp_read, hsf, hsb, mem_reverse, wp_when, decide_eq_true_eq]

include w hk hf in
/-- Whatever state the first node is in, `delIfLinked` leaves it unlinked. -/
theorem Walks.wp_delIfLinked (hys : ys k = x :: xs) (hfuel : (ys k).length < fuel) (hC : ∀ L', C L')
    (hQ : ∀ L', Walks hd D L' (Function.update fw k xs) (Function.update bw k xs) ys →
      (∀ y, y ≠ hd k → L'.next y = L.next y) → (∀ y, y ∉ hd k :: xs → L'.prev y = L.prev y) →
      Q () L') :
    wp (delIfLinked fuel x (hd k)) Q C L := by
  have hnd := w.apart.nodup k hk
  rw [hys] at hnd
  have hxs : x ∉ xs := (nodup_cons.mp (nodup_cons.mp hnd).2).1
  have hsub : xs.Sublist (ys k) := hys ▸ sublist_cons_self x xs
  refine (w.wp_delIfLinked_iff hk hfuel).mpr ⟨fun hx => ?_, fun hx => ?_⟩
  · have hxb : x ∈ bw k := hx.elim (fun hx => hf.fwd_sublist_bwd.subset hx) id
    have hnext := w.next_of_mem hk hf hxb hxs
    have hprev := w.prev_of_mem hk hf hxb hxs
    have hne : x ≠ L.prev x := by
      intro he
      exact w.apart.head_notMem hk (hys ▸ hprev ▸ he ▸ mem_cons_self)
    rw [wp_listDel hne, hnext, hprev]
    refine ⟨hC _, hC _, hQ _ (w.update ?_ ?_ hsub) (fun y hy => ?_) fun y hy => ?_⟩
    · cases hf.fwd_eq with
      | inl hfw =>
        -- the first store writes what is there
        have hfirst : L.next (hd k) = xs.headD (hd k) := hfw ▸ (w.fwd k hk).apply_start
        rw [Links.setNext_eq_self hfirst, ← hfw, update_eq_self]
        exact w.fwd
      | inr hfw => exact w.fwd.erase w.fwd_apart hk (hfw.trans (nil_append _).symm)
    · have hb : bw k = [] ++ x :: xs := hf.bwd_eq_of_mem hxb hxs
      exact Bwds.erase (L := L.setNext _ _) w.bwd w.bwd_apart hk hb
    · exact update_of_ne hy _ _
    · refine update_of_ne ?_ _ _
      rintro rfl
      exact hy (mem_cons_of_headD [] xs (hd k))
  · obtain ⟨hfw, hbw⟩ := hf.eq_of_notMem fun hm => hx (.inr hm)
    refine hQ L (w.update ?_ ?_ hsub) (fun _ _ => rfl) fun _ _ => rfl
    · rw [← hfw, update_eq_self]
      exact w.fwd
    · rw [← hbw, update_eq_self]
      exact w.bwd

/-! ## Linking a node as the first one -/

/-- Make `x` the first node, unless it is. -/
def relinkFirst (x h : ν) : Prog (Links ν) Unit := do
  let first ← read (·.next h)
  if first = x then
    pure ()
  else do
    store fun L => L.setNext (L.prev h) h
    listAdd x h

omit [DecidableEq κ] [DecidableEq ν] in
include w hk hf in
/-- The last node that a backward walk meets first leads forward to the head. -/
theorem Walks.next_last (hfw : fw k = xs) (hxs : x ∉ xs) : L.next (L.prev (hd k)) = hd k := by
  have hlast : L.prev (hd k) = (bw k).getLastD (hd k) := w.bwd.prev_headD hk (append_nil _).symm
  have hend : L.next (xs.getLastD (hd k)) = hd k :=
    w.fwd.next_getLastD hk (hfw.trans (append_nil _).symm)
  rw [hlast]
  by_cases hx : x ∈ bw k
  · have hnext := w.next_of_mem hk hf hx hxs
    rw [hf.bwd_eq_of_mem hx hxs, getLastD_cons]
    cases xs with
    | nil => exact hnext
    | cons y xs => rwa [getLastD_cons] at hend ⊢
  · rwa [(hf.eq_of_notMem hx).2]

include w hk hf in
/-- The backward half of `list_add` of the first node. -/
theorem Walks.bwds_relink (hys : ys k = x :: xs) (hxs : x ∉ xs) :
    Bwds hd D ((L.setPrev x (hd k)).setPrev (xs.headD (hd k)) x)
      (Function.update bw k (x :: xs)) := by
  by_cases hx : x ∈ bw k
  · have hbw := hf.bwd_eq_of_mem hx hxs
    have hprev := w.prev_of_mem hk hf hx hxs
    have hfirst : L.prev (xs.headD (hd k)) = x :=
      w.bwd.prev_headD hk (show bw k = [x] ++ xs from hbw)
    rw [Links.setPrev_eq_self hprev, Links.setPrev_eq_self hfirst, ← hbw, update_eq_self]
    exact w.bwd
  · have hfr := w.apart.fresh_of_notMem w.bwdSub hk (hys ▸ mem_cons_self) hx
    have hbw : bw k = [] ++ xs := (hf.eq_of_notMem hx).2
    exact (w.bwd.setPrev_fresh hfr (hd k)).insert w.bwd_apart hk hbw hfr (update_self x _ _)

include w hk hf in
/-- Whatever state the first node is in, `relinkFirst` leaves it linked. -/
theorem Walks.wp_relinkFirst (hys : ys k = x :: xs) (hC : ∀ L', C L')
    (hQ : ∀ L', Walks hd D L' (Function.update fw k (x :: xs)) (Function.update bw k (x :: xs))
        ys → Q () L') :
    wp (relinkFirst x (hd k)) Q C L := by
  have hnd := w.apart.nodup k hk
  rw [hys] at hnd
  have hxs : x ∉ xs := (nodup_cons.mp (nodup_cons.mp hnd).2).1
  have hxh : x ≠ hd k := fun he => (nodup_cons.mp hnd).1 (he ▸ mem_cons_self)
  have hfirst := (w.fwd k hk).apply_start
  rw [relinkFirst, wp_bind, wp_read, wp_ite]
  cases hf.fwd_eq with
  | inr hfw =>
    have hbw : bw k = x :: xs :=
      hf.bwd_eq_of_mem (hf.fwd_sublist_bwd.subset (hfw ▸ mem_cons_self)) hxs
    refine ⟨fun _ => wp_pure.mpr (hQ L ?_), fun hne => absurd ?_ hne⟩
    · rw [← hfw, update_eq_self, hfw, ← hbw, update_eq_self]
      exact w
    · rw [hfirst, hfw, headD_cons]
  | inl hfw =>
    rw [hfw] at hfirst
    have hnot : L.next (hd k) ≠ x := by
      rw [hfirst]
      intro he
      cases mem_cons.mp (he ▸ mem_cons_of_headD [] xs (hd k)) with
      | inl he => exact hxh he
      | inr hm => exact hxs hm
    refine ⟨fun he => absurd he hnot, fun _ => ?_⟩
    -- the store that handles a partly executed `list_del` writes what is there
    have hsame : L.setNext (L.prev (hd k)) (hd k) = L :=
      Links.setNext_eq_self (w.next_last hk hf hfw hxs)
    rw [wp_bind, wp_store, hsame, wp_listAdd hxh, hfirst]
    refine ⟨hC _, hC _, hC _, hC _, hC _, hQ _ (w.update ?_ ?_ (hys ▸ List.Sublist.refl _))⟩
    · have hfr := w.apart.fresh_of_notMem w.fwdSub hk (hys ▸ mem_cons_self) (hfw ▸ hxs)
      exact (w.fwd.setNext_fresh hfr _).insert w.fwd_apart hk
        (hfw.trans (nil_append _).symm) hfr (update_self x _ _)
    · exact w.bwds_relink hk hf hys hxs

end Starfish
