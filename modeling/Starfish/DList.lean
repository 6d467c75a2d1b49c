import Starfish.Prog

/-!
# Starfish.DList

Intrusive circular doubly linked lists (`struct list_head`).  The links of
all nodes are one pair of functions `prev`, `next`; a list head is a node
like any other.  `Path f a xs b` says that following `f` from `a` visits
exactly `xs` and then arrives at `b`, so that a list with head `h` and
contents `xs` is a path along `next` from `h` back to `h` through `xs`, and
a path along `prev` through `xs.reverse`.

The two directions are kept apart (`Fwds`, `Bwds`): a list operation that
stops halfway leaves a family of lists whose forward and backward contents
differ by one node, and both are still paths.
-/

namespace Starfish

open List Function

/-! ## Paths -/

section Path

variable {ν : Type} {f : ν → ν} {a b n : ν} {xs as bs : List ν}

/-- Following `f` from `a` visits exactly `xs` and arrives at `b`. -/
def Path (f : ν → ν) (a : ν) : List ν → ν → Prop
  | [], b => f a = b
  | x :: xs, b => f a = x ∧ Path f x xs b

theorem Path.congr (h : Path f a xs b) (hfg : ∀ x ∈ a :: xs, g x = f x) : Path g a xs b := by
  induction xs generalizing a with
  | nil => exact (hfg a mem_cons_self).trans h
  | cons x xs ih =>
    exact ⟨(hfg a mem_cons_self).trans h.1, ih h.2 fun y hy => hfg y (mem_cons_of_mem a hy)⟩

/-- Only the image of the starting node matters. -/
theorem Path.start (h : Path f a xs b) (ha : f a' = f a) : Path f a' xs b := by
  cases xs with
  | nil => exact ha.trans h
  | cons x xs => exact ⟨ha.trans h.1, h.2⟩

/-- The node after `as` on a path through `as ++ bs`. -/
theorem Path.apply_getLastD (h : Path f a (as ++ bs) b) : f (as.getLastD a) = bs.headD b := by
  induction as generalizing a with
  | nil =>
    cases bs with
    | nil => exact h
    | cons x bs => exact h.1
  | cons x as ih =>
    rw [getLastD_cons]
    exact ih h.2

/-- A path starts at the head of what it visits. -/
theorem Path.apply_start (h : Path f a xs b) : f a = xs.headD b := by
  cases xs with
  | nil => exact h
  | cons x xs => exact h.1

theorem mem_cons_of_getLastD (as bs : List ν) (a : ν) : as.getLastD a ∈ a :: (as ++ bs) := by
  rcases mem_cons.mp (getLastD_mem_cons (l := as) (a := a)) with h | h
  · rw [h]; exact mem_cons_self
  · exact mem_cons_of_mem a (mem_append_left bs h)

variable [DecidableEq ν]

/-- Redirecting the node after `as` to a fresh node that continues the path. -/
theorem Path.insert (h : Path f a (as ++ bs) b) (hnd : (a :: (as ++ bs)).Nodup)
    (hn : n ∉ a :: (as ++ bs)) (hfn : f n = bs.headD b) :
    Path (update f (as.getLastD a) n) a (as ++ n :: bs) b := by
  induction as generalizing a with
  | nil =>
    have hna : n ≠ a := fun h => hn (h ▸ mem_cons_self)
    rw [getLastD_nil]
    refine ⟨update_self a n f, ?_⟩
    have hstart : Path f n bs b := h.start (hfn.trans h.apply_start.symm)
    refine hstart.congr fun x hx => update_of_ne ?_ _ _
    rcases mem_cons.mp hx with rfl | hx
    · exact hna
    · rintro rfl
      exact (nodup_cons.mp hnd).1 hx
  | cons x as ih =>
    have hne : a ≠ as.getLastD x := fun h => (nodup_cons.mp hnd).1 (h ▸ mem_cons_of_getLastD as _ x)
    rw [getLastD_cons]
    refine ⟨?_, ih h.2 (nodup_cons.mp hnd).2 fun h => hn (mem_cons_of_mem a h)⟩
    rw [update_of_ne hne]
    exact h.1

/-- Redirecting the node after `as` past the next one. -/
theorem Path.erase (h : Path f a (as ++ n :: bs) b) (hnd : (a :: (as ++ n :: bs)).Nodup) :
    Path (update f (as.getLastD a) (bs.headD b)) a (as ++ bs) b := by
  induction as generalizing a with
  | nil =>
    have hab : a ∉ bs := fun h => (nodup_cons.mp hnd).1 (mem_cons_of_mem n h)
    obtain ⟨-, h⟩ := h
    rw [← h.apply_start]
    cases bs with
    | nil =>
      have h0 : update f a (f n) a = f n := update_self a _ f
      exact h0.trans h
    | cons x bs =>
      refine ⟨(update_self a _ f).trans h.1, h.2.congr fun y hy => ?_⟩
      refine update_of_ne ?_ _ _
      rintro rfl
      exact hab hy
  | cons x as ih =>
    have hne : a ≠ as.getLastD x := fun h => (nodup_cons.mp hnd).1 (h ▸ mem_cons_of_getLastD as _ x)
    rw [getLastD_cons]
    refine ⟨?_, ih h.2 (nodup_cons.mp hnd).2⟩
    rw [update_of_ne hne]
    exact h.1

/-- A path does not notice a change at a node it does not visit. -/
theorem Path.update (h : Path f a xs b) (hn : n ∉ a :: xs) (v : ν) :
    Path (update f n v) a xs b := by
  refine h.congr fun x hx => update_of_ne ?_ _ _
  rintro rfl
  exact hn hx

/-! ## Walking a path with fuel -/

/-- `for_each_in_list`: the nodes met from `x` on, up to `h`.  Running out of
fuel stands for a loop that does not end. -/
def walk (f : ν → ν) (h : ν) : ℕ → ν → Option (List ν)
  | 0, _ => none
  | n + 1, x => if x = h then some [] else (walk f h n (f x)).map (x :: ·)

/-- A list search that stops at `t`: whether `t` is met before `h`. -/
def seek (f : ν → ν) (h t : ν) : ℕ → ν → Option Bool
  | 0, _ => none
  | n + 1, x => if x = h then some false else if x = t then some true else seek f h t n (f x)

theorem walk_eq_of_path (hp : Path f a xs h) (hh : h ∉ xs)
    (hk : xs.length < k) : walk f h k (f a) = some xs := by
  induction xs generalizing a k with
  | nil =>
    obtain ⟨k, rfl⟩ : ∃ j, k = j + 1 := ⟨k - 1, by simp at hk; omega⟩
    have hfa : f a = h := hp
    simp [walk, hfa]
  | cons x xs ih =>
    obtain ⟨k, rfl⟩ : ∃ j, k = j + 1 := ⟨k - 1, by simp at hk; omega⟩
    have hxh : x ≠ h := fun he => hh (he ▸ mem_cons_self)
    have hrest := ih (k := k) hp.2 (fun hm => hh (mem_cons_of_mem x hm)) (by simp at hk; omega)
    simp [walk, hp.1, hxh, hrest]

theorem seek_eq_of_path (hp : Path f a xs h) (hh : h ∉ xs)
    (hk : xs.length < k) : seek f h t k (f a) = some (decide (t ∈ xs)) := by
  induction xs generalizing a k with
  | nil =>
    obtain ⟨k, rfl⟩ : ∃ j, k = j + 1 := ⟨k - 1, by simp at hk; omega⟩
    have hfa : f a = h := hp
    simp [seek, hfa]
  | cons x xs ih =>
    obtain ⟨k, rfl⟩ : ∃ j, k = j + 1 := ⟨k - 1, by simp at hk; omega⟩
    have hxh : x ≠ h := fun he => hh (he ▸ mem_cons_self)
    have hrest := ih (k := k) hp.2 (fun hm => hh (mem_cons_of_mem x hm)) (by simp at hk; omega)
    by_cases hxt : x = t
    · subst hxt
      simp [seek, hp.1, hxh]
    · have htx : ¬ t = x := fun he => hxt he.symm
      simp [seek, hp.1, hxh, hxt, htx, hrest]

end Path

/-! ## Links and the list operations -/

/-- The `prev` and `next` fields of all list nodes. -/
structure Links (ν : Type) where
  prev : ν → ν
  next : ν → ν

namespace Links

variable {ν : Type} [DecidableEq ν]

def setPrev (L : Links ν) (n v : ν) : Links ν := { L with prev := update L.prev n v }

def setNext (L : Links ν) (n v : ν) : Links ν := { L with next := update L.next n v }

section

variable (L : Links ν) (n v : ν)

@[simp] theorem setPrev_next : (L.setPrev n v).next = L.next := rfl

@[simp] theorem setPrev_prev : (L.setPrev n v).prev = update L.prev n v := rfl

@[simp] theorem setNext_prev : (L.setNext n v).prev = L.prev := rfl

@[simp] theorem setNext_next : (L.setNext n v).next = update L.next n v := rfl

end

/-- A store of what is there changes nothing. -/
theorem setPrev_eq_self {L : Links ν} (h : L.prev n = v) : L.setPrev n v = L := by
  rw [← h, setPrev, update_eq_self]

theorem setNext_eq_self {L : Links ν} (h : L.next n = v) : L.setNext n v = L := by
  rw [← h, setNext, update_eq_self]

/-- `list_empty`. -/
def listEmpty (L : Links ν) (head : ν) : Prop := L.next head = head

instance (L : Links ν) (head : ν) : Decidable (L.listEmpty head) :=
  inferInstanceAs (Decidable (_ = _))

end Links

section ops

variable {ν : Type} [DecidableEq ν]

open Prog

/-- `init_list_head`. -/
def initListHead (list : ν) : Prog (Links ν) Unit := do
  store (·.setNext list list)
  store (·.setPrev list list)

/-- `list_add`: put `new` right after `head`. -/
def listAdd (new head : ν) : Prog (Links ν) Unit := do
  store fun L => L.setNext new (L.next head)
  store fun L => L.setPrev new head
  store fun L => L.setPrev (L.next head) new
  store fun L => L.setNext head new

/-- `list_append`: put `new` right before `head`. -/
def listAppend (new head : ν) : Prog (Links ν) Unit := do
  let tail ← read fun L => L.prev head
  listAdd new tail

/-- `list_del`. -/
def listDel (node : ν) : Prog (Links ν) Unit := do
  store fun L => L.setNext (L.prev node) (L.next node)
  store fun L => L.setPrev (L.next node) (L.prev node)

variable {Q : Unit → Links ν → Prop} {C : Links ν → Prop}

theorem wp_initListHead : wp (initListHead h) Q C L ↔
      C (L.setNext h h) ∧ C ((L.setNext h h).setPrev h h) ∧ Q () ((L.setNext h h).setPrev h h) := by
  simp only [initListHead, wp_bind, wp_store]

/-- The four stores of `list_add`. -/
theorem wp_listAdd (hnp : n ≠ p) :
    wp (listAdd n p) Q C L ↔ C (L.setNext n (L.next p)) ∧ C ((L.setNext n (L.next p)).setPrev n p) ∧
      C (((L.setNext n (L.next p)).setPrev n p).setPrev (L.next p) n) ∧
      C ((((L.setNext n (L.next p)).setPrev n p).setPrev (L.next p) n).setNext p n) ∧
      Q () ((((L.setNext n (L.next p)).setPrev n p).setPrev (L.next p) n).setNext p n) := by
  simp only [listAdd, wp_bind, wp_store, Links.setPrev_next, Links.setNext_next,
    update_of_ne hnp.symm]

theorem wp_listDel (hnp : n ≠ L.prev n) :
    wp (listDel n) Q C L ↔ C (L.setNext (L.prev n) (L.next n)) ∧
      C ((L.setNext (L.prev n) (L.next n)).setPrev (L.next n) (L.prev n)) ∧
      Q () ((L.setNext (L.prev n) (L.next n)).setPrev (L.next n) (L.prev n)) := by
  simp only [listDel, wp_bind, wp_store, Links.setNext_prev, Links.setNext_next, update_of_ne hnp]

end ops

/-! ## Families of lists

Several lists share one `Links`: the free lists of a buddy pool, the partial
and full lists of the slab pools, the copies lists of the kernel objects.
`hd` gives the head node of each list and `D` the lists that exist. -/

section Family

variable {κ ν : Type} {hd : κ → ν} {D : κ → Prop} {L : Links ν} {xs : κ → List ν}
  {k : κ} {n : ν}

/-- Walking forward, the lists hold `xs`. -/
def Fwds (hd : κ → ν) (D : κ → Prop) (L : Links ν) (xs : κ → List ν) : Prop :=
  ∀ k, D k → Path L.next (hd k) (xs k) (hd k)

/-- Walking backward, the lists hold `xs`. -/
def Bwds (hd : κ → ν) (D : κ → Prop) (L : Links ν) (xs : κ → List ν) : Prop :=
  ∀ k, D k → Path L.prev (hd k) (xs k).reverse (hd k)

/-- No node occurs twice, in one list or in two. -/
structure Apart (hd : κ → ν) (D : κ → Prop) (xs : κ → List ν) : Prop where
  nodup : ∀ k, D k → (hd k :: xs k).Nodup
  disj : ∀ j k, D j → D k → j ≠ k → ∀ n ∈ hd j :: xs j, n ∉ hd k :: xs k

/-- `n` is in none of the lists. -/
def Fresh (hd : κ → ν) (D : κ → Prop) (xs : κ → List ν) (n : ν) : Prop :=
  ∀ k, D k → n ∉ hd k :: xs k

theorem Apart.head_notMem (hA : Apart hd D xs) (hk : D k) : hd k ∉ xs k :=
  (nodup_cons.mp (hA.nodup k hk)).1

theorem headD_reverse (as : List ν) (a : ν) : as.reverse.headD a = as.getLastD a := by
  rw [headD_eq_head?_getD, head?_reverse, getLastD_eq_getLast?]

theorem getLastD_reverse (as : List ν) (a : ν) : as.reverse.getLastD a = as.headD a := by
  rw [headD_eq_head?_getD, getLastD_eq_getLast?, getLast?_reverse]

theorem mem_cons_of_headD (as bs : List ν) (a : ν) : bs.headD a ∈ a :: (as ++ bs) := by
  cases bs with
  | nil => exact mem_cons_self
  | cons b bs => exact mem_cons_of_mem a (mem_append_right as mem_cons_self)

/-- The node after `as`, read forward. -/
theorem Fwds.next_getLastD (hF : Fwds hd D L xs) (hk : D k) (hxs : xs k = as ++ bs) :
    L.next (as.getLastD (hd k)) = bs.headD (hd k) :=
  Path.apply_getLastD (hxs ▸ hF k hk)

theorem Bwds.prev_headD (hB : Bwds hd D L xs) (hk : D k) (hxs : xs k = as ++ bs) :
    L.prev (bs.headD (hd k)) = as.getLastD (hd k) := by
  have h := hB k hk
  rw [hxs, reverse_append] at h
  rw [← getLastD_reverse bs, ← headD_reverse as]
  exact h.apply_getLastD

variable [DecidableEq ν]

theorem Fwds.setNext_fresh (hF : Fwds hd D L xs) (hn : Fresh hd D xs n) (v : ν) :
    Fwds hd D (L.setNext n v) xs := fun k hk => (hF k hk).update (hn k hk) v

theorem Bwds.setPrev_fresh (hB : Bwds hd D L xs) (hn : Fresh hd D xs n) (v : ν) :
    Bwds hd D (L.setPrev n v) xs := by
  refine fun k hk => (hB k hk).update (fun hm => hn k hk ?_) v
  exact ((reverse_perm _).cons _).mem_iff.mp hm

variable [DecidableEq κ]

theorem Fwds.insert (hF : Fwds hd D L xs) (hA : Apart hd D xs) (hk : D k)
    (hxs : xs k = as ++ bs) (hn : Fresh hd D xs n) (hnext : L.next n = bs.headD (hd k)) :
    Fwds hd D (L.setNext (as.getLastD (hd k)) n) (update xs k (as ++ n :: bs)) := by
  intro j hj
  by_cases hjk : j = k
  · subst hjk
    rw [update_self]
    exact (hxs ▸ hF j hj).insert (hxs ▸ hA.nodup j hj) (hxs ▸ hn j hj) hnext
  · rw [update_of_ne hjk]
    exact (hF j hj).update (hA.disj k j hk hj (Ne.symm hjk) _
      (hxs ▸ mem_cons_of_getLastD as bs (hd k))) n

theorem Bwds.insert (hB : Bwds hd D L xs) (hA : Apart hd D xs) (hk : D k)
    (hxs : xs k = as ++ bs) (hn : Fresh hd D xs n) (hprev : L.prev n = as.getLastD (hd k)) :
    Bwds hd D (L.setPrev (bs.headD (hd k)) n) (update xs k (as ++ n :: bs)) := by
  intro j hj
  by_cases hjk : j = k
  · subst hjk
    have h := hB j hj
    rw [hxs, reverse_append] at h
    have hperm : (hd j :: (bs.reverse ++ as.reverse)).Perm (hd j :: (as ++ bs)) := by
      rw [← reverse_append]
      exact (reverse_perm _).cons _
    rw [update_self, reverse_append, reverse_cons, append_assoc,
      singleton_append, ← getLastD_reverse bs]
    refine h.insert (hperm.nodup_iff.mpr (hxs ▸ hA.nodup j hj)) (fun hm => ?_) ?_
    · exact hn j hj (hxs ▸ hperm.mem_iff.mp hm)
    · rw [headD_reverse, hprev]
  · rw [update_of_ne hjk]
    refine (hB j hj).update (fun hm => ?_) n
    exact hA.disj k j hk hj (Ne.symm hjk) _ (hxs ▸ mem_cons_of_headD as bs (hd k))
      (((reverse_perm _).cons _).mem_iff.mp hm)

theorem Fwds.erase (hF : Fwds hd D L xs) (hA : Apart hd D xs) (hk : D k)
    (hxs : xs k = as ++ n :: bs) :
    Fwds hd D (L.setNext (as.getLastD (hd k)) (bs.headD (hd k))) (update xs k (as ++ bs)) := by
  intro j hj
  by_cases hjk : j = k
  · subst hjk
    rw [update_self]
    exact (hxs ▸ hF j hj).erase (hxs ▸ hA.nodup j hj)
  · rw [update_of_ne hjk]
    exact (hF j hj).update (hA.disj k j hk hj (Ne.symm hjk) _
      (hxs ▸ mem_cons_of_getLastD as (n :: bs) (hd k))) _

theorem Bwds.erase (hB : Bwds hd D L xs) (hA : Apart hd D xs) (hk : D k)
    (hxs : xs k = as ++ n :: bs) :
    Bwds hd D (L.setPrev (bs.headD (hd k)) (as.getLastD (hd k))) (update xs k (as ++ bs)) := by
  have hxs' : xs k = (as ++ [n]) ++ bs := by rw [hxs, append_assoc, singleton_append]
  intro j hj
  by_cases hjk : j = k
  · subst hjk
    have h := hB j hj
    rw [hxs, reverse_append, reverse_cons, append_assoc, singleton_append] at h
    have hperm : (hd j :: (bs.reverse ++ n :: as.reverse)).Perm (hd j :: (as ++ n :: bs)) := by
      have hrev : bs.reverse ++ n :: as.reverse = (as ++ n :: bs).reverse := by simp
      rw [hrev]
      exact (reverse_perm _).cons _
    rw [update_self, reverse_append, ← getLastD_reverse bs, ← headD_reverse as]
    exact h.erase (hperm.nodup_iff.mpr (hxs ▸ hA.nodup j hj))
  · rw [update_of_ne hjk]
    refine (hB j hj).update (fun hm => ?_) _
    exact hA.disj k j hk hj (Ne.symm hjk) _ (hxs' ▸ mem_cons_of_headD (as ++ [n]) bs (hd k))
      (((reverse_perm _).cons _).mem_iff.mp hm)

omit [DecidableEq ν] in
theorem Apart.insert (hA : Apart hd D xs) (hxs : xs k = as ++ bs)
    (hn : Fresh hd D xs n) : Apart hd D (update xs k (as ++ n :: bs)) := by
  have hmem : ∀ j, D j → ∀ x ∈ hd j :: update xs k (as ++ n :: bs) j,
      x ∈ hd j :: xs j ∨ (j = k ∧ x = n) := by
    intro j hj x hx
    by_cases hjk : j = k
    · subst hjk
      rw [update_self] at hx
      rw [hxs]
      simp only [mem_cons, mem_append] at hx ⊢
      tauto
    · rw [update_of_ne hjk] at hx
      exact .inl hx
  refine ⟨fun j hj => ?_, fun i j hi hj hij x hxi hxj => ?_⟩
  · by_cases hjk : j = k
    · subst hjk
      have hnd := hA.nodup j hj
      have hnj := hn j hj
      rw [hxs] at hnd hnj
      rw [update_self]
      have hperm : (n :: hd j :: (as ++ bs)).Perm (hd j :: (as ++ n :: bs)) :=
        (List.Perm.swap _ _ _).trans (perm_middle.symm.cons _)
      exact hperm.nodup_iff.mp (nodup_cons.mpr ⟨hnj, hnd⟩)
    · rw [update_of_ne hjk]
      exact hA.nodup j hj
  · rcases hmem i hi x hxi with hi' | ⟨hik, hxn⟩
    · rcases hmem j hj x hxj with hj' | ⟨hjk, hxn⟩
      · exact hA.disj i j hi hj hij x hi' hj'
      · exact hn i hi (hxn ▸ hi')
    · rcases hmem j hj x hxj with hj' | ⟨hjk, -⟩
      · exact hn j hj (hxn ▸ hj')
      · exact hij (hik.trans hjk.symm)

omit [DecidableEq ν] in
theorem Apart.erase (hA : Apart hd D xs) (hxs : xs k = as ++ n :: bs) :
    Apart hd D (update xs k (as ++ bs)) := by
  have hsub : ∀ j, (hd j :: update xs k (as ++ bs) j).Sublist (hd j :: xs j) := by
    intro j
    by_cases hjk : j = k
    · subst hjk
      rw [update_self, hxs]
      exact ((sublist_cons_self n bs).append_left as).cons_cons _
    · rw [update_of_ne hjk]
  exact ⟨fun j hj => (hA.nodup j hj).sublist (hsub j), fun i j hi hj hij x hxi hxj =>
      hA.disj i j hi hj hij x ((hsub i).subset hxi) ((hsub j).subset hxj)⟩

omit [DecidableEq ν] in
theorem Apart.fresh_of_erase (hA : Apart hd D xs) (hk : D k) (hxs : xs k = as ++ n :: bs) :
    Fresh hd D (update xs k (as ++ bs)) n := by
  intro j hj hm
  by_cases hjk : j = k
  · subst hjk
    have hnd := hA.nodup j hj
    rw [update_self] at hm
    rw [hxs] at hnd
    have hperm : (n :: hd j :: (as ++ bs)).Perm (hd j :: (as ++ n :: bs)) :=
      (List.Perm.swap _ _ _).trans (perm_middle.symm.cons _)
    exact (nodup_cons.mp (hperm.nodup_iff.mpr hnd)).1 hm
  · rw [update_of_ne hjk] at hm
    refine hA.disj k j hk hj (Ne.symm hjk) n ?_ hm
    rw [hxs]
    exact mem_cons_of_mem _ (mem_append_right _ mem_cons_self)

/-! ### The list operations on a family -/

section wp

open Prog

variable {Q : Unit → Links ν → Prop} {C : Links ν → Prop}
  (hA : Apart hd D xs) (hF : Fwds hd D L xs) (hB : Bwds hd D L xs) (hk : D k)
include hA hF hB hk

/-- `list_add` behind the nodes `as` of list `k`.  A stop after one of the
first two stores leaves the lists as they were, a stop after the third one
shows the new node to a backward walk only. -/
theorem wp_listAdd_at (hxs : xs k = as ++ bs) (hn : Fresh hd D xs n)
    (hC0 : ∀ L', Fwds hd D L' xs → Bwds hd D L' xs → C L')
    (hC1 : ∀ L', Fwds hd D L' xs → Bwds hd D L' (update xs k (as ++ n :: bs)) →
      L'.next n = bs.headD (hd k) → L'.prev n = as.getLastD (hd k) → C L')
    (hQ : ∀ L', Fwds hd D L' (update xs k (as ++ n :: bs)) →
      Bwds hd D L' (update xs k (as ++ n :: bs)) → C L' ∧ Q () L') :
    wp (listAdd n (as.getLastD (hd k))) Q C L := by
  have hnk := hn k hk
  rw [hxs] at hnk
  have hnp : n ≠ as.getLastD (hd k) := fun h => hnk (h ▸ mem_cons_of_getLastD as bs (hd k))
  have hnq : n ≠ bs.headD (hd k) := fun h => hnk (h ▸ mem_cons_of_headD as bs (hd k))
  rw [wp_listAdd hnp, hF.next_getLastD hk hxs]
  have hF1 : Fwds hd D (L.setNext n (bs.headD (hd k))) xs := hF.setNext_fresh hn _
  have hB2 : Bwds hd D ((L.setNext n (bs.headD (hd k))).setPrev n (as.getLastD (hd k))) xs :=
    Bwds.setPrev_fresh (L := L.setNext n _) hB hn _
  have hnext : (L.setNext n (bs.headD (hd k))).next n = bs.headD (hd k) := update_self n _ _
  have hprev : ((L.setNext n (bs.headD (hd k))).setPrev n (as.getLastD (hd k))).prev n =
      as.getLastD (hd k) := update_self n _ _
  have hB3 := hB2.insert hA hk hxs hn hprev
  have hF4 := hF1.insert hA hk hxs hn hnext
  refine ⟨hC0 _ hF1 hB, hC0 _ hF1 hB2, hC1 _ hF1 hB3 hnext ?_, hQ _ hF4 hB3⟩
  rw [Links.setPrev_prev, update_of_ne hnq, hprev]

theorem wp_listAppend (hn : Fresh hd D xs n) (hC0 : ∀ L', Fwds hd D L' xs → Bwds hd D L' xs → C L')
    (hC1 : ∀ L', Fwds hd D L' xs → Bwds hd D L' (update xs k (xs k ++ [n])) → C L')
    (hQ : ∀ L', Fwds hd D L' (update xs k (xs k ++ [n])) →
      Bwds hd D L' (update xs k (xs k ++ [n])) → C L' ∧ Q () L') :
    wp (listAppend n (hd k)) Q C L := by
  have hxs : xs k = xs k ++ [] := (append_nil _).symm
  have htail : L.prev (hd k) = (xs k).getLastD (hd k) := hB.prev_headD hk hxs
  rw [listAppend, wp_bind, wp_read, htail]
  exact wp_listAdd_at hA hF hB hk hxs hn hC0 (fun L' h1 h2 _ _ => hC1 L' h1 h2) hQ

/-- `list_del` of the node `n` of list `k`.  A stop between the two stores
shows the node to a backward walk only. -/
theorem wp_listDel_at (hxs : xs k = as ++ n :: bs)
    (hC1 : ∀ L', Fwds hd D L' (update xs k (as ++ bs)) → Bwds hd D L' xs →
      L'.next n = bs.headD (hd k) → L'.prev n = as.getLastD (hd k) → C L')
    (hQ : ∀ L', Fwds hd D L' (update xs k (as ++ bs)) →
      Bwds hd D L' (update xs k (as ++ bs)) → C L' ∧ Q () L') :
    wp (listDel n) Q C L := by
  have hnext : L.next n = bs.headD (hd k) := by
    have hxs' : xs k = (as ++ [n]) ++ bs := by rw [hxs, append_assoc, singleton_append]
    have h := hF.next_getLastD hk hxs'
    rwa [getLastD_concat] at h
  have hprev : L.prev n = as.getLastD (hd k) := hB.prev_headD hk hxs
  have hne : n ≠ L.prev n := by
    rw [hprev]
    intro h
    have hfr := hA.fresh_of_erase hk hxs k hk
    rw [update_self] at hfr
    exact hfr (h ▸ mem_cons_of_getLastD as bs (hd k))
  have hnext' : (L.setNext (L.prev n) (L.next n)).next n = bs.headD (hd k) :=
    (update_of_ne hne _ _).trans hnext
  rw [wp_listDel hne]
  rw [hnext, hprev] at hnext' ⊢
  have hF1 := hF.erase hA hk hxs
  exact ⟨hC1 _ hF1 hB hnext' hprev, hQ _ hF1 (Bwds.erase (L := L.setNext _ _) hB hA hk hxs)⟩

end wp

end Family

end Starfish
