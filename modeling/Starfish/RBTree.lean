import Mathlib.Tactic.Ring

/-!
# Starfish.RBTree

The red-black trees of `kernel/lib/rbtree.c`.  The code follows parent pointers on
its way up; here the way is a `Path`, a tree with a hole, and a step up takes the
innermost node off the path.  A pointer that is followed and is NULL gives `none`.

The two halves of the proofs are independent: `toList` says in which order the
elements are, and `Balanced` that the loops meet no NULL.
-/

namespace Starfish

open List

inductive Color where
  | red
  | black
deriving DecidableEq, Repr

inductive RBTree (α : Type) where
  | nil
  | node (color : Color) (left : RBTree α) (key : α) (right : RBTree α)
deriving DecidableEq, Repr

namespace RBTree

open Color

variable {α β : Type}

/-! ## Trees with a hole -/

/-- The way from a place in the tree up to the root. -/
inductive Path (α : Type) where
  | root
  /-- The hole is the left child of the node. -/
  | left (color : Color) (key : α) (right : RBTree α) (parent : Path α)
  /-- The hole is the right child of the node. -/
  | right (color : Color) (left : RBTree α) (key : α) (parent : Path α)
deriving Repr

/-- The elements in order. -/
@[simp] def toList : RBTree α → List α
  | nil => []
  | node _ l x r => l.toList ++ x :: r.toList

namespace Path

def fill : Path α → RBTree α → RBTree α
  | root, t => t
  | left c x r p, t => p.fill (node c t x r)
  | right c l x p, t => p.fill (node c l x t)

def length : Path α → ℕ
  | root => 0
  | left _ _ _ p => p.length + 1
  | right _ _ _ p => p.length + 1

/-- The elements before the hole. -/
@[simp] def before : Path α → List α
  | root => []
  | left _ _ _ p => p.before
  | right _ l x p => p.before ++ (l.toList ++ [x])

/-- The elements after the hole. -/
@[simp] def after : Path α → List α
  | root => []
  | left _ x r p => x :: r.toList ++ p.after
  | right _ _ _ p => p.after

@[simp] theorem toList_fill (p : Path α) (t : RBTree α) :
    (p.fill t).toList = p.before ++ (t.toList ++ p.after) := by
  induction p generalizing t with
  | root => simp [fill]
  | left c x r p ih => simp [fill, ih]
  | right c l x p ih => simp [fill, ih]

end Path

/-! ## Search -/

/-- `rb_search`; `cmp` compares the key with an element. -/
def search (cmp : α → Ordering) : RBTree α → Option α
  | nil => none
  | node _ l x r =>
    match cmp x with
    | .lt => l.search cmp
    | .gt => r.search cmp
    | .eq => some x

/-- `rb_search`, if `k` rounds of its loop are enough. -/
def searchWithin (cmp : α → Ordering) : ℕ → RBTree α → Option (Option α)
  | _, nil => some none
  | 0, node .. => none
  | k + 1, node _ l x r =>
    match cmp x with
    | .lt => l.searchWithin cmp k
    | .gt => r.searchWithin cmp k
    | .eq => some (some x)

/-- The elements are in an order `R` that the comparison follows. -/
structure Sorted (R : α → α → Prop) (cmp : α → Ordering) (xs : List α) : Prop where
  pairwise : xs.Pairwise R
  lt : ∀ x ∈ xs, ∀ y ∈ xs, R x y → cmp x = .lt → cmp y = .lt
  gt : ∀ x ∈ xs, ∀ y ∈ xs, R x y → cmp y = .gt → cmp x = .gt

variable {cmp : α → Ordering}

theorem Sorted.left (h : Sorted R cmp (xs ++ ys)) : Sorted R cmp xs where
  pairwise := (pairwise_append.mp h.pairwise).1
  lt x hx y hy := h.lt x (by simp [hx]) y (by simp [hy])
  gt x hx y hy := h.gt x (by simp [hx]) y (by simp [hy])

theorem Sorted.right (h : Sorted R cmp (xs ++ ys)) : Sorted R cmp ys where
  pairwise := (pairwise_append.mp h.pairwise).2.1
  lt x hx y hy := h.lt x (by simp [hx]) y (by simp [hy])
  gt x hx y hy := h.gt x (by simp [hx]) y (by simp [hy])

variable {t : RBTree α} {x : α}

theorem mem_of_search (h : t.search cmp = some x) : x ∈ t.toList ∧ cmp x = .eq := by
  induction t with
  | nil => simp [search] at h
  | node c l y r ihl ihr =>
    simp only [search] at h
    split at h
    · have := ihl h
      simp [this]
    · have := ihr h
      simp [this]
    · next heq =>
        obtain rfl : y = x := by simpa using h
        simp [heq]

/-- In a sorted tree the search does not miss an element. -/
theorem search_isSome (h : Sorted R cmp t.toList) (hx : x ∈ t.toList) (heq : cmp x = .eq) :
    (t.search cmp).isSome := by
  induction t with
  | nil => simp at hx
  | node c l y r ihl ihr =>
    have hpair := pairwise_append.mp h.pairwise
    have hly : ∀ z ∈ l.toList, R z y := fun z hz => hpair.2.2 z hz y (by simp)
    have hyr : ∀ z ∈ r.toList, R y z := (pairwise_cons.mp hpair.2.1).1
    have hyr' : Sorted R cmp ([y] ++ r.toList) := h.right
    have hr : Sorted R cmp r.toList := hyr'.right
    simp only [toList, mem_append, mem_cons] at hx
    simp only [search]
    split
    · -- what is after `y` is too great
      next hlt =>
        rcases hx with hx | rfl | hx
        · exact ihl h.left hx
        · simp [heq] at hlt
        · have := h.lt y (by simp) x (by simp [hx]) (hyr x hx) hlt
          simp [heq] at this
    · next hgt =>
        rcases hx with hx | rfl | hx
        · have := h.gt x (by simp [hx]) y (by simp) (hly x hx) hgt
          simp [heq] at this
        · simp [heq] at hgt
        · exact ihr hr hx
    · rfl

/-! ## Balance -/

/-- A red-black tree with a root of this colour and this number of black nodes on
every way down. -/
inductive Balanced : RBTree α → Color → ℕ → Prop
  | nil : Balanced nil black 0
  | red {l r x n} : Balanced l black n → Balanced r black n → Balanced (node red l x r) red n
  | black {l r x c₁ c₂ n} : Balanced l c₁ n → Balanced r c₂ n →
      Balanced (node black l x r) black (n + 1)

/-- A whole tree: the root is black. -/
def WF (t : RBTree α) : Prop := ∃ n, t.Balanced black n

theorem WF.nil : (nil : RBTree α).WF := ⟨0, .nil⟩

/-- At most every second node on the way is red. -/
theorem Balanced.searchWithin_eq (h : t.Balanced c n) (cmp : α → Ordering) (hk : 2 * n ≤ k)
    (hred : c = .red → 2 * n < k) : t.searchWithin cmp k = some (t.search cmp) := by
  induction h generalizing k with
  | nil => rw [searchWithin, search]
  | red hl hr ihl ihr =>
    have hk' := hred rfl
    obtain ⟨k, rfl⟩ : ∃ j, k = j + 1 := ⟨k - 1, by omega⟩
    rw [searchWithin, search, ihl (by omega) (by simp), ihr (by omega) (by simp)]
    split <;> simp only [*]
  | black hl hr ihl ihr =>
    obtain ⟨k, rfl⟩ : ∃ j, k = j + 1 := ⟨k - 1, by omega⟩
    rw [searchWithin, search, ihl (by omega) (by omega), ihr (by omega) (by omega)]
    split <;> simp only [*]

theorem Balanced.le_length (h : t.Balanced c n) : 2 ^ n ≤ t.toList.length + 1 := by
  induction h with
  | nil => simp
  | red hl hr ihl ihr =>
    simp only [toList, length_append, length_cons]
    omega
  | black hl hr ihl ihr =>
    simp only [toList, length_append, length_cons, Nat.pow_succ]
    omega

theorem WF.searchWithin_eq (h : t.WF) (cmp : α → Ordering) :
    t.searchWithin cmp (2 * (t.toList.length + 1).log2) = some (t.search cmp) := by
  obtain ⟨n, hn⟩ := h
  have hlog := (Nat.le_log2 (n := t.toList.length + 1) (by omega)).mpr hn.le_length
  exact hn.searchWithin_eq cmp (by omega) (by simp)

/-- A path that becomes a red-black tree when the hole is filled with one of this
colour and height. -/
inductive Path.Balanced : Path α → Color → ℕ → Prop
  | root {n} : Balanced .root black n
  | redL {x r p n} : r.Balanced black n → Balanced p red n → Balanced (.left red x r p) black n
  | redR {x l p n} : l.Balanced black n → Balanced p red n → Balanced (.right red l x p) black n
  | blackL {x r p c c' n} : r.Balanced c n → Balanced p black (n + 1) →
      Balanced (.left black x r p) c' n
  | blackR {x l p c c' n} : l.Balanced c n → Balanced p black (n + 1) →
      Balanced (.right black l x p) c' n

variable {p : Path α}

theorem Path.Balanced.fill (hp : p.Balanced c n) (ht : t.Balanced c n) : (p.fill t).WF := by
  induction hp generalizing t with
  | root => exact ⟨_, ht⟩
  | redL hr _ ih => exact ih (.red ht hr)
  | redR hl _ ih => exact ih (.red hl ht)
  | blackL hr _ ih => exact ih (.black ht hr)
  | blackR hl _ ih => exact ih (.black hl ht)

/-- Where a red root fits a black one does. -/
theorem Path.Balanced.black_of_red (h : p.Balanced red n) : p.Balanced black n := by
  cases h with
  | blackL hr hp => exact .blackL hr hp
  | blackR hl hp => exact .blackR hl hp

theorem black_of_not_red (h : t.Balanced c n)
    (hred : ∀ l x r, t = node red l x r → False) : t.Balanced black n := by
  cases h with
  | nil => exact .nil
  | red hl hr => exact absurd rfl (hred _ _ _)
  | black hl hr => exact .black hl hr

/-! ## Insertion -/

/-- The loop of `__rb_insert_color`, at a red node with the children `l` and `r`. -/
def insertColor (l : RBTree α) (x : α) (r : RBTree α) : Path α → Option (RBTree α)
  | .root => some (node black l x r)
  | .left black p pr up => some (Path.fill (.left black p pr up) (node red l x r))
  | .right black pl p up => some (Path.fill (.right black pl p up) (node red l x r))
  | .left red _ _ .root => none
  | .right red _ _ .root => none
  | .left red p pr (.left _ g uncle up) =>
    match uncle with
    | node red ul u ur =>
      insertColor (node black (node red l x r) p pr) g (node black ul u ur) up
    | _ => some (up.fill (node black (node red l x r) p (node red pr g uncle)))
  | .right red pl p (.left _ g uncle up) =>
    match uncle with
    | node red ul u ur =>
      insertColor (node black pl p (node red l x r)) g (node black ul u ur) up
    | _ => some (up.fill (node black (node red pl p l) x (node red r g uncle)))
  | .right red pl p (.right _ uncle g up) =>
    match uncle with
    | node red ul u ur =>
      insertColor (node black ul u ur) g (node black pl p (node red l x r)) up
    | _ => some (up.fill (node black (node red uncle g pl) p (node red l x r)))
  | .left red p pr (.right _ uncle g up) =>
    match uncle with
    | node red ul u ur =>
      insertColor (node black ul u ur) g (node black (node red l x r) p pr) up
    | _ => some (up.fill (node black (node red uncle g l) x (node red r p pr)))

/-- The loop of `rb_insert`: the way to the place of a new element. -/
def descend (less : α → Bool) : RBTree α → Path α → Path α
  | nil, p => p
  | node c l x r, p =>
    if less x then descend less l (.left c x r p) else descend less r (.right c l x p)

/-- `rb_insert`; `less` tells for an element whether the new one comes before it. -/
def insert (less : α → Bool) (x : α) (t : RBTree α) : Option (RBTree α) :=
  insertColor nil x nil (descend less t .root)

/-- The loop ends with a red-black tree, and does not change the order. -/
theorem insertColor_spec (hl : l.Balanced black n)
    (hr : r.Balanced black n) (hp : p.Balanced black n) :
    ∃ t, insertColor l x r p = some t ∧ t.WF ∧
      t.toList = p.before ++ (l.toList ++ x :: r.toList ++ p.after) := by
  fun_induction insertColor l x r p generalizing n with
  | case1 l x r => exact ⟨_, rfl, ⟨_, .black hl hr⟩, by simp⟩
  | case2 l x r p pr up =>
    let .blackL hpr hup := hp
    have hfill : (Path.left black p pr up).Balanced red n := .blackL hpr hup
    exact ⟨_, rfl, hfill.fill (.red hl hr), by simp⟩
  | case3 l x r pl p up =>
    let .blackR hpl hup := hp
    have hfill : (Path.right black pl p up).Balanced red n := .blackR hpl hup
    exact ⟨_, rfl, hfill.fill (.red hl hr), by simp⟩
  | case4 => nomatch hp
  | case5 => nomatch hp
  | case6 l x r p pr c g up ul u ur ih =>
    let .redL hp' (.blackL (.red hul hur) hup) := hp
    obtain ⟨t, heq, hwf, hlist⟩ := ih (.black (.red hl hr) hp') (.black hul hur) hup
    exact ⟨t, heq, hwf, by simp [hlist]⟩
  | case7 l x r p pr c g uncle up hblack =>
    let .redL hp' (.blackL hu hup) := hp
    have hu' := black_of_not_red hu hblack
    exact ⟨_, rfl, hup.fill (.black (.red hl hr) (.red hp' hu')), by simp⟩
  | case8 l x r pl p c g up ul u ur ih =>
    let .redR hp' (.blackL (.red hul hur) hup) := hp
    obtain ⟨t, heq, hwf, hlist⟩ := ih (.black hp' (.red hl hr)) (.black hul hur) hup
    exact ⟨t, heq, hwf, by simp [hlist]⟩
  | case9 l x r pl p c g uncle up hblack =>
    let .redR hp' (.blackL hu hup) := hp
    have hu' := black_of_not_red hu hblack
    exact ⟨_, rfl, hup.fill (.black (.red hp' hl) (.red hr hu')), by simp⟩
  | case10 l x r pl p c g up ul u ur ih =>
    let .redR hp' (.blackR (.red hul hur) hup) := hp
    obtain ⟨t, heq, hwf, hlist⟩ := ih (.black hul hur) (.black hp' (.red hl hr)) hup
    exact ⟨t, heq, hwf, by simp [hlist]⟩
  | case11 l x r pl p c uncle g up hblack =>
    let .redR hp' (.blackR hu hup) := hp
    have hu' := black_of_not_red hu hblack
    exact ⟨_, rfl, hup.fill (.black (.red hu' hp') (.red hl hr)), by simp⟩
  | case12 l x r p pr c g up ul u ur ih =>
    let .redL hp' (.blackR (.red hul hur) hup) := hp
    obtain ⟨t, heq, hwf, hlist⟩ := ih (.black hul hur) (.black (.red hl hr) hp') hup
    exact ⟨t, heq, hwf, by simp [hlist]⟩
  | case13 l x r p pr c uncle g up hblack =>
    let .redL hp' (.blackR hu hup) := hp
    have hu' := black_of_not_red hu hblack
    exact ⟨_, rfl, hup.fill (.black (.red hu' hl) (.red hr hp')), by simp⟩

/-- The way down ends at a hole of the tree. -/
theorem fill_descend (less : α → Bool) (t : RBTree α) (p : Path α) :
    (descend less t p).fill nil = p.fill t := by
  induction t generalizing p with
  | nil => rfl
  | node c l x r ihl ihr =>
    simp only [descend]
    split
    · exact ihl _
    · exact ihr _

theorem descend_balanced (less : α → Bool)
    (ht : t.Balanced c n) (hp : p.Balanced c n) : (descend less t p).Balanced black 0 := by
  induction ht generalizing p with
  | nil => exact hp
  | red hl hr ihl ihr =>
    simp only [descend]
    split
    · exact ihl (.redL hr hp)
    · exact ihr (.redR hl hp)
  | black hl hr ihl ihr =>
    simp only [descend]
    split
    · exact ihl (.blackL hr hp)
    · exact ihr (.blackR hl hp)

/-- The hole is between what the new element does not come before and what it
does. -/
theorem descend_sorted (hpair : t.toList.Pairwise R)
    (hless : ∀ y ∈ t.toList, ∀ z ∈ t.toList, R y z → less y = true → less z = true)
    (hbefore : ∀ y ∈ p.before, less y = false) (hafter : ∀ y ∈ p.after, less y = true) :
    (∀ y ∈ (descend less t p).before, less y = false) ∧
      ∀ y ∈ (descend less t p).after, less y = true := by
  induction t generalizing p with
  | nil => exact ⟨hbefore, hafter⟩
  | node c l x r ihl ihr =>
    simp only [toList, pairwise_append, pairwise_cons] at hpair
    obtain ⟨hl, ⟨hxr, hr⟩, hlr⟩ := hpair
    have hlx : ∀ y ∈ l.toList, R y x := fun y hy => hlr y hy x (by simp)
    simp only [descend]
    split
    · next hx =>
        have hlessl : ∀ y ∈ l.toList, ∀ z ∈ l.toList, R y z → less y = true → less z = true :=
          fun y hy z hz => hless y (by simp [hy]) z (by simp [hz])
        refine ihl hl hlessl hbefore fun y hy => ?_
        simp only [Path.after, cons_append, mem_cons, mem_append] at hy
        rcases hy with rfl | hy | hy
        · exact hx
        · exact hless x (by simp) y (by simp [hy]) (hxr y hy) hx
        · exact hafter y hy
    · next hx =>
        have hlessr : ∀ y ∈ r.toList, ∀ z ∈ r.toList, R y z → less y = true → less z = true :=
          fun y hy z hz => hless y (by simp [hy]) z (by simp [hz])
        refine ihr hr hlessr (fun y hy => ?_) hafter
        simp only [Path.before, mem_append, mem_singleton] at hy
        rcases hy with hy | hy | rfl
        · exact hbefore y hy
        · by_contra hne
          exact hx (hless y (by simp [hy]) x (by simp) (hlx y hy) (by simpa using hne))
        · simpa using hx

/-- `rb_insert` puts the element at one place in the order. -/
theorem insert_spec (less : α → Bool) (x : α) (h : t.WF) : ∃ t', insert less x t = some t' ∧ t'.WF ∧
      t.toList = (descend less t .root).before ++ (descend less t .root).after ∧
      t'.toList = (descend less t .root).before ++ x :: (descend less t .root).after := by
  obtain ⟨n, ht⟩ := h
  obtain ⟨t', heq, hwf, hlist⟩ := insertColor_spec (x := x) .nil .nil
    (descend_balanced less ht .root)
  refine ⟨t', heq, hwf, ?_, by simpa using hlist⟩
  have hfill := congrArg toList (fill_descend less t .root)
  simpa [Path.fill] using hfill.symm

/-- An element that has its place in the order goes there. -/
theorem insert_pairwise (h : t.WF) (hpair : t.toList.Pairwise R)
    (hless : ∀ y ∈ t.toList, ∀ z ∈ t.toList, R y z → less y = true → less z = true)
    (hfst : ∀ y ∈ t.toList, less y = false → R y x) (hsnd : ∀ y ∈ t.toList, less y = true → R x y) :
    ∃ t', insert less x t = some t' ∧ t'.WF ∧ t'.toList.Perm (x :: t.toList) ∧
      t'.toList.Pairwise R := by
  obtain ⟨t', heq, hwf, hold, hnew⟩ := insert_spec less x h
  obtain ⟨hbefore, hafter⟩ : (∀ y ∈ (descend less t .root).before, less y = false) ∧
      ∀ y ∈ (descend less t .root).after, less y = true :=
    descend_sorted hpair hless (by simp) (by simp)
  generalize (descend less t .root).before = as at *
  generalize (descend less t .root).after = bs at *
  rw [hold, pairwise_append] at hpair
  refine ⟨t', heq, hwf, ?_, ?_⟩
  · rw [hnew, hold]
    exact perm_middle
  · rw [hnew, pairwise_append, pairwise_cons]
    refine ⟨hpair.1, ⟨fun y hy => hsnd y (by simp [hold, hy]) (hafter y hy), hpair.2.1⟩, ?_⟩
    intro y hy z hz
    rcases mem_cons.mp hz with rfl | hz
    · exact hfst y (by simp [hold, hy]) (hbefore y hy)
    · exact hpair.2.2 y hy z hz

end RBTree

end Starfish
