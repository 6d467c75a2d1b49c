import Starfish.RBTree

/-!
# Starfish.RBErase

`rb_erase` of `kernel/lib/rbtree.c`.  The node is taken out, or its successor takes
its place; if a black node is missing below some place then, the loop of
`__rb_erase_color` mends the tree on the way up.

In a red-black tree the side with the missing node has a sibling, so that the
comparison with the left child tells the two sides apart even if the child is NULL.
-/

namespace Starfish.RBTree

open Color Starfish.RBTree.Path List

variable {α : Type}

attribute [local simp] toList_fill

/-! ## The loop -/

/-- The loop of `__rb_erase_color` for the subtree `t`.  Running out of fuel stands
for a loop that does not end. -/
def eraseColor : ℕ → Path α → RBTree α → Option (RBTree α)
  | _, .root, t => some t
  | 0, _, _ => none
  | fuel + 1, .left c p s up, t =>
    match s with
    | nil => none
    | node red sl k sr => eraseColor fuel (.left red p sl (.left black k sr up)) t
    | node black sl k (node red nl x nr) =>
      some (up.fill (node c (node black t p sl) k (node black nl x nr)))
    | node black (node red nl x nr) k sr =>
      some (up.fill (node c (node black t p nl) x (node black nr k sr)))
    | node black sl k sr =>
      match c with
      | black => eraseColor fuel up (node black t p (node red sl k sr))
      | red => some (up.fill (node black t p (node red sl k sr)))
  | fuel + 1, .right c s p up, t =>
    match s with
    | nil => none
    | node red sl k sr => eraseColor fuel (.right red sr p (.right black sl k up)) t
    | node black (node red nl x nr) k sr =>
      some (up.fill (node c (node black nl x nr) k (node black sr p t)))
    | node black sl k (node red nl x nr) =>
      some (up.fill (node c (node black sl k nl) x (node black nr p t)))
    | node black sl k sr =>
      match c with
      | black => eraseColor fuel up (node black (node red sl k sr) p t)
      | red => some (up.fill (node black (node red sl k sr) p t))

/-- How often the loop goes round. -/
def Path.cost : Path α → ℕ
  | .root => 0
  | .left red _ _ _ => 1
  | .right red _ _ _ => 1
  | .left black _ _ up => up.cost + 2
  | .right black _ _ up => up.cost + 2

theorem Path.cost_le (p : Path α) : p.cost ≤ 2 * p.length := by
  induction p with
  | root => simp [cost]
  | left c x r p ih | right c l x p ih =>
    cases c
    · simp only [cost, length]
      omega
    · simp only [cost, length]
      omega

variable {x : α} {n : ℕ} {c : Color} {up : Path α}

/-- The sibling of the hole, and what is above. -/
theorem Path.Balanced.of_left (h : (Path.left c x s up).Balanced black n) : ∃ c', s.Balanced c' n ∧
      ((c = red ∧ c' = black ∧ up.Balanced red n) ∨ (c = black ∧ up.Balanced black (n + 1))) := by
  cases h with
  | redL hs hup => exact ⟨_, hs, .inl ⟨rfl, rfl, hup⟩⟩
  | blackL hs hup => exact ⟨_, hs, .inr ⟨rfl, hup⟩⟩

theorem Path.Balanced.of_right
    (h : (Path.right c s x up).Balanced black n) : ∃ c', s.Balanced c' n ∧
      ((c = red ∧ c' = black ∧ up.Balanced red n) ∨ (c = black ∧ up.Balanced black (n + 1))) := by
  cases h with
  | redR hs hup => exact ⟨_, hs, .inl ⟨rfl, rfl, hup⟩⟩
  | blackR hs hup => exact ⟨_, hs, .inr ⟨rfl, hup⟩⟩

variable {l r : RBTree α}

/-- A node that takes the colour of the one whose place it has. -/
theorem Path.Balanced.fill_node
    (hup : (c = red ∧ c' = black ∧ up.Balanced red n) ∨ (c = black ∧ up.Balanced black (n + 1)))
    (hl : l.Balanced black n) (hr : r.Balanced black n) : (up.fill (node c l x r)).WF := by
  rcases hup with ⟨rfl, -, hup⟩ | ⟨rfl, hup⟩
  · exact hup.fill (.red hl hr)
  · exact hup.fill (.black hl hr)

variable {t : RBTree α} {p : Path α}

/-- The loop mends a tree with one black node too few below the path. -/
theorem eraseColor_spec (ht : t.Balanced black n)
    (hp : p.Balanced black (n + 1)) (hfuel : p.cost ≤ fuel) :
    ∃ t', eraseColor fuel p t = some t' ∧ t'.WF ∧ t'.toList = (p.fill t).toList := by
  fun_induction eraseColor fuel p t generalizing n with
  | case1 => exact ⟨_, rfl, ⟨n, ht⟩, rfl⟩
  | case2 p t hroot =>
    cases hp with
    | root => exact absurd rfl hroot
    | redL | redR | blackL | blackR => simp [cost] at hfuel
  | case3 fuel c p up t =>
    obtain ⟨c', hs, -⟩ := hp.of_left
    nomatch hs
  | case4 fuel c p up t sl k sr ih =>
    obtain ⟨c', hs, hup⟩ := hp.of_left
    let .red hsl hsr := hs
    obtain ⟨-, hc, -⟩ | ⟨rfl, hup⟩ := hup
    · exact absurd hc (by simp)
    simp only [cost] at hfuel ih
    obtain ⟨t', heq, hwf, hlist⟩ := ih ht (.redL hsl (.blackL hsr hup)) (by omega)
    exact ⟨t', heq, hwf, by simp [hlist]⟩
  | case5 fuel c p up t sl k nl x nr =>
    obtain ⟨c', hs, hup⟩ := hp.of_left
    let .black hsl (.red hnl hnr) := hs
    exact ⟨_, rfl, Path.Balanced.fill_node hup (.black ht hsl) (.black hnl hnr), by simp⟩
  | case6 fuel c p up t nl x nr k sr hsr' =>
    obtain ⟨c', hs, hup⟩ := hp.of_left
    let .black (.red hnl hnr) hsr := hs
    exact ⟨_, rfl, Path.Balanced.fill_node hup (.black ht hnl) (.black hnr hsr), by simp⟩
  | case7 fuel p up t sl k sr hsr' hsl' ih =>
    obtain ⟨c', hs, hup⟩ := hp.of_left
    let .black hsl hsr := hs
    obtain ⟨hc, -, -⟩ | ⟨-, hup⟩ := hup
    · exact absurd hc (by simp)
    simp only [cost] at hfuel
    have hsib := Balanced.red (x := k) (black_of_not_red hsl hsl') (black_of_not_red hsr hsr')
    obtain ⟨t', heq, hwf, hlist⟩ := ih (.black ht hsib) hup (by omega)
    exact ⟨t', heq, hwf, by simp [hlist]⟩
  | case8 fuel p up t sl k sr hsr' hsl' =>
    obtain ⟨c', hs, hup⟩ := hp.of_left
    let .black hsl hsr := hs
    obtain ⟨-, -, hup⟩ | ⟨hc, -⟩ := hup
    · have hsib := Balanced.red (x := k) (black_of_not_red hsl hsl') (black_of_not_red hsr hsr')
      exact ⟨_, rfl, hup.black_of_red.fill (.black ht hsib), by simp⟩
    · exact absurd hc (by simp)
  | case9 fuel c p up t =>
    obtain ⟨c', hs, -⟩ := hp.of_right
    nomatch hs
  | case10 fuel c p up t sl k sr ih =>
    obtain ⟨c', hs, hup⟩ := hp.of_right
    let .red hsl hsr := hs
    obtain ⟨-, hc, -⟩ | ⟨rfl, hup⟩ := hup
    · exact absurd hc (by simp)
    simp only [cost] at hfuel ih
    obtain ⟨t', heq, hwf, hlist⟩ := ih ht (.redR hsr (.blackR hsl hup)) (by omega)
    exact ⟨t', heq, hwf, by simp [hlist]⟩
  | case11 fuel c p up t nl x nr k sr =>
    obtain ⟨c', hs, hup⟩ := hp.of_right
    let .black (.red hnl hnr) hsr := hs
    exact ⟨_, rfl, Path.Balanced.fill_node hup (.black hnl hnr) (.black hsr ht), by simp⟩
  | case12 fuel c p up t sl k nl x nr hsl' =>
    obtain ⟨c', hs, hup⟩ := hp.of_right
    let .black hsl (.red hnl hnr) := hs
    exact ⟨_, rfl, Path.Balanced.fill_node hup (.black hsl hnl) (.black hnr ht), by simp⟩
  | case13 fuel p up t sl k sr hsl' hsr' ih =>
    obtain ⟨c', hs, hup⟩ := hp.of_right
    let .black hsl hsr := hs
    obtain ⟨hc, -, -⟩ | ⟨-, hup⟩ := hup
    · exact absurd hc (by simp)
    simp only [cost] at hfuel
    have hsib := Balanced.red (x := k) (black_of_not_red hsl hsl') (black_of_not_red hsr hsr')
    obtain ⟨t', heq, hwf, hlist⟩ := ih (.black hsib ht) hup (by omega)
    exact ⟨t', heq, hwf, by simp [hlist]⟩
  | case14 fuel p up t sl k sr hsl' hsr' =>
    obtain ⟨c', hs, hup⟩ := hp.of_right
    let .black hsl hsr := hs
    obtain ⟨-, -, hup⟩ | ⟨hc, -⟩ := hup
    · have hsib := Balanced.red (x := k) (black_of_not_red hsl hsl') (black_of_not_red hsr hsr')
      exact ⟨_, rfl, hup.black_of_red.fill (.black hsib ht), by simp⟩
    · exact absurd hc (by simp)

/-! ## Taking a node out -/

/-- The leftmost element of a tree with the left child `l` and the root `x`. -/
def minKey : RBTree α → α → α
  | nil, x => x
  | node _ l y _, _ => minKey l y

/-- The way to the leftmost node, with its colour and its right child. -/
def minPath : Color → RBTree α → α → RBTree α → Path α → Path α × Color × RBTree α
  | c, nil, _, r, p => (p, c, r)
  | c, node lc ll y lr, x, r, p => minPath lc ll y lr (.left c x r p)

/-- `__rb_erase` and the loop after it, for a node at the end of the path. -/
def eraseNode (c : Color) (l r : RBTree α) (p : Path α) : Option (RBTree α) :=
  match l, r with
  | nil, nil =>
    match c, p with
    | black, .root => some nil
    | black, p => eraseColor (2 * p.length) p nil
    | red, p => some (p.fill nil)
  | nil, node _ rl x rr => some (p.fill (node black rl x rr))
  | node _ ll x lr, nil => some (p.fill (node black ll x lr))
  | l, node rc rl x rr =>
    match minPath rc rl x rr (.right c l (minKey rl x) p) with
    | (q, red, sr) => some (q.fill sr)
    | (q, black, node red srl y srr) => some (q.fill (node black srl y srr))
    | (q, black, sr) => eraseColor (2 * q.length) q sr

/-- Where an element is in the tree. -/
@[simp] def locate [DecidableEq α] (x : α) : RBTree α → Path α → Option (Path α × Color × RBTree α × RBTree α)
  | nil, _ => none
  | node c l y r, p =>
    if y = x then some (p, c, l, r)
    else (locate x l (.left c y r p)).or (locate x r (.right c l y p))

/-- `rb_erase`; `none` also stands for the erasure of a node that is not in the
tree. -/
def erase [DecidableEq α] (x : α) (t : RBTree α) : Option (RBTree α) :=
  match locate x t .root with
  | none => none
  | some (p, c, l, r) => eraseNode c l r p

/-- A child, and the way to it. -/
theorem left_child (ht : (node c (node lc ll y lr) x r).Balanced c n) (hp : p.Balanced c n) :
    ∃ k, (node lc ll y lr).Balanced lc k ∧ (Path.left c x r p).Balanced lc k := by
  cases ht with
  | red hl hr =>
    let .black hll hlr := hl
    exact ⟨_, .black hll hlr, .redL hr hp⟩
  | black hl hr =>
    cases hl with
    | red hll hlr => exact ⟨_, .red hll hlr, .blackL hr hp⟩
    | black hll hlr => exact ⟨_, .black hll hlr, .blackL hr hp⟩

theorem right_child
    (ht : (node c l x (node rc rl y rr)).Balanced c n) (hp : p.Balanced c n) (z : α) :
    ∃ k, (node rc rl y rr).Balanced rc k ∧ (Path.right c l z p).Balanced rc k := by
  cases ht with
  | red hl hr =>
    let .black hrl hrr := hr
    exact ⟨_, .black hrl hrr, .redR hl hp⟩
  | black hl hr =>
    cases hr with
    | red hrl hrr => exact ⟨_, .red hrl hrr, .blackR hl hp⟩
    | black hrl hrr => exact ⟨_, .black hrl hrr, .blackR hl hp⟩

/-- The leftmost node has no left child, and comes first. -/
theorem minPath_spec (ht : (node c l x r).Balanced c n) (hp : p.Balanced c n) :
    ∃ (q : Path α) (sc : Color) (sr : RBTree α) (k : ℕ), minPath c l x r p = (q, sc, sr) ∧
      q.Balanced sc k ∧ (node sc nil (minKey l x) sr).Balanced sc k ∧
      q.before = p.before ∧
      minKey l x :: (sr.toList ++ q.after) = l.toList ++ x :: r.toList ++ p.after := by
  induction l generalizing c x r p n with
  | nil => exact ⟨p, c, r, n, rfl, hp, ht, rfl, by simp [minKey]⟩
  | node lc ll y lr ih _ =>
    obtain ⟨k, hl, hp'⟩ := left_child ht hp
    obtain ⟨q, sc, sr, k', heq, hq, hs, hbefore, hlist⟩ := ih hl hp'
    exact ⟨q, sc, sr, k', heq, hq, hs, hbefore, by simpa [minKey] using hlist⟩

/-- A node is taken out of a red-black tree. -/
theorem eraseNode_spec (ht : (node c l x r).Balanced c n) (hp : p.Balanced c n) :
    ∃ t, eraseNode c l r p = some t ∧ t.WF ∧
      t.toList = p.before ++ (l.toList ++ r.toList ++ p.after) := by
  fun_cases eraseNode c l r p with
  | case1 => exact ⟨_, rfl, .nil, by simp⟩
  | case2 hroot =>
    let .black hl hr := ht
    let .nil := hl
    obtain ⟨t, heq, hwf, hlist⟩ := eraseColor_spec .nil hp p.cost_le
    exact ⟨t, heq, hwf, by simp [hlist]⟩
  | case3 =>
    let .red hl hr := ht
    exact ⟨_, rfl, hp.black_of_red.fill hl, by simp⟩
  | case4 rc rl y rr =>
    -- the only child is red
    cases ht with
    | red hl hr =>
      let .nil := hl
      nomatch hr
    | black hl hr =>
      let .nil := hl
      let .red hrl hrr := hr
      exact ⟨_, rfl, hp.fill (.black hrl hrr), by simp⟩
  | case5 lc ll y lr =>
    cases ht with
    | red hl hr =>
      let .nil := hr
      nomatch hl
    | black hl hr =>
      let .nil := hr
      let .red hll hlr := hl
      exact ⟨_, rfl, hp.fill (.black hll hlr), by simp⟩
  | case6 =>
    rename_i rc rl y rr q sr hl hmin
    obtain ⟨k, hr, hp'⟩ := right_child ht hp (minKey rl y)
    obtain ⟨q', sc, sr', k', heq, hq, hs, hbefore, hlist⟩ := minPath_spec hr hp'
    obtain ⟨rfl, rfl, rfl⟩ : q = q' ∧ red = sc ∧ sr = sr' := by simpa [hmin] using heq
    let .red _ hsr := hs
    exact ⟨_, rfl, hq.black_of_red.fill hsr, by simp_all⟩
  | case7 =>
    rename_i rc rl y rr q srl z srr hl hmin
    obtain ⟨k, hr, hp'⟩ := right_child ht hp (minKey rl y)
    obtain ⟨q', sc, sr', k', heq, hq, hs, hbefore, hlist⟩ := minPath_spec hr hp'
    obtain ⟨rfl, rfl, rfl⟩ : q = q' ∧ black = sc ∧ node red srl z srr = sr' := by
      simpa [hmin] using heq
    let .black hn hsr := hs
    let .red hsrl hsrr := hsr
    exact ⟨_, rfl, hq.fill (.black hsrl hsrr), by simp_all⟩
  | case8 =>
    rename_i rc rl y rr q sr hsr' hl hmin
    obtain ⟨k, hr, hp'⟩ := right_child ht hp (minKey rl y)
    obtain ⟨q', sc, sr', k', heq, hq, hs, hbefore, hlist⟩ := minPath_spec hr hp'
    obtain ⟨rfl, rfl, rfl⟩ : q = q' ∧ black = sc ∧ sr = sr' := by simpa [hmin] using heq
    let .black hn hsr := hs
    obtain ⟨t, heq, hwf, hlist'⟩ := eraseColor_spec (black_of_not_red hsr hsr') hq q.cost_le
    exact ⟨t, heq, hwf, by simp_all⟩

variable [DecidableEq α]

theorem locate_eq_none (hx : x ∉ t.toList) (p : Path α) : locate x t p = none := by
  induction t generalizing p with
  | nil => rfl
  | node c l y r ihl ihr =>
    simp only [toList, mem_append, mem_cons, not_or] at hx
    obtain ⟨hl, hy, hr⟩ := hx
    simp [Ne.symm hy, ihl hl, ihr hr]

theorem locate_spec (ht : t.Balanced c n) (hp : p.Balanced c n) (hx : x ∈ t.toList) :
    ∃ (q : Path α) (c' : Color) (l r : RBTree α) (k : ℕ), locate x t p = some (q, c', l, r) ∧
      (node c' l x r).Balanced c' k ∧ q.Balanced c' k ∧ q.fill (node c' l x r) = p.fill t := by
  induction t generalizing p c n with
  | nil => simp at hx
  | node c' l y r ihl ihr =>
    have hchildren : ∃ c₁ c₂ n', l.Balanced c₁ n' ∧ r.Balanced c₂ n' ∧
        (left c' y r p).Balanced c₁ n' ∧ (right c' l y p).Balanced c₂ n' ∧ c = c' := by
      cases ht with
      | red hl hr => exact ⟨_, _, _, hl, hr, .redL hr hp, .redR hl hp, rfl⟩
      | black hl hr => exact ⟨_, _, _, hl, hr, .blackL hr hp, .blackR hl hp, rfl⟩
    obtain ⟨c₁, c₂, n', hl, hr, hpl, hpr, rfl⟩ := hchildren
    by_cases hy : y = x
    · subst hy
      exact ⟨p, c, l, r, n, by simp, ht, hp, rfl⟩
    by_cases hxl : x ∈ l.toList
    · obtain ⟨q, c0, l0, r0, k, heq, hrest⟩ := ihl hl hpl hxl
      exact ⟨q, c0, l0, r0, k, by simp [hy, heq], hrest⟩
    · have hxr : x ∈ r.toList := by
        simp only [toList, mem_append, mem_cons] at hx
        exact (hx.resolve_left hxl).resolve_left (Ne.symm hy)
      obtain ⟨q, c0, l0, r0, k, heq, hrest⟩ := ihr hr hpr hxr
      exact ⟨q, c0, l0, r0, k, by simp [hy, locate_eq_none hxl, heq], hrest⟩

/-- `rb_erase` takes an element of the tree out and leaves the others in their
order. -/
theorem erase_spec (h : t.WF) (hx : x ∈ t.toList) :
    ∃ t' as bs, erase x t = some t' ∧ t'.WF ∧ t.toList = as ++ x :: bs ∧ t'.toList = as ++ bs := by
  obtain ⟨n, ht⟩ := h
  obtain ⟨q, c, l, r, k, heq, hnode, hq, hfill⟩ := locate_spec ht .root hx
  obtain ⟨t', heq', hwf, hlist⟩ := eraseNode_spec hnode hq
  refine ⟨t', q.before ++ l.toList, r.toList ++ q.after, ?_, hwf, ?_, by simp [hlist]⟩
  · simp [erase, heq, heq']
  · have hall := congrArg toList hfill
    simpa [fill] using hall.symm

theorem erase_pairwise (h : t.WF) (hpair : t.toList.Pairwise R) (hx : x ∈ t.toList) :
    ∃ t', erase x t = some t' ∧ t'.WF ∧ t.toList.Perm (x :: t'.toList) ∧ t'.toList.Pairwise R := by
  obtain ⟨t', as, bs, heq, hwf, hold, hnew⟩ := erase_spec h hx
  refine ⟨t', heq, hwf, ?_, ?_⟩
  · rw [hold, hnew]
    exact perm_middle
  · rw [hold] at hpair
    rw [hnew]
    exact hpair.sublist (List.Sublist.append_left (sublist_cons_self x bs) as)

theorem erase_eq_none (hx : x ∉ t.toList) : erase x t = none := by
  simp [erase, locate_eq_none hx]

end Starfish.RBTree
