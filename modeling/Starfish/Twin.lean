import Mathlib.Logic.Function.Basic

/-!
# Starfish.Twin

Two trees of names that are kept in step: one over nodes, one over their keys.

`Twin` ties the names of the nodes `T` to the entries of their keys.  The steps that operations on
such a tree are made of are: a node comes (`grow`), gets or loses a name
(`put`) and goes (`shrink`).  The rules for whole operations are `insert`, `remove`, `move` and
`replace`.  Each rule asks for the new names and entries pointwise, on `T` only, so that what is
not in the tree may change freely.

A list of names leads to the same key in both trees (`resolve_eq`).
-/

namespace Starfish

variable {ι κ ν τ : Type}

/-- Follow the names from `i` on. -/
def resolve (child : ι → ν → Option ι) : ι → List ν → Option ι
  | i, [] => some i
  | i, n :: ns => (child i n).bind fun j => resolve child j ns

theorem resolve_concat (child : ι → ν → Option ι) (i : ι) (ns : List ν) (n : ν) :
    resolve child i (ns ++ [n]) = (resolve child i ns).bind fun j => child j n := by
  induction ns generalizing i with
  | nil => simp [resolve]
  | cons m ns ih => simp [resolve, ih, Option.bind_assoc]

/-- The names of the nodes `T` are the entries of their keys. -/
structure Twin (root : ι) (T : ι → Prop) (child : ι → ν → Option ι) (key : ι → κ) (type : ι → τ)
    (entry : κ → ν → Option (κ × τ)) : Prop where
  root_mem : T root
  closed : ∀ {i n j}, T i → child i n = some j → T j
  /-- A node has at most one name. -/
  unique : ∀ {i j n m c}, T i → T j → child i n = some c → child j m = some c → i = j ∧ n = m
  not_root : ∀ {i n}, T i → child i n ≠ some root
  key_inj : ∀ {i j}, T i → T j → key i = key j → i = j
  agree : ∀ {i} n, T i → entry (key i) n = (child i n).map fun j => (key j, type j)

namespace Twin

variable {root : ι} {T : ι → Prop} {child child' : ι → ν → Option ι} {key : ι → κ}
  {type : ι → τ} {entry entry' : κ → ν → Option (κ × τ)} {p a : ι} {m : ν}

section

variable (h : Twin root T child key type entry)
include h

/-- A name leads to the same key in both trees. -/
theorem resolve_eq (hi : T i) (ns : List ν) :
    resolve (fun k n => (entry k n).map Prod.fst) (key i) ns = (resolve child i ns).map key := by
  induction ns generalizing i with
  | nil => rfl
  | cons n ns ih =>
    simp only [resolve, h.agree n hi]
    cases hchild : child i n with
    | none => rfl
    | some j => exact ih (h.closed hi hchild)

theorem mem_resolve (hi : T i) (hw : resolve child i ns = some j) : T j := by
  induction ns generalizing i with
  | nil =>
    cases hw
    exact hi
  | cons n ns ih =>
    obtain ⟨c, hc, hw⟩ := Option.bind_eq_some_iff.mp hw
    exact ih (h.closed hi hc) hw

/-- Names that mean the same in the tree lead to the same nodes. -/
theorem resolve_congr (hchild : ∀ i n, T i → child' i n = child i n) (hi : T i) (ns : List ν) :
    resolve child' i ns = resolve child i ns := by
  induction ns generalizing i with
  | nil => rfl
  | cons n ns ih =>
    simp only [resolve, hchild i n hi]
    cases hc : child i n with
    | none => rfl
    | some j => exact ih (h.closed hi hc)

theorem congr (hchild : ∀ i n, T i → child' i n = child i n)
    (hkey : ∀ i, T i → key' i = key i) (htype : ∀ i, T i → type' i = type i)
    (hentry : ∀ i n, T i → entry' (key i) n = entry (key i) n) :
    Twin root T child' key' type' entry' where
  root_mem := h.root_mem
  closed hi hj := h.closed hi (by rwa [← hchild _ _ hi])
  unique hi hj hc hc' := h.unique hi hj (by rwa [← hchild _ _ hi]) (by rwa [← hchild _ _ hj])
  not_root hi hr := h.not_root hi (by rwa [← hchild _ _ hi])
  key_inj hi hj heq := h.key_inj hi hj (by rwa [← hkey _ hi, ← hkey _ hj])
  agree {i} n hi := by
    rw [hkey i hi, hentry i n hi, h.agree n hi, hchild i n hi]
    cases hc : child i n with
    | none => rfl
    | some j => rw [Option.map_some, Option.map_some, hkey j (h.closed hi hc),
        htype j (h.closed hi hc)]

/-- The name `m` in `p` goes to a node without a name, or to none. -/
theorem put
    (hx : ∀ a, x = some a → T a ∧ a ≠ root ∧ ∀ i n, T i → child i n ≠ some a) (hnew : child' p m = x)
    (hchild : ∀ i n, T i → ¬ (i = p ∧ n = m) → child' i n = child i n)
    (hnew' : entry' (key p) m = x.map fun a => (key a, type a))
    (hentry : ∀ i n, T i → ¬ (i = p ∧ n = m) → entry' (key i) n = entry (key i) n) :
    Twin root T child' key type entry' := by
  have hcases : ∀ {i n j}, T i → child' i n = some j →
      i = p ∧ n = m ∧ x = some j ∨ ¬ (i = p ∧ n = m) ∧ child i n = some j := by
    intro i n j hi hj
    by_cases hpm : i = p ∧ n = m
    · rw [hpm.1, hpm.2, hnew] at hj
      exact .inl ⟨hpm.1, hpm.2, hj⟩
    · exact .inr ⟨hpm, by rwa [← hchild i n hi hpm]⟩
  refine ⟨h.root_mem, fun hi hj => ?_, fun hi hj hc hc' => ?_, fun hi hr => ?_, h.key_inj,
    fun {i} n hi => ?_⟩
  · obtain ⟨_, _, hj⟩ | ⟨_, hj⟩ := hcases hi hj
    · exact (hx _ hj).1
    · exact h.closed hi hj
  · obtain ⟨rfl, rfl, hc⟩ | ⟨_, hc⟩ := hcases hi hc
    · obtain ⟨rfl, rfl, _⟩ | ⟨_, hc'⟩ := hcases hj hc'
      · exact ⟨rfl, rfl⟩
      · exact absurd hc' ((hx _ hc).2.2 _ _ hj)
    · obtain ⟨_, _, hc'⟩ | ⟨_, hc'⟩ := hcases hj hc'
      · exact absurd hc ((hx _ hc').2.2 _ _ hi)
      · exact h.unique hi hj hc hc'
  · obtain ⟨_, _, hr⟩ | ⟨_, hr⟩ := hcases hi hr
    · exact (hx _ hr).2.1 rfl
    · exact h.not_root hi hr
  · by_cases hpm : i = p ∧ n = m
    · rw [hpm.1, hpm.2, hnew, hnew']
    · rw [hentry i n hi hpm, hchild i n hi hpm, h.agree n hi]

theorem grow (hfresh : ∀ i, T i → key i ≠ key' a)
    (hchild : ∀ i n, T i → child' i n = child i n) (hempty : ∀ n, child' a n = none)
    (hkey : ∀ i, T i → key' i = key i) (htype : ∀ i, T i → type' i = type i)
    (hentry : ∀ i n, T i → entry' (key i) n = entry (key i) n)
    (hempty' : ∀ n, entry' (key' a) n = none) :
    Twin root (fun i => T i ∨ i = a) child' key' type' entry' := by
  have h' := h.congr hchild hkey htype hentry
  have hold : ∀ {i n j}, T i ∨ i = a → child' i n = some j → T i := by
    rintro i n j (hi | rfl) hj
    · exact hi
    · rw [hempty n] at hj
      cases hj
  refine ⟨.inl h'.root_mem, fun hi hj => .inl (h'.closed (hold hi hj) hj),
    fun hi hj hc hc' => h'.unique (hold hi hc) (hold hj hc') hc hc', fun hi hr => ?_,
    fun hi hj heq => ?_, fun {i} n hi => ?_⟩
  · exact h'.not_root (hold hi hr) hr
  · obtain hi | rfl := hi <;> obtain hj | rfl := hj
    · exact h'.key_inj hi hj heq
    · exact absurd ((hkey _ hi).symm.trans heq) (hfresh _ hi)
    · exact absurd ((hkey _ hj).symm.trans heq.symm) (hfresh _ hj)
    · rfl
  · obtain hi | rfl := hi
    · exact h'.agree n hi
    · rw [hempty' n, hempty n]
      rfl

theorem shrink (har : a ≠ root) (hno : ∀ i n, T i → child i n ≠ some a) :
    Twin root (fun i => T i ∧ i ≠ a) child key type entry where
  root_mem := ⟨h.root_mem, har.symm⟩
  closed hi hj := ⟨h.closed hi.1 hj, fun e => hno _ _ hi.1 (e ▸ hj)⟩
  unique hi hj hc hc' := h.unique hi.1 hj.1 hc hc'
  not_root hi := h.not_root hi.1
  key_inj hi hj := h.key_inj hi.1 hj.1
  agree n hi := h.agree n hi.1

end

/-! ### Whole operations -/

section operations

section

variable (h : Twin root T child key type entry)
include h

/-- A node comes and gets the name `m` in `p`. -/
theorem insert (hp : T p) (ha : ¬ T a)
    (hfresh : ∀ i, T i → key i ≠ key' a) (hkey : ∀ i, T i → key' i = key i)
    (htype : ∀ i, T i → type' i = type i) (hnew : child' p m = some a)
    (hchild : ∀ i n, T i → ¬ (i = p ∧ n = m) → child' i n = child i n)
    (hempty : ∀ n, child' a n = none) (hnew' : entry' (key p) m = some (key' a, type' a))
    (hentry : ∀ i n, T i → ¬ (i = p ∧ n = m) → entry' (key i) n = entry (key i) n)
    (hempty' : ∀ n, entry' (key' a) n = none) :
    Twin root (fun i => T i ∨ i = a) child' key' type' entry' := by
  classical
  have hap : a ≠ p := fun e => ha (e ▸ hp)
  -- the new node first, without its name
  have hgrown : Twin root (fun i => T i ∨ i = a)
      (fun i n => if i = p ∧ n = m then child i n else child' i n) key' type'
      (fun k n => if k = key p ∧ n = m then entry k n else entry' k n) := by
    refine h.grow hfresh (fun i n hi => ?_) (fun n => ?_) hkey htype (fun i n hi => ?_)
      (fun n => ?_)
    · split
      · rfl
      · next hne => exact hchild i n hi hne
    · rw [if_neg (fun e => hap e.1), hempty]
    · split
      · rfl
      · next hne => exact hentry i n hi fun e => hne ⟨e.1 ▸ rfl, e.2⟩
    · rw [if_neg (fun e => hfresh p hp e.1.symm), hempty']
  have hno : ∀ i n, T i ∨ i = a → (if i = p ∧ n = m then child i n else child' i n) ≠ some a := by
    intro i n hi hc
    split at hc
    · next e => exact ha (h.closed (e.1 ▸ hp) hc)
    · next hne =>
      obtain hi | rfl := hi
      · exact ha (h.closed hi (by rwa [← hchild i n hi hne]))
      · rw [hempty] at hc
        cases hc
  refine hgrown.put (x := some a)
    (by rintro _ ⟨⟩; exact ⟨.inr rfl, fun e => ha (e ▸ h.root_mem), hno⟩) hnew
    (fun i n _ hne => (if_neg hne).symm) (by rw [hkey p hp, hnew']; rfl) (fun i n hi hne => ?_)
  refine (if_neg fun e => ?_).symm
  obtain hi | rfl := hi
  · exact hne ⟨h.key_inj hi hp (by rw [← hkey i hi, e.1]), e.2⟩
  · exact hfresh p hp e.1.symm

theorem detach_update [DecidableEq ι] [DecidableEq ν] [DecidableEq κ] (hp : T p) :
    Twin root T (fun i n => if i = p ∧ n = m then none else child i n) key type
      (fun k n => if k = key p ∧ n = m then none else entry k n) :=
  h.put (by simp) (if_pos ⟨rfl, rfl⟩) (fun _ _ _ hne => if_neg hne) (if_pos ⟨rfl, rfl⟩)
    (fun _ _ hi hne => if_neg fun e => hne ⟨h.key_inj hi hp e.1, e.2⟩)

variable (hp : T p) (hc : child p m = some a) (hgone : child' p m = none)
  (hgone' : entry' (key p) m = none)
include hp hc hgone hgone'

/-- The node with the name `m` in `p` loses it and goes. -/
theorem remove (hkey : ∀ i, T i → i ≠ a → key' i = key i)
    (htype : ∀ i, T i → i ≠ a → type' i = type i)
    (hchild : ∀ i n, T i → i ≠ a → ¬ (i = p ∧ n = m) → child' i n = child i n)
    (hentry : ∀ i n, T i → i ≠ a → ¬ (i = p ∧ n = m) → entry' (key i) n = entry (key i) n) :
    Twin root (fun i => T i ∧ i ≠ a) child' key' type' entry' := by
  classical
  have hshrunk := (h.detach_update (m := m) hp).shrink (a := a)
    (fun e => h.not_root hp (e ▸ hc)) fun i n hi hn => by
      split at hn
      · cases hn
      · next hne => exact hne (h.unique hi hp hn hc)
  refine hshrunk.congr (fun i n hi => ?_) (fun i hi => hkey i hi.1 hi.2)
    (fun i hi => htype i hi.1 hi.2) (fun i n hi => ?_)
  · split
    · next e => rw [e.1, e.2, hgone]
    · next hne => exact hchild i n hi.1 hi.2 hne
  · split
    · next e => rw [e.1, e.2, hgone']
    · next hne => exact hentry i n hi.1 hi.2 fun e => hne ⟨e.1 ▸ rfl, e.2⟩

/-- The node with the name `m` in `p` gets the name `l` in `q` instead. -/
theorem move (hkey : ∀ i, T i → key' i = key i)
    (htype : ∀ i, T i → type' i = type i) (hnew : child' q l = some a)
    (hchild : ∀ i n, T i → ¬ (i = p ∧ n = m) → ¬ (i = q ∧ n = l) → child' i n = child i n)
    (hnew' : entry' (key q) l = some (key a, type a))
    (hentry : ∀ i n, T i → ¬ (i = p ∧ n = m) → ¬ (i = q ∧ n = l) →
      entry' (key i) n = entry (key i) n) :
    Twin root T child' key' type' entry' := by
  classical
  have hattached : Twin root T child' key type entry' := by
    refine (h.detach_update (m := m) hp).put (x := some a) ?_ hnew (fun i n hi hne => ?_) hnew'
      (fun i n hi hne => ?_)
    · rintro _ ⟨⟩
      refine ⟨h.closed hp hc, fun e => h.not_root hp (e ▸ hc), fun i n hi hn => ?_⟩
      split at hn
      · cases hn
      · next hne => exact hne (h.unique hi hp hn hc)
    · split
      · next e => rw [e.1, e.2, hgone]
      · next hne' => exact hchild i n hi hne' hne
    · split
      · next e => rw [e.1, e.2, hgone']
      · next hne' => exact hentry i n hi (fun e => hne' ⟨e.1 ▸ rfl, e.2⟩) hne
  exact hattached.congr (fun _ _ _ => rfl) hkey htype fun _ _ _ => rfl

/-- The node with the name `m` in `p` gets the name `l` in `q` instead, and the node that had this
name goes. -/
theorem replace (hq : T q) (hpb : p ≠ b) (hqb : q ≠ b) (hab : a ≠ b) (hd : child q l = some b)
    (hkey : ∀ i, T i → i ≠ b → key' i = key i) (htype : ∀ i, T i → i ≠ b → type' i = type i)
    (hnew : child' q l = some a)
    (hchild : ∀ i n, T i → i ≠ b → ¬ (i = p ∧ n = m) → ¬ (i = q ∧ n = l) → child' i n = child i n)
    (hnew' : entry' (key q) l = some (key a, type a))
    (hentry : ∀ i n, T i → i ≠ b → ¬ (i = p ∧ n = m) → ¬ (i = q ∧ n = l) →
      entry' (key i) n = entry (key i) n) :
    Twin root (fun i => T i ∧ i ≠ b) child' key' type' entry' := by
  classical
  have hpq : ¬ (p = q ∧ m = l) := by
    rintro ⟨rfl, rfl⟩
    exact hab (Option.some.inj (hc.symm.trans hd))
  have hremoved : Twin root (fun i => T i ∧ i ≠ b)
      (fun i n => if i = q ∧ n = l then none else child i n) key type
      (fun k n => if k = key q ∧ n = l then none else entry k n) :=
    h.remove hq hd (if_pos ⟨rfl, rfl⟩) (if_pos ⟨rfl, rfl⟩) (fun _ _ _ => rfl) (fun _ _ _ => rfl)
      (fun _ _ _ _ hne => if_neg hne)
      (fun _ _ hi _ hne => if_neg fun e => hne ⟨h.key_inj hi hq e.1, e.2⟩)
  refine hremoved.move ⟨hp, hpb⟩ ((if_neg hpq).trans hc) hgone hgone'
    (fun i hi => hkey i hi.1 hi.2) (fun i hi => htype i hi.1 hi.2) hnew
    (fun i n hi hne hne' => ?_) hnew' (fun i n hi hne hne' => ?_)
  · rw [if_neg hne', hchild i n hi.1 hi.2 hne hne']
  · rw [if_neg fun e => hne' ⟨h.key_inj hi.1 hq e.1, e.2⟩, hentry i n hi.1 hi.2 hne hne']

end

end operations

end Twin

end Starfish
