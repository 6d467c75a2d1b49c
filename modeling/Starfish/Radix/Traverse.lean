import Starfish.Radix.Map

/-!
# Starfish.Radix.Traverse

The two traversals.  Both rebuild the key from the digits on the way down.
`radix_traverse` goes through all children of a node; `radix_complex_traverse`
returns with the result of the first one, so that it visits one leaf only.
`radix_checksum` meets the pages in the order of `radix_traverse`.
-/

namespace Starfish.RadixTree

open List BitVec Nat Trie

variable {V R σ : Type} {n : ℕ}

/-! ## Keys rebuilt from digits -/

variable {pfx : BitVec 64}

attribute [local simp] radixComplexTraverse radixTraverse Trie.entries

theorem toNat_append (h : pfx.toNat < 2 ^ 60) (i : Digit) :
    (append pfx i).toNat = pfx.toNat * 16 + i := by
  have hi : (i : ℕ) < 2 ^ 4 := i.isLt
  have hshift : pfx.toNat <<< 4 % 2 ^ 64 = 2 ^ 4 * pfx.toNat := by
    rw [Nat.shiftLeft_eq]
    omega
  have hmod : (i : ℕ) % 2 ^ 64 = i := by omega
  rw [append, toNat_or, toNat_shiftLeft, toNat_ofNat, radixNodeBits, hshift,
    hmod, ← two_pow_add_eq_or_of_lt hi]
  omega

/-- The prefix leaves room for `n` more digits. -/
def Room (n : ℕ) (pfx : BitVec 64) : Prop := (pfx.toNat + 1) * 16 ^ n ≤ 2 ^ 64

theorem Room.toNat_append (h : Room (n + 1) pfx) (i : Digit) :
    (append pfx i).toNat = pfx.toNat * 16 + i := by
  refine RadixTree.toNat_append ?_ i
  have hpos : 1 ≤ 16 ^ n := one_le_pow _ _ (by decide)
  have hle : (pfx.toNat + 1) * 16 ≤ (pfx.toNat + 1) * 16 ^ (n + 1) := by
    rw [pow_succ]
    exact mul_le_mul_left _ (by omega)
  unfold Room at h
  omega

theorem Room.append (h : Room (n + 1) pfx) (i : Digit) : Room n (append pfx i) := by
  have hi : (i : ℕ) < 16 := i.isLt
  have hle : (pfx.toNat * 16 + i + 1) * 16 ^ n ≤ (pfx.toNat * 16 + 16) * 16 ^ n :=
    mul_le_mul_right _ (by omega)
  have heq : (pfx.toNat * 16 + 16) * 16 ^ n = (pfx.toNat + 1) * 16 ^ (n + 1) := by ring
  rw [Room, h.toNat_append i]
  unfold Room at h
  omega

theorem room_zero : Room radixLevels 0 := by
  unfold Room
  decide

theorem ofNat_append (h : Room (n + 1) pfx) (i : Digit) :
    BitVec.ofNat 64 (pfx.toNat * 16 + i) = append pfx i := by
  rw [← h.toNat_append i, BitVec.ofNat_toNat, BitVec.setWidth_eq]

/-! ## The sequence of keys and values -/

/-- An entry of the tree, with the key as a word. -/
@[simp] def entry (e : ℕ × V) : BitVec 64 × V := (BitVec.ofNat 64 e.1, e.2)

/-- The keys that hold a value, with the values. -/
def visits (r : Radix V) : List (BitVec 64 × V) := (r.root.entries 0).map entry

/-- The keys of the leaf that is reached by going to the first child everywhere,
with the values. -/
def firstVisits (r : Radix V) : List (BitVec 64 × V) :=
  match r.root with
  | .node words => (Trie.firstLeaf _ words 0).map entry
  | _ => []

section

variable {t : Word V radixLevels} {e : ℕ × V} (h : e ∈ t.entries 0)
include h

theorem lt_of_mem_entries : e.1 < 2 ^ 64 := by
  have hdiv := (t.mem_entries.mp h).1
  exact (div_eq_zero_iff_lt (by decide)).mp hdiv

theorem toNat_entry : (entry e).1.toNat = e.1 := by
  rw [entry, toNat_ofNat, mod_eq_of_lt (lt_of_mem_entries h)]

end

theorem pairwise_visits (r : Radix V) : (visits r).Pairwise (·.1 < ·.1) := by
  rw [visits, pairwise_map]
  refine (r.root.pairwise_entries 0).imp_of_mem ?_
  intro x y hx hy hlt
  rwa [lt_def, toNat_entry hx, toNat_entry hy]

variable {r : Radix V}

theorem mem_visits (hr : r.root.Valid) : (k, v) ∈ visits r ↔ radixGet r k = some (some v) := by
  have hpath : index k = digits 16 k.toNat := funext (index_eq k)
  have hentry : (k.toNat, v) ∈ r.root.entries 0 ↔ r.root.find (digits 16 k.toNat) = some v := by
    rw [mem_entries]
    exact and_iff_right (div_eq_of_lt k.isLt)
  rw [radixGet_eq hr, hpath, Option.some_inj, ← hentry, visits, mem_map]
  constructor
  · rintro ⟨e, he, hek⟩
    have hkey : k.toNat = e.1 := by rw [← toNat_entry he, hek]
    have hval : e.2 = v := congrArg Prod.snd hek
    rwa [hkey, ← hval]
  · intro he
    exact ⟨_, he, by simp⟩

theorem firstVisits_prefix (r : Radix V) : firstVisits r <+: visits r := by
  unfold firstVisits visits
  split
  · rename_i words hroot
    rw [hroot]
    have hleaf := firstLeaf_prefix words 0
    exact hleaf.map _
  · exact nil_prefix

/-! ## `radix_traverse` -/

/-- The callback on a list of entries, one after the other. -/
@[simp] def callAll (fn : BitVec 64 → V → σ → σ) (l : List (BitVec 64 × V)) (s : σ) : σ :=
  l.foldl (fun s e => fn e.1 e.2 s) s

section

variable (fn : BitVec 64 → V → σ → σ)

/-- A loop that handles the words of a node handles its entries. -/
theorem foldlM_words (words : Digit → Word V n) (p : ℕ) (s : σ) (body : σ → Digit → Option σ)
    (h : ∀ s i, body s i = some (callAll fn (((words i).entries (p * 16 + i)).map entry) s)) :
    (List.finRange 16).foldlM body s =
      some (callAll fn (((node words).entries p).map entry) s) := by
  have heq : body = fun s i =>
      pure (callAll fn (((words i).entries (p * 16 + i)).map entry) s) := by
    funext s i
    exact h s i
  rw [heq, foldlM_pure]
  simp [foldl_flatMap, map_flatMap]

theorem traverseWords_eq (words : Digit → Word V n) (pfx : BitVec 64)
    (s : σ) (hw : ∀ d, (words d).Valid) (hroom : Room (n + 1) pfx) :
    traverseWords fn n words pfx s =
      some (callAll fn (((node words).entries pfx.toNat).map entry) s) := by
  induction n generalizing pfx s with
  | zero =>
    refine foldlM_words fn words _ s _ fun s i => ?_
    cases hv : words i with
    | value o =>
      cases o with
      | none => simp
      | some v => simp [ofNat_append hroom]
  | succ n ih =>
    refine foldlM_words fn words _ s _ fun s i => ?_
    obtain hnull | ⟨child, hchild, hc⟩ := (hw i).null_or_node
    · simp [hnull]
    · have hrec := ih child (append pfx i) s hc (hroom.append i)
      rw [hroom.toNat_append i] at hrec
      simp [hchild, hrec]

theorem radixTraverse_eq (hr : r.root.Valid) (s : σ) :
    radixTraverse fn r s = some (callAll fn (visits r) s) := by
  obtain hnull | ⟨words, hroot, hw⟩ := hr.null_or_node
  · simp [visits, hnull]
  · simpa [visits, hroot] using traverseWords_eq fn words 0 s hw room_zero

end

/-! ## `radix_complex_traverse` -/

/-- The callback on a list of entries up to the first result that is not
NULL. -/
@[simp] def callUntil (fn : BitVec 64 → V → σ → Option R × σ) :
    List (BitVec 64 × V) → σ → Option R × σ
  | [], s => (none, s)
  | e :: es, s => if (fn e.1 e.2 s).1.isSome then fn e.1 e.2 s else callUntil fn es (fn e.1 e.2 s).2

section

variable (fn : BitVec 64 → V → σ → Option R × σ)
include fn

theorem callUntil_append (l l' : List (BitVec 64 × V)) (s : σ) : callUntil fn (l ++ l') s =
      if (callUntil fn l s).1.isSome then callUntil fn l s
      else callUntil fn l' (callUntil fn l s).2 := by
  induction l generalizing s with
  | nil => simp
  | cons e es ih =>
    by_cases h : (fn e.1 e.2 s).1.isSome
    · simp [h]
    · simp [h, ih]

/-- A loop over the words of a leaf is left at the first result. -/
theorem forRet_values (words : Digit → Word V 0)
    (pfx : BitVec 64) (hroom : Room 1 pfx) (is : List Digit) (s : σ) :
    (do
      let (ret, s) ← forRet (fun i s =>
        match words i with
        | .value none => some (none, s)
        | .value (some v) =>
          let (res, s) := fn (append pfx i) v s
          if res.isSome then some (some res, s) else some (none, s)) is s
      some (ret.getD none, s)) =
    some (callUntil fn
      ((is.flatMap fun i => (words i).entries (pfx.toNat * 16 + i)).map entry) s) := by
  induction is generalizing s with
  | nil => rfl
  | cons i is ih =>
    rw [flatMap_cons, map_append, callUntil_append, forRet]
    cases hv : words i with
    | value o =>
      cases o with
      | none => simpa using ih s
      | some v =>
        have hkey := ofNat_append hroom i
        by_cases h : (fn (append pfx i) v s).1.isSome
        · simp [hkey, h]
        · simpa [hkey, h] using ih _

omit fn in
theorem forRet_first {ι ρ : Type} (c : ι → Bool) (g : ι → σ → Option (ρ × σ)) (is : List ι) (s : σ) :
    forRet (fun i s => if c i then some (none, s) else do
      let (res, s) ← g i s
      some (some res, s)) is s =
    match is.find? fun i => !c i with
    | none => some (none, s)
    | some i => (g i s).map fun q => (some q.1, q.2) := by
  induction is with
  | nil => rfl
  | cons i is ih =>
    by_cases h : c i
    · simpa [forRet, h] using ih
    · cases hg : g i s with
      | none | some => simp [forRet, h, hg]

theorem complexWords_eq (words : Digit → Word V n)
    (pfx : BitVec 64) (s : σ) (hw : ∀ d, (words d).Valid) (hroom : Room (n + 1) pfx) :
    complexWords fn n words pfx s =
      some (callUntil fn ((firstLeaf n words pfx.toNat).map entry) s) := by
  induction n generalizing pfx s with
  | zero => exact forRet_values fn words pfx hroom _ s
  | succ n ih =>
    simp only [complexWords, Option.bind_eq_bind]
    have hloop := forRet_first (fun i => (words i).isNull) (fun i s => do
      complexWords fn n (← (words i).deref) (append pfx i) s) (finRange 16) s
    simp only [Option.bind_eq_bind, Option.bind_assoc] at hloop
    rw [hloop, firstLeaf]
    cases hfind : (finRange 16).find? fun i => !(words i).isNull with
    | none => rfl
    | some d =>
      have hd : (words d).isNull = false := by
        simpa using find?_some hfind
      obtain hnull | ⟨child, hchild, hc⟩ := (hw d).null_or_node
      · simp [hnull] at hd
      · have hrec := ih child (append pfx d) s hc (hroom.append d)
        rw [hroom.toNat_append d] at hrec
        simp [hchild, hrec]

theorem radixComplexTraverse_eq (hr : r.root.Valid) (s : σ) :
    radixComplexTraverse fn r s = some (callUntil fn (firstVisits r) s) := by
  obtain hnull | ⟨words, hroot, hw⟩ := hr.null_or_node
  · simp [firstVisits, hnull]
  · simpa [firstVisits, hroot] using complexWords_eq fn words 0 s hw room_zero

/-! ## The calls that are made -/

/-- A callback that also writes down the calls. -/
@[simp] def logged (fn : BitVec 64 → V → σ → Option R × σ) (k : BitVec 64) (v : V)
    (s : σ × List (BitVec 64 × V)) : Option R × σ × List (BitVec 64 × V) :=
  ((fn k v s.1).1, (fn k v s.1).2, s.2 ++ [(k, v)])

theorem callUntil_logged_fst (l : List (BitVec 64 × V)) (s : σ) (log : List (BitVec 64 × V)) :
    (callUntil (logged fn) l (s, log)).1 = (callUntil fn l s).1 := by
  induction l generalizing s log with
  | nil => rfl
  | cons e es ih =>
    by_cases h : (fn e.1 e.2 s).1.isSome
    · simp [h]
    · simpa [h] using ih _ _

/-- The calls are a part of the list from its start, and there is one if the
list is not empty. -/
theorem callUntil_logged_snd (l : List (BitVec 64 × V)) (s : σ) (log : List (BitVec 64 × V)) :
    ∃ made, (callUntil (logged fn) l (s, log)).2.2 = log ++ made ∧ made <+: l ∧
      (l ≠ [] → made ≠ []) := by
  induction l generalizing s log with
  | nil => exact ⟨[], by simp, prefix_rfl, fun h => h⟩
  | cons e es ih =>
    by_cases h : (fn e.1 e.2 s).1.isSome
    · exact ⟨[e], by simp [h], by simp, by simp⟩
    · obtain ⟨made, hlog, hmade, -⟩ := ih (fn e.1 e.2 s).2 (log ++ [e])
      exact ⟨e :: made, by simp [h, hlog], by simpa using hmade, by simp⟩

/-- Going on behind a list without results shows in the calls. -/
theorem callUntil_logged_append (l l' : List (BitVec 64 × V)) (s : σ) :
    callUntil (logged fn) l (s, []) = callUntil (logged fn) (l ++ l') (s, []) ↔
      (callUntil fn l s).1.isSome ∨ l' = [] := by
  rw [callUntil_append, callUntil_logged_fst]
  by_cases h : (callUntil fn l s).1.isSome
  · simp [h]
  · simp only [h, if_false, Bool.false_eq_true, false_or]
    constructor
    · intro heq
      by_contra hl'
      obtain ⟨made, hlog, -, hmade⟩ := callUntil_logged_snd fn l'
        (callUntil (logged fn) l (s, [])).2.1 (callUntil (logged fn) l (s, [])).2.2
      rw [← heq, self_eq_append_right] at hlog
      exact hmade hl' hlog
    · rintro rfl
      have hnone : (callUntil (logged fn) l (s, [])).1 = none := by
        simpa [callUntil_logged_fst] using h
      exact Prod.ext hnone rfl

end

/-- On every tree `radix_traverse` calls its callback for the keys that hold a
value, each one once, in increasing order and with this key and value.
`radix_complex_traverse` makes the calls of this sequence up to the first result
that is not NULL, and returns it, if and only if there is such a result in the
leaf that is reached by going to the first child everywhere or no other leaf
holds a value. -/
theorem radix_traversals (r : Radix V) (hr : r.root.Valid) :
    (visits r).Pairwise (·.1 < ·.1) ∧
    (∀ k v, (k, v) ∈ visits r ↔ radixGet r k = some (some v)) ∧
    (∀ (σ : Type) (fn : BitVec 64 → V → σ → σ) (s : σ),
      radixTraverse fn r s = some ((visits r).foldl (fun s e => fn e.1 e.2 s) s)) ∧
    ∀ (σ R : Type) (fn : BitVec 64 → V → σ → Option R × σ) (s : σ),
      radixComplexTraverse (logged fn) r (s, []) = some (callUntil (logged fn) (visits r) (s, [])) ↔
        (callUntil fn (firstVisits r) s).1.isSome ∨ firstVisits r = visits r := by
  refine ⟨pairwise_visits r, fun k v => mem_visits hr, fun σ fn s => radixTraverse_eq fn hr s,
    fun σ R fn s => ?_⟩
  obtain ⟨rest, hrest⟩ := firstVisits_prefix r
  rw [radixComplexTraverse_eq (logged fn) hr, Option.some_inj, ← hrest, callUntil_logged_append,
    self_eq_append_right]

/-- The tree with the values 1 at the key 0 and 2 at the key 16. -/
def twoLeaves : Option (Radix ℕ) := do
  let (_, r) ← run [.add 0 (some 1) (List.replicate 16 true), .add 16 (some 2) [true]] newRadix
  some r

/-- A callback without results is called for the first key only. -/
theorem complex_traverse_misses_second_leaf :
    (twoLeaves.bind fun r => radixTraverse (fun k v log => log ++ [(k, v)]) r []) =
      some [(0, 1), (16, 2)] ∧
    (twoLeaves.bind fun r => radixComplexTraverse
      (fun k v log => ((none : Option Unit), log ++ [(k, v)])) r []) = some (none, [(0, 1)]) := by
  decide +kernel

/-- A tree with the values 1 and 2 in one leaf. -/
theorem radix_traversals_one_leaf :
    ∃ r : Radix ℕ, (∃ rets, run [.add 0 (some 1) (List.replicate 16 true), .add 3 (some 2) []]
      newRadix = some (rets, r)) ∧
    ∀ k v, (k, v) ∈ visits r ↔ radixGet r k = some (some v) := by
  obtain ⟨rets, r, hrun, hrep⟩ := (Fresh.represents (V := ℕ) (.inl rfl)).run
    [.add 0 (some 1) (replicate 16 true), .add 3 (some 2) []]
  exact ⟨r, ⟨rets, hrun⟩, (radix_traversals r hrep.1).2.1⟩

/-! ## `radix_checksum` -/

section

variable {content content' : V → List UInt8} {r r' : Radix V} {f f' : BitVec 64 → Option V}

/-- The sum is one that a traversal makes. -/
theorem checksumWords_eq (words : Digit → Word V n) (pfx initial : BitVec 64) :
    checksumWords content n words initial =
      traverseWords (fun _ v s => hashPage s (content v)) n words pfx initial := by
  induction n generalizing pfx initial with
  | zero => rfl
  | succ n ih =>
    unfold checksumWords traverseWords
    congr
    funext s i
    cases hd : (words i).deref with
    | none => rfl
    | some child => simp only [Option.bind_eq_bind, Option.bind_some, ih child (append pfx i)]

/-- The pages with their keys, in the order of the keys. -/
def pages (content : V → List UInt8) (r : Radix V) : List (BitVec 64 × List UInt8) :=
  (visits r).map fun e => (e.1, content e.2)

theorem radixChecksum_eq (hr : r.root.Valid) (hroot : r.root.isNull = false) :
    radixChecksum content r =
      some ((pages content r).foldl (fun s e => hashPage s e.2) 0) := by
  have h := radixTraverse_eq (fun _ v s => hashPage s (content v)) hr 0
  simp only [radixTraverse, hroot, Bool.false_eq_true, if_false, ← checksumWords_eq] at h
  simpa [radixChecksum, pages, foldl_map] using h

theorem pairwise_pages : (pages content r).Pairwise (·.1 < ·.1) :=
  pairwise_map.mpr (pairwise_visits r)

theorem Represents.mem_pages (h : Represents r f) :
    (k, c) ∈ pages content r ↔ (f k).map content = some c := by
  have hmem : ∀ v, (k, v) ∈ visits r ↔ f k = some v := by
    intro v
    rw [mem_visits h.1, h.2, Option.some_inj]
  simp only [pages, mem_map, Prod.exists, Prod.mk.injEq, Option.map_eq_some_iff]
  constructor
  · rintro ⟨_, v, hv, rfl, hc⟩
    exact ⟨v, (hmem v).mp hv, hc⟩
  · rintro ⟨v, hv, hc⟩
    exact ⟨k, v, (hmem v).mpr hv, rfl, hc⟩

/-- The pages of a tree follow from the map that it stands for. -/
theorem Represents.pages_eq (h : Represents r f) (h' : Represents r' f')
    (hf : ∀ k, (f k).map content = (f' k).map content') :
    pages content r = pages content' r' := by
  have hnodup {c : V → List UInt8} {t : Radix V} : (pages c t).Nodup :=
    pairwise_pages.imp fun {x y} hlt heq => by simp [heq] at hlt
  have hperm : (pages content r).Perm (pages content' r') := by
    refine (perm_ext_iff_of_nodup hnodup hnodup).mpr fun (k, c) => ?_
    rw [h.mem_pages, h'.mem_pages, hf]
  refine hperm.eq_of_pairwise (fun x y _ _ hxy hyx => ?_) pairwise_pages pairwise_pages
  exact absurd (BitVec.lt_trans hxy hyx) (by simp)

/-- The checksum is one of the map and of the bytes: two trees with roots that any calls have made
of new ones have the same checksum if they have pages with the same bytes at the same keys, whatever
the order of the calls, the nodes left empty by `radix_del` and the allocations that have failed. -/
theorem radix_checksum_of_map (calls calls' : List (Call V)) (content content' : V → List UInt8) :
    ∃ rets r rets' r', run calls newRadix = some (rets, r) ∧
      run calls' newRadix = some (rets', r') ∧
      ((∀ k, (lastAdded (calls.zip rets) (fun _ => none) k).map content =
          (lastAdded (calls'.zip rets') (fun _ => none) k).map content') →
        r.root.isNull = false → r'.root.isNull = false →
        ∃ sum, radixChecksum content r = some sum ∧ radixChecksum content' r' = some sum) := by
  have hnew : Fresh (newRadix : Radix V) := .inl rfl
  obtain ⟨rets, r, hrun, h⟩ := hnew.represents.run calls
  obtain ⟨rets', r', hrun', h'⟩ := hnew.represents.run calls'
  refine ⟨rets, r, rets', r', hrun, hrun', fun hpages hroot hroot' => ?_⟩
  refine ⟨_, radixChecksum_eq h.1 hroot, ?_⟩
  rw [radixChecksum_eq h'.1 hroot', h.pages_eq h' hpages]

end

end Starfish.RadixTree
