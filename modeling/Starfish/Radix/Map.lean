import Starfish.Radix.Model

/-!
# Starfish.Radix.Map

A radix tree is a map from keys to values: what `radix_get` finds after any
calls of `radix_add` and `radix_del` is what these calls have put there.

One insertion goes down a path of 16 digits and allocates the nodes that are
missing on it.  `Added` says what it does to the values at the ends of all
paths, whether it comes to the end of its own or not.
-/

namespace Starfish.RadixTree

open Function Trie

variable {V : Type} {n : ℕ} {path : ℕ → Digit} {value : Option V}

/-! ## Keys and their digits -/

theorem index_eq (key : BitVec 64) (i : ℕ) : index key i = digits 16 key.toNat i := by
  induction i generalizing key with
  | zero =>
    apply Fin.ext
    have hmask := Nat.and_two_pow_sub_one_eq_mod key.toNat 4
    simpa [index] using hmask
  | succ i ih =>
    apply Fin.ext
    rw [index, ih]
    simp [radixNodeBits, Nat.shiftRight_eq_div_pow, Nat.div_div_eq_div_mul, Nat.pow_succ,
      Nat.mul_comm]

/-- A key is known from the digits of its 16 levels. -/
theorem index_inj : (∀ i < radixLevels, index k i = index key i) ↔ k = key := by
  constructor
  · intro h
    simp only [index_eq] at h
    exact BitVec.eq_of_toNat_eq (eq_of_digits (n := 16) k.isLt key.isLt h)
  · rintro rfl i hi
    rfl

/-! ## Insertion -/

theorem newRadixNode_cases (mem : List Bool) :
    ∃ mem', (newRadixNode mem : Word V (n + 1) × List Bool) = (.err, mem') ∨
      (newRadixNode mem : Word V (n + 1) × List Bool) = (.node fun _ => .zero n, mem') := by
  match mem with
  | true :: mem => exact ⟨mem, .inr rfl⟩
  | false :: mem => exact ⟨mem, .inl rfl⟩
  | [] => exact ⟨[], .inl rfl⟩

/-- What an insertion of `value` at the end of `path` does: it has succeeded and
changed the value there and no other, or it has failed, has changed nothing and
there was no value. -/
def Added (path : ℕ → Digit) (value : Option V) (t t' : Word V n) (ret : ℤ) : Prop :=
  (ret = 0 ∧ ∀ q, t'.find q = if ∀ i < n, q i = path i then value else t.find q) ∨
  (ret = -enomem ∧ (∀ q, t'.find q = t.find q) ∧ t.find path = none)

/-- An insertion below one word of a node. -/
theorem Added.update {words : Digit → Word V n} (h : Added path value child child' ret)
    (hchild : ∀ q, child.find q = (words (path n)).find q) :
    Added path value (.node words) (.node (update words (path n) child')) ret := by
  have hsplit (q : ℕ → Digit) :
      (∀ i < n + 1, q i = path i) ↔ q n = path n ∧ ∀ i < n, q i = path i := by
    simp only [Nat.forall_lt_succ_right, and_comm]
  obtain ⟨rfl, hq⟩ | ⟨rfl, hq, hnone⟩ := h
  · refine .inl ⟨rfl, fun q => ?_⟩
    simp only [find_node, find_update, hq, hsplit]
    by_cases hn : q n = path n
    · simp [hn, hchild]
    · simp [hn]
  · refine .inr ⟨rfl, fun q => ?_, by simpa [hchild] using hnone⟩
    simp only [find_node, find_update, hq]
    by_cases hn : q n = path n
    · simp [hn, hchild]
    · simp [hn]

theorem addWords_spec (path : ℕ → Digit) (value : Option V) (words : Digit → Word V n)
    (mem : List Bool) (hw : ∀ d, (words d).Valid) :
    ∃ ret words' mem', addWords path value n words mem = some (ret, words', mem') ∧
      (∀ d, (words' d).Valid) ∧ Added path value (.node words) (.node words') ret := by
  induction n generalizing mem with
  | zero =>
    refine ⟨0, _, mem, rfl, valid_update hw (valid_value _), .inl ⟨rfl, fun q => ?_⟩⟩
    simp [find_update]
  | succ n ih =>
    -- the rest of the insertion, once there is a child to go on with
    have hdescend (child : Digit → Word V n) (mem : List Bool) (hc : ∀ d, (child d).Valid)
        (hsame : ∀ q, (node child).find q = (words (path (n + 1))).find q) :
        ∃ ret words' mem', ((addWords path value n child mem).bind fun a =>
          some (a.1, update words (path (n + 1)) (.node a.2.1), a.2.2)) = some (ret, words', mem') ∧
          (∀ d, (words' d).Valid) ∧ Added path value (.node words) (.node words') ret := by
      obtain ⟨ret, below, mem', heq, hvalid, hadded⟩ := ih child mem hc
      refine ⟨ret, _, mem', by simp [heq],
        valid_update hw (valid_node.mpr hvalid), hadded.update hsame⟩
    obtain hnull | ⟨child, hchild, hc⟩ := (hw (path (n + 1))).null_or_node
    · obtain ⟨mem', hnew | hnew⟩ := newRadixNode_cases (V := V) (n := n) mem
      · refine ⟨-enomem, words, mem', ?_, hw, .inr ⟨rfl, fun _ => rfl, ?_⟩⟩
        · simp [addWords, hnull, hnew]
        · simp [hnull]
      · simpa [addWords, hnull, hnew] using hdescend (fun _ => .zero n) mem' (by simp)
          (by simp [hnull])
    · simpa [addWords, hchild] using hdescend child mem hc (by simp [hchild])

variable {r : Radix V}

theorem radixAdd_spec (key : BitVec 64) (value : Option V) (mem : List Bool) (hr : r.root.Valid) :
    ∃ ret r', radixAdd r key value mem = some (ret, r') ∧ r'.root.Valid ∧
      Added (index key) value r.root r'.root ret := by
  have hdescend (words : Digit → Word V 15) (mem : List Bool) (hw : ∀ d, (words d).Valid)
      (hsame : ∀ q, (node words).find q = r.root.find q) :
      ∃ ret r', ((addWords (index key) value 15 words mem).bind fun a =>
        some (a.1, (⟨.node a.2.1⟩ : Radix V))) = some (ret, r') ∧ r'.root.Valid ∧
        Added (index key) value r.root r'.root ret := by
    obtain ⟨ret, below, mem', heq, hvalid, hadded⟩ := addWords_spec (index key) value words mem hw
    refine ⟨ret, ⟨.node below⟩, by simp [heq], hvalid, ?_⟩
    simpa only [Added, hsame] using hadded
  obtain hnull | ⟨words, hroot, hw⟩ := hr.null_or_node
  · obtain ⟨mem', hnew | hnew⟩ := newRadixNode_cases (V := V) (n := 15) mem
    · refine ⟨-enomem, r, ?_, hr, .inr ⟨rfl, fun _ => rfl, by simp [hnull]⟩⟩
      simp [radixAdd, hnull, hnew]
    · simpa [radixAdd, hnull, hnew] using hdescend (fun _ => .zero 15) mem' (by simp)
        (by simp [hnull])
  · simpa [radixAdd, hroot] using hdescend words mem hw (by simp [hroot])

/-! ## Lookup -/

theorem getWords_eq (words : Digit → Word V n) (hw : ∀ d, (words d).Valid) :
    getWords path n words = some ((node words).find path) := by
  induction n with
  | zero =>
    cases hv : words (path 0) with
    | value v => simp [getWords, hv]
  | succ n ih =>
    obtain hnull | ⟨child, hchild, hc⟩ := (hw (path (n + 1))).null_or_node
    · simp [getWords, hnull]
    · simp [getWords, hchild, ih child hc]

theorem radixGet_eq (hr : r.root.Valid) (k : BitVec 64) :
    radixGet r k = some (r.root.find (index k)) := by
  obtain hnull | ⟨words, hroot, hw⟩ := hr.null_or_node
  · simp [radixGet, hnull]
  · simp [radixGet, hroot, getWords_eq words hw]

/-- What `radix_get` finds after `radix_add`. -/
theorem Added.radixGet (hr : r.root.Valid)
    (hr' : r'.root.Valid) (h : Added (index key) value r.root r'.root ret) :
    (ret = 0 ∧ ∀ k, radixGet r' k = if k = key then some value else radixGet r k) ∨
    (ret = -enomem ∧ (∀ k, radixGet r' k = radixGet r k) ∧ radixGet r key = some none) := by
  simp only [radixGet_eq hr, radixGet_eq hr']
  obtain ⟨rfl, hq⟩ | ⟨rfl, hq, hnone⟩ := h
  · refine .inl ⟨rfl, fun k => ?_⟩
    rw [hq]
    simp only [index_inj]
    by_cases hk : k = key
    · simp [hk]
    · simp [hk]
  · exact .inr ⟨rfl, fun k => by rw [hq], by rw [hnone]⟩

/-! ## Runs -/

/-- The calls that change a tree, with the outcomes of the allocations. -/
inductive Call (V : Type) where
  | add (key : BitVec 64) (value : Option V) (mem : List Bool)
  | del (key : BitVec 64) (mem : List Bool)

def Call.run : Call V → Radix V → Option (ℤ × Radix V)
  | add key value mem, r => radixAdd r key value mem
  | del key mem, r => radixDel r key mem

/-- Calls one after the other, and what they return. -/
def run : List (Call V) → Radix V → Option (List ℤ × Radix V)
  | [], r => some ([], r)
  | c :: cs, r => do
    let (ret, r) ← c.run r
    let (rets, r) ← run cs r
    some (ret :: rets, r)

/-- The map that the calls are there to change: a successful `radix_add` sets
its key, and every `radix_del` clears it. -/
@[simp] def Call.apply (c : Call V) (ret : ℤ) (f : BitVec 64 → Option V) : BitVec 64 → Option V :=
  match c with
  | add key value _ => if ret = 0 then Function.update f key value else f
  | del key _ => Function.update f key none

/-- The map after some calls. -/
def lastAdded : List (Call V × ℤ) → (BitVec 64 → Option V) → BitVec 64 → Option V
  | [], f => f
  | (c, ret) :: cs, f => lastAdded cs (c.apply ret f)

/-- The tree stands for a map. -/
def Represents (r : Radix V) (f : BitVec 64 → Option V) : Prop :=
  r.root.Valid ∧ ∀ k, radixGet r k = some (f k)

variable {f : BitVec 64 → Option V}

theorem Represents.call (h : Represents r f)
    (c : Call V) : ∃ ret r', c.run r = some (ret, r') ∧ Represents r' (c.apply ret f) := by
  have hif {k key : BitVec 64} (v : Option V) :
      (if k = key then some v else radixGet r k) = some (update f key v k) := by
    by_cases hk : k = key
    · simp [hk]
    · simp [hk, h.2]
  cases c with
  | add key value mem =>
    obtain ⟨ret, r', heq, hvalid, hadded⟩ := radixAdd_spec key value mem h.1
    refine ⟨ret, r', heq, hvalid, fun k => ?_⟩
    obtain ⟨rfl, hget⟩ | ⟨rfl, hget, -⟩ := hadded.radixGet h.1 hvalid
    · simp [hget, hif]
    · simp [hget, h.2, enomem]
  | del key mem =>
    obtain ⟨ret, r', heq, hvalid, hadded⟩ := radixAdd_spec key none mem h.1
    refine ⟨ret, r', heq, hvalid, fun k => ?_⟩
    obtain ⟨rfl, hget⟩ | ⟨rfl, hget, hnone⟩ := hadded.radixGet h.1 hvalid
    · simp [hget, hif]
    · -- the key has no path, so there was nothing to delete
      have hfree : f key = none := by simpa [h.2] using hnone
      simp [hget, h.2, ← hfree]

theorem Represents.run (h : Represents r f) (calls : List (Call V)) :
    ∃ rets r', run calls r = some (rets, r') ∧ Represents r' (lastAdded (calls.zip rets) f) := by
  induction calls generalizing r f with
  | nil => exact ⟨[], r, rfl, h⟩
  | cons c cs ih =>
    obtain ⟨ret, r₁, hcall, h1⟩ := h.call c
    obtain ⟨rets, r2, hrun, h2⟩ := ih h1
    exact ⟨ret :: rets, r2, by simp [RadixTree.run, hcall, hrun], h2⟩

/-- A new tree, with or without its root node. -/
def Fresh (r : Radix V) : Prop := r = newRadix ∨ ∃ mem, initRadix mem = some r

theorem Fresh.represents (h : Fresh r) : Represents r fun _ => none := by
  obtain rfl | ⟨mem, hinit⟩ := h
  · exact ⟨valid_null, fun _ => rfl⟩
  · obtain ⟨mem', hnew | hnew⟩ := newRadixNode_cases (V := V) (n := 15) mem
    · simp [initRadix, hnew] at hinit
    · obtain rfl : ⟨.node fun _ => .zero 15⟩ = r := by simpa [initRadix, hnew] using hinit
      have hvalid : (node fun _ => .zero 15 : Word V 16).Valid := by simp
      exact ⟨hvalid, fun k => by simp [radixGet_eq hvalid]⟩

/-- After any calls of `radix_add` and `radix_del` on a new tree, with any
outcomes of the allocations, no call has gone wrong, `radix_get` finds for every
key what the last successful `radix_add` of it has stored if no `radix_del` of it
came later, and NULL otherwise; and a `radix_add` that fails now leaves what is
found for every key. -/
theorem radix_refines_map (r₀ : Radix V) (hnew : Fresh r₀) (calls : List (Call V)) :
    ∃ rets r, run calls r₀ = some (rets, r) ∧
      (∀ k, radixGet r k = some (lastAdded (calls.zip rets) (fun _ => none) k)) ∧
      ∀ key value mem, ∃ ret r', radixAdd r key value mem = some (ret, r') ∧
        (ret = 0 ∨ ret = -enomem) ∧ (ret ≠ 0 → ∀ k, radixGet r' k = radixGet r k) := by
  obtain ⟨rets, r, hrun, hvalid, hget⟩ := hnew.represents.run calls
  refine ⟨rets, r, hrun, hget, fun key value mem => ?_⟩
  obtain ⟨ret, r', heq, hvalid', hadded⟩ := radixAdd_spec key value mem hvalid
  refine ⟨ret, r', heq, ?_⟩
  obtain ⟨rfl, -⟩ | ⟨rfl, hsame, -⟩ := hadded.radixGet hvalid hvalid'
  · exact ⟨.inl rfl, fun h => absurd rfl h⟩
  · exact ⟨.inr rfl, fun _ => hsame⟩

/-- A key that is added twice and then deleted, and one that is added once. -/
theorem radix_refines_map_two_keys : ∃ rets r,
    run [.add 5 (some 1) (List.replicate 16 true), .add 5 (some 2) [], .add 7 (some 3) [],
      .del 5 []] (newRadix : Radix ℕ) = some (rets, r) ∧ rets = [0, 0, 0, 0] ∧
    ∀ k, radixGet r k = some (lastAdded ([.add 5 (some 1) (List.replicate 16 true),
      .add 5 (some 2) [], .add 7 (some 3) [], .del 5 []].zip rets) (fun _ => none) k) := by
  obtain ⟨rets, r, hrun, hget, -⟩ := radix_refines_map (V := ℕ) newRadix (.inl rfl)
    [.add 5 (some 1) (List.replicate 16 true), .add 5 (some 2) [], .add 7 (some 3) [], .del 5 []]
  have hrets : (run [.add 5 (some 1) (List.replicate 16 true), .add 5 (some 2) [],
    .add 7 (some 3) [], .del 5 []] (newRadix : Radix ℕ)).map Prod.fst = some [0, 0, 0, 0] := by rfl
  rw [hrun] at hrets
  exact ⟨rets, r, hrun, Option.some.inj hrets, hget⟩

end Starfish.RadixTree
