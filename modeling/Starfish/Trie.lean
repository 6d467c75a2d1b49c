import Mathlib.Data.List.FinRange
import Mathlib.Tactic.Ring

/-!
# Starfish.Trie

Tries of a fixed height with a pointer in every word of a node.  A trie of
height `0` is a word of the leaf level, which holds a value or NULL; above it a
word is NULL, the address of a node, or an error value that is taken for one.

A path gives the digit to follow at every height.  Read as numbers, the paths
of a trie are visited in increasing order by going through the words of every
node from the first to the last.
-/

namespace Starfish

open Function Nat List

/-- What a word at some height holds, with everything behind it. -/
inductive Trie (D V : Type) : ℕ → Type where
  | value (v : Option V) : Trie D V 0
  | null {n : ℕ} : Trie D V (n + 1)
  | err {n : ℕ} : Trie D V (n + 1)
  | node {n : ℕ} (words : D → Trie D V n) : Trie D V (n + 1)

namespace Trie

variable {D V : Type} {n : ℕ}

/-! ## Pointers -/

def isNull : Trie D V (n + 1) → Bool
  | null => true
  | _ => false

def isErr : Trie D V (n + 1) → Bool
  | err => true
  | _ => false

/-- The node behind a pointer. -/
def deref : Trie D V (n + 1) → Option (D → Trie D V n)
  | node words => some words
  | _ => none

/-- The store of a word into the node behind a pointer. -/
def setWord [DecidableEq D] (t : Trie D V (n + 1)) (d : D) (w : Trie D V n) :
    Option (Trie D V (n + 1)) := do
  let words ← t.deref
  some (node (Function.update words d w))

section

variable (words : D → Trie D V n)

@[simp] theorem isNull_null : (null : Trie D V (n + 1)).isNull = true := rfl

@[simp] theorem isNull_node : (node words).isNull = false := rfl

@[simp] theorem isErr_err : (err : Trie D V (n + 1)).isErr = true := rfl

@[simp] theorem isErr_node : (node words).isErr = false := rfl

@[simp] theorem deref_node : (node words).deref = some words := rfl

@[simp] theorem setWord_node [DecidableEq D] (d : D) (w : Trie D V n) :
    (node words).setWord d w = some (node (update words d w)) := rfl

end

/-! ## Lookup -/

/-- A word that is all zeros. -/
def zero : (n : ℕ) → Trie D V n
  | 0 => value none
  | _ + 1 => null

/-- The value at the end of a path. -/
def find : {n : ℕ} → Trie D V n → (ℕ → D) → Option V
  | _, value v, _ => v
  | _, null, _ => none
  | _, err, _ => none
  | n + 1, node words, path => find (words (path n)) path

/-- No word holds an error value. -/
def Valid : {n : ℕ} → Trie D V n → Prop
  | _, value _ => True
  | _, null => True
  | _, err => False
  | _, node words => ∀ d, (words d).Valid

@[simp] theorem find_value (v : Option V) (path : ℕ → D) : (value v).find path = v := rfl

@[simp] theorem find_null (path : ℕ → D) : (null : Trie D V (n + 1)).find path = none := rfl

@[simp] theorem find_err (path : ℕ → D) : (err : Trie D V (n + 1)).find path = none := rfl

@[simp] theorem find_node (words : D → Trie D V n) (path : ℕ → D) :
    (node words).find path = (words (path n)).find path := rfl

@[simp] theorem valid_value (v : Option V) : (value v : Trie D V 0).Valid := trivial

@[simp] theorem valid_null : (null : Trie D V (n + 1)).Valid := trivial

@[simp] theorem not_valid_err : ¬ (err : Trie D V (n + 1)).Valid := id

@[simp] theorem valid_node : (node words).Valid ↔ ∀ d, (words d).Valid := Iff.rfl

@[simp] theorem find_zero (path : ℕ → D) : (zero n : Trie D V n).find path = none := by
  cases n <;> rfl

@[simp] theorem valid_zero : (zero n : Trie D V n).Valid := by
  cases n <;> trivial

/-- Only the digits below the height matter. -/
theorem find_congr (h : ∀ i < n, path i = path' i) (t : Trie D V n) :
    t.find path = t.find path' := by
  induction t with
  | value v => rfl
  | null => rfl
  | err => rfl
  | node words ih =>
    rename_i n
    simp only [find_node, h n (lt_succ_self n)]
    exact ih _ fun i hi => h i (by omega)

/-- What is found after one word of a node has been replaced. -/
theorem find_update [DecidableEq D] (words : D → Trie D V n) (d : D) (t : Trie D V n)
    (path : ℕ → D) :
    (update words d t (path n)).find path =
      if path n = d then t.find path else (words (path n)).find path := by
  by_cases h : path n = d
  · simp [h]
  · simp [h]

theorem Valid.null_or_node (h : t.Valid) :
    t = null ∨ ∃ words, t = node words ∧ ∀ d, (words d).Valid := by
  cases t with
  | null => exact .inl rfl
  | err => exact absurd h not_valid_err
  | node words => exact .inr ⟨words, rfl, h⟩

theorem valid_update [DecidableEq D] {words : D → Trie D V n}
    (hw : ∀ d, (words d).Valid) (ht : t.Valid) (e : D) : (update words d t e).Valid := by
  by_cases h : e = d
  · simpa [h] using ht
  · simpa [update_of_ne h] using hw e

end Trie

/-! ## Numbers as paths -/

section digits

variable {b : ℕ} [NeZero b]

/-- The digits of a number to the base `b`. -/
def digits (b : ℕ) [NeZero b] (k i : ℕ) : Fin b := ⟨k / b ^ i % b, Nat.mod_lt _ (NeZero.pos b)⟩

@[simp] theorem val_digits (k i : ℕ) : (digits b k i : ℕ) = k / b ^ i % b := rfl

/-- Two numbers with the same digits below `n` agree modulo `b ^ n`. -/
theorem mod_eq_of_digits (h : ∀ i < n, digits b k i = digits b l i) : k % b ^ n = l % b ^ n := by
  induction n with
  | zero => simp [mod_one]
  | succ n ih =>
    have hlow := ih fun i hi => h i (by omega)
    have htop : k / b ^ n % b = l / b ^ n % b := congrArg Fin.val (h n (by omega))
    rw [mod_pow_succ, mod_pow_succ, hlow, htop]

/-- Numbers with `n` digits are told apart by them. -/
theorem eq_of_digits (hk : k < b ^ n) (hl : l < b ^ n)
    (h : ∀ i < n, digits b k i = digits b l i) : k = l := by
  have hmod := mod_eq_of_digits h
  rwa [mod_eq_of_lt hk, mod_eq_of_lt hl] at hmod

/-- Every path is the digits of a number, as far as they matter. -/
theorem exists_digits (path : ℕ → Fin b) (n : ℕ) : ∃ k < b ^ n, ∀ i < n, digits b k i = path i := by
  have hb := NeZero.pos b
  induction n with
  | zero => exact ⟨0, by simp, by simp⟩
  | succ n ih =>
    obtain ⟨k, hk, hdigits⟩ := ih
    have hpow (i : ℕ) : 0 < b ^ i := Nat.pow_pos hb
    refine ⟨k + path n * b ^ n, ?_, fun i hi => Fin.ext ?_⟩
    · have htop : (path n + 1) * b ^ n ≤ b * b ^ n := Nat.mul_le_mul_right _ (path n).isLt
      rw [Nat.pow_succ, Nat.mul_comm (b ^ n)]
      rw [Nat.add_mul] at htop
      omega
    · rw [val_digits]
      obtain hlt | rfl := Nat.lt_succ_iff_lt_or_eq.mp hi
      · have hsplit : path n * b ^ n = path n * b ^ (n - i - 1) * b * b ^ i := by
          rw [Nat.mul_assoc, Nat.mul_assoc, ← Nat.pow_succ', ← Nat.pow_add]
          congr 2
          omega
        rw [hsplit, add_mul_div_right _ _ (hpow i), add_mul_mod_self_right]
        exact congrArg Fin.val (hdigits i hlt)
      · rw [add_mul_div_right _ _ (hpow i), div_eq_of_lt hk, zero_add,
          mod_eq_of_lt (path i).isLt]

theorem div_eq_append_iff {d : Fin b} :
    k / b ^ n = p * b + d ↔ k / b ^ (n + 1) = p ∧ digits b k n = d := by
  have hb := NeZero.pos b
  have hdiv : k / b ^ (n + 1) = k / b ^ n / b := by rw [Nat.pow_succ, Nat.div_div_eq_div_mul]
  rw [hdiv, Fin.ext_iff, val_digits]
  constructor
  · intro h
    rw [h]
    exact ⟨by rw [mul_comm, mul_add_div hb, div_eq_of_lt d.2, add_zero],
      by rw [mul_add_mod', mod_eq_of_lt d.2]⟩
  · rintro ⟨rfl, hd⟩
    rw [← hd, mul_comm, div_add_mod]

end digits

/-! ## Entries in order -/

namespace Trie

variable {V : Type} {b n : ℕ}

/-- The values of a trie with their paths, read as numbers that start with the
digits of `p`. -/
@[simp] def entries : {n : ℕ} → Trie (Fin b) V n → ℕ → List (ℕ × V)
  | _, value none, _ => []
  | _, value (some v), p => [(p, v)]
  | _, null, _ => []
  | _, err, _ => []
  | _, node words, p => (List.finRange b).flatMap fun d => (words d).entries (p * b + d)

@[simp] theorem entries_node (words : Fin b → Trie (Fin b) V n) (p : ℕ) :
    (node words).entries p = (finRange b).flatMap fun d => (words d).entries (p * b + d) := rfl

/-- The entries are what the lookup finds. -/
theorem mem_entries [NeZero b] (t : Trie (Fin b) V n) {v : V} :
    (k, v) ∈ t.entries p ↔ k / b ^ n = p ∧ t.find (digits b k) = some v := by
  induction t generalizing p with
  | value o =>
    cases o with
    | none => simp
    | some w => simp [eq_comm]
  | null => simp
  | err => simp
  | node words ih =>
    simp only [entries_node, mem_flatMap, mem_finRange, true_and, ih, find_node,
      div_eq_append_iff]
    constructor
    · rintro ⟨d, ⟨hp, rfl⟩, hfind⟩
      exact ⟨hp, hfind⟩
    · rintro ⟨hp, hfind⟩
      exact ⟨_, ⟨hp, rfl⟩, hfind⟩

/-- The entries of a trie start with its prefix. -/
theorem lt_of_mem_entries [NeZero b] {t s : Trie (Fin b) V n} {p q : ℕ} (hpq : p < q)
    (hx : x ∈ t.entries p) (hy : y ∈ s.entries q) : x.1 < y.1 := by
  have hxp := (t.mem_entries.mp hx).1
  have hyq := (s.mem_entries.mp hy).1
  by_contra hle
  have := Nat.div_le_div_right (c := b ^ n) (Nat.le_of_not_lt hle)
  omega

/-- The entries are visited in increasing order. -/
theorem pairwise_entries [NeZero b] (t : Trie (Fin b) V n) (p : ℕ) :
    (t.entries p).Pairwise (·.1 < ·.1) := by
  induction t generalizing p with
  | value o => cases o <;> simp
  | null => simp
  | err => simp
  | node words ih =>
    rw [entries_node, pairwise_flatMap]
    refine ⟨fun d _ => ih d _, (pairwise_lt_finRange b).imp ?_⟩
    intro d e hde x hx y hy
    exact lt_of_mem_entries (by simpa using hde) hx hy

/-- The entries of the leaf that is reached from a node by going to the first
child everywhere. -/
def firstLeaf : (n : ℕ) → (Fin b → Trie (Fin b) V n) → ℕ → List (ℕ × V)
  | 0, words, p => (node words).entries p
  | n + 1, words, p =>
    match (List.finRange b).find? fun d => !(words d).isNull with
    | none => []
    | some d =>
      match words d with
      | node below => firstLeaf n below (p * b + d)
      | _ => []

theorem entries_of_isNull {t : Trie (Fin b) V (n + 1)} (h : t.isNull = true) (p : ℕ) :
    t.entries p = [] := by
  cases t with
  | null => rfl
  | err => simp [isNull] at h
  | node words => simp at h

/-- The entries of the first leaf come first. -/
theorem firstLeaf_prefix (words : Fin b → Trie (Fin b) V n) (p : ℕ) :
    firstLeaf n words p <+: (node words).entries p := by
  induction n generalizing p with
  | zero => exact prefix_rfl
  | succ n ih =>
    rw [firstLeaf]
    split
    · exact nil_prefix
    · rename_i d hd
      obtain ⟨-, before, rest, hsplit, hbefore⟩ := find?_eq_some_iff_append.mp hd
      have hnone : before.flatMap (fun d => (words d).entries (p * b + d)) = [] := by
        rw [flatMap_eq_nil_iff]
        intro e he
        exact entries_of_isNull (by simpa using hbefore e he) _
      rw [entries_node, hsplit, flatMap_append, hnone, nil_append, flatMap_cons]
      split
      · rename_i below hbelow
        rw [hbelow]
        exact (ih below _).trans (prefix_append _ _)
      · exact nil_prefix

end Trie

end Starfish
