import Mathlib.Data.List.Nodup
import Mathlib.Logic.Function.Basic

/-!
# Starfish.SList

Singly linked lists that end in a null pointer: the free list inside a slab
and the stacks of freed objects and pages that machines pass to each other.
`Chain next nil a xs` says that following `next` from `a` visits exactly `xs`
and then arrives at `nil`.  A chain never meets a node twice, so a stack that
is a chain is acyclic.
-/

namespace Starfish

open Function List

variable {ν : Type} {next : ν → ν} {nil a b x : ν} {xs ys : List ν}

/-- Following `next` from `a` visits exactly `xs` and arrives at `nil`. -/
def Chain (next : ν → ν) (nil : ν) : ν → List ν → Prop
  | a, [] => a = nil
  | a, x :: xs => a = x ∧ x ≠ nil ∧ Chain next nil (next x) xs

@[simp] theorem chain_nil : Chain next nil a [] ↔ a = nil := Iff.rfl

@[simp] theorem chain_cons :
    Chain next nil a (x :: xs) ↔ a = x ∧ x ≠ nil ∧ Chain next nil (next x) xs := Iff.rfl

theorem Chain.congr {next' : ν → ν} (h : Chain next nil a xs) (he : ∀ y ∈ xs, next' y = next y) :
    Chain next' nil a xs := by
  induction xs generalizing a with
  | nil => exact h
  | cons x xs ih =>
    refine ⟨h.1, h.2.1, ?_⟩
    rw [he x mem_cons_self]
    exact ih h.2.2 fun y hy => he y (mem_cons_of_mem x hy)

/-- A chain that starts at `nil` is empty. -/
theorem Chain.eq_nil (h : Chain next nil nil xs) : xs = [] := by
  cases xs with
  | nil => rfl
  | cons x xs => exact absurd h.1.symm h.2.1

/-- A chain that does not start at `nil` has its start as first node. -/
theorem Chain.eq_cons (h : Chain next nil a xs) (ha : a ≠ nil) :
    ∃ ys, xs = a :: ys ∧ Chain next nil (next a) ys := by
  cases xs with
  | nil => exact absurd h ha
  | cons x xs =>
    obtain ⟨rfl, -, h⟩ := h
    exact ⟨xs, rfl, h⟩

theorem Chain.unique (hx : Chain next nil a xs) (hy : Chain next nil a ys) : xs = ys := by
  induction xs generalizing a ys with
  | nil => exact (hx ▸ hy : Chain next nil nil ys).eq_nil.symm
  | cons x xs ih =>
    obtain ⟨rfl, hne, hx⟩ := hx
    obtain ⟨zs, rfl, hz⟩ := hy.eq_cons hne
    rw [ih hx hz]

/-- The rest of a chain from one of its nodes on. -/
theorem Chain.suffix (h : Chain next nil a (xs ++ x :: ys)) : Chain next nil x (x :: ys) := by
  induction xs generalizing a with
  | nil =>
    obtain ⟨rfl, hne, h⟩ := h
    exact ⟨rfl, hne, h⟩
  | cons y xs ih => exact ih h.2.2

theorem Chain.next_last (h : Chain next nil a (xs ++ [b])) : next b = nil := by
  induction xs generalizing a with
  | nil => exact h.2.2
  | cons y xs ih => exact ih h.2.2

/-- A chain is acyclic: no node occurs twice. -/
theorem Chain.nodup (h : Chain next nil a xs) : xs.Nodup := by
  induction xs generalizing a with
  | nil => exact nodup_nil
  | cons x xs ih =>
    refine nodup_cons.mpr ⟨fun hx => ?_, ih h.2.2⟩
    -- a second occurrence would start the same chain again, but shorter
    obtain ⟨as, bs, rfl⟩ := append_of_mem hx
    have h1 : Chain next nil x (x :: (as ++ x :: bs)) := ⟨rfl, h.2⟩
    have h2 : Chain next nil x (x :: bs) := h.2.2.suffix
    have hlen := congrArg length (h1.unique h2)
    simp only [length_cons, length_append] at hlen
    omega

variable [DecidableEq ν]

/-- A store to a node that is not on the chain does not change it. -/
theorem Chain.update (h : Chain next nil a xs) (hx : x ∉ xs) (v : ν) :
    Chain (update next x v) nil a xs := by
  refine h.congr fun y hy => update_of_ne ?_ _ _
  rintro rfl
  exact hx hy

theorem Chain.push (h : Chain next nil a xs) (hx : x ∉ xs) (hne : x ≠ nil) :
    Chain (Function.update next x a) nil x (x :: xs) := by
  refine ⟨rfl, hne, ?_⟩
  rw [Function.update_self]
  exact h.update hx a

theorem Chain.append (h : Chain next nil a (xs ++ [b])) (hx : x ∉ xs ++ [b]) (hne : x ≠ nil)
    (hnext : next x = nil) : Chain (Function.update next b x) nil a (xs ++ [b, x]) := by
  have hnd := h.nodup
  induction xs generalizing a with
  | nil =>
    obtain ⟨rfl, hb, -⟩ := h
    have hxa : x ≠ a := by simpa using hx
    refine ⟨rfl, hb, ?_⟩
    rw [update_self]
    refine ⟨rfl, hne, ?_⟩
    rw [update_of_ne hxa]
    exact hnext
  | cons y xs ih =>
    obtain ⟨rfl, hy, h⟩ := h
    simp only [cons_append, nodup_cons, mem_cons, not_or] at hnd hx
    have hay : a ≠ b := fun heq => hnd.1 (by simp [heq])
    refine ⟨rfl, hy, ?_⟩
    rw [update_of_ne hay]
    exact ih h hx.2 hnd.2

/-- The nodes met from `a` on.  Running out of fuel stands for a loop that does
not end. -/
def follow (next : ν → ν) (nil : ν) : ℕ → ν → Option (List ν)
  | 0, _ => none
  | fuel + 1, a => if a = nil then some [] else (follow next nil fuel (next a)).map (a :: ·)

theorem Chain.follow_eq (h : Chain next nil a xs) (hfuel : xs.length < fuel) :
    follow next nil fuel a = some xs := by
  induction xs generalizing a fuel with
  | nil =>
    obtain ⟨fuel, rfl⟩ : ∃ f, fuel = f + 1 := ⟨fuel - 1, by simp at hfuel; omega⟩
    have ha : a = nil := h
    simp [follow, ha]
  | cons x xs ih =>
    obtain ⟨fuel, rfl⟩ : ∃ f, fuel = f + 1 := ⟨fuel - 1, by simp at hfuel; omega⟩
    obtain ⟨rfl, hne, h⟩ := h
    simp [follow, hne, ih h (by simpa using hfuel)]

end Starfish
