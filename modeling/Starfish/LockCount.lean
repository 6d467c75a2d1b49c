import Mathlib.Algebra.Group.Prod
import Starfish.Interleave

/-!
# Starfish.LockCount

How often a program takes a lock and gives it back.  What an update does to the lock is read off the
update: it takes the lock if the lock is held after it although it was free before, and gives the
lock back if the lock is free after it although it was held before.

`Nets l d c` is the law for the text of a program: on every path that returns, the lock is taken
`d` times more often than it is given back.
-/

namespace Starfish

open Prog

/-- A lock that is part of the state. -/
structure Lock (σ : Type) where
  held : σ → Bool
  set : Bool → σ → σ
  held_set : ∀ b s, held (set b s) = b

namespace Lock

variable {σ τ α β : Type} (l : Lock σ)

/-- How often the update takes the lock and gives it back. -/
def ofUpdate (f : σ → σ) (s : σ) : ℕ × ℕ :=
  (if l.held (f (l.set false s)) then 1 else 0, if l.held (f (l.set true s)) then 0 else 1)

/-- How often a program that runs alone takes the lock and gives it back. -/
def count : Prog σ α → σ → ℕ × ℕ
  | .ret _, _ => 0
  | .halt, _ => 0
  | .get k, s => count (k s) s
  | .act ready f k, s => if ready s then l.ofUpdate f s + count (k s) (f s) else 0

def net (n : ℕ × ℕ) : ℤ := n.1 - n.2

/-- On every path the lock is taken `d` times more than it is given back. -/
def Nets (d : ℤ) : Prog σ α → Prop
  | .ret _ => d = 0
  | .halt => True
  | .get k => ∀ s, Nets d (k s)
  | .act _ f k => ∀ s, Nets (d - net (l.ofUpdate f s)) (k s)

variable {l}

theorem Nets.count (h : l.Nets d c) (hout : c.outcome s = .ok a t) : net (l.count c s) = d := by
  induction c generalizing d s with
  | ret b => exact h.symm
  | halt => cases hout
  | get k ih => exact ih s (h s) hout
  | act ready f k ih =>
    by_cases hr : ready s = true
    · simp only [outcome, run, hr, if_true] at hout
      have hk := ih s (h s) hout
      simp only [Lock.count, hr, if_true, net, Prod.fst_add, Prod.snd_add] at hk ⊢
      omega
    · simp [outcome, run, hr] at hout

theorem Nets.bind (h : l.Nets d c) (hf : ∀ a, l.Nets e (f a)) : l.Nets (d + e) (c >>= f) := by
  induction c generalizing d with
  | ret a =>
    obtain rfl : d = 0 := h
    rw [zero_add]
    exact hf a
  | halt => trivial
  | get k ih => exact fun s => ih s (h s)
  | act ready g k ih =>
    intro s
    have hk := ih s (h s)
    rwa [sub_add_eq_add_sub] at hk

/-- Sequencing, when the first part does not touch the lock. -/
theorem Nets.seq (h : l.Nets 0 c) (hf : ∀ a, l.Nets d (f a)) :
    l.Nets d (c >>= f) := zero_add d ▸ h.bind hf

theorem nets_pure : l.Nets 0 (pure a : Prog σ α) := rfl

theorem nets_read : l.Nets 0 (read f) := fun _ => rfl

theorem nets_store (h : ∀ s, l.held (f s) = l.held s) : l.Nets 0 (store f) := by
  intro s
  simp [Nets, ofUpdate, h, l.held_set, net]

theorem nets_store_seq (h : ∀ s, l.held (f s) = l.held s)
    (hg : l.Nets d (g ())) : l.Nets d (store f >>= g) := (nets_store h).seq fun _ => hg

theorem nets_ite {p : Prop} [Decidable p] (h : l.Nets d c) (h' : l.Nets d c') :
    l.Nets d (if p then c else c') := by
  split
  · exact h
  · exact h'

theorem nets_bugOn {p : Prop} [Decidable p] : l.Nets 0 (bugOn p) := nets_ite trivial rfl

theorem nets_when {p : Prop} [Decidable p] {c : Prog σ Unit} (h : l.Nets 0 c) :
    l.Nets 0 (when p c) := nets_ite h rfl

theorem nets_zoom {get : σ → τ} {set : τ → σ → σ} {c : Prog τ α}
    (h : ∀ t s, l.held (set t s) = l.held s) : l.Nets 0 (zoom get set c) := by
  induction c with
  | ret a => rfl
  | halt => trivial
  | get k ih => exact fun s => ih (get s)
  | act ready f k ih =>
    intro s
    simpa [ofUpdate, h, l.held_set, net] using ih (get s)

end Lock

end Starfish
