import Mathlib.Logic.Relation
import Starfish.Prog

/-!
# Starfish.Interleave

Programs that run at the same time on one memory.  The steps of the threads
interleave: `next` is one step of a thread, a read or an update.

A property of the interleaving that depends only on which updates a piece of
code can make is proved from its text: `Within R Q c` says that every update of
`c` is one that `R` allows and that every value `c` returns satisfies `Q`.

Where the property depends on what the threads have seen, they are a `Threads`: a
memory and, for each thread, the point of its code that it has reached.
-/

namespace Starfish

open Function

namespace Prog

variable {σ τ α β : Type}

attribute [local simp] Prog.bind Prog.run

/-! ## Steps -/

/-- One step of a thread that is at `c`: the rest of its code and the memory
afterwards. -/
@[simp] def next : Prog σ α → σ → Option (Prog σ α × σ)
  | ret _, _ => none
  | halt, _ => none
  | get k, s => some (k s, s)
  | act ready f k, s => if ready s then some (k s, f s) else none

variable {f : σ → σ} {s s' : σ} {c' : Prog σ α}

theorem of_next_read_bind {f : σ → β} {k : β → Prog σ α} (h : (read f >>= k).next s = some (c', s')) : k (f s) = c' ∧ s = s' :=
  Prod.mk.inj (Option.some.inj h)

theorem of_next_store_bind (h : (store f >>= k).next s = some (c', s')) :
    k () = c' ∧ f s = s' := Prod.mk.inj (Option.some.inj h)

/-- A swap succeeds or fails. -/
theorem of_next_cas_bind {ω : Type} [DecidableEq ω] {get : σ → ω} {set : ω → σ → σ} {old new : ω}
    {k : Bool → Prog σ α} (h : (cas get set old new >>= k).next s = some (c', s')) :
    (get s = old ∧ k true = c' ∧ set new s = s') ∨ (get s ≠ old ∧ k false = c' ∧ s = s') := by
  obtain ⟨rfl, rfl⟩ := Prod.mk.inj (Option.some.inj h)
  by_cases heq : get s = old <;> simp [heq]

/-! ## What the updates of a program can do -/

/-- Every update of the program is one that `R` allows, and every value it
returns satisfies `Q`. -/
def Within (R : σ → σ → Prop) (Q : α → Prop) : Prog σ α → Prop
  | ret a => Q a
  | halt => True
  | get k => ∀ s, (k s).Within R Q
  | act _ f k => ∀ s, R s (f s) ∧ (k s).Within R Q

section within

variable {R : σ → σ → Prop} {Q : α → Prop} {c : Prog σ α} {s s' : σ} {c' : Prog σ α}

/-- A step does what the program is allowed to do. -/
theorem Within.next (h : c.Within R Q) (hn : c.next s = some (c', s')) :
    c'.Within R Q ∧ (s' = s ∨ R s s') := by
  cases c with
  | ret | halt => simp at hn
  | get k =>
    obtain ⟨rfl, rfl⟩ : k s = c' ∧ s = s' := by simpa using hn
    exact ⟨h s, .inl rfl⟩
  | act ready f k =>
    by_cases hr : ready s = true
    · obtain ⟨rfl, rfl⟩ : k s = c' ∧ f s = s' := by simpa [hr] using hn
      exact ⟨(h s).2, .inr (h s).1⟩
    · simp [hr] at hn

/-- A program that runs alone to its end has done what it is allowed to do. -/
theorem Within.outcome (h : c.Within R Q) (hrefl : ∀ s, R s s)
    (htrans : ∀ {s t u}, R s t → R t u → R s u) (ho : c.outcome s = .ok a t) : R s t ∧ Q a := by
  induction c generalizing s with
  | ret b =>
    obtain ⟨rfl, rfl⟩ : b = a ∧ s = t := by simpa using ho
    exact ⟨hrefl s, h⟩
  | halt => simp at ho
  | get k ih => exact ih s (h s) ho
  | act ready f k ih =>
    by_cases hr : ready s = true
    · simp only [Prog.outcome, Prog.run, hr, if_true] at ho
      obtain ⟨hk, hQ⟩ := ih s (h s).2 ho
      exact ⟨htrans (h s).1 hk, hQ⟩
    · simp [hr] at ho

theorem within_pure (h : Q a) : (pure a : Prog σ α).Within R Q := h

theorem within_bind {f : α → Prog σ β} {Q' : β → Prop} (h : c.Within R Q)
    (hf : ∀ a, Q a → (f a).Within R Q') : (c >>= f).Within R Q' := by
  induction c with
  | ret a => exact hf a h
  | halt => trivial
  | get k ih => exact fun s => ih s (h s)
  | act ready g k ih => exact fun s => ⟨(h s).1, ih s (h s).2⟩

/-- Sequencing, when nothing has to be known of the value in between. -/
theorem within_seq {f : α → Prog σ β} {Q' : β → Prop} (h : c.Within R fun _ => True)
    (hf : ∀ a, (f a).Within R Q') : (c >>= f).Within R Q' := within_bind h fun a _ => hf a

theorem within_read_bind {f : σ → β} {g : β → Prog σ α} (h : ∀ b, (g b).Within R Q) :
    (read f >>= g).Within R Q := fun s => h (f s)

theorem within_store {Q : Unit → Prop} (h : ∀ s, R s (f s)) (hQ : Q ()) :
    (store f).Within R Q := fun s => ⟨h s, hQ⟩

theorem within_store_bind (h : ∀ s, R s (f s))
    (hg : (g ()).Within R Q) : (store f >>= g).Within R Q := fun s => ⟨h s, hg⟩

theorem within_bugOn_bind {p : Prop} [Decidable p]
    (hg : (g ()).Within R Q) : (bugOn p >>= g).Within R Q := by
  by_cases h : p
  · simp [bugOn, h, bug, Bind.bind, Within]
  · simpa [bugOn, h, Bind.bind] using hg

theorem within_ite {p : Prop} [Decidable p] (h : c.Within R Q)
    (h' : d.Within R Q) : (if p then c else d).Within R Q := by
  by_cases hp : p
  · rwa [if_pos hp]
  · rwa [if_neg hp]

theorem within_when {p : Prop} [Decidable p] {c : Prog σ Unit} {Q : Unit → Prop}
    (h : c.Within R Q) (hQ : Q ()) : (when p c).Within R Q := within_ite h hQ

theorem within_zoom {get : σ → τ} {set : τ → σ → σ} (h : ∀ t s, R s (set t s)) :
    (zoom get set d).Within R fun _ => True := by
  induction d with
  | ret a => trivial
  | halt => trivial
  | get k ih => exact fun s => ih (get s)
  | act ready f k ih => exact fun s => ⟨h _ s, ih (get s)⟩

end within

end Prog

/-! ## Any number of threads -/

/-- No two threads meet in `R` after a step of `j`, if `j` meets none of the others. -/
theorem unique_update {T P : Type} [DecidableEq T] {f : T → P} {j : T} {p : P} {R : P → P → Prop}
    (h : ∀ k l, R (f k) (f l) → k = l) (hl : ∀ k ≠ j, ¬ R p (f k)) (hr : ∀ k ≠ j, ¬ R (f k) p) :
    ∀ k l, R (update f j p k) (update f j p l) → k = l := by
  intro k l hR
  by_cases hk : k = j <;> by_cases hl' : l = j <;> simp only [hk, hl', update_self,
    update_of_ne, ne_eq, not_false_eq_true] at hR ⊢
  · exact absurd hR (hl l hl')
  · exact absurd hR (hr k hk)
  · exact h k l hR

/-- A memory and where each thread is. -/
structure Threads (T σ P : Type) where
  mem : σ
  pc : T → P

namespace Threads

variable {T σ P : Type} [DecidableEq T]

/-- Thread `i` goes to `p` and leaves the memory `m`. -/
def move (w : Threads T σ P) (i : T) (m : σ) (p : P) : Threads T σ P :=
  ⟨m, Function.update w.pc i p⟩

/-- One thread does one of the `acts`. -/
inductive Step (acts : σ → P → σ → P → Prop) : Threads T σ P → Threads T σ P → Prop
  | intro {w : Threads T σ P} {i : T} {m : σ} {p : P} (h : acts w.mem (w.pc i) m p) :
      Step acts w (w.move i m p)

section

variable (w : Threads T σ P)

@[simp, grind =] theorem move_mem (i : T) (m : σ) (p : P) : (w.move i m p).mem = m := rfl

@[simp] theorem move_pc_self (i : T) (m : σ) (p : P) :
    (w.move i m p).pc i = p := update_self ..

theorem move_pc_of_ne (h : j ≠ i) (m : σ) (p : P) :
    (w.move i m p).pc j = w.pc j := update_of_ne h ..

@[grind =]
theorem move_pc (i j : T) (m : σ) (p : P) :
    (w.move i m p).pc j = if j = i then p else w.pc j := update_apply ..

theorem move_move (i : T) (m m' : σ) (p p' : P) : (w.move i m p).move i m' p' = w.move i m' p' := by
  simp [move]

/-- A thread that comes back to where it was. -/
theorem move_self (i : T) (m : σ) : w.move i m (w.pc i) = ⟨m, w.pc⟩ := by
  simp [move]

end

/-- A thread that goes on alone, where a step of the system is more than one of a thread. -/
theorem run_alone_of (i : T)
    (hstep : ∀ (w' : Threads T σ P) (m : σ) (p : P), (∀ j, j ≠ i → w'.pc j = w.pc j) →
      R (w'.mem, w'.pc i) (m, p) → step w' (w'.move i m p))
    (h : Relation.ReflTransGen R (w.mem, w.pc i) t) :
    Relation.ReflTransGen step w (w.move i t.1 t.2) := by
  induction h with
  | refl =>
    rw [move_self]
  | @tail b c _ hlast ih =>
    refine ih.tail ?_
    rw [← move_move w i b.1 c.1 b.2 c.2]
    refine hstep _ c.1 c.2 (fun j hj => w.move_pc_of_ne hj ..) ?_
    rw [move_mem, move_pc_self]
    exact hlast

theorem run_alone (i : T)
    (h : Relation.ReflTransGen (fun s t : σ × P => acts s.1 s.2 t.1 t.2) (w.mem, w.pc i) (m, p)) :
    Relation.ReflTransGen (Step acts) w (w.move i m p) :=
  run_alone_of i (fun _ _ _ _ hacts => .intro hacts) h

/-- A run in which every thread runs its code is a run in which it goes from point to point,
when each step of the code is one of those. -/
theorem exists_run_of_sim {Q : Type} {acts : σ → P → σ → P → Prop} {runs : σ → Q → σ → Q → Prop}
    (At : P → Q → Prop) {w : Threads T σ P} {v v' : Threads T σ Q}
    (hrun : Relation.ReflTransGen (Step runs) v v') (hmem : w.mem = v.mem)
    (hat : ∀ i, At (w.pc i) (v.pc i))
    (hsim : ∀ s p q s' q', At p q → runs s q s' q' → ∃ p', acts s p s' p' ∧ At p' q') :
    ∃ w', Relation.ReflTransGen (Step acts) w w' ∧ w'.mem = v'.mem ∧
      ∀ i, At (w'.pc i) (v'.pc i) := by
  induction hrun with
  | refl => exact ⟨w, .refl, hmem, hat⟩
  | tail _ hstep ih =>
    obtain ⟨w', hrun', hmem', hat'⟩ := ih
    cases hstep with | @intro i m q hruns =>
    obtain ⟨p', hacts, hp'⟩ := hsim _ _ _ _ _ (hat' i) hruns
    refine ⟨w'.move i m p', hrun'.tail (.intro (hmem' ▸ hacts)), rfl, fun j => ?_⟩
    by_cases hj : j = i
    · subst hj
      simpa using hp'
    · rw [move_pc_of_ne _ hj, move_pc_of_ne _ hj]
      exact hat' j

end Threads

end Starfish
