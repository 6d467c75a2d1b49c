import Mathlib.Tactic.Ring
import Mathlib.Data.List.Basic

/-!
# Starfish.Prog

Kernel code as a sequence of steps on a memory `σ`.  A step reads the memory or
updates it; an update can wait for a condition, which is how locks and atomic
instructions enter.  A program that runs alone leaves behind the memory after
each of its updates, oldest first, and ends by returning a value, or it does not
end: it spins in `BUG` or waits for somebody else.  The list of memories is what
a machine that stops in the middle of the code can leave behind, so crash
properties and ordinary postconditions are stated of the same program.

`wp c Q C s` says that `c` started in `s` returns with `Q`, and that every
memory left behind by one of its updates satisfies `C`.  All rules below are
equivalences, except the loop rule, which takes an invariant.
-/

namespace Starfish

attribute [local simp] Bind.bind

/-- How a piece of kernel code that runs alone ends: it returns a value, or it
spins for ever (in `BUG`, which is an endless loop in this kernel, or on a
lock). -/
inductive Outcome (σ α : Type) where
  | ok (a : α) (s : σ)
  | bug (s : σ)

namespace Outcome

/-- The memory at the end, whichever way the code ended. -/
def final {σ α : Type} : Outcome σ α → σ
  | ok _ s => s
  | bug s => s

/-- What the code returned. -/
def result? {σ α : Type} : Outcome σ α → Option α
  | ok a _ => some a
  | bug _ => none

theorem eq_ok_of_result? {σ α : Type} {r : Outcome σ α} {a : α} (h : r.result? = some a) :
    r = .ok a r.final := by
  cases r with
  | ok b s =>
    obtain rfl : b = a := by simpa [result?] using h
    rfl
  | bug s => simp [result?] at h

end Outcome

/-- A piece of kernel code. -/
inductive Prog (σ α : Type) : Type where
  /-- Return a value. -/
  | ret (a : α)
  /-- Spin for ever. -/
  | halt
  /-- Read the memory. -/
  | get (k : σ → Prog σ α)
  /-- Wait until `ready`, then update the memory by `f` in the same step, and go
  on with what the memory was before. -/
  | act (ready : σ → Bool) (f : σ → σ) (k : σ → Prog σ α)

namespace Prog

variable {σ τ α β : Type}

/-- Run a program alone: the memories after each of its updates and its
outcome. -/
@[simp] def run : Prog σ α → σ → List σ × Outcome σ α
  | ret a, s => ([], .ok a s)
  | halt, s => ([], .bug s)
  | get k, s => (k s).run s
  | act ready f k, s =>
    if ready s then (f s :: ((k s).run (f s)).1, ((k s).run (f s)).2) else ([], .bug s)

/-- The memories left behind by the updates of a run. -/
@[simp] def trace (c : Prog σ α) (s : σ) : List σ := (c.run s).1

/-- The outcome of a run. -/
@[simp] def outcome (c : Prog σ α) (s : σ) : Outcome σ α := (c.run s).2

/-- The memories a machine can be left with when it stops during a run:
the one before the first store and the one after each store. -/
def crashStates (c : Prog σ α) (s : σ) : List σ := s :: c.trace s

/-- Run `c`, then `f` on its result. -/
protected def bind : Prog σ α → (α → Prog σ β) → Prog σ β
  | ret a, f => f a
  | halt, _ => halt
  | get k, f => get fun s => (k s).bind f
  | act ready g k, f => act ready g fun s => (k s).bind f

instance : Monad (Prog σ) where
  pure := ret
  bind := Prog.bind

protected theorem bind_ret (c : Prog σ α) : c.bind ret = c := by
  induction c with
  | ret a => rfl
  | halt => rfl
  | get k ih => exact congrArg get (funext ih)
  | act ready g k ih => exact congrArg (act ready g) (funext ih)

protected theorem bind_assoc {γ : Type} (c : Prog σ α) (f : α → Prog σ β) (g : β → Prog σ γ) :
    (c.bind f).bind g = c.bind fun a => (f a).bind g := by
  induction c with
  | ret a => rfl
  | halt => rfl
  | get k ih => exact congrArg get (funext ih)
  | act ready h k ih => exact congrArg (act ready h) (funext ih)

instance : LawfulMonad (Prog σ) := .mk' _ Prog.bind_ret (fun _ _ => rfl) Prog.bind_assoc

/-- Read from memory. -/
def read (f : σ → α) : Prog σ α := get fun s => ret (f s)

/-- One store. -/
def store (f : σ → σ) : Prog σ Unit := act (fun _ => true) f fun _ => ret ()

/-- Wait for a condition and update the memory when it holds. -/
def await (ready : σ → Bool) (f : σ → σ) : Prog σ Unit := act ready f fun _ => ret ()

/-- `compare_and_swap(&x, old, new) == old`. -/
def cas {ω : Type} [DecidableEq ω] (get : σ → ω) (set : ω → σ → σ) (old new : ω) : Prog σ Bool :=
  act (fun _ => true) (fun s => if get s = old then set new s else s)
    fun s => ret (decide (get s = old))

/-- `BUG(...)`. -/
def bug : Prog σ α := halt

/-- `BUG_ON(p)`. -/
def bugOn (p : Prop) [Decidable p] : Prog σ Unit := if p then bug else ret ()

/-- `if (p) c;` -/
def when (p : Prop) [Decidable p] (c : Prog σ Unit) : Prog σ Unit := if p then c else ret ()

/-- Code over a part of the memory, run in place. -/
def zoom (get : σ → τ) (set : τ → σ → σ) : Prog τ α → Prog σ α
  | .ret a => .ret a
  | .halt => .halt
  | .get k => .get fun s => zoom get set (k (get s))
  | .act ready f k =>
    .act (fun s => ready (get s)) (fun s => set (f (get s)) s) fun s => zoom get set (k (get s))

/-- `while (1) body`, until the body returns a value.  Without fuel the loop stands for
one that does not end. -/
def loop : ℕ → Prog σ (Option α) → Prog σ α
  | 0, _ => halt
  | n + 1, c => c >>= fun r =>
    match r with
    | some a => ret a
    | none => loop n c

/-- `for (i = a; i < a + n; i++) body(i)`. -/
def forFrom (a : ℕ) : ℕ → (ℕ → Prog σ Unit) → Prog σ Unit
  | 0, _ => ret ()
  | n + 1, f => f a >>= fun _ => forFrom (a + 1) n f

/-- `for (i = 0; i < n; i++) body(i)`. -/
def forUpTo (n : ℕ) (f : ℕ → Prog σ Unit) : Prog σ Unit := forFrom 0 n f

/-! ## Weakest preconditions with crash conditions -/

/-- `c` started in `s` returns with `Q`, and each of its stores leaves a
memory that satisfies `C`. -/
def wp (c : Prog σ α) (Q : α → σ → Prop) (C : σ → Prop) (s : σ) : Prop :=
  (∀ t ∈ c.trace s, C t) ∧ ∃ a t, c.outcome s = .ok a t ∧ Q a t

section rules

variable {c : Prog σ α} {Q Q' : α → σ → Prop} {C : σ → Prop} {s : σ}

variable {a : α}

theorem wp_ret : wp (ret a : Prog σ α) Q C s ↔ Q a s := by
  simp [wp]

theorem wp_pure : wp (pure a : Prog σ α) Q C s ↔ Q a s := wp_ret

variable {k : σ → Prog σ α}

variable {ready : σ → Bool}

theorem wp_act : wp (act ready f k) Q C s ↔ ready s = true ∧ C (f s) ∧ wp (k s) Q C (f s) := by
  by_cases h : ready s = true
  · simp only [wp, trace, outcome, run, h, if_true, List.mem_cons, forall_eq_or_imp, true_and,
      and_assoc]
  · simp [wp, h]

variable {f : α → Prog σ β} {R : β → σ → Prop}

theorem wp_bind : wp (c >>= f) R C s ↔ wp c (fun a t => wp (f a) R C t) C s := by
  induction c generalizing s with
  | ret a => exact (wp_ret (Q := fun a t => wp (f a) R C t)).symm
  | halt => simp [Prog.bind, wp]
  | get k ih => exact ih s
  | act ready g k ih =>
    show wp (act ready g fun s => (k s).bind f) R C s ↔ _
    rw [wp_act, wp_act]
    exact and_congr_right fun _ => and_congr_right fun _ => ih s

theorem wp_read {f : σ → α} : wp (read f) Q C s ↔ Q (f s) s := wp_ret

theorem wp_store {f : σ → σ} {Q : Unit → σ → Prop} : wp (store f) Q C s ↔ C (f s) ∧ Q () (f s) := by
  simp [store, wp_act, wp_ret]

theorem wp_await {f : σ → σ} {Q : Unit → σ → Prop} :
    wp (await ready f) Q C s ↔ ready s = true ∧ C (f s) ∧ Q () (f s) := by
  simp [await, wp_act, wp_ret]

theorem wp_cas {ω : Type} [DecidableEq ω] {get : σ → ω} {set : ω → σ → σ} {old new : ω}
    {Q : Bool → σ → Prop} :
    wp (cas get set old new) Q C s ↔
      (get s = old → C (set new s) ∧ Q true (set new s)) ∧ (get s ≠ old → C s ∧ Q false s) := by
  by_cases h : get s = old <;> simp [cas, wp_act, wp_ret, h]

theorem wp_bug : wp (bug : Prog σ α) Q C s ↔ False := by
  simp [wp, bug]

variable {p : Prop}

theorem wp_bugOn [Decidable p] {Q : Unit → σ → Prop} : wp (bugOn p) Q C s ↔ ¬ p ∧ Q () s := by
  by_cases h : p
  · simp [bugOn, h, wp_bug]
  · simp only [bugOn, h, if_false, not_false_eq_true, true_and]
    exact wp_ret

theorem wp_ite [Decidable p] :
    wp (if p then c else d) Q C s ↔ (p → wp c Q C s) ∧ (¬ p → wp d Q C s) := by
  by_cases h : p <;> simp [h]

theorem wp_when [Decidable p] {c : Prog σ Unit} {Q : Unit → σ → Prop} :
    wp (when p c) Q C s ↔ (p → wp c Q C s) ∧ (¬ p → Q () s) := by
  rw [when, wp_ite]
  exact and_congr_right fun _ => imp_congr_right fun _ => wp_ret

/-- Code over a part of the memory, when the part can be read and replaced
independently of the rest. -/
theorem wp_zoom {get : σ → τ} {set : τ → σ → σ} (hget : ∀ t s, get (set t s) = t)
    (hset : ∀ t t' s, set t' (set t s) = set t' s) (hself : ∀ s, set (get s) s = s) :
    wp (zoom get set d) Q C s ↔ wp d (fun a t => Q a (set t s)) (fun t => C (set t s)) (get s) := by
  induction d generalizing s with
  | ret a => simp only [zoom, wp_ret, hself]
  | halt => simp [zoom, wp]
  | get k ih => exact ih (get s)
  | act ready f k ih =>
    simp only [zoom, wp_act, ih, hget, hset]

/-- Postcondition and crash condition may be weakened. -/
theorem wp_mono (h : wp c Q C s) (hQ : ∀ a t, Q a t → Q' a t) (hC : ∀ t, C t → C' t) :
    wp c Q' C' s := by
  obtain ⟨ht, a, t, ho, hq⟩ := h
  exact ⟨fun t' h' => hC t' (ht t' h'), a, t, ho, hQ a t hq⟩

theorem wp_post (h : wp c Q C s) (hQ : ∀ a t, Q a t → Q' a t) : wp c Q' C s :=
  wp_mono h hQ fun _ h => h

/-- Two triples of one program hold together. -/
theorem wp_and (h : wp c Q C s) (h' : wp c Q' C' s) :
    wp c (fun a t => Q a t ∧ Q' a t) (fun t => C t ∧ C' t) s := by
  obtain ⟨hC, a, t, ho, hQ⟩ := h
  obtain ⟨hC', a', t', ho', hQ'⟩ := h'
  rw [ho] at ho'
  injection ho' with ha ht
  subst ha ht
  exact ⟨fun t ht => ⟨hC t ht, hC' t ht⟩, a, t, ho, hQ, hQ'⟩

theorem run_bind_of_ok (h : c.outcome s = .ok a t) :
    (c >>= f).run s = (c.trace s ++ (f a).trace t, (f a).outcome t) := by
  induction c generalizing s with
  | ret b =>
    obtain ⟨rfl, rfl⟩ : b = a ∧ s = t := by simpa using h
    rfl
  | halt => simp at h
  | get k ih => exact ih s h
  | act ready g k ih =>
    by_cases hr : ready s = true
    · have hk : (k s).outcome (g s) = .ok a t := by simpa [hr] using h
      have hrun := ih s hk
      simp only [Bind.bind, Prog.bind, run, trace, hr, if_true] at hrun ⊢
      rw [hrun]
      rfl
    · simp [hr] at h

theorem outcome_bind (h : c.outcome s = .ok a t) : (c >>= f).outcome s = (f a).outcome t := by
  rw [outcome, run_bind_of_ok h]

/-- What is followed by `BUG` does not return. -/
theorem outcome_bind_bug (hf : ∀ a, f a = bug) : ∃ t, (c >>= f).outcome s = .bug t := by
  induction c generalizing s with
  | ret a => exact ⟨s, by simp [Prog.bind, hf, bug]⟩
  | halt => exact ⟨s, rfl⟩
  | get k ih => exact ih s
  | act ready g k ih =>
    by_cases hr : ready s = true
    · obtain ⟨t, ht⟩ := ih s (s := g s)
      exact ⟨t, by simpa [Prog.bind, hr] using ht⟩
    · exact ⟨s, by simp [Prog.bind, hr]⟩

theorem outcome_read_bind {f : σ → α} {g : α → Prog σ β} :
    (read f >>= g).outcome s = (g (f s)).outcome s := rfl

theorem outcome_store_bind {f : σ → σ} {g : Unit → Prog σ β} :
    (store f >>= g).outcome s = (g ()).outcome (f s) := rfl

/-- Sequencing, when the rest has to know how the first part ended. -/
theorem wp_bind_of (h : wp c Q C s)
    (hf : ∀ a t, c.outcome s = .ok a t → Q a t → wp (f a) R C t) : wp (c >>= f) R C s := by
  obtain ⟨hC, a, t, ho, hQ⟩ := h
  exact wp_bind.mpr ⟨hC, a, t, ho, hf a t ho hQ⟩

theorem wp_loop_succ {c : Prog σ (Option α)} : wp (loop (n + 1) c) Q C s ↔
      wp c (fun r t => (∀ a, r = some a → Q a t) ∧ (r = none → wp (loop n c) Q C t)) C s := by
  rw [loop, wp_bind]
  refine ⟨fun h => wp_post h fun r t ht => ?_, fun h => wp_post h fun r t ht => ?_⟩
  · cases r with
    | some a => exact ⟨fun b hb => Option.some.inj hb ▸ wp_ret.mp ht, fun hno => by simp at hno⟩
    | none => exact ⟨fun b hb => by simp at hb, fun _ => ht⟩
  · cases r with
    | some a => exact wp_ret.mpr (ht.1 a rfl)
    | none => exact ht.2 rfl

variable {I : ℕ → σ → Prop}

/-- The loop rule: `I i` holds before the `i`-th pass. -/
theorem wp_forFrom {f : ℕ → Prog σ Unit} (n a : ℕ) (h0 : I a s)
    (hstep : ∀ i t, a ≤ i → i < a + n → I i t → wp (f i) (fun _ t' => I (i + 1) t') C t) :
    wp (forFrom a n f) (fun _ t => I (a + n) t) C s := by
  induction n generalizing a s with
  | zero => exact wp_pure.mpr h0
  | succ n ih =>
    have hbody := hstep a s (Nat.le_refl a) (by omega) h0
    refine wp_bind.mpr (wp_post hbody fun _ t ht => ?_)
    have hrest := ih (a + 1) ht fun i t' hi hin => hstep i t' (by omega) (by omega)
    have hn : a + 1 + n = a + (n + 1) := by omega
    rwa [hn] at hrest

theorem wp_forUpTo {f : ℕ → Prog σ Unit} (h0 : I 0 s)
    (hstep : ∀ i t, i < n → I i t → wp (f i) (fun _ t' => I (i + 1) t') C t) :
    wp (forUpTo n f) (fun _ t => I n t) C s := by
  have h := wp_forFrom (C := C) n 0 h0 fun i t _ hi => hstep i t (by omega)
  rwa [Nat.zero_add] at h

/-- What a triple says of a run: the value and memory it returns. -/
theorem wp_outcome (h : wp c Q C s) : ∃ a t, c.outcome s = .ok a t ∧ Q a t := h.2

/-- A run that is known satisfies what holds of its end. -/
theorem wp_of_outcome (h : c.outcome s = .ok a t) (hQ : Q a t) :
    wp c Q (fun _ => True) s := ⟨fun _ _ => trivial, a, t, h, hQ⟩

/-- Every memory a crash can leave behind satisfies the crash condition, if
the memory at the start does. -/
theorem wp_crashStates (h : wp c Q C s) (hs : C s) : ∀ t ∈ c.crashStates s, C t := by
  intro t ht
  rcases List.mem_cons.mp ht with rfl | ht
  · exact hs
  · exact h.1 t ht

/-! ## Partial correctness -/

/-- If `c` started in `s` returns, it does so with `Q`. -/
def wlp (c : Prog σ α) (Q : α → σ → Prop) (s : σ) : Prop := ∀ a t, c.outcome s = .ok a t → Q a t

theorem wlp_of_wp (h : wp c Q C s) : wlp c Q s := by
  obtain ⟨-, a, t, ho, hQ⟩ := h
  intro a' t' ho'
  rw [ho] at ho'
  injection ho' with ha ht
  exact ha ▸ ht ▸ hQ

@[simp] theorem wlp_ret : wlp (ret a : Prog σ α) Q s ↔ Q a s := by
  simp [wlp]

theorem wlp_pure : wlp (pure a : Prog σ α) Q s ↔ Q a s := wlp_ret

@[simp] theorem wlp_act {f : σ → σ} : wlp (act ready f k) Q s ↔ (ready s = true → wlp (k s) Q (f s)) := by
  by_cases h : ready s = true
  · simp [wlp, h]
  · simp [wlp, h]

theorem wlp_bind : wlp (c >>= f) R s ↔ wlp c (fun a t => wlp (f a) R t) s := by
  induction c generalizing s with
  | ret a => exact (wlp_ret (Q := fun a t => wlp (f a) R t)).symm
  | halt => simp [Prog.bind, wlp]
  | get k ih => exact ih s
  | act ready g k ih =>
    show wlp (act ready g fun s => (k s).bind f) R s ↔ _
    rw [wlp_act, wlp_act]
    exact imp_congr_right fun _ => ih s

theorem wlp_read {f : σ → α} : wlp (read f) Q s ↔ Q (f s) s := wlp_ret

theorem wlp_store {f : σ → σ} {Q : Unit → σ → Prop} : wlp (store f) Q s ↔ Q () (f s) := by
  simp [store]

theorem wlp_await {f : σ → σ} {Q : Unit → σ → Prop} :
    wlp (await ready f) Q s ↔ (ready s = true → Q () (f s)) := by
  simp [await]

theorem wlp_cas {ω : Type} [DecidableEq ω] {get : σ → ω} {set : ω → σ → σ} {old new : ω}
    {Q : Bool → σ → Prop} :
    wlp (cas get set old new) Q s ↔
      (get s = old → Q true (set new s)) ∧ (get s ≠ old → Q false s) := by
  by_cases h : get s = old <;> simp [cas, h]

/-- A loop whose passes all keep `I` and return with `Q`. -/
theorem wlp_loop {c : Prog σ (Option α)} {I : σ → Prop} (h0 : I s)
    (hstep : ∀ t, I t → wlp c (fun r t' => (∀ a, r = some a → Q a t') ∧ (r = none → I t')) t) :
    wlp (loop n c) Q s := by
  induction n generalizing s with
  | zero => simp [wlp, loop]
  | succ n ih =>
    rw [loop, wlp_bind]
    intro r t hout
    have ht := hstep s h0 r t hout
    cases r with
    | some a => exact wlp_ret.mpr (ht.1 a rfl)
    | none => exact ih (ht.2 rfl)

theorem wlp_bug : wlp (bug : Prog σ α) Q s ↔ True := by
  simp [wlp, bug]

theorem wlp_bugOn [Decidable p] {Q : Unit → σ → Prop} : wlp (bugOn p) Q s ↔ (¬ p → Q () s) := by
  by_cases h : p
  · simp [bugOn, h, wlp_bug]
  · simp only [bugOn, h, if_false, not_false_eq_true, true_imp_iff]
    exact wlp_ret

theorem wlp_ite [Decidable p] :
    wlp (if p then c else d) Q s ↔ (p → wlp c Q s) ∧ (¬ p → wlp d Q s) := by
  by_cases h : p <;> simp [h]

theorem wlp_when [Decidable p] {c : Prog σ Unit} {Q : Unit → σ → Prop} :
    wlp (when p c) Q s ↔ (p → wlp c Q s) ∧ (¬ p → Q () s) := by
  rw [when, wlp_ite]
  exact and_congr_right fun _ => imp_congr_right fun _ => wlp_ret

theorem wlp_zoom {get : σ → τ} {set : τ → σ → σ} (hget : ∀ t s, get (set t s) = t)
    (hset : ∀ t t' s, set t' (set t s) = set t' s) (hself : ∀ s, set (get s) s = s) :
    wlp (zoom get set d) Q s ↔ wlp d (fun a t => Q a (set t s)) (get s) := by
  induction d generalizing s with
  | ret a => simp only [zoom, wlp_ret, hself]
  | halt => simp [zoom, wlp]
  | get k ih => exact ih (get s)
  | act ready f k ih =>
    simp only [zoom, wlp_act, ih, hget, hset]

theorem wlp_mono (h : wlp c Q s) (hQ : ∀ a t, Q a t → Q' a t) : wlp c Q' s :=
  fun a t ho => hQ a t (h a t ho)

end rules

end Prog

end Starfish
