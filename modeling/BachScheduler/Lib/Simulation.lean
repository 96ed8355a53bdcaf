import Mathlib.Tactic.Common

/-!
# Simulation of stateful programs that can stop

A program simulates another one, over another type of states, if they return the same values in
states that are related, or stop in the same way.
-/

namespace BachScheduler.Simulation

variable {ε σ τ α β γ : Type} {R : σ → τ → Prop}

/-- The results are the same, up to the states. -/
inductive Matches (R : σ → τ → Prop) : EStateM.Result ε σ α → EStateM.Result ε τ α → Prop where
  | ok {a : α} {s : σ} {t : τ} (related : R s t) : Matches R (.ok a s) (.ok a t)
  | error {e : ε} {s : σ} {t : τ} (related : R s t) : Matches R (.error e s) (.error e t)

/-- What is returned, if anything is. -/
def returned : EStateM.Result ε σ α → Option α
  | .ok a _ => some a
  | .error _ _ => none

/-- Both sides return the same, or nothing. -/
theorem Matches.returned {left : EStateM.Result ε σ α} {right : EStateM.Result ε τ α}
    (same : Matches R left right) :
    returned left = returned right := by
  cases same with
  | ok related => rfl
  | error related => rfl

/-- From related states on, both programs do the same. -/
def Simulates (R : σ → τ → Prop) (m : EStateM ε σ α) (n : EStateM ε τ α) : Prop :=
  ∀ s t, R s t → Matches R (m s) (n t)

section Runs

variable {m : EStateM ε σ α} {f : α → EStateM ε σ β} {s s' : σ} {a : α} {e : ε}

theorem bind_ok (run : m s = .ok a s') : (m >>= f) s = f a s' := by
  simp only [Bind.bind, EStateM.bind, run]

theorem bind_error (run : m s = .error e s') : (m >>= f) s = .error e s' := by
  simp only [Bind.bind, EStateM.bind, run]

theorem bind_get {f : σ → EStateM ε σ β} : (MonadState.get >>= f) s = f s s := rfl

end Runs

namespace Simulates

variable {m : EStateM ε σ α} {n : EStateM ε τ α} {f : α → EStateM ε σ β} {g : α → EStateM ε τ β}

theorem pure (a : α) : Simulates R (Pure.pure a : EStateM ε σ α) (Pure.pure a) :=
  fun _ _ related => .ok related

theorem bind (first : Simulates R m n) (second : ∀ a, Simulates R (f a) (g a)) :
    Simulates R (m >>= f) (n >>= g) := by
  intro s t related
  have done := first s t related
  simp only [Bind.bind, EStateM.bind]
  cases left : m s with
  | ok a s' =>
      rw [left] at done
      cases right : n t with
      | ok b t' =>
          rw [right] at done
          cases done with
          | ok related' => exact second a s' t' related'
      | error e t' =>
          rw [right] at done
          cases done
  | error e s' =>
      rw [left] at done
      cases right : n t with
      | ok b t' =>
          rw [right] at done
          cases done
      | error f t' =>
          rw [right] at done
          cases done with
          | error related' => exact .error related'

/-- Calls one after the other, each with its value. -/
def runCalls (call : γ → EStateM ε σ α) : List γ → EStateM ε σ (List α)
  | [] => Pure.pure []
  | c :: later => do
      let a ← call c
      let values ← runCalls call later
      Pure.pure (a :: values)

/-- Whatever is called, and in whatever order, both sides do the same. -/
theorem calls {call : γ → EStateM ε σ α} {other : γ → EStateM ε τ α} {allowed : γ → Prop}
    (each : ∀ c, allowed c → Simulates R (call c) (other c)) (list : List γ)
    (all : ∀ c ∈ list, allowed c) :
    Simulates R (runCalls call list) (runCalls other list) := by
  induction list with
  | nil => exact pure []
  | cons c later ih =>
      apply bind (each c (all c List.mem_cons_self))
      intro a
      apply bind (ih fun d member => all d (List.mem_cons_of_mem c member))
      exact fun values => pure (a :: values)

end Simulates

end BachScheduler.Simulation
