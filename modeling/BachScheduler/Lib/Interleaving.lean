import Mathlib.Tactic.Common

/-!
# Interleavings

The parties of a system take their steps in any order.  An action changes the state, or it is
not possible; a run is a list of actions that were possible in their turn.  What holds at first
and is kept by every action that a run allows holds whenever the run comes to an end.
-/

namespace BachScheduler.Interleaving

variable {σ α : Type*} {step : α → σ → Option σ} {allowed : σ → α → Prop} {inv : σ → Prop}
variable {action : α} {actions more : List α} {s middle s' : σ}

/-- One action after the other. -/
def runAll (step : α → σ → Option σ) : List α → σ → Option σ
  | [], s => some s
  | action :: later, s => (step action s).bind (runAll step later)

/-- Every action of the run is allowed in the state that it finds. -/
def Along (step : α → σ → Option σ) (allowed : σ → α → Prop) : List α → σ → Prop
  | [], _ => True
  | action :: later, s =>
      allowed s action ∧
        match step action s with
        | some s' => Along step allowed later s'
        | none => True

instance decidableAlong [∀ s action, Decidable (allowed s action)] :
    ∀ actions s, Decidable (Along step allowed actions s)
  | [], _ => .isTrue trivial
  | action :: later, s =>
      match ran : step action s with
      | some s' =>
          have := decidableAlong later s'
          decidable_of_iff (allowed s action ∧ Along step allowed later s') (by simp [Along, ran])
      | none => decidable_of_iff (allowed s action) (by simp [Along, ran])

theorem runAll_cons : runAll step (action :: more) s = (step action s).bind (runAll step more) :=
  rfl

theorem runAll_cons_eq_some :
    runAll step (action :: more) s = some s' ↔ ∃ middle, step action s = some middle ∧
      runAll step more middle = some s' :=
  Option.bind_eq_some_iff

/-- A run goes on where its first part has ended. -/
theorem runAll_append : runAll step (actions ++ more) s =
    (runAll step actions s).bind (runAll step more) := by
  induction actions generalizing s with
  | nil => rfl
  | cons action later ih =>
      rw [List.cons_append, runAll_cons, runAll_cons]
      cases step action s with
      | none => rfl
      | some middle => exact ih

theorem runAll_trans (first : runAll step actions s = some middle)
    (second : runAll step more middle = some s') :
    runAll step (actions ++ more) s = some s' := by
  rw [runAll_append, first]
  exact second

theorem Along.head (along : Along step allowed (action :: more) s) : allowed s action := along.1

theorem Along.tail (along : Along step allowed (action :: more) s)
    (ran : step action s = some middle) :
    Along step allowed more middle := by
  have later := along.2
  rwa [ran] at later

/-- Nothing is asked of a run where everything is allowed. -/
theorem along_of_forall (free : ∀ s action, allowed s action) :
    ∀ actions s, Along step allowed actions s
  | [], _ => trivial
  | action :: later, s => by
      refine ⟨free s action, ?_⟩
      cases step action s with
      | none => trivial
      | some middle => exact along_of_forall free later middle

/-- What every allowed action keeps holds at the end of a run. -/
theorem inv_runAll
    (keeps : ∀ {s s' action}, inv s → allowed s action → step action s = some s' → inv s')
    (before : inv s) (along : Along step allowed actions s)
    (run : runAll step actions s = some s') : inv s' := by
  induction actions generalizing s with
  | nil =>
      cases run
      exact before
  | cons action later ih =>
      obtain ⟨middle, first, rest⟩ := runAll_cons_eq_some.mp run
      exact ih (keeps before along.head first) (along.tail first) rest

/-- What every action keeps holds at the end of a run. -/
theorem inv_runAll' (keeps : ∀ {s s' action}, inv s → step action s = some s' → inv s')
    (before : inv s) (run : runAll step actions s = some s') : inv s' :=
  have along : Along step (fun _ _ => True) actions s :=
    along_of_forall (fun _ _ => trivial) actions s
  inv_runAll (fun holds _ ran => keeps holds ran) before along run

end BachScheduler.Interleaving
