import Mathlib.Data.List.Infix

/-!
# Chronicles

A chronicle only grows.  A rule says which event may follow which others, and a chronicle is
lawful when every event of it was allowed in its turn.
-/

namespace BachScheduler.Chronicle

variable {α : Type*} {rule : List α → α → Prop} {log more : List α} {event : α}

/-- Every event was allowed when it came. -/
def Lawful (rule : List α → α → Prop) (log : List α) : Prop :=
  ∀ before event after, log = before ++ event :: after → rule before event

theorem Lawful.nil : Lawful rule [] := by
  intro before event after split
  simp at split

/-- The beginning of a lawful chronicle is lawful. -/
theorem Lawful.earlier (lawful : Lawful rule (log ++ more)) : Lawful rule log := by
  intro before event after split
  apply lawful before event (after ++ more)
  rw [split, List.append_assoc, List.cons_append]

theorem Lawful.last (lawful : Lawful rule (log ++ [event])) : rule log event :=
  lawful log event [] rfl

theorem Lawful.concat (lawful : Lawful rule log) (allowed : rule log event) :
    Lawful rule (log ++ [event]) := by
  intro before other after split
  cases after using List.reverseRecOn with
  | nil =>
      obtain ⟨same, last⟩ := List.append_inj' split rfl
      cases last
      exact same ▸ allowed
  | append_singleton after last =>
      rw [← List.cons_append, ← List.append_assoc] at split
      exact lawful before other after (List.append_inj' split rfl).1

/-- A chronicle goes on with events that are always allowed. -/
theorem Lawful.append (lawful : Lawful rule log)
    (free : ∀ event ∈ more, ∀ before, rule before event) :
    Lawful rule (log ++ more) := by
  induction more generalizing log with
  | nil => simpa using lawful
  | cons event later ih =>
      have longer := lawful.concat (free event List.mem_cons_self log)
      have whole := ih longer fun other among => free other (List.mem_cons_of_mem event among)
      rwa [List.append_assoc, List.singleton_append] at whole

theorem lawful_iff_take : Lawful rule log ↔ ∀ k, (inside : k < log.length) →
    rule (log.take k) log[k] := by
  constructor
  · intro lawful k inside
    apply lawful _ _ (log.drop (k + 1))
    rw [List.getElem_cons_drop, List.take_append_drop]
  · intro allowed before event after split
    subst split
    simpa using allowed before.length (by simp)

instance [∀ before event, Decidable (rule before event)] : Decidable (Lawful rule log) :=
  decidable_of_iff _ lawful_iff_take.symm

end BachScheduler.Chronicle
