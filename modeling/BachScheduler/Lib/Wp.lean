import Mathlib.Tactic.Common

/-!
# Weakest preconditions for stateful programs that can stop

`wp m Q E s` says that the program `m`, started in `s`, either returns a value
and a state in `Q` or stops in a state in `E`.  The rules follow the monad.
`Quiet` singles out programs that leave a view of the state alone, whichever way they
end, `Acts` programs that change it by a given function, and `Leads` speaks about the
states in which a program returns.
-/

namespace BachScheduler.Wp

variable {ε σ α β γ ν : Type}

/-- Every run of `m` from `s` ends in `Q`, or stops in `E`. -/
def wp (m : EStateM ε σ α) (Q : α → σ → Prop) (E : ε → σ → Prop) (s : σ) : Prop :=
  match m s with
  | .ok a s' => Q a s'
  | .error e s' => E e s'

section Rules

variable {m : EStateM ε σ α} {f : α → EStateM ε σ β} {Q R : α → σ → Prop} {E F : ε → σ → Prop}
variable {s s' : σ} {a : α} {e : ε}

theorem of_ok (run : m s = .ok a s') : wp m Q E s ↔ Q a s' := by
  simp only [wp, run]

theorem of_error (run : m s = .error e s') : wp m Q E s ↔ E e s' := by
  simp only [wp, run]

/-- Postconditions can be weakened. -/
theorem mono (spec : wp m Q E s) (ok : ∀ a s', Q a s' → R a s')
    (error : ∀ e s', E e s' → F e s') : wp m R F s := by
  cases run : m s with
  | ok a s' => exact (of_ok run).mpr (ok _ _ ((of_ok run).mp spec))
  | error e s' => exact (of_error run).mpr (error _ _ ((of_error run).mp spec))

/-- The condition on a returned result can be weakened. -/
theorem imp (spec : wp m Q E s) (ok : ∀ a s', Q a s' → R a s') : wp m R E s :=
  mono spec ok fun _ _ error => error

/-- What a program returns with can be remembered. -/
theorem returned (spec : wp m Q E s) : wp m (fun a s' => m s = .ok a s' ∧ Q a s') E s := by
  cases run : m s with
  | ok a s' => exact (of_ok run).mpr ⟨rfl, (of_ok run).mp spec⟩
  | error e s' => exact (of_error run).mpr ((of_error run).mp spec)

/-- What a program stops with can be remembered. -/
theorem stopped (spec : wp m Q E s) : wp m Q (fun e s' => m s = .error e s' ∧ E e s') s := by
  cases run : m s with
  | ok a s' => exact (of_ok run).mpr ((of_ok run).mp spec)
  | error e s' => exact (of_error run).mpr ⟨rfl, (of_error run).mp spec⟩

theorem and (left : wp m Q E s) (right : wp m R F s) :
    wp m (fun a s' => Q a s' ∧ R a s') (fun e s' => E e s' ∧ F e s') s := by
  cases run : m s with
  | ok a s' => exact (of_ok run).mpr ⟨(of_ok run).mp left, (of_ok run).mp right⟩
  | error e s' => exact (of_error run).mpr ⟨(of_error run).mp left, (of_error run).mp right⟩

theorem pure {Q : α → σ → Prop} (post : Q a s) : wp (Pure.pure a : EStateM ε σ α) Q E s := post

theorem throw (post : E e s) : wp (MonadExcept.throw e : EStateM ε σ α) Q E s := post

theorem modify {Q : PUnit → σ → Prop} {g : σ → σ} (post : Q ⟨⟩ (g s)) :
    wp (modifyGet fun s => (⟨⟩, g s) : EStateM ε σ PUnit) Q E s := post

theorem bind_iff {Q : β → σ → Prop} :
    wp (m >>= f) Q E s ↔ wp m (fun a s' => wp (f a) Q E s') E s := by
  cases run : m s with
  | ok a s' => simp only [wp, Bind.bind, EStateM.bind, run]
  | error e s' => simp only [wp, Bind.bind, EStateM.bind, run]

theorem bind {Q : β → σ → Prop} (first : wp m R E s)
    (second : ∀ a s', R a s' → wp (f a) Q E s') : wp (m >>= f) Q E s :=
  bind_iff.mpr (imp first second)

/-- A program whose result is known, before another one. -/
theorem bind_ok {Q : β → σ → Prop} (run : m s = .ok a s') (second : wp (f a) Q E s') :
    wp (m >>= f) Q E s :=
  bind_iff.mpr ((of_ok run).mpr second)

theorem ite {c : Prop} [Decidable c] {n : EStateM ε σ α} (yes : c → wp m Q E s)
    (no : ¬ c → wp n Q E s) : wp (if c then m else n) Q E s := by
  split
  · exact yes ‹_›
  · exact no ‹_›

/-- The invariant rule for a loop over a list. -/
theorem forM_list (I : List γ → σ → Prop) (xs : List γ) (body : γ → EStateM ε σ PUnit)
    (step : ∀ x rest s, I (x :: rest) s → wp (body x) (fun _ s' => I rest s') E s)
    (start : I xs s) : wp (xs.forM body) (fun _ s' => I [] s') E s := by
  induction xs generalizing s with
  | nil => exact start
  | cons x rest ih =>
      change wp (body x >>= fun _ => rest.forM body) _ _ _
      exact bind (step x rest s start) fun _ _ next => ih next

end Rules

/-- Whether a program returns in a state that passes a check. -/
def returnsWith (m : EStateM ε σ α) (s : σ) (check : σ → Bool) : Bool :=
  match m s with
  | .ok _ s' => check s'
  | .error _ _ => false

theorem exists_of_returnsWith {m : EStateM ε σ Unit} {s : σ} {check : σ → Bool}
    (returns : returnsWith m s check = true) : ∃ s', m s = .ok () s' ∧ check s' = true := by
  unfold returnsWith at returns
  cases run : m s with
  | ok a s' =>
      rw [run] at returns
      exact ⟨s', rfl, returns⟩
  | error e s' => simp [run] at returns

/-- Whether a program stops in this way, in a state that passes a check. -/
def stopsWith [DecidableEq ε] (m : EStateM ε σ α) (s : σ) (stop : ε) (check : σ → Bool) : Bool :=
  match m s with
  | .ok _ _ => false
  | .error e s' => e = stop && check s'

theorem exists_of_stopsWith [DecidableEq ε] {m : EStateM ε σ α} {s : σ} {stop : ε}
    {check : σ → Bool} (stops : stopsWith m s stop check = true) :
    ∃ s', m s = .error stop s' ∧ check s' = true := by
  unfold stopsWith at stops
  cases run : m s with
  | ok a s' => simp [run] at stops
  | error e s' =>
      simp only [run, Bool.and_eq_true, decide_eq_true_eq] at stops
      obtain ⟨rfl, checked⟩ := stops
      exact ⟨s', rfl, checked⟩

/-- The program leaves the view of the state as it was, also where it stops, and it stops
only in the ways of `stops`. -/
def Quiet (view : σ → ν) (stops : ε → Prop) (m : EStateM ε σ α) : Prop :=
  ∀ s, wp m (fun _ s' => view s' = view s) (fun e s' => stops e ∧ view s' = view s) s

namespace Quiet

variable {view : σ → ν} {stops : ε → Prop} {m n : EStateM ε σ α} {f : α → EStateM ε σ β}

theorem pure (a : α) : Quiet view stops (Pure.pure a : EStateM ε σ α) := fun _ => rfl

theorem throw {e : ε} (allowed : stops e) :
    Quiet view stops (MonadExcept.throw e : EStateM ε σ α) := fun _ => ⟨allowed, rfl⟩

theorem bind (first : Quiet view stops m) (second : ∀ a, Quiet view stops (f a)) :
    Quiet view stops (m >>= f) := by
  intro s
  have spec := first s
  rw [bind_iff]
  cases run : m s with
  | ok a s' =>
      rw [of_ok run] at spec ⊢
      rw [← spec]
      exact second a s'
  | error e s' =>
      rw [of_error run] at spec ⊢
      exact spec

theorem ite {c : Prop} [Decidable c] (yes : Quiet view stops m) (no : Quiet view stops n) :
    Quiet view stops (if c then m else n) := by
  split
  · exact yes
  · exact no

theorem before {Q : β → σ → Prop} {E : ε → σ → Prop} {s : σ} (quiet : Quiet view stops m)
    (stopped : ∀ e s', stops e → view s' = view s → E e s')
    (rest : ∀ a s', view s' = view s → wp (f a) Q E s') : wp (m >>= f) Q E s :=
  Wp.bind
    (Wp.mono (quiet s) (fun _ _ same => same) fun e s' both => stopped e s' both.1 both.2) rest

end Quiet

/-- The program never stops and changes the view of the state by `effect`. -/
def Acts (view : σ → ν) (m : EStateM ε σ α) (effect : ν → ν) : Prop :=
  ∀ s, wp m (fun _ s' => view s' = effect (view s)) (fun _ _ => False) s

namespace Acts

variable {view : σ → ν} {effect more : ν → ν} {m : EStateM ε σ α} {f : α → EStateM ε σ β}

theorem pure (a : α) : Acts view (Pure.pure a : EStateM ε σ α) id := fun _ => rfl

theorem get : Acts view (MonadState.get : EStateM ε σ σ) id := fun _ => rfl

theorem modify {g : σ → σ} (changed : ∀ s, view (g s) = effect (view s)) :
    Acts view (modifyGet fun s => (⟨⟩, g s) : EStateM ε σ PUnit) effect := changed

theorem bind (first : Acts view m effect) (second : ∀ a, Acts view (f a) more) :
    Acts view (m >>= f) (more ∘ effect) := by
  intro s
  refine Wp.bind (first s) fun a s' same => ?_
  rw [Function.comp_apply, ← same]
  exact second a s'

theorem skip (first : Acts view m id) (second : ∀ a, Acts view (f a) effect) :
    Acts view (m >>= f) effect :=
  first.bind second

theorem quiet {stops : ε → Prop} (acts : Acts view m id) : Quiet view stops m :=
  fun s => mono (acts s) (fun _ _ same => same) fun _ _ never => never.elim

theorem before {Q : β → σ → Prop} {E : ε → σ → Prop} {s : σ} (acts : Acts view m effect)
    (rest : ∀ a s', view s' = effect (view s) → wp (f a) Q E s') : wp (m >>= f) Q E s :=
  Wp.bind (Wp.mono (acts s) (fun _ _ same => same) fun _ _ never => never.elim) rest

/-- What a program with a known effect returns with. -/
theorem run {s s' : σ} {a : α} (acts : Acts view m effect) (returns : m s = .ok a s') :
    view s' = effect (view s) :=
  (of_ok returns).mp (acts s)

theorem last {Q : α → σ → Prop} {E : ε → σ → Prop} {s : σ} (acts : Acts view m effect)
    (rest : ∀ a s', view s' = effect (view s) → Q a s') : wp m Q E s :=
  Wp.mono (acts s) rest fun _ _ never => never.elim

end Acts

/-- Wherever the program returns after a start in `I`, it does so in `J`. -/
def Leads (I J : σ → Prop) (m : EStateM ε σ α) : Prop :=
  ∀ s, I s → wp m (fun _ s' => J s') (fun _ _ => True) s

namespace Leads

variable {I J K : σ → Prop} {m n : EStateM ε σ α} {f : α → EStateM ε σ β}

theorem pure (a : α) : Leads I I (Pure.pure a : EStateM ε σ α) := fun _ start => start

theorem get : Leads I I (MonadState.get : EStateM ε σ σ) := fun _ start => start

theorem throw (e : ε) : Leads I J (MonadExcept.throw e : EStateM ε σ α) := fun _ _ => trivial

theorem modify {g : σ → σ} (step : ∀ s, I s → J (g s)) :
    Leads I J (modifyGet fun s => (⟨⟩, g s) : EStateM ε σ PUnit) := step

theorem bind (first : Leads I J m) (second : ∀ a, Leads J K (f a)) : Leads I K (m >>= f) :=
  fun _ start => Wp.bind (first _ start) fun a s' => second a s'

/-- Nothing is lost where nothing is known. -/
theorem top (m : EStateM ε σ α) : Leads (fun _ => True) (fun _ => True) m := by
  intro s _
  cases run : m s with
  | ok a s' => exact (of_ok run).mpr trivial
  | error e s' => exact (of_error run).mpr trivial

/-- A program that keeps the condition, before another one. -/
theorem keep (first : Leads I I m) (second : ∀ a, Leads I J (f a)) : Leads I J (m >>= f) :=
  first.bind second

theorem ite {c : Prop} [Decidable c] (yes : Leads I J m) (no : Leads I J n) :
    Leads I J (if c then m else n) := by
  split
  · exact yes
  · exact no

theorem weaken {I' J' : σ → Prop} (leads : Leads I J m) (pre : ∀ s, I' s → I s)
    (post : ∀ s, J s → J' s) : Leads I' J' m :=
  fun s start => imp (leads s (pre s start)) fun _ s' => post s'

theorem forM {body : γ → EStateM ε σ PUnit} (each : ∀ x, Leads I I (body x)) (xs : List γ) :
    Leads I I (xs.forM body) :=
  fun _ start => forM_list (fun _ => I) xs body (fun x _ s => each x s) start

theorem run {s s' : σ} {a : α} (leads : Leads I J m) (start : I s) (returns : m s = .ok a s') :
    J s' :=
  (of_ok returns).mp (leads s start)

end Leads

end BachScheduler.Wp
