import BachScheduler.Boot

/-!
# Where a run exits

A handler exits in `check_shutdown` only: whatever else ends it is code that has gone astray, or the
assertion of `aff_prog_running_finished`.  What the handlers keep so holds where a run exits, too.
-/

namespace BachScheduler

open Wp

variable {exits : ProgPtr → Place → Prop} {name : PolicyName} {start a : Life} {st : ExecState}
variable {confs : List ProgConf} {env : Env} {cpus : List Int} {targets : Int → Word64}
    {J : ExecState → Prop}

/-- What `shutdown` exits with. -/
def ExecState.exitStatus (st : ExecState) : Int :=
  if st.massacre then 42 else 0

/-- If this is an exit, it is that of `check_shutdown`, in a state in which `J` holds. -/
def Shuts (J : ExecState → Prop) (stop : Stop) (st : ExecState) : Prop :=
  ∀ status, stop = .exit status →
    J st ∧ status = st.exitStatus ∧ st.runningNr = 0 ∧ st.waitingNr = 0 ∧ st.newNr = 0

section Handlers

theorem Astray.shuts {stop : Stop} (astray : Astray stop st) : Shuts J stop st := by
  rintro status rfl
  simp [Astray] at astray

theorem checkShutdown_shuts (holds : J st) : wp checkShutdown (fun _ _ => True) (Shuts J) st := by
  refine Wp.bind_ok rfl (Wp.ite (fun idle => ?_) fun _ => Wp.pure trivial)
  intro status exit
  cases exit
  exact ⟨holds, rfl, idle⟩

/-- The loop of `sigchld_handler` stops only at a failed assertion. -/
theorem sigchldLoop_shuts (reports : List WaitStatus) (deaths : Int) :
    wp (sigchldLoop reports deaths) (fun _ _ => True) (Shuts J) st := by
  refine Wp.imp
    (sigchldLoop_rule (fun _ _ _ => True) ?_ (fun _ _ _ _ _ => trivial) ?_ reports trivial)
    fun _ _ _ => trivial
  · intro status later deaths st _
    cases status with
    | exited prog => exact (emit_acts _).last fun _ _ _ => trivial
    | stopped => exact Wp.pure trivial
  · intro prog later deaths st _ _ _
    cases found : hashLookup st.progPidHash (st.progs prog).shellPid with
    | none =>
        refine affProgRunningFinished_unknown found fun hash st' _ => ?_
        intro status exit
        cases exit
    | some other => exact affProgRunningFinished_known found fun st' _ => trivial

/-- What the two parts of `sigchld_handler` keep holds where a handler exits. -/
theorem Between.handle_shuts (between : Between exits name start st a) (input : Input)
    (hears : a.Hears exits input) (holds : J st)
    (loop : ∀ reports, Leads J J (sigchldLoop reports 0))
    (rebalances : Leads J J (rebalance name.policy)) :
    wp (handle name.policy input) (fun _ _ => True) (Shuts J) st := by
  obtain ⟨xs, shows_, settled⟩ := between
  cases input with
  | events =>
      refine Wp.bind (R := fun _ _ => True) ?_ fun _ _ _ => Wp.pure trivial
      exact Wp.mono (shows_.handleEvents_spec settled _) (fun _ _ _ => trivial)
        fun _ _ astray => astray.shuts
  | sigchld reports =>
      have reaping : a.Reaping 0 :=
        ⟨settled.tidy, fun _ => settled, fun some => absurd some (by decide), le_refl 0⟩
      have reaps := Wp.and (shows_.sigchldLoop_spec reports reaping hears)
        (sigchldLoop_shuts (J := J) reports 0)
      have reaps := Wp.and reaps (loop reports st holds)
      refine Wp.bind
        (R := fun deaths st' => (∃ b, Shows exits name start st' xs b ∧ b.Reaping deaths) ∧ J st')
        (Wp.mono reaps (fun _ _ reaped => ⟨reaped.1.1, reaped.2⟩) fun _ _ ended => ended.1.2) ?_
      rintro deaths st₁ ⟨⟨b, shows₁, reaping₁⟩, holds₁⟩
      refine Wp.bind (R := fun _ st' => J st') (Wp.ite (fun some => ?_) fun _ => Wp.pure holds₁)
        fun _ _ holds₂ => checkShutdown_shuts holds₂
      have spec := shows₁.rebalance_spec reaping₁.tidy (reaping₁.some some)
      exact Wp.mono (Wp.and spec (rebalances st₁ holds₁)) (fun _ _ both => both.2)
        fun _ _ astray => astray.1.shuts
  | timeout => exact checkShutdown_shuts holds
  | sigterm => exact Wp.modify trivial

/-- What every handler keeps holds where a run comes to, also where it exits. -/
theorem Between.forM_shuts (inputs : List Input) (between : Between anywhere name start st a)
    (holds : J st) (loop : ∀ reports, Leads J J (sigchldLoop reports 0))
    (rebalances : Leads J J (rebalance name.policy))
    (handles : ∀ input, Leads J J (handle name.policy input)) :
    wp (inputs.forM (handle name.policy)) (fun _ st' => J st') (Shuts J) st := by
  induction inputs generalizing st a with
  | nil => exact Wp.pure holds
  | cons input later ih =>
      have hears : a.Hears anywhere input := by
        cases input with
        | sigchld reports => exact fun _ _ _ _ => trivial
        | _ => trivial
      have spec := Wp.and (between.handle_spec input hears)
        (between.handle_shuts input hears holds loop rebalances)
      refine Wp.bind (R := fun _ st' => (∃ b, Between anywhere name start st' b) ∧ J st')
        (Wp.mono (Wp.and spec (handles input st holds)) (fun _ _ next => ⟨next.1.1, next.2⟩)
          fun _ _ ended => ended.1.2) ?_
      rintro _ st₁ ⟨⟨b, between₁⟩, holds₁⟩
      exact ih between₁ holds₁

/-- A run exits only in `check_shutdown`, and keeps what `boot` brings about and every handler
keeps. -/
theorem runExecutor_shuts (inputs : List Input)
    (boots : wp (boot confs targets) (fun _ st => J st) (fun _ _ => True)
      (ExecState.start env cpus))
    (loop : ∀ reports, Leads J J (sigchldLoop reports 0))
    (rebalances : Leads J J (rebalance name.policy))
    (handles : ∀ input, Leads J J (handle name.policy input)) :
    wp (runExecutor name.policy confs targets inputs) (fun _ st => J st) (Shuts J)
      (ExecState.start env cpus) := by
  have spec := Wp.and (boot_spec anywhere name confs targets env cpus) boots
  refine Wp.bind (Wp.mono spec (fun _ _ booted => booted) fun _ _ astray => astray.1.shuts) ?_
  rintro _ st₁ ⟨⟨a, -, between⟩, holds⟩
  exact between.forM_shuts inputs holds loop rebalances handles

/-- What `boot` brings about and every handler keeps holds in every state that a run reaches. -/
theorem Reaches.keeps {inputs : List Input}
    (reaches : Reaches name confs targets env cpus inputs st)
    (boots : wp (boot confs targets) (fun _ st => J st) (fun _ _ => True)
      (ExecState.start env cpus))
    (loop : ∀ reports, Leads J J (sigchldLoop reports 0))
    (rebalances : Leads J J (rebalance name.policy))
    (handles : ∀ input, Leads J J (handle name.policy input)) : J st := by
  have spec : wp (runExecutor name.policy confs targets inputs) (fun _ st => J st) (Shuts J)
      (ExecState.start env cpus) := runExecutor_shuts inputs boots loop rebalances handles
  rcases reaches with run | ⟨status, run⟩
  · exact (Wp.of_ok run).mp spec
  · exact ((Wp.of_error run).mp spec status rfl).1

end Handlers

end BachScheduler
