import BachScheduler.EventLoop
import BachScheduler.LifeInvariants

/-!
# What a quantum leaves alone

The functions behind `qexpired` count no program in or out of `pnew_l` and start none, and they
do not touch the event heap: all this is as it was until `qt_event` is pushed.
-/

namespace BachScheduler

open Wp

/-- The event heap, the quantum and the numbers of the programs that come in. -/
structure Intake where
  events : EvntPtr → AffEvent
  eventsHeap : Heap EvntPtr
  qt : Timeval
  waitingNr : Int
  newNr : Int
  progsAllocated : Nat

def View.intake (v : View) : Intake where
  events := v.events
  eventsHeap := v.eventsHeap
  qt := v.core.qt
  waitingNr := v.core.waitingNr
  newNr := v.core.newNr
  progsAllocated := v.core.progsAllocated

/-- What a state has of all this. -/
abbrev ExecState.intake (st : ExecState) : Intake := (view st).intake

/-- The program leaves all this as it is. -/
abbrev KeepsIntake {α : Type} (m : Exec α) : Prop :=
  ∀ intake, Leads (fun st => st.intake = intake) (fun st => st.intake = intake) m

section Leaves

variable {α : Type} {m : Exec α} {st st' : ExecState} {effect : Core → Core}

theorem intake_of_core (changed : view st' = (view st).modCore effect)
    (same : ∀ v : View, (v.modCore effect).intake = v.intake) : st'.intake = st.intake :=
  (congrArg View.intake changed).trans (same _)

theorem Wp.Acts.intake {effect : View → View} (acts : Acts view m effect)
    (same : ∀ v, (effect v).intake = v.intake) : KeepsIntake m := by
  rintro intake st rfl
  exact acts.last fun _ st' changed => (congrArg View.intake changed).trans (same _)

theorem Wp.Quiet.intake {stops : Stop → Prop} (quiet : Quiet view stops m) : KeepsIntake m := by
  rintro intake st rfl
  exact Wp.mono (quiet st) (fun _ st' same => congrArg View.intake same) fun _ _ _ => trivial

end Leaves

section Freeze

variable {name : PolicyName} {prog : ProgPtr}

theorem stopProg_intake (prog : ProgPtr) : KeepsIntake (stopProg prog) := by
  rintro intake st rfl
  refine Wp.mono (stopProg_halts prog) (fun _ st' halted => ?_) fun _ _ _ => trivial
  obtain ⟨now, halted⟩ := halted
  exact intake_of_core halted fun _ => rfl

theorem sampleProg_intake (prog : ProgPtr) : KeepsIntake (sampleProg prog) := by
  rintro intake st rfl
  refine Wp.mono (sampleProg_samples prog) (fun _ st' sampled => ?_) fun _ _ _ => trivial
  obtain ⟨instrRetd, accumulated, sampled⟩ := sampled
  exact intake_of_core sampled fun _ => rfl

theorem addRetired_intake (prog : ProgPtr) : KeepsIntake (addRetired prog) := by
  rintro intake st rfl
  refine Wp.mono (addRetired_spec prog) (fun _ st' added => ?_) fun _ _ _ => trivial
  obtain ⟨batches, -, added⟩ := added
  exact intake_of_core added fun _ => rfl

theorem killApp_intake (prog : ProgPtr) : KeepsIntake (killApp prog) := by
  rintro intake st rfl
  refine Wp.mono (killApp_spec fun st₁ killed => ?_) (fun _ st₂ same => same) fun _ _ _ => trivial
  have same : st₁.intake = st.intake := (congrArg View.intake killed).trans rfl
  refine Wp.ite (fun _ => closeResults_acts.last fun _ st₂ closed => ?_) fun _ => Wp.pure same
  exact (intake_of_core closed fun _ => rfl).trans same

/-- A charge leaves all this alone, also where it kills the program. -/
theorem chargeProg_intake (prog : ProgPtr) : KeepsIntake (chargeProg prog) := by
  intro intake
  refine (addRetired_intake prog intake).bind fun _ => ?_
  refine ((chargeTarget_acts prog).intake (fun _ => rfl) intake).bind fun _ => ?_
  refine Leads.keep (fun _ holds => holds) fun _ => ?_
  exact when_leads (killApp_intake prog intake)

theorem settleProg_intake (name : PolicyName) (prog : ProgPtr) (unhCycles : Word64) :
    KeepsIntake (settleProg name.policy prog unhCycles) := by
  intro intake
  refine (sampleProg_intake prog intake).bind fun _ => (readPd_leads prog).bind fun _ => ?_
  refine Leads.keep ?_ fun _ => Leads.pure _
  refine (monitoringPhase_quiet.intake (fun _ => rfl) intake).bind fun _ => Leads.ite ?_ ?_
  · refine ((emit_acts _).intake (fun _ => rfl) intake).bind fun _ => ?_
    exact (collect_quiet prog).intake intake
  · exact chargeProg_intake prog intake

theorem moveProgsToAll_intake : KeepsIntake moveProgsToAll := by
  intro intake
  refine Leads.keep (fun _ holds => holds) fun _ => when_leads ?_
  refine forEachEntrySafe_leads _ _ fun prog _ => ?_
  exact ((elemMove2tail_acts prog _).intake (fun _ => rfl) intake).bind fun _ => Leads.pure _

theorem progressProg_intake (name : PolicyName) (unhCycles : Word64) (prog : ProgPtr) :
    KeepsIntake (progressProg name.policy unhCycles prog) := by
  rintro intake st rfl
  refine Wp.mono (progressProg_waits unhCycles prog) (fun _ st' waits => ?_) fun _ _ _ => trivial
  obtain ⟨now, waited⟩ := waits
  exact intake_of_core waited fun _ => rfl

theorem freezeSched_intake (name : PolicyName) : KeepsIntake (freezeSched name.policy) := by
  intro intake
  refine (freezeCounters_acts.intake (fun _ => rfl) intake).bind fun _ => ?_
  refine Leads.keep (forEachEntrySafe_leads _ _ fun prog _ => ?_) fun _ => ?_
  · exact (stopProg_intake prog intake).bind fun _ => Leads.pure _
  refine Leads.keep (forEachEntrySafe_leads _ _ fun prog _ => ?_) fun unhCycles => ?_
  · exact settleProg_intake name prog _ intake
  refine (moveProgsToAll_intake intake).bind fun _ => ?_
  refine (writeResults_quiet.intake (fun _ => rfl) intake).bind fun _ => ?_
  refine Leads.keep (forEachEntry_leads _ fun prog => ?_) fun _ => readSched_leads.bind fun _ => ?_
  · exact progressProg_intake name unhCycles prog intake
  · exact when_leads ((modifySched_acts (g := fun sched =>
      { sched with monitorWnd := sched.monitorWnd + 1 }) fun _ => rfl).intake (fun _ => rfl) intake)

end Freeze

section Thaw

theorem thawProg_intake (prog : ProgPtr) : KeepsIntake (thawProg prog) := by
  rintro intake st rfl
  refine Wp.mono (thawProg_thaws prog) (fun _ st' thawed => ?_) fun _ _ _ => trivial
  obtain ⟨now, thawed⟩ := thawed
  exact intake_of_core thawed fun _ => rfl

theorem thawSched_intake : KeepsIntake thawSched := by
  intro intake
  refine Leads.keep (forEachEntry_leads _ fun prog => thawProg_intake prog intake) fun _ => ?_
  exact restartCounters_acts.intake (fun _ => rfl) intake

end Thaw

section Arrivals

variable {exits : ProgPtr → Place → Prop} {a b c : Life}

/-- Some program was started, or has become new, or is new no longer. -/
def Core.Receives (core other : Core) : Prop :=
  core.progsAllocated < other.progsAllocated ∨
    core.progsAllocated = other.progsAllocated ∧
      (other.waitingNr < core.waitingNr ∨
        other.waitingNr = core.waitingNr ∧ other.newNr < core.newNr)

/-- No program was started, or has become new, or is new no longer. -/
structure Life.Awaits (a b : Life) : Prop where
  progsAllocated : b.core.progsAllocated = a.core.progsAllocated
  waitingNr : b.core.waitingNr = a.core.waitingNr
  newNr : b.core.newNr = a.core.newNr
  pnewL : b.on .pnewL = a.on .pnewL

/-- A move between other lists leaves a list alone. -/
theorem Life.transfer_apart {prog : ProgPtr} {source target : Place} {head : Node}
    {effect : Core → Core} (here : a.place prog = source) (fromHome : source.home ≠ some head)
    (toHome : target.home ≠ some head) :
    ((a.transfer prog target).act effect).on head = a.on head := by
  subst here
  rw [Life.act_on]
  have left : Life.leave a.on prog (a.place prog).home head = a.on head := by
    cases home : (a.place prog).home with
    | none => rfl
    | some other =>
        exact Function.update_of_ne
          (fun same => fromHome (home.trans (congrArg some same.symm))) _ _
  cases home : target.home with
  | none => simpa [Life.transfer, Life.join, home] using left
  | some other =>
      have apart : head ≠ other := fun same => toHome (home.trans (congrArg some same.symm))
      simpa [Life.transfer, Life.join, Lists.push, home, apart] using left

/-- Either a step leaves the new programs alone, or it changes the numbers in one direction. -/
theorem Step.receives (step : Step exits a b) : a.core.Receives b.core ∨ a.Awaits b := by
  cases step with
  | @move prog source target effect here move =>
      have allocated := move.keeps.progsAllocated
      cases move with
      | arrive => exact .inl (.inr ⟨rfl, .inl (Int.sub_lt_self _ Int.one_pos)⟩)
      | enter => exact .inl (.inr ⟨rfl, .inr ⟨rfl, Int.sub_lt_self _ Int.one_pos⟩⟩)
      | finish phase allowed found runs =>
          rcases runs with rfl | rfl <;>
            exact .inr ⟨allocated, rfl, rfl, Life.transfer_apart here (by decide) (by decide)⟩
      | _ => exact .inr ⟨allocated, rfl, rfl, Life.transfer_apart here (by decide) (by decide)⟩
  | act act =>
      exact .inr ⟨act.keeps.progsAllocated, act.steady.counter .waitingNr,
        act.steady.counter .newNr, rfl⟩
  | @decide picked =>
      have steady := Core.assignAll_steady a.core (fun p => (a.core.progs p).coresNeeded) picked 0
      exact .inr ⟨(Core.assignAll_keeps ..).progsAllocated, steady.counter .waitingNr,
        steady.counter .newNr,
        by simp⟩
  | respawn => exact .inl (.inl (Nat.lt_succ_self _))
  | _ => exact .inr ⟨rfl, rfl, rfl, rfl⟩

theorem Steps.receives (steps : Steps exits a b) : a.core.Receives b.core ∨ a.Awaits b := by
  induction steps with
  | refl => exact .inr ⟨rfl, rfl, rfl, rfl⟩
  | tail _ step ih =>
      rcases ih, step.receives with ⟨first | first, later | later⟩
      · unfold Core.Receives at *
        exact .inl (by omega)
      · have progsAllocated := later.progsAllocated
        have waitingNr := later.waitingNr
        have newNr := later.newNr
        unfold Core.Receives at *
        exact .inl (by omega)
      · have progsAllocated := first.progsAllocated
        have waitingNr := first.waitingNr
        have newNr := first.newNr
        unfold Core.Receives at *
        exact .inl (by omega)
      · exact .inr ⟨later.progsAllocated.trans first.progsAllocated,
          later.waitingNr.trans first.waitingNr,
          later.newNr.trans first.newNr, later.pnewL.trans first.pnewL⟩

/-- Where the numbers are as before, the new programs are, too. -/
theorem Steps.awaits (steps : Steps exits a b)
    (progsAllocated : b.core.progsAllocated = a.core.progsAllocated)
    (waitingNr : b.core.waitingNr = a.core.waitingNr) (newNr : b.core.newNr = a.core.newNr) :
    b.on .pnewL = a.on .pnewL := by
  rcases steps.receives with receives | awaits
  · unfold Core.Receives at receives
    omega
  · exact awaits.pnewL

end Arrivals

end BachScheduler
