import BachScheduler.Lib.Words
import BachScheduler.ListWalk
import BachScheduler.Run

/-!
# The scheduling time

`sched_start` and the times printed later count milliseconds modulo 10000 seconds, but the
difference of two of them is taken modulo 2^32.  It is the elapsed time exactly if no multiple
of 10000 seconds lies between the two readings of the clock.
-/

namespace BachScheduler

open Wp Words

/-- The time in milliseconds. -/
def Timeval.millis (t : Timeval) : Int :=
  t.sec * 1000 + t.usec / 1000

section Arithmetic

variable {start now : Timeval}

/-- The milliseconds of the totals are those of the clock up to multiples of 10000 seconds. -/
theorem totalsMillis_eq (normal : now.Normal) :
    totalsMillis now = BitVec.ofInt 32 (now.millis - 10000000 * now.sec.tdiv 10000) := by
  have split := Int.tmod_def now.sec 10000
  have usec : now.usec.tdiv 1000 = now.usec / 1000 := Int.tdiv_eq_ediv_of_nonneg normal.nonneg
  unfold totalsMillis Timeval.millis
  rw [usec, split]
  congr 1
  omega

/-- Two clock readings less than 10000 seconds apart lie in the same period or in neighbouring
ones. -/
theorem periods_near (startNormal : start.Normal) (nowNormal : now.Normal)
    (later : start.micros ≤ now.micros) (near : now.micros < start.micros + 10000 * 1000000) :
    -2 ≤ now.sec.tdiv 10000 - start.sec.tdiv 10000 ∧
      now.sec.tdiv 10000 - start.sec.tdiv 10000 ≤ 3 := by
  obtain ⟨startLow, startHigh⟩ := startNormal
  obtain ⟨nowLow, nowHigh⟩ := nowNormal
  have startSplit := Int.tmod_def start.sec 10000
  have nowSplit := Int.tmod_def now.sec 10000
  have rest : ∀ sec : Int, (sec.tmod 10000).natAbs < 10000 := fun sec => by
    rw [Int.natAbs_tmod]
    exact Nat.mod_lt _ (by decide)
  have startRest := rest start.sec
  have nowRest := rest now.sec
  unfold Timeval.micros at later near
  omega

/-- The difference of the milliseconds is the elapsed time exactly within one period. -/
theorem elapsed_iff (startNormal : start.Normal) (nowNormal : now.Normal)
    (later : start.micros ≤ now.micros) (near : now.micros < start.micros + 10000 * 1000000) :
    ((totalsMillis now - totalsMillis start).toNat : Int) = now.millis - start.millis ↔
      start.sec.tdiv 10000 = now.sec.tdiv 10000 := by
  have periods := periods_near startNormal nowNormal later near
  have elapsed : 0 ≤ now.millis - start.millis ∧ now.millis - start.millis ≤ 10000000 := by
    obtain ⟨startLow, startHigh⟩ := startNormal
    obtain ⟨nowLow, nowHigh⟩ := nowNormal
    unfold Timeval.micros at later near
    unfold Timeval.millis
    omega
  rw [totalsMillis_eq startNormal, totalsMillis_eq nowNormal, ofInt_sub, BitVec.toNat_ofInt,
    Int.toNat_of_nonneg (Int.emod_nonneg _ (by decide))]
  generalize now.sec.tdiv 10000 = nowPeriod at *
  generalize start.sec.tdiv 10000 = startPeriod at *
  omega

end Arithmetic

section Functions

variable {prog : ProgPtr} {st st' : ExecState}

/-- What the clock shows at the next reading. -/
def ExecState.now (st : ExecState) : Timeval := st.env.timeOfDay st.reads

/-- The scheduling time that the next reading of the clock gives. -/
def ExecState.schedulingTime (st : ExecState) : Word32 := totalsMillis st.now - st.sched.schedStart

theorem getProExecutionMetrics_run (st : ExecState) :
    getProExecutionMetrics st = .ok st.schedulingTime { st with reads := st.reads + 1 } := rfl

theorem schedPrintTotals_prints (st : ExecState) :
    wp schedPrintTotals (fun _ st' => st'.sched.printedTotal = st.schedulingTime)
      (fun _ _ => False) st := by
  refine Wp.bind_ok (getProExecutionMetrics_run st) (Wp.bind_ok rfl (Wp.bind_ok rfl (Wp.modify ?_)))
  change (if st.sched.resultsOpen then _ else _ : Sched).printedTotal = _
  split <;> rfl

theorem getTotal_run (prog : ProgPtr) (event : Nat) (st : ExecState) :
    ∃ value st', getTotal prog event st = .ok value st' ∧ st'.pds = st.pds :=
  ⟨_, _, rfl, rfl⟩

theorem schedUpdateTotals_stores (prog : ProgPtr) (st : ExecState) :
    wp (schedUpdateTotals prog)
      (fun _ st' => st'.sched.finishTime (st.pds prog).initId = st.schedulingTime)
      (fun _ _ => False) st := by
  refine Wp.bind_ok (getProExecutionMetrics_run st) ?_
  obtain ⟨totalInstr, st₁, run₁, pds₁⟩ := getTotal_run prog 0 { st with reads := st.reads + 1 }
  refine Wp.bind_ok run₁ ?_
  obtain ⟨totalCycles, st₂, run₂, pds₂⟩ := getTotal_run prog 1 st₁
  refine Wp.bind_ok run₂
    (Wp.bind_ok (readPd_run prog st₂) (Wp.bind_ok rfl (Wp.bind_ok rfl (Wp.modify ?_))))
  have same : st₂.pds = st.pds := pds₂.trans pds₁
  change (if st₂.sched.resultsOpen then _ else _ : Sched).finishTime _ = _
  rw [same]
  split <;> exact Function.update_self ..

/-- The program does not exchange the environment. -/
abbrev KeepsEnv {α : Type} (env : Env) (m : Exec α) : Prop :=
  Leads (fun st => st.env = env) (fun st => st.env = env) m

variable {env : Env}

theorem useCntrs_keepsEnv : KeepsEnv env useCntrs := fun _ kept => kept

theorem startMCCounters_keepsEnv : KeepsEnv env startMCCounters :=
  useCntrs_keepsEnv.bind fun _ _ kept => kept

theorem schedInitCountersOutput_keepsEnv :
    KeepsEnv env schedInitCountersOutput := fun _ kept => kept

theorem eventsHeapPush_keepsEnv (evnt : EvntPtr) : KeepsEnv env (eventsHeapPush evnt) :=
  Leads.get.keep fun _ => (orElseStop_leads _ _).keep fun _ => Leads.modify fun _ kept => kept

/-- `init` sets `sched_start` to the last reading that it makes. -/
theorem initPolicy_schedStart (targets : Int → Word64) (env : Env) :
    Leads (fun st => st.env = env)
      (fun st => st.sched.schedStart = totalsMillis (env.timeOfDay (st.reads - 1)))
      (initPolicy targets) := by
  have links : ∀ change, KeepsEnv env (modifyLinks change) := fun _ _ kept => kept
  have zero : KeepsEnv env ssAffZeroCntrs := fun _ kept => kept
  refine (links _).keep fun _ => (links _).keep fun _ =>
    Leads.keep (Leads.modify fun _ kept => kept) fun _ => ?_
  refine useCntrs_keepsEnv.keep fun _ => startMCCounters_keepsEnv.keep fun _ =>
    useCntrs_keepsEnv.keep fun _ => ?_
  refine zero.keep fun _ => schedInitCountersOutput_keepsEnv.keep fun _ => ?_
  refine Leads.keep (Leads.modify fun _ kept => kept) fun _ => ?_
  refine (eventsHeapPush_keepsEnv 0).keep fun _ st kept => ?_
  subst kept
  rfl

/-- The functions that print the scheduling time would all show the same number of milliseconds. -/
def ShowsElapsed (prog : ProgPtr) (st : ExecState) (elapsed : Int) : Prop :=
  (∃ time st', getProExecutionMetrics st = .ok time st' ∧ time.toNat = elapsed) ∧
    (∃ st', schedUpdateTotals prog st = .ok () st' ∧
      (st'.sched.finishTime (st.pds prog).initId).toNat = elapsed) ∧
    ∃ st', schedPrintTotals st = .ok () st' ∧ st'.sched.printedTotal.toNat = elapsed

theorem showsElapsed_iff (prog : ProgPtr) (st : ExecState) (elapsed : Int) :
    ShowsElapsed prog st elapsed ↔ (st.schedulingTime.toNat : Int) = elapsed := by
  constructor
  · intro shows_
    obtain ⟨⟨time, st', run, equal⟩, -⟩ := shows_
    cases (getProExecutionMetrics_run st).symm.trans run
    exact equal
  · intro equal
    refine ⟨⟨_, _, getProExecutionMetrics_run st, equal⟩, ?_, ?_⟩
    · have stores := schedUpdateTotals_stores prog st
      cases run : schedUpdateTotals prog st with
      | error stop st' => exact ((of_error run).mp stores).elim
      | ok _ st' => exact ⟨st', rfl, by rw [(of_ok run).mp stores, equal]⟩
    · have prints := schedPrintTotals_prints st
      cases run : schedPrintTotals st with
      | error stop st' => exact ((of_error run).mp prints).elim
      | ok _ st' => exact ⟨st', rfl, by rw [(of_ok run).mp prints, equal]⟩

/-- Less than 10000 seconds after `init`, the scheduling time is the elapsed time exactly if no
multiple of 10000 seconds lies in between. -/
theorem scheduling_time_iff (targets : Int → Word64) (before initial st : ExecState)
    (prog : ProgPtr) (start : Timeval) (init : initPolicy targets before = .ok () initial)
    (reading : before.env.timeOfDay (initial.reads - 1) = start)
    (kept : st.sched.schedStart = initial.sched.schedStart) (startNormal : start.Normal)
    (nowNormal : st.now.Normal) (later : start.micros ≤ st.now.micros)
    (near : st.now.micros < start.micros + 10000 * 1000000) :
    ShowsElapsed prog st (st.now.millis - start.millis) ↔
      start.sec.tdiv 10000 = st.now.sec.tdiv 10000 := by
  have schedStart := (initPolicy_schedStart targets before.env).run rfl init
  rw [reading] at schedStart
  rw [showsElapsed_iff, ExecState.schedulingTime, kept, schedStart]
  exact elapsed_iff startNormal nowNormal later near

section Periods

/-- A clock that shows `sec` seconds up to some reading and a second more from then on. -/
def Env.ticksAt (sec : Int) (reading : Nat) : Env :=
  { Env.still with timeOfDay := fun n => ⟨if n < reading then sec else sec + 1, 0⟩ }

/-- One second after an init at second 5. -/
theorem scheduling_time_iff_five :
    ∃ initial, initPolicy oneTarget (ExecState.start (.ticksAt 5 3) [0]) = .ok () initial ∧
      ShowsElapsed 0 initial 1000 := by
  obtain ⟨initial, init, facts⟩ := exists_of_returnsWith (by decide +kernel :
    returnsWith (initPolicy oneTarget) (ExecState.start (.ticksAt 5 3) [0])
      (fun st => st.reads = 3 ∧ st.now = ⟨6, 0⟩) = true)
  obtain ⟨reads, now⟩ := of_decide_eq_true facts
  have shows_ :=
    (scheduling_time_iff oneTarget _ initial initial 0 ⟨5, 0⟩ init (by rw [reads]; rfl) rfl
    ⟨by decide, by decide⟩ (by rw [now]; exact ⟨by decide, by decide⟩) (by rw [now]; decide)
    (by rw [now]; decide)).mpr (by rw [now]; decide)
  rw [now] at shows_
  exact ⟨initial, init, shows_⟩

/-- Second 9999 and second 10000 lie in different periods. -/
theorem scheduling_time_wraps :
    ∃ initial, initPolicy oneTarget (ExecState.start (.ticksAt 9999 3) [0]) = .ok () initial ∧
      initial.now = ⟨10000, 0⟩ ∧ ¬ ShowsElapsed 0 initial 1000 := by
  obtain ⟨initial, init, facts⟩ := exists_of_returnsWith (by decide +kernel :
    returnsWith (initPolicy oneTarget) (ExecState.start (.ticksAt 9999 3) [0])
      (fun st => st.reads = 3 ∧ st.now = ⟨10000, 0⟩) = true)
  obtain ⟨reads, now⟩ := of_decide_eq_true facts
  have schedStart := (initPolicy_schedStart oneTarget _).run rfl init
  refine ⟨initial, init, now, fun shows_ => ?_⟩
  rw [showsElapsed_iff, ExecState.schedulingTime, now, schedStart, reads] at shows_
  exact absurd shows_ (by decide)

end Periods

end Functions

end BachScheduler
