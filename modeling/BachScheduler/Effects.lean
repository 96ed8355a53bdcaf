import BachScheduler.Core
import BachScheduler.ListWalk

/-!
# What the functions of the executor do to the core

Each function that touches the core gets its effect as a function on cores, under the
name of what it means for a program.  What a function measures is a parameter of its
effect.
-/

namespace BachScheduler

open BachScheduler.Ring Wp

/-- The code has gone astray: it ran into code without a meaning, took a list head for a
program, or did not come to an end. -/
def Astray : Stop → ExecState → Prop :=
  fun stop _ => stop = .undefined ∨ stop = .misuse ∨ stop = .noFuel

/-- The clock of a program after a reading of the time, by what the program did until then. -/
def Clock.update (clock : Clock) (status : RunStatus) (now : Word32) : Clock :=
  match status with
  | .stoped => { clock with rstart := now, waiting := clock.waiting + (now - clock.wstart) }
  | .running => { clock with wstart := now, running := clock.running + (now - clock.rstart) }

namespace Core

/-- A quantum has expired. -/
def tick : Core → Core :=
  modSched fun sched => { sched with totalTics := sched.totalTics + 1 }

/-- A waiting program is new. -/
def arrive (core : Core) : Core :=
  { core with waitingNr := core.waitingNr - 1, newNr := core.newNr + 1 }

/-- A new program runs: `aff_prog_new_running`. -/
def enroll (prog : ProgPtr) (core : Core) : Core :=
  { core with
    newNr := core.newNr - 1
    runningNr := core.runningNr + 1
    progPidHash := hashInsert core.progPidHash (core.progs prog).shellPid prog
    log := core.log ++ [.newRunning prog] }

/-- A program gets its `prog_data`, at the time `now`. -/
def initPd (prog : ProgPtr) (pd : PdCore) (now : Word32) (core : Core) : Core :=
  { core with
    pds := Function.update core.pds prog pd
    clocks := core.clocks ++ [.init prog now] }

/-- `rebalance` takes a new program over, with its `prog_data`. -/
def enter (prog : ProgPtr) (pd : PdCore) (now : Word32) (core : Core) : Core :=
  { core with
    pds := Function.update core.pds prog pd
    clocks := core.clocks ++ [.init prog now]
    sched := { core.sched with progsNr := core.sched.progsNr + 1 }
    newNr := core.newNr - 1
    runningNr := core.runningNr + 1
    progPidHash := hashInsert core.progPidHash (core.progs prog).shellPid prog
    log := core.log ++ [.newRunning prog] }

/-- The time `now` is read for the clock of a program. -/
def readClock (prog : ProgPtr) (now : Word32) (core : Core) : Core :=
  (core.noteClocks [.read prog now]).modPd prog fun pd =>
    { pd with clock := pd.clock.update pd.runStatus now }

/-- What the clock of a program shows is noted. -/
def noteUpdate (prog : ProgPtr) (core : Core) : Core :=
  core.noteClocks [.updated prog (core.pds prog).clock.running (core.pds prog).clock.waiting]

/-- `sched_update_clock`, at the time `now`. -/
def updateClock (prog : ProgPtr) (now : Word32) (core : Core) : Core :=
  (core.readClock prog now).noteUpdate prog

section UpdateClock

variable (core : Core) (prog : ProgPtr) (now : Word32)

@[simp] theorem updateClock_progs : (core.updateClock prog now).progs = core.progs := rfl

@[simp] theorem updateClock_pds : (core.updateClock prog now).pds = Function.update core.pds prog
    { core.pds prog with clock := (core.pds prog).clock.update (core.pds prog).runStatus now } :=
  rfl

@[simp] theorem updateClock_sched : (core.updateClock prog now).sched = core.sched := rfl

@[simp] theorem updateClock_cpus : (core.updateClock prog now).cpus = core.cpus := rfl

@[simp] theorem updateClock_log : (core.updateClock prog now).log = core.log := rfl

end UpdateClock

theorem readClock_runStatus (core : Core) (prog : ProgPtr) (now : Word32) (p : ProgPtr) :
    ((core.readClock prog now).pds p).runStatus = (core.pds p).runStatus := by
  by_cases equal : p = prog
  · subst equal
    simp [readClock, modPd, noteClocks]
  · simp [readClock, modPd, noteClocks, equal]

/-- A program is frozen and its clock stops. -/
def halt (prog : ProgPtr) (now : Word32) (core : Core) : Core :=
  ((core.modProg prog fun p => { p with freezer := .frozen }).updateClock prog now).modPd
    prog fun pd =>
    { pd with runStatus := .stoped }

/-- A program is sampled. -/
def sample (prog : ProgPtr) (instrRetd : Word64) (accumulated : Nat → Word64) (core : Core) :
    Core :=
  (core.copyStats prog accumulated).modPd prog fun pd => { pd with instrRetd := instrRetd }

/-- A program is sampled for the last time, when its end was recorded. -/
def sampleLast (prog : ProgPtr) (now : Word32) (instrRetd : Word64) (accumulated : Nat → Word64)
    (core : Core) : Core :=
  (core.updateClock prog now).sample prog instrRetd accumulated

/-- What a sample has shown is charged. -/
def charge (prog : ProgPtr) (batches : List (Int × Nat)) (core : Core) : Core :=
  let pd := core.pds prog
  { core with
    log := core.log ++ [.charged prog pd.instrRetd batches]
    pds := Function.update core.pds prog { pd with instrRetdSum := pd.instrRetdSum + pd.instrRetd }
    sched :=
      { core.sched with
        targetInstr := Function.update core.sched.targetInstr pd.initId
          (core.sched.targetInstr pd.initId - pd.instrRetd) } }

/-- The instructions of a program since its start: `get_total_instr`. -/
def instructions (core : Core) (prog : ProgPtr) : Word64 :=
  (List.range core.cpus.length).foldl (fun value i => value + (core.pds prog).accumulated i) 0

/-- An instance is reported: `sched_update_totals`. -/
def report (prog : ProgPtr) (core : Core) : Core :=
  let pd := core.pds prog
  let i := pd.initId
  { core with
    sched :=
      { core.sched with
        totalInstr := Function.update core.sched.totalInstr i
          (core.sched.totalInstr i + core.instructions prog)
        progTimesFinished :=
          if pd.killed then core.sched.progTimesFinished
          else Function.update core.sched.progTimesFinished i (core.sched.progTimesFinished i + 1)
        instrProgs :=
          if core.sched.instrProgs i = 0 then
            Function.update core.sched.instrProgs i (core.instructions prog)
          else core.sched.instrProgs }
    log := core.log ++ [.updateTotals prog] }

/-- A program is no longer counted as running: `sched_clear_prog`. -/
def clear (prog : ProgPtr) (core : Core) : Core :=
  { core with
    progPidHash := (hashDelete core.progPidHash (core.progs prog).pid).2
    runningNr := core.runningNr - 1
    finishedNr := core.finishedNr + 1
    log := core.log ++ [.clearProg prog] }

/-- The end of a slot: it is not used again. -/
def retire (prog : ProgPtr) (core : Core) : Core :=
  { core with
    sched := { core.sched with progsLeft := core.sched.progsLeft - 1 }
    log := core.log ++ [.retired prog] }

/-- `kill_app`, up to the end of the run. -/
def kill (prog : ProgPtr) (core : Core) : Core :=
  let killed := (core.modPd prog fun pd => { pd with killed := true }).report prog |>.clear prog
  { killed with
    sched :=
      { killed.sched with
        progsLeft := killed.sched.progsLeft - 1
        progsFnsh := killed.sched.progsFnsh + 1
        progsNr := killed.sched.progsNr - 1 }
    log := killed.log ++ [.retired prog] }

/-- The totals are printed: `sched_print_totals`. -/
def print (core : Core) : Core :=
  { core with
    sched := { core.sched with printed := fun i => core.sched.instrProgs i ≠ 0 }
    log := core.log ++ [.printTotals] }

/-- The totals are printed and everything is closed. -/
def close (core : Core) : Core :=
  core.print.note .finalization

/-- The window of the monitoring phase moves. -/
def bump : Core → Core :=
  modSched fun sched => { sched with monitorWnd := sched.monitorWnd + 1 }

/-- A program is thawed for the next counting epoch. -/
def thaw (prog : ProgPtr) (now : Word32) (core : Core) : Core :=
  (((((core.zeroEpochs prog).updateClock prog now).modPd prog fun pd =>
    { pd with runStatus := .running }).note
    (.thawed prog (core.sched.epoch + 1) (core.progs prog).cpuset)).noteClocks
      [.thawed prog]).modProg prog
      fun p => { p with freezer := .thawed }

/-- A counting epoch begins. -/
def newEpoch : Core → Core :=
  modSched fun sched => { sched with epoch := sched.epoch + 1 }

/-- The exit of a program is recorded: `aff_prog_running_finished`. -/
def recordEnd (prog : ProgPtr) (pid : Nat) (core : Core) : Core :=
  { core with
    progPidHash := (hashDelete core.progPidHash pid).2
    runningNr := core.runningNr - 1
    finishedNr := core.finishedNr + 1
    log := core.log ++ [.runningFinished prog] }

/-- The progress of a program is handed to its `aff_prog`. -/
def carry (prog : ProgPtr) (core : Core) : Core :=
  core.modProg prog fun p => { p with instrRetdSum := (core.pds prog).instrRetdSum }

/-- The run is to stop. -/
def stop (core : Core) : Core :=
  { core with massacre := true, sched := { core.sched with stopExecution := true } }

/-- A program is freed at the end of `rebalance`. -/
def free (prog : ProgPtr) (core : Core) : Core :=
  { core with
    sched :=
      { core.sched with
        progsFnsh := core.sched.progsFnsh + 1
        progsNr := core.sched.progsNr - 1 }
    log := core.log ++ [.deallocated prog] }

/-- A new instance of a program has started. -/
def bear (old : ProgPtr) (born : ProgCore) (core : Core) : Core :=
  let new := core.progsAllocated
  { core with
    progs := Function.update core.progs new born
    progsAllocated := new + 1
    waitingNr := core.waitingNr + 1
    log := core.log ++ [.respawned old new, .setCpuRange new 0 core.cpus.length] }

end Core

section Samples

variable {Q : Unit → ExecState → Prop} {st : ExecState} {prog : ProgPtr}

theorem udiv_quiet (a b : Word64) : Quiet view (· = .undefined) (udiv a b) := by
  unfold udiv
  exact Quiet.ite (Quiet.throw rfl) (Quiet.pure _)

theorem Wp.Quiet.go {α β : Type} {m : Exec α} {f : α → Exec β} {Q : β → ExecState → Prop}
    (quiet : Quiet view (· = .undefined) m)
    (rest : ∀ a st', view st' = view st → wp (f a) Q Astray st') : wp (m >>= f) Q Astray st :=
  quiet.before (fun _ _ stopped _ => .inl stopped) rest

theorem schedStartClock_idle (prog : ProgPtr) (runs : (st.pds prog).runStatus = .running) :
    schedStartClock prog st = .ok () st := by
  change (when ((st.pds prog).runStatus ≠ .running) _ : Exec Unit) st = _
  rw [when_neg (not_not.mpr runs)]
  rfl

theorem schedStopClock_idle (prog : ProgPtr) (stops : (st.pds prog).runStatus = .stoped) :
    schedStopClock prog st = .ok () st := by
  change (when ((st.pds prog).runStatus ≠ .stoped) _ : Exec Unit) st = _
  rw [when_neg (not_not.mpr stops)]
  rfl

/-- The half of `sched_update_clock` that reads the time. -/
theorem readClock_spec (prog : ProgPtr) {status : RunStatus}
    (here : (st.pds prog).runStatus = status) (change : Word32 → ProgData → ProgData)
    (changes :
      ∀ now pd, (change now pd).core = { pd.core with clock := pd.core.clock.update status now }) :
    wp (do
        let tms ← readEnv Env.timeOfDay
        let now := clockMillis tms
        noteClock (.read prog now)
        modifyPd prog (change now)) (fun _ st' => ∃ now, view st' =
      (view st).modCore (Core.readClock prog now)) Astray st := by
  refine (readEnv_quiet _).before fun tms st₁ same =>
    (noteClock_acts _).before fun _ st₂ noted => ?_
  refine Acts.last (modifyPd_acts
    (g := fun pd => { pd with clock := pd.clock.update status (clockMillis tms) })
    (changes (clockMillis tms))) fun _ st₃ changed => ⟨clockMillis tms, ?_⟩
  have core : ((view st).core.pds prog).runStatus = status := here
  rw [changed, noted, same]
  simp only [View.modCore, Core.readClock, Core.modPd, Core.noteClocks, core, id_eq]

/-- `sched_update_clock` reads the time once, whether the program runs or not. -/
theorem schedUpdateClock_updates (prog : ProgPtr) :
    wp (schedUpdateClock prog) (fun _ st' => ∃ now, view st' =
      (view st).modCore (Core.updateClock prog now)) Astray st := by
  have notes : Acts view (do
      let pd ← readPd prog
      noteClock (.updated prog pd.tmRunning pd.tmWaiting))
      (View.modCore (Core.noteUpdate prog)) := fun _ => rfl
  cases status : (st.pds prog).runStatus with
  | stoped =>
      have starts : wp (schedStartClock prog) (fun _ st' => ∃ now, view st' =
          (view st).modCore (Core.readClock prog now)) Astray st := by
        refine Wp.bind_ok (readPd_run prog st) ?_
        rw [when_pos (by rw [status]; decide)]
        exact readClock_spec prog status (fun now pd =>
          { pd with tmWstop := now, tmRstart := now, tmWaiting := pd.tmWaiting +
            (now - pd.tmWstart) })
          fun _ _ => rfl
      refine Wp.bind starts fun _ st₁ started => ?_
      obtain ⟨now, started⟩ := started
      have stays : (st₁.pds prog).runStatus = .stoped := by
        have same := congrArg (fun v => (v.core.pds prog).runStatus) started
        exact (same.trans (Core.readClock_runStatus ..)).trans status
      refine Wp.bind_ok (schedStopClock_idle prog stays) (notes.last fun _ st₂ noted => ⟨now, ?_⟩)
      rw [noted, started]
      rfl
  | running =>
      have stops : wp (schedStopClock prog) (fun _ st' => ∃ now, view st' =
          (view st).modCore (Core.readClock prog now)) Astray st := by
        refine Wp.bind_ok (readPd_run prog st) ?_
        rw [when_pos (by rw [status]; decide)]
        exact readClock_spec prog status (fun now pd =>
          { pd with tmRstop := now, tmWstart := now, tmRunning :=
            pd.tmRunning + (now - pd.tmRstart) })
          fun _ _ => rfl
      refine Wp.bind_ok (schedStartClock_idle prog status) (Wp.bind stops fun _ st₁ stopped => ?_)
      obtain ⟨now, stopped⟩ := stopped
      refine notes.last fun _ st₂ noted => ⟨now, ?_⟩
      rw [noted, stopped]
      rfl

theorem schedUpdateWaiting_waits (prog : ProgPtr) :
    wp (schedUpdateWaiting prog) (fun _ st' => ∃ now, view st' =
      (view st).modCore (Core.noteClocks [.waited prog now])) Astray st := by
  refine (readEnv_quiet _).before fun tms st₁ same => (noteClock_acts _).before fun _ st₂ noted =>
    ?_
  refine Acts.last (modifyPd_quiet fun _ => rfl) fun _ st₃ stored => ⟨clockMillis tms, ?_⟩
  rw [stored, id_eq, noted, same, id_eq]

theorem schedUpdatePrfm_reads (prog : ProgPtr) :
    wp (schedUpdatePrfm prog) (fun _ st' => ∃ instrRetd, view st' =
      (view st).modCore (Core.modPd prog fun pd => { pd with instrRetd := instrRetd }))
        Astray st := by
  unfold schedUpdatePrfm
  refine (ssGetCounter_quiet prog 0).before fun instrRetd st₁ same => ?_
  have stores : Acts view (modifyPd prog fun pd => { pd with instrRetd := instrRetd })
      (View.modCore (Core.modPd prog fun pd => { pd with instrRetd := instrRetd })) :=
    modifyPd_acts fun _ => rfl
  refine stores.before fun _ st₂ stored => ?_
  have others : ∀ counter (store : Word64 → ProgData → ProgData),
      (∀ value pd, (store value pd).core = pd.core) →
        ∀ {f : Unit → Exec Unit}, Acts view (f ()) id →
      Acts view (ssGetCounter prog counter >>= fun value => modifyPd prog (store value) >>= f) id :=
    fun counter store same f rest => (ssGetCounter_quiet prog counter).skip fun value =>
      (modifyPd_quiet (same value)).skip fun _ => rest
  apply Acts.last
  · refine others 1 (fun value pd => { pd with unhCycles := value }) (fun _ _ => rfl) ?_
    refine others 3 (fun value pd => { pd with llcMisses := value }) (fun _ _ => rfl) ?_
    refine others 4 (fun value pd => { pd with l1Repl := value }) (fun _ _ => rfl) ?_
    refine others 5 (fun value pd => { pd with l2In := value }) (fun _ _ => rfl) ?_
    refine others 6 (fun value pd => { pd with memReads := value }) (fun _ _ => rfl) ?_
    refine Acts.get.skip fun _ => when_quiet ?_
    exact (ssGetOccupancy_quiet prog).skip fun _ => modifyPd_quiet fun _ => rfl
  · intro _ st₃ last
    refine ⟨instrRetd, ?_⟩
    rw [last, id_eq, stored, same]
    rfl

theorem sampleProg_samples (prog : ProgPtr) :
    wp (sampleProg prog) (fun _ st' => ∃ instrRetd accumulated, view st' =
      (view st).modCore (Core.sample prog instrRetd accumulated)) Astray st := by
  unfold sampleProg
  refine (modifyRunning_quiet prog tscPause).before fun _ st₁ paused => ?_
  refine Wp.bind (ssAffStatsRead_copies prog) fun _ st₂ copies => ?_
  obtain ⟨accumulated, copied⟩ := copies
  refine Wp.bind (schedUpdatePrfm_reads prog) fun _ st₃ counts => ?_
  obtain ⟨instrRetd, counted⟩ := counts
  refine Acts.before (modifyPd_quiet fun _ => rfl) fun _ st₄ same₄ =>
    Wp.bind_ok (readPd_run prog st₄) ?_
  refine (udiv_quiet _ _).go fun _ st₅ same₅ => ?_
  refine Acts.before (modifyPd_quiet fun _ => rfl) fun _ st₆ same₆ => ?_
  refine writeResults_quiet.last fun _ st₇ same₇ => ⟨instrRetd, accumulated, ?_⟩
  rw [same₇, id_eq, same₆, id_eq, same₅, same₄, id_eq, counted, copied, paused]
  rfl

/-- The cpus that `rebalance` reads the counters of, for a finished program. -/
def Core.lastCpu (core : Core) (prog : ProgPtr) (cpus : List Int) (i : Nat) : Bool :=
  cpus[i]? = some (core.pds prog).cpu

theorem Core.sampleLast_eq (core : Core) (prog : ProgPtr) (now : Word32) (instrRetd : Word64)
    (accumulated : Nat → Word64) : core.sampleLast prog now instrRetd accumulated =
      ((core.copyStats prog accumulated).updateClock prog now).modPd prog fun pd =>
      { pd with instrRetd := instrRetd } := by
  simp only [sampleLast, sample, updateClock, noteUpdate, readClock, noteClocks, copyStats,
    modPd, inCpuset, Function.update_self, Function.update_idem]
  rfl

/-- `rebalance` samples a finished program, on the cpu it was given last. -/
theorem sampleFinished_samples (prog : ProgPtr) :
    wp (sampleFinished prog) (fun _ st' => ∃ now instrRetd accumulated, view st' =
      (view st).modCore fun core =>
        (core.readEpochs (core.lastCpu prog)).sampleLast prog now instrRetd accumulated)
          Astray st := by
  unfold sampleFinished
  refine Wp.bind_ok (readPd_run prog st) ?_
  refine useCntrs_quiet.before fun _ st₁ same₁ => ?_
  refine (ssAffReadCounter_acts _).before fun _ st₂ read => ?_
  refine stopMCCounters_quiet.before fun _ st₃ same₃ => useCntrs_quiet.before fun _ st₄ same₄ => ?_
  refine getOffcoreMetrics_quiet.before fun _ st₅ same₅ => useCntrs_quiet.before fun _ st₆ same₆ =>
    ?_
  refine (modifyRunning_quiet prog tscPause).before fun _ st₇ same₇ => ?_
  refine Wp.bind (ssAffStatsRead_copies prog) fun _ st₈ copies => ?_
  obtain ⟨accumulated, copied⟩ := copies
  refine Wp.bind (schedUpdateClock_updates prog) fun _ st₉ updates => ?_
  obtain ⟨now, updated⟩ := updates
  refine Wp.bind (schedUpdatePrfm_reads prog) fun _ st' counts => ?_
  obtain ⟨instrRetd, counted⟩ := counts
  refine Acts.last (modifyPd_quiet fun _ => rfl) fun _ st'' same =>
    ⟨now, instrRetd, accumulated, ?_⟩
  rw [same, id_eq, counted, updated, copied, same₇, id_eq, same₆, id_eq, same₅, id_eq, same₄, id_eq,
    same₃, id_eq, read, same₁]
  simp only [Core.sampleLast_eq]
  rfl

end Samples

section Quanta

variable {st : ExecState} {name : PolicyName}

theorem stopProg_halts (prog : ProgPtr) :
    wp (stopProg prog) (fun _ st' => ∃ now, view st' = (view st).modCore (Core.halt prog now))
      Astray st := by
  unfold stopProg frzrSetstate
  refine Acts.before (modifyProg_acts (g := fun p => { p with freezer := .frozen }) fun _ => rfl)
    fun _ st₁ frozen => ?_
  refine Wp.bind (schedUpdateClock_updates prog) fun _ st₂ updates => ?_
  obtain ⟨now, updated⟩ := updates
  refine Acts.last (modifyPd_acts (g := fun pd => { pd with runStatus := .stoped }) fun _ => rfl)
    fun _ st₃ stopped => ⟨now, ?_⟩
  rw [stopped, updated, frozen]
  rfl

theorem thawProg_thaws (prog : ProgPtr) :
    wp (thawProg prog) (fun _ st' => ∃ now, view st' = (view st).modCore (Core.thaw prog now))
      Astray st := by
  unfold thawProg frzrSetstate
  refine (ssAffZeroStats_acts prog).before fun _ st₁ zeroed => ?_
  refine (modifyRunning_quiet prog tscStart).before fun _ st₂ same₂ => ?_
  refine Wp.bind (schedUpdateClock_updates prog) fun _ st₃ updates => ?_
  obtain ⟨now, updated⟩ := updates
  refine Acts.before (modifyPd_acts (g := fun pd => { pd with runStatus := .running }) fun _ => rfl)
    fun _ st₄ running => Wp.bind_ok rfl ?_
  refine (emit_acts _).before fun _ st₅ noted => (noteClock_acts _).before fun _ st₆ marked => ?_
  refine Acts.last (modifyProg_acts (g := fun p => { p with freezer := .thawed }) fun _ => rfl)
    fun _ st₇ thawed => ⟨now, ?_⟩
  have here : view st₄ = (view st).modCore fun core =>
      ((core.zeroEpochs prog).updateClock prog now).modPd prog fun pd =>
        { pd with runStatus := .running } := by
    rw [running, updated, same₂, id_eq, zeroed]
    rfl
  have epoch : st₄.sched.cntrs.epoch = st.sched.cntrs.epoch :=
    congrArg (fun v => v.core.sched.epoch) here
  have cpuset : (st₄.progs prog).cpuset = (st.progs prog).cpuset :=
    congrArg (fun v => (v.core.progs prog).cpuset) here
  rw [thawed, marked, noted, here, epoch, cpuset]
  rfl

theorem freezeCounters_acts :
    Acts view freezeCounters (View.modCore (Core.readEpochs fun cpus i => i < cpus.length)) := by
  unfold freezeCounters
  intro st
  refine useCntrs_quiet.before fun _ st₁ same₁ => ssAffReadCounters_acts.before fun _ st₂ read => ?_
  refine stopMCCounters_quiet.before fun _ st₃ same₃ => useCntrs_quiet.before fun _ st₄ same₄ => ?_
  refine getOffcoreMetrics_quiet.before fun _ st₅ same₅ => Wp.bind_ok (readSched_run st₅) ?_
  refine (when_quiet schedInitialMetrics_quiet).last fun _ st₆ same₆ => ?_
  rw [same₆, id_eq, same₅, id_eq, same₄, id_eq, same₃, id_eq, read, same₁, id_eq]

theorem restartCounters_acts :
    Acts view (do ssAffZeroCntrs; ssAffCountersStart; startMCCounters; startPower)
      (View.modCore Core.newEpoch) :=
  ssAffZeroCntrs_acts.bind fun _ => useCntrs_quiet.skip fun _ => startMCCounters_quiet.skip fun _ =>
    useCntrs_quiet

theorem when_stops {c : Prop} [Decidable c] {action : Exec Unit}
    (quiet : Quiet view (· = .undefined) action) : Quiet view (· = .undefined) (when c action) :=
  quiet.ite (Quiet.pure ())

theorem modifyPd_keeps {prog : ProgPtr} {change : ProgData → ProgData} {stops : Stop → Prop}
    (same : ∀ pd, (change pd).core = pd.core) : Quiet view stops (modifyPd prog change) :=
  (modifyPd_quiet same).quiet

theorem monitoringPhase_quiet : Acts view monitoringPhase id := fun _ => rfl

theorem collectIpc_quiet (prog : ProgPtr) : Quiet view (· = .undefined) (collectIpc prog) :=
  readPd_quiet.quiet.bind fun _ => (udiv_quiet _ _).bind fun _ => modifyPd_keeps fun _ => rfl

theorem collectMemReads_quiet (prog : ProgPtr) : Acts view (collectMemReads prog) id :=
  readSched_quiet.skip fun _ => modifyPd_quiet fun _ => rfl

/-- `collect` of every policy leaves the core alone. -/
theorem collect_quiet (prog : ProgPtr) :
    Quiet view (· = .undefined) (name.policy.collect prog) := by
  cases name with
  | fair => exact collectIpc_quiet prog
  | perf => exact (collectIpc_quiet prog).bind fun _ => (collectMemReads_quiet prog).quiet
  | perfFair =>
      exact (collectIpc_quiet prog).bind fun _ => (collectMemReads_quiet prog).quiet.bind fun _ =>
        modifyPd_keeps fun _ => rfl
  | fairBwCache =>
      exact (collectIpc_quiet prog).bind fun _ => (collectMemReads_quiet prog).quiet.bind fun _ =>
        modifyPd_keeps fun _ => rfl

theorem updateProgress_quiet (prog : ProgPtr) (unhCycles : Word64) :
    Quiet view (· = .undefined) (updateProgress prog unhCycles) :=
  when_stops (Quiet.bind (modifyPd_keeps fun _ => rfl) fun _ => readPd_quiet.quiet.bind fun _ =>
    (udiv_quiet _ _).bind fun _ => modifyPd_keeps fun _ => rfl)

theorem ratioProgress_quiet (prog : ProgPtr) (unhCycles : Word64) :
    Quiet view (· = .undefined) (ratioProgress prog unhCycles) :=
  monitoringPhase_quiet.quiet.bind fun _ => when_stops (updateProgress_quiet prog unhCycles)

theorem ratioFinish_quiet (prog : ProgPtr) : Quiet view (· = .undefined) (ratioFinish prog) :=
  readPd_quiet.quiet.bind fun _ => updateProgress_quiet prog _

theorem policyProgress_quiet (unhCycles : Word64) (prog : ProgPtr) :
    Quiet view (· = .undefined) (name.policy.progress prog unhCycles) := by
  cases name with
  | perf =>
      change Quiet view _ (perfProgress prog unhCycles)
      exact modifyPd_keeps fun _ => rfl
  | fair => exact ratioProgress_quiet prog unhCycles
  | perfFair => exact ratioProgress_quiet prog unhCycles
  | fairBwCache => exact ratioProgress_quiet prog unhCycles

/-- The progress of a program after a quantum only reads the time. -/
theorem progressProg_waits (unhCycles : Word64) (prog : ProgPtr) :
    wp (progressProg name.policy unhCycles prog) (fun _ st' => ∃ now, view st' =
      (view st).modCore (Core.noteClocks [.waited prog now])) Astray st := by
  refine Wp.bind (schedUpdateWaiting_waits prog) fun _ st₁ waits => ?_
  obtain ⟨now, waited⟩ := waits
  refine (policyProgress_quiet unhCycles prog).go fun _ st₂ same => ?_
  refine writeResults_quiet.last fun _ st₃ written => ⟨now, ?_⟩
  rw [written, id_eq, same, waited]

theorem finishProgress_quiet (prog : ProgPtr) :
    Quiet view (· = .undefined) (name.policy.finishProgress prog) := by
  cases name with
  | perf => exact Quiet.pure ()
  | fair => exact ratioFinish_quiet prog
  | perfFair => exact ratioFinish_quiet prog
  | fairBwCache => exact ratioFinish_quiet prog

end Quanta

section Charges

variable {st : ExecState} {prog : ProgPtr}

/-- The batches that a charge covers were sampled by the program. -/
def Core.Sampled (core : Core) (prog : ProgPtr) (batches : List (Int × Nat)) : Prop :=
  ∃ ran : Nat → Bool, batches = (List.range core.cpus.length).filterMap fun i => do
    let cpu ← core.cpus[i]?
    let epoch ← (core.pds prog).epoch i
    if ran i then some (cpu, epoch) else none

theorem batches_sampled (st : ExecState) (prog : ProgPtr) :
    st.core.Sampled prog (st.batches prog) :=
  ⟨fun i => decide (((st.pds prog).stats.running i).ticks ≠ 0), by
    simp only [ExecState.batches, ExecState.core, ProgData.core, decide_eq_true_eq]⟩

/-- The first half of a charge. -/
def Core.addRetired (prog : ProgPtr) (batches : List (Int × Nat)) (core : Core) : Core :=
  (core.note (.charged prog (core.pds prog).instrRetd batches)).modPd prog fun pd =>
    { pd with instrRetdSum := pd.instrRetdSum + pd.instrRetd }

/-- The second half of a charge. -/
def Core.chargeTarget (prog : ProgPtr) (core : Core) : Core :=
  core.modSched fun sched =>
    { sched with
      targetInstr := Function.update sched.targetInstr (core.pds prog).initId
        (sched.targetInstr (core.pds prog).initId - (core.pds prog).instrRetd) }

theorem Core.chargeTarget_addRetired (core : Core) (prog : ProgPtr) (batches : List (Int × Nat)) :
    (core.addRetired prog batches).chargeTarget prog = core.charge prog batches := by
  simp only [chargeTarget, addRetired, charge, modPd, note, modSched, Function.update_self]

theorem addRetired_spec (prog : ProgPtr) :
    wp (addRetired prog) (fun _ st' => ∃ batches, st.core.Sampled prog batches ∧
      view st' = (view st).modCore (Core.addRetired prog batches)) Astray st := by
  refine Wp.bind_ok rfl ((emit_acts _).before fun _ st₁ noted => ?_)
  refine Acts.last (modifyPd_acts
    (g := fun pd => { pd with instrRetdSum := pd.instrRetdSum + pd.instrRetd }) fun _ => rfl)
    fun _ st₂ added => ⟨_, batches_sampled st prog, ?_⟩
  rw [added, noted]
  rfl

theorem chargeTarget_acts (prog : ProgPtr) :
    Acts view (chargeTarget prog) (View.modCore (Core.chargeTarget prog)) := fun _ => rfl

end Charges

section Ends

variable {st : ExecState} {prog : ProgPtr}

theorem schedUpdateTotals_acts (prog : ProgPtr) :
    Acts view (schedUpdateTotals prog) (View.modCore (Core.report prog)) := by
  unfold schedUpdateTotals getTotalInstr getTotalCycles
  intro st
  refine schedulingTime_quiet.before fun current st₁ same₁ => ?_
  have total : wp (getTotal prog 0) (fun value st' => view st' = view st₁ ∧
      value = (view st₁).core.instructions prog) (fun _ _ => False) st₁ := by
    refine useCntrs_quiet.before fun _ st₂ same => Wp.bind_ok rfl (Wp.pure ⟨same, ?_⟩)
    rw [← show view st₂ = view st₁ from same]
    rfl
  refine Wp.bind total fun totalInstr st₂ counted => ?_
  refine (getTotal_quiet prog 1).before fun totalCycles st₃ same₃ =>
    Wp.bind_ok (readPd_run prog st₃) ?_
  have here : view st₃ = view st := same₃.trans (counted.1.trans same₁)
  refine Acts.before (modifySched_acts (g := fun sched =>
    let pd := st.core.pds prog
    { sched with
      totalInstr := Function.update sched.totalInstr pd.initId
        (sched.totalInstr pd.initId + st.core.instructions prog)
      progTimesFinished :=
        if pd.killed then sched.progTimesFinished
        else Function.update sched.progTimesFinished pd.initId
          (sched.progTimesFinished pd.initId + 1)
      instrProgs :=
        if sched.instrProgs pd.initId = 0 then
          Function.update sched.instrProgs pd.initId (st.core.instructions prog)
        else sched.instrProgs }) fun sched => ?_) fun _ st₄ stored => ?_
  · have pd : (st₃.pds prog).core = st.core.pds prog := congrArg (fun v => v.core.pds prog) here
    have killed : (st₃.pds prog).killed = (st.core.pds prog).killed := congrArg PdCore.killed pd
    have initId : (st₃.pds prog).initId = (st.core.pds prog).initId := congrArg PdCore.initId pd
    have amount : totalInstr = st.core.instructions prog := counted.2.trans (by rw [same₁]; rfl)
    simp only [Sched.core, killed, initId, amount]
    rfl
  · refine writeResults_quiet.before fun _ st₅ same₅ => (emit_acts _).last fun _ st₆ noted => ?_
    rw [noted, same₅, id_eq, stored, here]
    rfl

theorem schedClearProg_acts (prog : ProgPtr) :
    Acts view (schedClearProg prog) (View.modCore (Core.clear prog)) := fun _ => rfl

/-- The times of a slot are a number where its length is known. -/
theorem Sched.times_isSome (sched : Sched) (i : Int) :
    (sched.times i).isSome = decide (sched.instrProgs i ≠ 0) := by
  unfold Sched.times
  split
  · next none => simp [none]
  · next some => exact (decide_eq_true some).symm

theorem schedPrintTotals_acts : Acts view schedPrintTotals (View.modCore Core.print) := by
  intro st
  refine schedulingTime_quiet.before fun total st₁ same₁ => ?_
  refine Acts.before (modifySched_acts (g := fun sched =>
    { sched with printed := fun i => sched.instrProgs i ≠ 0 }) fun sched => ?_) fun _ st₂ stored =>
      ?_
  · simp only [Sched.core, Sched.times_isSome]
    rfl
  · refine writeResults_quiet.before fun _ st₃ same₃ => (emit_acts _).last fun _ st₄ noted => ?_
    rw [noted, same₃, id_eq, stored, same₁]
    rfl

theorem schedFinalization_acts :
    Acts view schedFinalization (View.modCore (Core.note .finalization)) := by
  unfold schedFinalization ssAffCountersFree schedCloseResultsFiles
  refine useCntrs_quiet.skip fun _ => useCntrs_quiet.skip fun _ => useCntrs_quiet.skip fun _ => ?_
  have freed : Acts view (do useCntrs; modifyCntrs fun cntrs => { cntrs with live := false }) id :=
    useCntrs_quiet.skip fun _ => modifySched_quiet fun _ => rfl
  exact freed.skip fun _ => Acts.skip (modifySched_quiet fun _ => rfl) fun _ => emit_acts _

theorem closeResults_acts : Acts view closeResults (View.modCore Core.close) := by
  intro st
  refine schedPrintTotals_acts.before fun _ st₁ printed => ?_
  refine schedFinalization_acts.last fun _ st₂ finalized => ?_
  rw [finalized, printed]
  rfl

/-- What `plNodeUnlink` does to the links. -/
def unlinkNode (prog : ProgPtr) (links : Links Node) : Links Node :=
  cdsInitListHead (.plNode prog) (cdsListDel (.plNode prog) links)

theorem plNodeUnlink_acts (prog : ProgPtr) :
    Acts view (plNodeUnlink prog) (View.modLinks (unlinkNode prog)) := fun _ => rfl

theorem elemMove2tail_acts (prog : ProgPtr) (toList : Node) :
    Acts view (elemMove2tail prog toList)
      (View.modLinks fun links => cdsListAddTail (.plNode prog) toList (unlinkNode prog links)) :=
  fun _ => rfl

/-- `kill_app`, up to the end of the run. -/
theorem killApp_spec {Q : Unit → ExecState → Prop}
    (killed : ∀ st', view st' = ((view st).modLinks (unlinkNode prog)).modCore (Core.kill prog) →
      wp (when ((Core.kill prog st.core).sched.progsLeft ≤ 0) closeResults) Q Astray st') :
    wp (killApp prog) Q Astray st := by
  unfold killApp
  refine (readEnv_quiet _).before fun _ st₁ same =>
    (plNodeUnlink_acts prog).before fun _ st₂ unlinked => ?_
  refine Acts.before (modifyPd_acts (g := fun pd => { pd with killed := true }) fun _ => rfl)
    fun _ st₃ marked => ?_
  refine (schedUpdateTotals_acts prog).before fun _ st₄ reported => ?_
  refine (schedClearProg_acts prog).before fun _ st₅ cleared => ?_
  refine Acts.before (modifySched_acts (g := fun sched =>
    { sched with
      progsLeft := sched.progsLeft - 1
      progsFnsh := sched.progsFnsh + 1
      progsNr := sched.progsNr - 1 }) fun _ => rfl) fun _ st₆ counted => ?_
  refine (emit_acts _).before fun _ st₇ noted => Wp.bind_ok (readSched_run st₇) ?_
  have here : view st₇ = ((view st).modLinks (unlinkNode prog)).modCore (Core.kill prog) := by
    rw [noted, counted, cleared, reported, marked, unlinked, same]
    rfl
  have left : st₇.sched.progsLeft = (Core.kill prog st.core).sched.progsLeft :=
    congrArg (fun v => v.core.sched.progsLeft) here
  rw [left]
  exact killed st₇ here

theorem rebalanceFree_acts (prog : ProgPtr) :
    Acts view (do
      modifySched fun sched =>
        { sched with progsFnsh := sched.progsFnsh + 1, progsNr := sched.progsNr - 1 }
      schedDelProg prog) (View.modCore (Core.free prog)) := by
  intro st
  refine Acts.before (modifySched_acts (g := fun sched =>
    { sched with progsFnsh := sched.progsFnsh + 1, progsNr := sched.progsNr - 1 }) fun _ => rfl)
    fun _ st₁ counted =>
        useCntrs_quiet.before fun _ st₂ same => (emit_acts _).last fun _ st₃ noted => ?_
  rw [noted, same, id_eq, counted]
  rfl

theorem retire_acts (prog : ProgPtr) :
    Acts view (BachScheduler.retire prog) (View.modCore (Core.retire prog)) :=
  fun _ => rfl

end Ends

section Starts

variable {st : ExecState} {prog : ProgPtr}

/-- The `prog_data` of a program that `sched_add_prog` has just allocated, at the time `now`. -/
structure PdCore.Fresh (pd : PdCore) (core : Core) (prog : ProgPtr) (now : Word32) : Prop where
  killed : pd.killed = false
  initId : pd.initId = ((core.progs prog).id - idUserOffset).tmod core.sched.progsInit
  instrRetdSum : pd.instrRetdSum = (core.progs prog).instrRetdSum
  runStatus : pd.runStatus = .stoped
  clock : pd.clock = ⟨now, now, 0, 0⟩
  epoch : pd.epoch = fun _ => none
  accumulated : pd.accumulated = fun _ => 0

theorem schedAddProg_adds (prog : ProgPtr) :
    wp (schedAddProg prog)
      (fun _ st' => st.core.sched.progsInit ≠ 0 ∧ ∃ pd now, PdCore.Fresh pd st.core prog now ∧
      view st' = (view st).modCore (Core.initPd prog pd now)) Astray st := by
  have allocated : wp (schedProgAlloc prog)
      (fun _ st' => ∃ (fresh : ProgData) (now : Word32), view st' =
      (view st).modCore (Core.initPd prog
        { (fresh.init (st.progs prog)).core with runStatus := .stoped, clock := ⟨now, now, 0, 0⟩ }
          now))
      Astray st := by
    unfold schedProgAlloc schedInitClock
    refine (readEnv_quiet _).before fun fresh st₁ same₁ => useCntrs_quiet.before fun _ st₂ same₂ =>
      ?_
    refine Wp.bind_ok (readProg_run prog st₂) ?_
    refine Acts.before (modifyPd_acts (g := fun _ => (fresh.init (st₂.progs prog)).core) fun _ =>
      rfl)
      fun _ st₃ stored => (readEnv_quiet _).before fun tms st₄ same₄ => ?_
    refine (noteClock_acts _).before fun _ st₅ noted => ?_
    refine Acts.last (modifyPd_acts (g := fun pd =>
      { pd with runStatus := .stoped, clock := ⟨clockMillis tms, clockMillis tms, 0, 0⟩ }) fun _ =>
        rfl)
      fun _ st₆ started => ⟨fresh, clockMillis tms, ?_⟩
    have here : view st₂ = view st := same₂.trans same₁
    have carried : (fresh.init (st₂.progs prog)).core = (fresh.init (st.progs prog)).core := by
      have sum : (st₂.progs prog).instrRetdSum = (st.progs prog).instrRetdSum :=
        congrArg (fun v => (v.core.progs prog).instrRetdSum) here
      simp only [ProgData.init, ProgData.core, sum]
    rw [started, noted, same₄, id_eq, stored, here, carried]
    simp only [View.modCore, Core.modPd, Core.initPd, Core.noteClocks, Function.update_self,
      Function.update_idem]
  unfold schedAddProg
  refine Wp.bind allocated fun _ st₁ new => ?_
  obtain ⟨fresh, now, new⟩ := new
  refine Wp.bind_ok (readProg_run prog st₁) (Wp.bind_ok (readSched_run st₁) ?_)
  have progsInit : st₁.sched.progsInit = st.core.sched.progsInit :=
    congrArg (fun v => v.core.sched.progsInit) new
  have id : (st₁.progs prog).id = (st.core.progs prog).id :=
    congrArg (fun v => (v.core.progs prog).id) new
  refine Wp.bind (R := fun _ st₂ => st₂ = st₁ ∧ st.core.sched.progsInit ≠ 0)
    (Wp.ite (fun _ => Wp.throw (.inl rfl)) fun some => Wp.pure ⟨rfl, progsInit ▸ some⟩)
      fun _ st₂ here => ?_
  obtain ⟨rfl, some⟩ := here
  refine Acts.before (modifyPd_acts (g := fun pd =>
    { pd with initId := ((st.core.progs prog).id - idUserOffset).tmod st.core.sched.progsInit })
    fun pd => ?_) fun _ st₃ stored => ?_
  · rw [id, progsInit]
    rfl
  refine Acts.last (when_quiet (modifyPd_quiet fun _ => rfl)) fun _ st₄ same => ⟨some,
    { (fresh.init (st.progs prog)).core with
      runStatus := .stoped
      clock := ⟨now, now, 0, 0⟩
      initId := ((st.core.progs prog).id - idUserOffset).tmod st.core.sched.progsInit },
    now, ?_, ?_⟩
  · exact ⟨rfl, rfl, rfl, rfl, rfl, rfl, rfl⟩
  · rw [same, id_eq, stored, new]
    simp only [View.modCore, Core.modPd, Core.initPd, Function.update_self, Function.update_idem]

theorem affProgWaitingNew_acts (prog : ProgPtr) :
    Acts view (affProgWaitingNew prog)
      (fun v => (v.modLinks (cdsListAddTail (.plNode prog) .pnewL)).modCore Core.arrive) := fun _ =>
    rfl

theorem affProgNewRunning_acts (prog : ProgPtr) :
    Acts view (affProgNewRunning prog) (View.modCore (Core.enroll prog)) := fun _ => rfl

end Starts

end BachScheduler
