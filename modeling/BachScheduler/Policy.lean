import BachScheduler.Executor

/-!
# The policies, as far as they are alike

`fair.c`, `perf.c`, `perf_fair.c` and `fair_bw_cache.c` are copies of one scheduler.
What they share is defined once; where they differ, `Policy` says how.  The functions
`elem_move2tail`, `move_progs_to_all`, `get_value`, `kill_app`, `kill_all`,
`thaw_sched` and `monitor` are the same in all four.
-/

namespace BachScheduler

open BachScheduler.Ring

/-- The functions and constants in which the four policies differ. -/
structure Policy where
  /-- `collect`: keep what the monitoring quantum of a program has shown. -/
  collect : ProgPtr → Exec Unit
  /-- What `freeze_sched` does for each program of `progs_all`, given the cycles of the quantum. -/
  progress : ProgPtr → Word64 → Exec Unit
  /-- What `rebalance` does for the progress of a finished program. -/
  finishProgress : ProgPtr → Exec Unit
  /-- The window behind which `freeze_sched` ends the monitoring, in multiples of `progs_nr`. -/
  windowFactor : Int
  /-- The fields that `respawn` hands over to the next instance. -/
  carry : ProgData → AffProg → AffProg
  /-- `schedule`. -/
  schedule : Exec Unit

section Lists

/-- `monitoring_phase`. -/
def monitoringPhase : Exec Bool := do
  let sched ← readSched
  return !(sched.monitorWnd > sched.progsNr : Bool)

/-- `elem_move2tail`. -/
def elemMove2tail (prog : ProgPtr) (toList : Node) : Exec Unit := do
  plNodeUnlink prog
  modifyLinks (cdsListAddTail (.plNode prog) toList)

/-- `move_progs_to_all`. -/
def moveProgsToAll : Exec Unit := do
  when (!(← listEmpty .progsSch)) do
    cdsListForEachEntrySafe .progsSch () fun prog _ => do
      elemMove2tail prog .progsAll
      return .yield ()

/-- `get_value`: the ratio as an `int`, of an element node. -/
def getValue (pds : ProgPtr → ProgData) : Node → Option Int
  | .plNode prog => some ((pds prog).ratio.setWidth 32).toInt
  | _ => none

/-- `qsrt_quicksort(all, ASC)` by `get_value`. -/
def sortAll : Exec Unit := do
  let fuel ← walkFuel
  let st ← get
  let heap ← orElseStop .misuse
    (qsrtQuicksort (getValue st.pds) .asc Node.temp fuel .progsAll ⟨st.links, st.brk⟩)
  modify fun st => { st with links := heap.links, brk := heap.brk }

end Lists

section Progress

/-- `update_progress`. -/
def updateProgress (prog : ProgPtr) (unhCycles : Word64) : Exec Unit :=
  when (unhCycles ≠ 0) do
    modifyPd prog fun pd =>
      { pd with idealInstr := pd.idealInstr + pd.ipcAlone.signExtend 64 * unhCycles / 1000 }
    let pd ← readPd prog
    let ratio ← udiv (pd.instrRetdSum * 1000) pd.idealInstr
    modifyPd prog fun pd => { pd with ratio := ratio }

/-- The assignment to `ipc_alone` in `collect`. -/
def collectIpc (prog : ProgPtr) : Exec Unit := do
  let pd ← readPd prog
  let ipc ← udiv (pd.instrRetd * 1000) pd.unhCycles
  modifyPd prog fun pd => { pd with ipcAlone := ipc.setWidth 32 }

/-- The assignment to `sum_mem_reads` in `collect`. -/
def collectMemReads (prog : ProgPtr) : Exec Unit := do
  let reads := (← readSched).uncMCReads
  modifyPd prog fun pd =>
    { pd with sumMemReads := if pd.category = .bw then reads else pd.memReads }

/-- The assignment to `llc_alone` in `collect`. -/
def collectLlc (prog : ProgPtr) : Exec Unit :=
  modifyPd prog fun pd => { pd with llcAlone := pd.llcOccupancy.setWidth 32 }

/-- The fields that every `respawn` hands over. -/
def carryProgress (pd : ProgData) (p : AffProg) : AffProg :=
  { p with
    thrReal := pd.ipcAlone.signExtend 64
    instrRetdSum := pd.instrRetdSum
    idealInstr := pd.idealInstr }

/-- The fields that the policies with a bandwidth rule hand over. -/
def carryBandwidth (pd : ProgData) (p : AffProg) : AffProg :=
  { carryProgress pd p with
    sumMemReads := pd.sumMemReads
    llcAlone := pd.llcAlone }

/-- The cpus and counting epochs whose counts `ss_get_counter` sums up for a program. -/
def ExecState.batches (st : ExecState) (prog : ProgPtr) : List (Int × Nat) :=
  let stats := (st.pds prog).stats
  (List.range st.cpus.length).filterMap fun i => do
    let cpu ← st.cpus[i]?
    let epoch ← stats.epoch i
    if (stats.running i).ticks ≠ 0 then some (cpu, epoch) else none

/-- `pd->instr_retd_sum += pd->instr_retd`. -/
def addRetired (prog : ProgPtr) : Exec Unit := do
  let st ← get
  emit (.charged prog (st.pds prog).instrRetd (st.batches prog))
  modifyPd prog fun pd => { pd with instrRetdSum := pd.instrRetdSum + pd.instrRetd }

/-- `sched->target_instr[pd->init_id] -= (long long int) pd->instr_retd`. -/
def chargeTarget (prog : ProgPtr) : Exec Unit := do
  let pd ← readPd prog
  let i := pd.initId
  modifySched fun sched =>
    { sched with
      targetInstr := Function.update sched.targetInstr i (sched.targetInstr i - pd.instrRetd) }

/-- `sched->target_instr[pd->init_id]`. -/
def readTarget (prog : ProgPtr) : Exec Word64 := do
  let i := (← readPd prog).initId
  return (← readSched).targetInstr i

end Progress

section Termination

/-- What `kill_app` and `respawn` do when no program is left. -/
def closeResults : Exec Unit := do
  schedPrintTotals
  schedFinalization

/-- `kill_app`. -/
def killApp (prog : ProgPtr) : Exec Unit := do
  let _ ← readEnv Env.timeOfDay
  plNodeUnlink prog
  modifyPd prog fun pd => { pd with killed := true }
  schedUpdateTotals prog
  schedClearProg prog
  modifySched fun sched =>
    { sched with
      progsLeft := sched.progsLeft - 1
      progsFnsh := sched.progsFnsh + 1
      progsNr := sched.progsNr - 1 }
  emit (.retired prog)
  when ((← readSched).progsLeft ≤ 0) closeResults

/-- The body of the loop in `kill_all`. -/
def killAllProg (prog : ProgPtr) : Exec Unit := do
  emit (.killAllMet prog)
  plNodeUnlink prog
  let i := (← readPd prog).initId
  let totalInstr ← getTotalInstr prog
  let totalCycles ← getTotalCycles prog
  schedUpdateClock prog
  let pd ← readPd prog
  modifySched fun sched =>
    { sched with
      lastInstr := Function.update sched.lastInstr i totalInstr
      totalInstr := Function.update sched.totalInstr i (sched.totalInstr i + totalInstr)
      totalCycles := Function.update sched.totalCycles i (sched.totalCycles i + totalCycles)
      totalRtime := Function.update sched.totalRtime i (sched.totalRtime i + pd.tmRunning)
      totalWtime := Function.update sched.totalWtime i (sched.totalWtime i + pd.tmWaiting)
      progsFnsh := sched.progsFnsh + 1
      progsNr := sched.progsNr - 1 }
  schedClearProg prog

/-- `kill_all`. -/
def killAll : Exec Unit := do
  moveProgsToAll
  when (!(← listEmpty .progsAll)) do
    cdsListForEachEntrySafe .progsAll () fun prog _ => do
      killAllProg prog
      return .yield ()

end Termination

section Quanta

/-- The body of the loop in `thaw_sched`. -/
def thawProg (prog : ProgPtr) : Exec Unit := do
  ssAffZeroStats prog
  ssAffStatsStart prog
  schedUpdateClock prog
  modifyPd prog fun pd => { pd with runStatus := .running }
  let st ← get
  emit (.thawed prog (st.sched.cntrs.epoch + 1) (st.progs prog).cpuset)
  noteClock (.thawed prog)
  frzrSetstate prog .thawed

/-- `thaw_sched`. -/
def thawSched : Exec Unit := do
  cdsListForEachEntry .progsSch thawProg
  ssAffZeroCntrs
  ssAffCountersStart
  startMCCounters
  startPower

/-- The readings at the start of `freeze_sched`. -/
def freezeCounters : Exec Unit := do
  ssAffStopCounters
  ssAffReadCounters
  stopMCCounters
  stopPower
  getOffcoreMetrics
  when ((← readSched).totalTics = 0) schedInitialMetrics

/-- The body of the first loop in `freeze_sched`. -/
def stopProg (prog : ProgPtr) : Exec Unit := do
  frzrSetstate prog .frozen
  schedUpdateClock prog
  modifyPd prog fun pd => { pd with runStatus := .stoped }

/-- Read what the last quantum has counted for a program. -/
def sampleProg (prog : ProgPtr) : Exec Unit := do
  ssAffStatsPause prog
  ssAffStatsRead prog
  schedUpdatePrfm prog
  modifyPd prog fun pd => { pd with timesCpu := pd.timesCpu + 1 }
  let pd ← readPd prog
  let avgMemReads ← udiv (pd.instrRetd * 1000) pd.unhCycles
  modifyPd prog fun pd => { pd with avgMemReads := avgMemReads }
  schedPrintCounters prog

/-- The charge for an ordinary quantum; a program that has met its target is killed. -/
def chargeProg (prog : ProgPtr) : Exec Unit := do
  addRetired prog
  chargeTarget prog
  when ((← readTarget prog).toInt ≤ 0) (killApp prog)

/-- What a quantum means for a program: a sample in the monitoring phase, a charge otherwise. -/
def settleQuantum (policy : Policy) (prog : ProgPtr) : Exec Unit := do
  if ← monitoringPhase then do
    emit (.collected prog)
    policy.collect prog
  else
    chargeProg prog

/-- The body of the second loop in `freeze_sched`; the loop finds the cycles of the quantum. -/
def settleProg (policy : Policy) (prog : ProgPtr) (unhCycles : Word64) :
    Exec (ForInStep Word64) := do
  sampleProg prog
  let cycles := (← readPd prog).unhCycles
  settleQuantum policy prog
  return .yield (if unhCycles = 0 then cycles else unhCycles)

/-- The body of the last loop in `freeze_sched`. -/
def progressProg (policy : Policy) (unhCycles : Word64) (prog : ProgPtr) : Exec Unit := do
  schedUpdateWaiting prog
  policy.progress prog unhCycles
  writeResults

/-- `freeze_sched`. -/
def freezeSched (policy : Policy) : Exec Unit := do
  freezeCounters
  cdsListForEachEntrySafe .progsSch () fun prog _ => do
    stopProg prog
    return .yield ()
  let unhCycles ← cdsListForEachEntrySafe .progsSch 0 (settleProg policy)
  moveProgsToAll
  writeResults
  cdsListForEachEntry .progsAll (progressProg policy unhCycles)
  let sched ← readSched
  when (sched.monitorWnd = policy.windowFactor * sched.progsNr) do
    modifySched fun sched => { sched with monitorWnd := sched.monitorWnd + 1 }

/-- Give a program its cores from position `rstart` on. -/
def assignCores (prog : ProgPtr) (rstart : Int) : Exec Unit := do
  let coresNeeded := (← readProg prog).coresNeeded
  scheduleSetcpurange prog rstart (rstart + coresNeeded)
  let cpu ← getCpus prog
  modifyPd prog fun pd => { pd with cpu := cpu }

/-- `monitor`: one program runs alone. -/
def monitor : Exec Unit := do
  let core := (← readSched).monitorWnd.tmod maxCores
  let prog ← cdsListFirst .progsAll
  elemMove2tail prog .progsSch
  assignCores prog core
  modifySched fun sched => { sched with monitorWnd := sched.monitorWnd + 1 }

/-- Print a program, move it to `progs_sch` and give it cores. -/
def dispatch (prog : ProgPtr) (cores : Int) : Exec Int := do
  writeResults
  elemMove2tail prog .progsSch
  assignCores prog cores
  return cores + (← readProg prog).coresNeeded

/-- The end of `qexpired`: the next quantum. -/
def rearm (now : Timeval) : Exec Unit := do
  modify fun st =>
    { st with
      events := Function.update st.events 0 { st.events 0 with tv := timeradd st.qt now } }
  eventsHeapPush 0

/-- `qexpired`.  The clock readings of `fair_bw_cache_qexpired` are not used. -/
def qexpired (policy : Policy) (now : Timeval) : Exec Unit := do
  modifySched fun sched => { sched with totalTics := sched.totalTics + 1 }
  modify fun st => { st with totalQuantums := st.totalQuantums + 1 }
  freezeSched policy
  policy.schedule
  thawSched
  rearm now

end Quanta

section Rebalance

/-- The target above which a finished program is started again. -/
def respawnLimit : Int := 1000000000

/-- The largest `int`. -/
def intMax : Int := 2147483647

/-- The end of the run in `respawn`. -/
def stopRun (policy : Policy) : Exec Unit := do
  modify fun st => { st with massacre := true }
  modifySched fun sched => { sched with stopExecution := true }
  freezeSched policy
  killAll
  closeResults

/-- The call of `prog_respawn` in `respawn`; the new id must be an `int`. -/
def respawnNext (prog : ProgPtr) : Exec Unit := do
  let id := (← readSched).progsInit + (← readProg prog).id
  when (id > intMax) (throw .undefined)
  progRespawn prog id

/-- A slot is not used again. -/
def retire (prog : ProgPtr) : Exec Unit := do
  modifySched fun sched => { sched with progsLeft := sched.progsLeft - 1 }
  emit (.retired prog)

/-- `respawn`. -/
def respawn (policy : Policy) (prog : ProgPtr) : Exec Unit := do
  let pd ← readPd prog
  modifyProg prog (policy.carry pd)
  let again := (← readTarget prog).toInt > respawnLimit
  when (¬ again) (retire prog)
  when ((← readSched).progsLeft ≤ 0) (stopRun policy)
  when (¬ (← readSched).stopExecution ∧ again) (respawnNext prog)

/-- What `rebalance` reads for a program that has finished within a quantum. -/
def sampleFinished (prog : ProgPtr) : Exec Unit := do
  let cpu := (← readPd prog).cpu
  ssAffStopCounter cpu
  ssAffReadCounter cpu
  stopMCCounters
  stopPower
  getOffcoreMetrics
  ssAffCounterStart cpu
  ssAffStatsPause prog
  ssAffStatsRead prog
  schedUpdateClock prog
  schedUpdatePrfm prog
  modifyPd prog fun pd => { pd with timesCpu := pd.timesCpu + 1 }

/-- The end of a program that was not killed. -/
def finishProg (policy : Policy) (prog : ProgPtr) : Exec Unit := do
  sampleFinished prog
  addRetired prog
  schedPrintCounters prog
  policy.finishProgress prog
  chargeTarget prog
  schedUpdateTotals prog
  respawn policy prog

/-- The body of the loop over the finished programs in `rebalance`. -/
def rebalanceFinished (policy : Policy) (prog : ProgPtr) : Exec Unit := do
  plNodeUnlink prog
  let killed := (← readPd prog).killed
  let stopping := (← readSched).stopExecution
  when (!killed && !stopping) (finishProg policy prog)
  modifySched fun sched =>
    { sched with progsFnsh := sched.progsFnsh + 1, progsNr := sched.progsNr - 1 }
  schedDelProg prog

/-- The body of the loop over the new programs in `rebalance`. -/
def rebalanceNew (prog : ProgPtr) : Exec Unit := do
  if (← readSched).stopExecution then do
    emit (.newKilled prog)
    modify fun st => { st with newNr := st.newNr - 1 }
  else do
    schedAddProg prog
    modifySched fun sched => { sched with progsNr := sched.progsNr + 1 }
    elemMove2tail prog .progsAll
    affProgNewRunning prog

/-- `rebalance`. -/
def rebalance (policy : Policy) : Exec Unit := do
  cdsListForEachEntrySafe .pfinishedL () fun prog _ => do
    rebalanceFinished policy prog
    return .yield ()
  cdsListForEachEntrySafe .pnewL () fun prog _ => do
    rebalanceNew prog
    return .yield ()

end Rebalance

section Start

/-- `ss_aff_counters_init` and `InitRMID`, as far as the structure itself goes. -/
def ssAffCountersInit (env : Env) : AffCounters where
  mcInfo := ⟨0, 0, 0, 0⟩
  upscalingFactor := env.upscalingFactor
  prfcnt := env.freshPrfcnt
  epoch := 0
  live := true
  staleUses := 0

/-- The structure that `init` allocates and fills; the targets are read from a file. -/
def Sched.start (env : Env) (waitingNr : Int) (targets : Int → Word64) : Sched where
  totalTics := -1
  monitorWnd := 0
  progsNr := 0
  progsInit := waitingNr
  progsLeft := waitingNr
  progsFnsh := 0
  stopExecution := false
  doRespawn := true
  uncMCReads := 0
  uncMCWrites := 0
  cntrs := ssAffCountersInit env
  instrProgs := fun _ => 0
  totalInstr := fun _ => 0
  totalCycles := fun _ => 0
  lastInstr := fun _ => 0
  targetInstr := targets
  progTimesFinished := fun _ => 0
  quanta := fun _ => 0
  finishTime := fun _ => 0
  totalRtime := fun _ => 0
  totalWtime := fun _ => 0
  schedStart := 0
  resultsOpen := true
  closedWrites := 0
  printedTimes := fun _ => none
  printedTotal := 0

/-- `init`, the same in all four policies. -/
def initPolicy (targets : Int → Word64) : Exec Unit := do
  modifyLinks (cdsInitListHead .progsAll)
  modifyLinks (cdsInitListHead .progsSch)
  modify fun st => { st with sched := .start st.env st.waitingNr targets }
  startPower
  startMCCounters
  ssAffStopCounters
  ssAffZeroCntrs
  schedInitCountersOutput
  modify fun st =>
    { st with events := Function.update st.events 0 { st.events 0 with tv := st.qt } }
  eventsHeapPush 0
  let tms ← readEnv Env.timeOfDay
  modifySched fun sched => { sched with schedStart := totalsMillis tms }

end Start

end BachScheduler
