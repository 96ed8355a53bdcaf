import BachScheduler.Stats

/-!
# What the policies share

The part of `scheds/common.c` that changes the state.  Of printing only the writes to the result
files are kept, one for each function that prints; the calls of `sched_update_totals`,
`sched_print_totals`, `sched_finalization` and `sched_clear_prog` are noted in the log.
-/

namespace BachScheduler

/-- `MAX_CORES`. -/
def maxCores : Int := 6

/-- `ID_USER_OFFSET`. -/
def idUserOffset : Int := 1000

section Metrics

/-- Milliseconds of the day clock as the totals use them. -/
def totalsMillis (tms : Timeval) : Word32 :=
  BitVec.ofInt 32 (tms.sec.tmod 10000 * 1000 + tms.usec.tdiv 1000)

/-- The time since `sched_start`, as it is computed wherever it is printed. -/
def schedulingTime : Exec Word32 := do
  let tms ← readEnv Env.timeOfDay
  let sched ← readSched
  return totalsMillis tms - sched.schedStart

/-- `get_pro_execution_metrics`, without the temperatures. -/
def getProExecutionMetrics : Exec Word32 := schedulingTime

/-- `print_pro_execution_metrics`. -/
def printProExecutionMetrics : Exec Unit := do
  let _ ← getProExecutionMetrics
  useCntrs
  writeResults

/-- `sched_initial_metrics`. -/
def schedInitialMetrics : Exec Unit := do
  let sched ← readSched
  when (sched.progsInit = 1) printProExecutionMetrics
  writeResults

end Metrics

section Counters

/-- `sched_init_counters_output`. -/
def schedInitCountersOutput : Exec Unit := do
  writeResults
  useCntrs
  writeResults

/-- `get_offcore_metrics`, without the energies. -/
def getOffcoreMetrics : Exec Unit := do
  useCntrs
  writeResults
  modifySched fun sched =>
    { sched with
      uncMCReads := sched.cntrs.mcInfo.uncMCNormalReads
      uncMCWrites := sched.cntrs.mcInfo.uncMCFullWrites }

/-- `sched_print_counters`. -/
def schedPrintCounters (_prog : ProgPtr) : Exec Unit := writeResults

/-- `sched_update_prfm`. -/
def schedUpdatePrfm (prog : ProgPtr) : Exec Unit := do
  let instrRetd ← ssGetCounter prog 0
  modifyPd prog fun pd => { pd with instrRetd := instrRetd }
  let unhCycles ← ssGetCounter prog 1
  modifyPd prog fun pd => { pd with unhCycles := unhCycles }
  let llcMisses ← ssGetCounter prog 3
  modifyPd prog fun pd => { pd with llcMisses := llcMisses }
  let l1Repl ← ssGetCounter prog 4
  modifyPd prog fun pd => { pd with l1Repl := l1Repl }
  let l2In ← ssGetCounter prog 5
  modifyPd prog fun pd => { pd with l2In := l2In }
  let memReads ← ssGetCounter prog 6
  modifyPd prog fun pd => { pd with memReads := memReads }
  when ((← get).env.cmtAvailable) do
    let llcOccupancy ← ssGetOccupancy prog
    modifyPd prog fun pd => { pd with llcOccupancy := llcOccupancy }

end Counters

section Totals

/-- `sched_update_totals`. -/
def schedUpdateTotals (prog : ProgPtr) : Exec Unit := do
  let current ← schedulingTime
  let totalInstr ← getTotalInstr prog
  let totalCycles ← getTotalCycles prog
  let pd ← readPd prog
  let i := pd.initId
  modifySched fun sched =>
    { sched with
      finishTime := Function.update sched.finishTime i current
      totalInstr := Function.update sched.totalInstr i (sched.totalInstr i + totalInstr)
      totalCycles := Function.update sched.totalCycles i (sched.totalCycles i + totalCycles)
      instrProgs :=
        if sched.instrProgs i = 0 then Function.update sched.instrProgs i totalInstr
        else sched.instrProgs
      lastInstr :=
        if pd.killed then Function.update sched.lastInstr i totalInstr else sched.lastInstr
      progTimesFinished :=
        if pd.killed then sched.progTimesFinished
        else Function.update sched.progTimesFinished i (sched.progTimesFinished i + 1)
      totalRtime := Function.update sched.totalRtime i (sched.totalRtime i + pd.tmRunning)
      totalWtime := Function.update sched.totalWtime i (sched.totalWtime i + pd.tmWaiting)
      quanta := Function.update sched.quanta i sched.totalTics }
  writeResults
  emit (.updateTotals prog)

/-- `times` in `sched_print_totals`; a division by zero is no number. -/
def Sched.times (sched : Sched) (i : Int) : Option Rat :=
  if sched.instrProgs i = 0 then none
  else some (sched.progTimesFinished i + (sched.lastInstr i).toNat / (sched.instrProgs i).toNat)

/-- `sched_print_totals`. -/
def schedPrintTotals : Exec Unit := do
  let total ← schedulingTime
  modifySched fun sched => { sched with printedTimes := sched.times, printedTotal := total }
  writeResults
  emit .printTotals

end Totals

section Clock

/-- Milliseconds as the clocks of a program use them. -/
def clockMillis (tms : Timeval) : Word32 :=
  BitVec.ofInt 32 (tms.sec * 1000 + tms.usec.tdiv 1000)

/-- `sched_start_clock`. -/
def schedStartClock (prog : ProgPtr) : Exec Unit := do
  when ((← readPd prog).runStatus ≠ .running) do
    let tms ← readEnv Env.timeOfDay
    let now := clockMillis tms
    noteClock (.read prog now)
    modifyPd prog fun pd =>
      { pd with tmWstop := now, tmRstart := now, tmWaiting := pd.tmWaiting + (now - pd.tmWstart) }

/-- `sched_stop_clock`. -/
def schedStopClock (prog : ProgPtr) : Exec Unit := do
  when ((← readPd prog).runStatus ≠ .stoped) do
    let tms ← readEnv Env.timeOfDay
    let now := clockMillis tms
    noteClock (.read prog now)
    modifyPd prog fun pd =>
      { pd with tmRstop := now, tmWstart := now, tmRunning := pd.tmRunning + (now - pd.tmRstart) }

/-- `sched_update_waiting`. -/
def schedUpdateWaiting (prog : ProgPtr) : Exec Unit := do
  let tms ← readEnv Env.timeOfDay
  let now := clockMillis tms
  noteClock (.waited prog now)
  modifyPd prog fun pd => { pd with waitingTime := now - pd.tmWstart }

/-- `sched_init_clock`. -/
def schedInitClock (prog : ProgPtr) : Exec Unit := do
  let tms ← readEnv Env.timeOfDay
  let now := clockMillis tms
  noteClock (.init prog now)
  modifyPd prog fun pd =>
    { pd with
      tmWstart := now
      tmWstop := now
      tmRstart := now
      tmRstop := now
      runStatus := .stoped
      tmRunning := 0
      tmWaiting := 0 }

/-- `sched_update_clock`. -/
def schedUpdateClock (prog : ProgPtr) : Exec Unit := do
  schedStartClock prog
  schedStopClock prog
  let pd ← readPd prog
  noteClock (.updated prog pd.tmRunning pd.tmWaiting)

end Clock

section Programs

/-- The initial values in `sched_prog_alloc`; the other fields keep what `malloc`
returned. -/
def ProgData.init (pd : ProgData) (prog : AffProg) : ProgData :=
  { pd with
    stats := ssAffStatsInit
    coresNeeded := prog.coresNeeded
    category := .ofLong prog.memNeeded
    llcAlone := prog.llcAlone
    ipcAlone := prog.thrReal.setWidth 32
    idealInstr := prog.idealInstr
    instrRetdSum := prog.instrRetdSum
    ratio := prog.ratio
    killed := false
    timesCpu := prog.timesCpu
    sumMemReads := prog.sumMemReads
    memReads := prog.memReads
    avgMemReads :=
      if prog.timesCpu ≠ 0 then prog.sumMemReads / prog.timesCpu.signExtend 64 else 0
    fitness := 0 }

/-- `sched_prog_alloc`. -/
def schedProgAlloc (prog : ProgPtr) : Exec Unit := do
  let fresh ← readEnv Env.freshPd
  useCntrs
  let p ← readProg prog
  modifyPd prog fun _ => fresh.init p
  schedInitClock prog

/-- `sched_add_prog`, without the names. -/
def schedAddProg (prog : ProgPtr) : Exec Unit := do
  schedProgAlloc prog
  let id := (← readProg prog).id
  let sched ← readSched
  when (sched.progsInit = 0) (throw .undefined)
  modifyPd prog fun pd => { pd with initId := (id - idUserOffset).tmod sched.progsInit }
  when (sched.doRespawn) do
    modifyPd prog fun pd => { pd with respawned := idUserOffset + sched.progsInit ≤ id }

/-- `aff_prog_dealloc`, of which the log keeps that the program is freed. -/
def affProgDealloc (prog : ProgPtr) : Exec Unit :=
  emit (.deallocated prog)

/-- `sched_del_prog`: the program is freed. -/
def schedDelProg (prog : ProgPtr) : Exec Unit := do
  ssAffStatsShutdown prog
  affProgDealloc prog

end Programs

section Termination

/-- `sched_close_results_files`. -/
def schedCloseResultsFiles : Exec Unit :=
  modifySched fun sched => { sched with resultsOpen := false }

/-- `sched_finalization`. -/
def schedFinalization : Exec Unit := do
  ssAffStopCounters
  pciclose
  ssCloseCounters
  ssAffCountersFree
  schedCloseResultsFiles
  emit .finalization

/-- `sched_clear_prog`. -/
def schedClearProg (prog : ProgPtr) : Exec Unit := do
  let pid := (← readProg prog).pid
  modify fun st => { st with progPidHash := (hashDelete st.progPidHash pid).2 }
  modify fun st => { st with runningNr := st.runningNr - 1 }
  modify fun st => { st with finishedNr := st.finishedNr + 1 }
  emit (.clearProg prog)

end Termination

end BachScheduler
