import BachScheduler.Policy

/-!
# The policy of `perf.c`

The program that has waited longest runs together with those that use the remaining
memory bandwidth best.
-/

namespace BachScheduler

/-- `BW_LIMIT`. -/
def bwLimit : Word64 := 547208745

/-- `if (bw_rem < 0) bw_rem = 0`, after a subtraction. -/
def clampBw (bwRem : Word64) : Word64 :=
  if bwRem.toInt < 0 then 0 else bwRem

/-- The distance between a bandwidth and what a program reads, as the fitness functions
compute it. -/
def bwDistance (bw sumMemReads : Word64) : Word64 :=
  if sumMemReads ≤ bw then bw - sumMemReads else sumMemReads - bw

/-- `perf_collect`. -/
def perfCollect (prog : ProgPtr) : Exec Unit := do
  collectIpc prog
  collectMemReads prog

/-- The progress of a program in `perf_freeze_sched`. -/
def perfProgress (prog : ProgPtr) (_unhCycles : Word64) : Exec Unit :=
  modifyPd prog fun pd => { pd with ratio := pd.waitingTime.signExtend 64 }

/-- The body of the loop in `perf_max_waiting`. -/
def perfWaitingBody (prog max : ProgPtr) : Exec (ForInStep ProgPtr) := do
  let pd ← readPd prog
  let maxPd ← readPd max
  return .yield (if pd.waitingTime.toInt > maxPd.waitingTime.toInt then prog else max)

/-- `perf_max_waiting`. -/
def perfMaxWaiting : Exec (Option ProgPtr) := do
  if ← listEmpty .progsAll then
    return none
  else do
    let max ← cdsListFirst .progsAll
    let max ← cdsListForEachEntrySafe .progsAll max perfWaitingBody
    plNodeUnlink max
    return some max

/-- The body of the loop in `perf_max_fitness`. -/
def perfFitnessBody (bwRem : Word64) (prog min : ProgPtr) : Exec (ForInStep ProgPtr) := do
  modifyPd prog fun pd => { pd with fitness := bwDistance bwRem pd.sumMemReads }
  writeResults
  let pd ← readPd prog
  let minPd ← readPd min
  return .yield (if pd.fitness < minPd.fitness then prog else min)

/-- `perf_max_fitness` on `progs_all`. -/
def perfMaxFitness (bwRem : Word64) : Exec (Option ProgPtr) := do
  if ← listEmpty .progsAll then
    return none
  else do
    let min ← cdsListFirst .progsAll
    writeResults
    let min ← cdsListForEachEntrySafe .progsAll min (perfFitnessBody bwRem)
    plNodeUnlink min
    writeResults
    return some min

/-- The choice of the next program in `perf_schedule`. -/
def perfNext (cores : Int) (bwRem : Word64) : Exec (Option ProgPtr) :=
  if cores = 0 then perfMaxWaiting else perfMaxFitness bwRem

/-- The loop of `perf_schedule`. -/
def perfLoop : Nat → Int → Word64 → Exec Unit
  | 0, _, _ => throw .noFuel
  | fuel + 1, cores, bwRem =>
      if cores < maxCores then do
        match ← perfNext cores bwRem with
        | none => return ()
        | some prog => do
            let pd ← readPd prog
            writeResults
            modifyLinks (cdsListAddTail (.plNode prog) .progsSch)
            assignCores prog cores
            let coresNeeded := (← readProg prog).coresNeeded
            perfLoop fuel (cores + coresNeeded) (clampBw (bwRem - pd.sumMemReads))
      else
        return ()

/-- `perf_schedule`. -/
def perfSchedule : Exec Unit := do
  if ← monitoringPhase then
    monitor
  else do
    writeResults
    let fuel ← walkFuel
    perfLoop fuel 0 (bwLimit - 291250000)

/-- The hooks of `perf.c`. -/
def perf : Policy where
  collect := perfCollect
  progress := perfProgress
  finishProgress := fun _ => return ()
  windowFactor := 1
  carry := carryBandwidth
  schedule := perfSchedule

/-- `perf_freeze_sched`. -/
def perfFreezeSched : Exec Unit := freezeSched perf

/-- `perf_respawn`. -/
def perfRespawn : ProgPtr → Exec Unit := respawn perf

/-- `perf_rebalance`. -/
def perfRebalance : Exec Unit := rebalance perf

/-- `perf_qexpired`. -/
def perfQexpired : Timeval → Exec Unit := qexpired perf

end BachScheduler
