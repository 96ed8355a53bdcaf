import BachScheduler.Policy

/-!
# The policy of `fair.c`

The programs with the least progress run first.
-/

namespace BachScheduler

/-- `fair_collect`. -/
def fairCollect (prog : ProgPtr) : Exec Unit := collectIpc prog

/-- The progress of the programs after a quantum, in `fair.c`, `perf_fair.c` and
`fair_bw_cache.c`. -/
def ratioProgress (prog : ProgPtr) (unhCycles : Word64) : Exec Unit := do
  when (!(← monitoringPhase)) (updateProgress prog unhCycles)

/-- The progress of a finished program in these files. -/
def ratioFinish (prog : ProgPtr) : Exec Unit := do
  let unhCycles := (← readPd prog).unhCycles
  updateProgress prog unhCycles

/-- The body of the loop in `fair_schedule`. -/
def fairTake (prog : ProgPtr) (cores : Int) : Exec (ForInStep Int) := do
  if cores = maxCores then
    return .done cores
  else do
    let cores ← dispatch prog cores
    return .yield cores

/-- `fair_schedule`. -/
def fairSchedule : Exec Unit := do
  if ← monitoringPhase then
    monitor
  else do
    writeResults
    sortAll
    let _ ← cdsListForEachEntrySafe .progsAll 0 fairTake
    return ()

/-- The hooks of `fair.c`. -/
def fair : Policy where
  collect := fairCollect
  progress := ratioProgress
  finishProgress := ratioFinish
  windowFactor := 2
  carry := carryProgress
  schedule := fairSchedule

/-- `fair_freeze_sched`. -/
def fairFreezeSched : Exec Unit := freezeSched fair

/-- `fair_respawn`. -/
def fairRespawn : ProgPtr → Exec Unit := respawn fair

/-- `fair_rebalance`. -/
def fairRebalance : Exec Unit := rebalance fair

/-- `fair_qexpired`. -/
def fairQexpired : Timeval → Exec Unit := qexpired fair

end BachScheduler
