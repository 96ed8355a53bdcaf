import BachScheduler.Policies.Fair
import BachScheduler.Policies.Perf

/-!
# The policy of `perf_fair.c`

The programs with the least progress run first, as far as their memory reads fit into
the bandwidth; the cores that stay free go to those that fit best.
-/

namespace BachScheduler

/-- `perf_fair_collect`, the same as `fair_bw_cache_collect`. -/
def perfFairCollect (prog : ProgPtr) : Exec Unit := do
  collectIpc prog
  collectMemReads prog
  collectLlc prog

/-- `fill_rest_cores`, of `perf_fair.c` and of `fair_bw_cache.c`. -/
def fillRestCores (cores : Int) : Exec Unit := do
  let _ ← cdsListForEachEntrySafe .progsAll cores fairTake
  return ()

namespace PerfFair

/-- The body of the loop in `good_neighbors`. -/
def neighborsBody (bw : Word64) (prog : ProgPtr) (best : ProgPtr × Word64) :
    Exec (ForInStep (ProgPtr × Word64)) := do
  let pd ← readPd prog
  let fitness := bwDistance bw pd.sumMemReads
  return .yield (if fitness.toInt < best.2.toInt then (prog, fitness) else best)

/-- `good_neighbors`.  It never returns `NULL`. -/
def goodNeighbors (bw : Word64) : Exec ProgPtr := do
  let min ← cdsListFirst .progsAll
  let minFitness := bwDistance bw (← readPd min).sumMemReads
  let best ← cdsListForEachEntrySafe .progsAll (min, minFitness) (neighborsBody bw)
  elemMove2tail best.1 .progsSch
  return best.1

/-- The body of the first loop in `perf_fair_schedule`. -/
def passBody (prog : ProgPtr) (acc : Int × Word64) : Exec (ForInStep (Int × Word64)) :=
  let cores := acc.1
  let bwRem := acc.2
  if cores = maxCores then
    return .done acc
  else do
    let pd ← readPd prog
    if pd.sumMemReads > bwRem - 271250000 then
      return .yield acc
    else do
      let cores ← dispatch prog cores
      return .yield (cores, clampBw (bwRem - pd.sumMemReads))

/-- The loop over `good_neighbors` in `perf_fair_schedule`. -/
def neighborsLoop : Nat → Int → Word64 → Exec Unit
  | 0, _, _ => throw .noFuel
  | fuel + 1, cores, bwRem =>
      if cores = maxCores then
        return ()
      else do
        let prog ← goodNeighbors bwRem
        let pd ← readPd prog
        assignCores prog cores
        let coresNeeded := (← readProg prog).coresNeeded
        neighborsLoop fuel (cores + coresNeeded) (clampBw (bwRem - pd.sumMemReads))

/-- The cores that the first loop of `perf_fair_schedule` left free. -/
def fillCores (cores : Int) (bwRem : Word64) : Exec Unit := do
  if (← readSched).progsNr ≤ maxCores then
    fillRestCores cores
  else do
    let fuel ← walkFuel
    neighborsLoop fuel cores bwRem

end PerfFair

/-- `perf_fair_schedule`. -/
def perfFairSchedule : Exec Unit := do
  if ← monitoringPhase then
    monitor
  else do
    writeResults
    sortAll
    let acc ← cdsListForEachEntrySafe .progsAll (0, bwLimit) PerfFair.passBody
    let empty ← listEmpty .progsAll
    when (acc.1 ≠ maxCores ∧ !empty) (PerfFair.fillCores acc.1 acc.2)

/-- The hooks of `perf_fair.c`. -/
def perfFair : Policy where
  collect := perfFairCollect
  progress := ratioProgress
  finishProgress := ratioFinish
  windowFactor := 1
  carry := carryBandwidth
  schedule := perfFairSchedule

/-- `perf_fair_freeze_sched`. -/
def perfFairFreezeSched : Exec Unit := freezeSched perfFair

/-- `perf_fair_respawn`. -/
def perfFairRespawn : ProgPtr → Exec Unit := respawn perfFair

/-- `perf_fair_rebalance`. -/
def perfFairRebalance : Exec Unit := rebalance perfFair

/-- `perf_fair_qexpired`. -/
def perfFairQexpired : Timeval → Exec Unit := qexpired perfFair

end BachScheduler
