import BachScheduler.Policies.PerfFair

/-!
# The policy of `fair_bw_cache.c`

As `perf_fair.c`, with one rule for each class of programs, for bandwidth and for cache.
-/

namespace BachScheduler

namespace FairBwCache

/-- `LLC_LIMIT`. -/
def llcLimit : Word32 := 15605765

/-- The local variables of the first loop in `fair_bw_cache_schedule`. -/
structure Pass where
  cores : Int
  bwRem : Word64
  llcRem : Word32
  bwOn : Bool
  csOn : Bool

/-- Whether a program uses more cache than is left, with the tolerance of the source. -/
def overLlc (pass : Pass) (pd : ProgData) : Bool :=
  pd.llcAlone.toInt > (pass.llcRem + 4000000).toInt

/-- The rules of the first loop: what is left once the program is admitted, if it is. -/
def admitClass (pd : ProgData) (pass : Pass) : Option Pass :=
  match pd.category with
  | .bw =>
      if pass.csOn || pd.sumMemReads > pass.bwRem + 15625000 then none
      else some { pass with bwRem := pass.bwRem - pd.sumMemReads, bwOn := true }
  | .cs =>
      if pass.bwOn || overLlc pass pd then none
      else some { pass with llcRem := pass.llcRem - pd.llcAlone, csOn := true }
  | .cns =>
      if pass.csOn && overLlc pass pd then none
      else some { pass with llcRem := pass.llcRem - pd.llcAlone }
  | .none | .n => some pass

/-- The body of the first loop in `fair_bw_cache_schedule`. -/
def passBody (prog : ProgPtr) (pass : Pass) : Exec (ForInStep Pass) := do
  if pass.cores = maxCores then
    return .done pass
  else do
    let pd ← readPd prog
    match admitClass pd pass with
    | none => return .yield pass
    | some pass => do
        let cores ← dispatch prog pass.cores
        return .yield { pass with cores := cores }

/-- The programs that `good_neighbors` considers. -/
def candidate (bwOn : Bool) (pd : ProgData) : Bool :=
  if bwOn then pd.category = .bw else pd.category = .cs || pd.category = .cns

/-- Whether `good_neighbors` prefers a program to the best one so far. -/
def better (bwOn : Bool) (pd minPd : ProgData) : Bool :=
  if bwOn then pd.sumMemReads < minPd.sumMemReads else pd.llcAlone.toInt < minPd.llcAlone.toInt

/-- The body of the first loop in `good_neighbors`. -/
def drainBody (bwOn : Bool) (prog : ProgPtr) (_ : Unit) : Exec (ForInStep Unit) := do
  let pd ← readPd prog
  when (candidate bwOn pd) (elemMove2tail prog .rest)
  return .yield ()

/-- The body of the second loop in `good_neighbors`. -/
def bestBody (bwOn : Bool) (prog min : ProgPtr) : Exec (ForInStep ProgPtr) := do
  let pd ← readPd prog
  let minPd ← readPd min
  return .yield (if better bwOn pd minPd then prog else min)

/-- The body of the last loop in `good_neighbors`. -/
def restoreBody (prog : ProgPtr) (_ : Unit) : Exec (ForInStep Unit) := do
  elemMove2tail prog .progsAll
  return .yield ()

/-- `good_neighbors`. -/
def goodNeighbors (bwOn : Bool) : Exec (Option ProgPtr) := do
  modifyLinks (cdsInitListHead .rest)
  cdsListForEachEntrySafe .progsAll () (drainBody bwOn)
  if ← listEmpty .rest then
    return none
  else do
    let min ← cdsListFirst .rest
    let min ← cdsListForEachEntrySafe .rest min (bestBody bwOn)
    elemMove2tail min .progsSch
    when (!(← listEmpty .rest)) (cdsListForEachEntrySafe .rest () restoreBody)
    return some min

/-- The loop over `good_neighbors` in `fair_bw_cache_schedule`. -/
def neighborsLoop (bwOn : Bool) : Nat → Int → Exec Unit
  | 0, _ => throw .noFuel
  | fuel + 1, cores =>
      if cores = maxCores then
        return ()
      else do
        match ← goodNeighbors bwOn with
        | some prog => do
            assignCores prog cores
            let coresNeeded := (← readProg prog).coresNeeded
            neighborsLoop bwOn fuel (cores + coresNeeded)
        | none => fillRestCores cores

/-- The cores that the first loop of `fair_bw_cache_schedule` left free. -/
def fillCores (bwOn : Bool) (cores : Int) : Exec Unit := do
  if (← readSched).progsNr ≤ maxCores then
    fillRestCores cores
  else do
    let fuel ← walkFuel
    neighborsLoop bwOn fuel cores

end FairBwCache

/-- `fair_bw_cache_collect`. -/
def fairBwCacheCollect (prog : ProgPtr) : Exec Unit := perfFairCollect prog

/-- `fair_bw_cache_schedule`. -/
def fairBwCacheSchedule : Exec Unit := do
  if ← monitoringPhase then
    monitor
  else do
    writeResults
    sortAll
    let pass ← cdsListForEachEntrySafe .progsAll ⟨0, bwLimit, FairBwCache.llcLimit, false, false⟩
      FairBwCache.passBody
    let empty ← listEmpty .progsAll
    when (pass.cores ≠ maxCores ∧ !empty) (FairBwCache.fillCores pass.bwOn pass.cores)

/-- The hooks of `fair_bw_cache.c`. -/
def fairBwCache : Policy where
  collect := fairBwCacheCollect
  progress := ratioProgress
  finishProgress := ratioFinish
  windowFactor := 1
  carry := carryBandwidth
  schedule := fairBwCacheSchedule

/-- `fair_bw_cache_freeze_sched`. -/
def fairBwCacheFreezeSched : Exec Unit := freezeSched fairBwCache

/-- `fair_bw_cache_respawn`. -/
def fairBwCacheRespawn : ProgPtr → Exec Unit := respawn fairBwCache

/-- `fair_bw_cache_rebalance`. -/
def fairBwCacheRebalance : Exec Unit := rebalance fairBwCache

/-- `fair_bw_cache_qexpired`. -/
def fairBwCacheQexpired : Timeval → Exec Unit := qexpired fairBwCache

end BachScheduler
