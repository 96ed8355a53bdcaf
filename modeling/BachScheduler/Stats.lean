import BachScheduler.State

/-!
# Performance counters

The part of `stats.c` that the policies compute with.  A counter reads whatever the
environment says; switching the counters on and off and the energy counters only show
as uses of the counter structure.
-/

namespace BachScheduler

/-- A use of `aff_counters_t`. -/
def useCntrs : Exec Unit :=
  modifySched fun sched =>
    if sched.cntrs.live then sched
    else { sched with cntrs := { sched.cntrs with staleUses := sched.cntrs.staleUses + 1 } }

def modifyCntrs (change : AffCounters → AffCounters) : Exec Unit :=
  modifySched fun sched => { sched with cntrs := change sched.cntrs }

/-- A write to one of the result files. -/
def writeResults : Exec Unit :=
  modifySched fun sched =>
    if sched.resultsOpen then sched else { sched with closedWrites := sched.closedWrites + 1 }

section MemoryController

/-- Number of channels, `MCinfo.size`. -/
def mcSize : Nat := 5

/-- `getImcReads`. -/
def getImcReads : Exec Word64 :=
  readEnv fun env n => (List.range mcSize).foldl (fun result i => result + env.imcReads n i) 0

/-- `getImcWrites`. -/
def getImcWrites : Exec Word64 :=
  readEnv fun env n => (List.range mcSize).foldl (fun result i => result + env.imcWrites n i) 0

def modifyMcInfo (change : UncMc → UncMc) : Exec Unit :=
  modifyCntrs fun cntrs => { cntrs with mcInfo := change cntrs.mcInfo }

/-- `startMCCounters`. -/
def startMCCounters : Exec Unit := do
  useCntrs
  let reads ← getImcReads
  modifyMcInfo fun mc => { mc with previousMCNormalReads := reads }
  let writes ← getImcWrites
  modifyMcInfo fun mc => { mc with previousMCFullWrites := writes }

/-- `stopMCCounters`. -/
def stopMCCounters : Exec Unit := do
  useCntrs
  let currentReads ← getImcReads
  let currentWrites ← getImcWrites
  modifyMcInfo fun mc =>
    { mc with
      uncMCNormalReads := currentReads - mc.previousMCNormalReads
      uncMCFullWrites := currentWrites - mc.previousMCFullWrites }

/-- `startPower`. -/
def startPower : Exec Unit := useCntrs

/-- `stopPower`. -/
def stopPower : Exec Unit := useCntrs

end MemoryController

section CoreCounters

/-- Whether a cpu id is that of the monitored cpu with index `i`. -/
def ExecState.monitors (st : ExecState) (i : Nat) (cpu : Int) : Bool :=
  st.cpus[i]? = some cpu

/-- Whether the monitored cpu with index `i` belongs to a cpuset. -/
def ExecState.inCpuset (st : ExecState) (cpuset : List Int) (i : Nat) : Bool :=
  cpuset.any (st.monitors i)

/-- `prfcnt_read_cnts_rdmsr` with the `n`-th reading of the environment. -/
def prfcntReadCntsRdmsr (env : Env) (epoch n i : Nat) (handle : Prfcnt) : Prfcnt :=
  let data := env.qmCtr n i
  { counterData := env.pmc n i
    l3Occupancy :=
      if env.cmtAvailable && !data.getLsbD 63 && !data.getLsbD 62 then data <<< 2 >>> 2
      else handle.l3Occupancy
    epoch := epoch }

/-- Read the counters of some monitored cpus. -/
def readPrfcnts (selected : ExecState → Nat → Bool) : Exec Unit := do
  let n ← readEnv fun _ n => n
  modify fun st =>
    let cntrs := st.sched.cntrs
    let prfcnt := fun i =>
      if selected st i then prfcntReadCntsRdmsr st.env cntrs.epoch n i (cntrs.prfcnt i)
      else cntrs.prfcnt i
    { st with sched := { st.sched with cntrs := { cntrs with prfcnt := prfcnt } } }

/-- `ss_aff_counter_start`. -/
def ssAffCounterStart (_cpu : Int) : Exec Unit := useCntrs

/-- `ss_aff_stop_counter`. -/
def ssAffStopCounter (_cpu : Int) : Exec Unit := useCntrs

/-- `ss_aff_read_counter`. -/
def ssAffReadCounter (cpu : Int) : Exec Unit := do
  useCntrs
  readPrfcnts fun st i => st.monitors i cpu

/-- `ss_aff_counters_start`. -/
def ssAffCountersStart : Exec Unit := useCntrs

/-- `ss_aff_stop_counters`. -/
def ssAffStopCounters : Exec Unit := useCntrs

/-- `ss_aff_read_counters`. -/
def ssAffReadCounters : Exec Unit := do
  useCntrs
  readPrfcnts fun st i => i < st.cpus.length

/-- `ss_aff_zero_cntrs`: a new counting epoch begins. -/
def ssAffZeroCntrs : Exec Unit := do
  useCntrs
  modifyCntrs fun cntrs => { cntrs with epoch := cntrs.epoch + 1 }

/-- `Pciclose`. -/
def pciclose : Exec Unit := useCntrs

/-- `ss_close_counters`. -/
def ssCloseCounters : Exec Unit := useCntrs

/-- `ss_aff_counters_free`. -/
def ssAffCountersFree : Exec Unit := do
  useCntrs
  modifyCntrs fun cntrs => { cntrs with live := false }

end CoreCounters

section ProgramStats

/-- `tsc_init`. -/
def tscInit : Tsc := ⟨0, 0⟩

/-- `tsc_start`. -/
def tscStart (ticks : Word64) (tsc : Tsc) : Tsc :=
  { tsc with last := ticks }

/-- `tsc_pause`. -/
def tscPause (ticks : Word64) (tsc : Tsc) : Tsc :=
  { tsc with ticks := tsc.ticks + (ticks - tsc.last) }

/-- `ss_aff_stats_init`. -/
def ssAffStatsInit : AffStats where
  running := fun _ => tscInit
  events := fun _ _ => 0
  eventsTmp := fun _ _ => 0
  l3OccupancyMetric := fun _ => 0
  epoch := fun _ => none

def modifyStats (prog : ProgPtr) (change : AffStats → AffStats) : Exec Unit :=
  modifyPd prog fun pd => { pd with stats := change pd.stats }

/-- Change the running clocks of a program on the cpus of its cpuset. -/
def modifyRunning (prog : ProgPtr) (change : Word64 → Tsc → Tsc) : Exec Unit := do
  useCntrs
  let ticks ← readEnv fun env n => env.getTicks n
  let st ← get
  modifyStats prog fun stats =>
    { stats with
      running := fun i =>
        if st.inCpuset (st.progs prog).cpuset i then change (ticks i) (stats.running i)
        else stats.running i }

/-- `ss_aff_stats_start`. -/
def ssAffStatsStart (prog : ProgPtr) : Exec Unit := modifyRunning prog tscStart

/-- `ss_aff_stats_pause`. -/
def ssAffStatsPause (prog : ProgPtr) : Exec Unit := modifyRunning prog tscPause

/-- `ss_aff_stats_read`: copy the counters of the cpus in the program's cpuset. -/
def ssAffStatsRead (prog : ProgPtr) : Exec Unit := do
  useCntrs
  let st ← get
  let cntrs := st.sched.cntrs
  let selected := st.inCpuset (st.progs prog).cpuset
  modifyStats prog fun stats =>
    { stats with
      events := fun i => if selected i then (cntrs.prfcnt i).counterData else stats.events i
      eventsTmp := fun i j =>
        if selected i then stats.eventsTmp i j + (cntrs.prfcnt i).counterData
          j else stats.eventsTmp i j
      l3OccupancyMetric := fun i =>
        if selected i && st.env.cmtAvailable then
          (cntrs.prfcnt i).l3Occupancy * cntrs.upscalingFactor.setWidth 64
        else stats.l3OccupancyMetric i
      epoch := fun i => if selected i then some (cntrs.prfcnt i).epoch else stats.epoch i }

/-- `ss_aff_zero_stats`. -/
def ssAffZeroStats (prog : ProgPtr) : Exec Unit := do
  useCntrs
  modifyStats prog fun stats =>
    { stats with
      events := fun _ _ => 0
      l3OccupancyMetric := fun _ => 0
      epoch := fun _ => none }

/-- `ss_aff_stats_shutdown` and `ss_aff_stats_free`, of which only the use of the
counters can be seen once the program is gone. -/
def ssAffStatsShutdown (_prog : ProgPtr) : Exec Unit := useCntrs

/-- The sum over the monitored cpus on which a program has run. -/
def AffStats.sumRun (stats : AffStats) (cpusNr : Nat) (metric : Nat → Word64) : Word64 :=
  (List.range cpusNr).foldl
    (fun value i => if (stats.running i).ticks ≠ 0 then value + metric i else value) 0

/-- `ss_get_counter` of a `PROG_EVENT`. -/
def ssGetCounter (prog : ProgPtr) (counter : Nat) : Exec Word64 := do
  useCntrs
  let st ← get
  let stats := (st.pds prog).stats
  return stats.sumRun st.cpus.length fun i => stats.events i counter

/-- `ss_get_counter` of an `RMID_EVENT`. -/
def ssGetOccupancy (prog : ProgPtr) : Exec Word64 := do
  useCntrs
  let st ← get
  let stats := (st.pds prog).stats
  return stats.sumRun st.cpus.length stats.l3OccupancyMetric

/-- Sum of one event over all monitored cpus since the program started. -/
def getTotal (prog : ProgPtr) (event : Nat) : Exec Word64 := do
  useCntrs
  let st ← get
  let stats := (st.pds prog).stats
  return (List.range st.cpus.length).foldl (fun value i => value + stats.eventsTmp i event) 0

/-- `get_total_instr`. -/
def getTotalInstr (prog : ProgPtr) : Exec Word64 := getTotal prog 0

/-- `get_total_cycles`. -/
def getTotalCycles (prog : ProgPtr) : Exec Word64 := getTotal prog 1

end ProgramStats

end BachScheduler
