import BachScheduler.Lib.Wp
import BachScheduler.Run

/-!
# The part of the state that the life of the programs depends on

`Core` keeps of the state what decides which programs exist, where they are, what they
are charged, which cores they have and how long they ran and waited; `View` adds the list
nodes and the event heap.  Samples and most totals are left out: the functions that only deal
with those do not change the view.
-/

namespace BachScheduler

open BachScheduler.Ring Wp

/-- Core fields of `aff_prog`. -/
structure ProgCore where
  id : Int
  pid : Nat
  shellPid : Nat
  cpuset : List Int
  freezer : FrzrState
  coresNeeded : Int
  instrRetdSum : Word64

/-- The clocks of a program, but for the stamps that nothing reads. -/
structure Clock where
  wstart : Word32
  rstart : Word32
  running : Word32
  waiting : Word32

/-- Core fields of `prog_data`; of the statistics, the epochs of the samples and the
instructions accumulated on each monitored cpu. -/
structure PdCore where
  killed : Bool
  initId : Int
  cpu : Int
  instrRetdSum : Word64
  instrRetd : Word64
  runStatus : RunStatus
  clock : Clock
  epoch : Nat → Option Nat
  accumulated : Nat → Word64

/-- Core fields of `sched`; of the printed totals, where they are numbers. -/
structure SchedCore where
  totalTics : Int
  monitorWnd : Int
  progsNr : Int
  progsInit : Int
  progsLeft : Int
  progsFnsh : Int
  stopExecution : Bool
  targetInstr : Int → Word64
  totalInstr : Int → Word64
  progTimesFinished : Int → Int
  instrProgs : Int → Word64
  printed : Int → Bool
  epoch : Nat
  prfEpoch : Nat → Nat

/-- The core of the state. -/
structure Core where
  progs : ProgPtr → ProgCore
  pds : ProgPtr → PdCore
  progsAllocated : Nat
  waitingNr : Int
  newNr : Int
  runningNr : Int
  finishedNr : Int
  cpus : List Int
  strayCpu : Int → Int
  progPidHash : Hash ProgPtr
  qt : Timeval
  massacre : Bool
  sched : SchedCore
  log : List Event
  clocks : List ClockEvent

/-- The core with the list nodes and the event heap. -/
structure View where
  links : Links Node
  eventsHeap : Heap EvntPtr
  events : EvntPtr → AffEvent
  eventsAllocated : Nat
  core : Core

section Projection

def AffProg.core (p : AffProg) : ProgCore where
  id := p.id
  pid := p.pid
  shellPid := p.shellPid
  cpuset := p.cpuset
  freezer := p.freezer
  coresNeeded := p.coresNeeded
  instrRetdSum := p.instrRetdSum

def ProgData.core (pd : ProgData) : PdCore where
  killed := pd.killed
  initId := pd.initId
  cpu := pd.cpu
  instrRetdSum := pd.instrRetdSum
  instrRetd := pd.instrRetd
  runStatus := pd.runStatus
  clock := ⟨pd.tmWstart, pd.tmRstart, pd.tmRunning, pd.tmWaiting⟩
  epoch := pd.stats.epoch
  accumulated := fun i => pd.stats.eventsTmp i 0

def Sched.core (sched : Sched) : SchedCore where
  totalTics := sched.totalTics
  monitorWnd := sched.monitorWnd
  progsNr := sched.progsNr
  progsInit := sched.progsInit
  progsLeft := sched.progsLeft
  progsFnsh := sched.progsFnsh
  stopExecution := sched.stopExecution
  targetInstr := sched.targetInstr
  totalInstr := sched.totalInstr
  progTimesFinished := sched.progTimesFinished
  instrProgs := sched.instrProgs
  printed := fun i => (sched.printedTimes i).isSome
  epoch := sched.cntrs.epoch
  prfEpoch := fun i => (sched.cntrs.prfcnt i).epoch

def ExecState.core (st : ExecState) : Core where
  progs := fun prog => (st.progs prog).core
  pds := fun prog => (st.pds prog).core
  progsAllocated := st.progsAllocated
  waitingNr := st.waitingNr
  newNr := st.newNr
  runningNr := st.runningNr
  finishedNr := st.finishedNr
  cpus := st.cpus
  strayCpu := st.env.strayCpu
  progPidHash := st.progPidHash
  qt := st.qt
  massacre := st.massacre
  sched := st.sched.core
  log := st.log
  clocks := st.clocks

def view (st : ExecState) : View where
  links := st.links
  eventsHeap := st.eventsHeap
  events := st.events
  eventsAllocated := st.eventsAllocated
  core := st.core

end Projection

section Effects

namespace Core

def modProg (prog : ProgPtr) (change : ProgCore → ProgCore) (core : Core) : Core :=
  { core with progs := Function.update core.progs prog (change (core.progs prog)) }

def modPd (prog : ProgPtr) (change : PdCore → PdCore) (core : Core) : Core :=
  { core with pds := Function.update core.pds prog (change (core.pds prog)) }

def modSched (change : SchedCore → SchedCore) (core : Core) : Core :=
  { core with sched := change core.sched }

def note (event : Event) (core : Core) : Core :=
  { core with log := core.log ++ [event] }

def noteClocks (events : List ClockEvent) (core : Core) : Core :=
  { core with clocks := core.clocks ++ events }

/-- `cpus[i]`. -/
def cpuAt (core : Core) (i : Int) : Int :=
  if 0 ≤ i then core.cpus.getD i.toNat (core.strayCpu i) else core.strayCpu i

end Core

namespace View

def modCore (change : Core → Core) (v : View) : View :=
  { v with core := change v.core }

def modLinks (change : Links Node → Links Node) (v : View) : View :=
  { v with links := change v.links }

@[simp] theorem modCore_links (change : Core → Core) (v : View) :
    (v.modCore change).links = v.links := rfl

@[simp] theorem modCore_eventsHeap (change : Core → Core) (v : View) :
    (v.modCore change).eventsHeap = v.eventsHeap := rfl

@[simp] theorem modCore_events (change : Core → Core) (v : View) :
    (v.modCore change).events = v.events := rfl

@[simp] theorem modCore_eventsAllocated (change : Core → Core) (v : View) :
    (v.modCore change).eventsAllocated = v.eventsAllocated := rfl

@[simp] theorem modCore_core (change : Core → Core) (v : View) :
    (v.modCore change).core = change v.core := rfl

@[simp] theorem modLinks_links (change : Links Node → Links Node) (v : View) :
    (v.modLinks change).links = change v.links := rfl

@[simp] theorem modLinks_eventsHeap (change : Links Node → Links Node) (v : View) :
    (v.modLinks change).eventsHeap = v.eventsHeap := rfl

@[simp] theorem modLinks_events (change : Links Node → Links Node) (v : View) :
    (v.modLinks change).events = v.events := rfl

@[simp] theorem modLinks_eventsAllocated (change : Links Node → Links Node) (v : View) :
    (v.modLinks change).eventsAllocated = v.eventsAllocated := rfl

@[simp] theorem modLinks_core (change : Links Node → Links Node) (v : View) :
    (v.modLinks change).core = v.core := rfl

end View

end Effects

section Actions

variable {prog : ProgPtr}

theorem modifyProg_acts {change : AffProg → AffProg} {g : ProgCore → ProgCore}
    (changes : ∀ p, (change p).core = g p.core) :
    Acts view (modifyProg prog change) (View.modCore (Core.modProg prog g)) := by
  refine Acts.modify fun st => ?_
  simp only [view, View.modCore, Core.modProg, ExecState.core, View.mk.injEq,
    Core.mk.injEq, true_and, and_true]
  funext other
  by_cases equal : other = prog
  · subst equal
    simp [changes]
  · simp [equal]

theorem modifyPd_acts {change : ProgData → ProgData} {g : PdCore → PdCore}
    (changes : ∀ pd, (change pd).core = g pd.core) :
    Acts view (modifyPd prog change) (View.modCore (Core.modPd prog g)) := by
  refine Acts.modify fun st => ?_
  simp only [view, View.modCore, Core.modPd, ExecState.core, View.mk.injEq, Core.mk.injEq, true_and,
    and_true]
  funext other
  by_cases equal : other = prog
  · subst equal
    simp [changes]
  · simp [equal]

theorem modifySched_acts {change : Sched → Sched} {g : SchedCore → SchedCore}
    (changes : ∀ sched, (change sched).core = g sched.core) :
    Acts view (modifySched change) (View.modCore (Core.modSched g)) := by
  refine Acts.modify fun st => ?_
  simp only [view, View.modCore, Core.modSched, ExecState.core, changes]

theorem emit_acts (event : Event) : Acts view (emit event) (View.modCore (Core.note event)) :=
  Acts.modify fun _ => rfl

theorem noteClock_acts (event : ClockEvent) :
    Acts view (noteClock event) (View.modCore (Core.noteClocks [event])) :=
  Acts.modify fun _ => rfl

theorem modifyPd_quiet {change : ProgData → ProgData} (same : ∀ pd, (change pd).core = pd.core) :
    Acts view (modifyPd prog change) id := by
  refine Acts.modify fun st => ?_
  simp only [view, ExecState.core, id, View.mk.injEq, Core.mk.injEq, true_and, and_true]
  funext other
  by_cases equal : other = prog
  · subst equal
    simp [same]
  · simp [equal]

theorem modifySched_quiet {change : Sched → Sched}
    (same : ∀ sched, (change sched).core = sched.core) :
    Acts view (modifySched change) id := by
  refine Acts.modify fun st => ?_
  simp only [view, ExecState.core, same, id]

theorem readEnv_quiet {α : Type} (value : Env → Nat → α) : Acts view (readEnv value) id :=
  fun _ => rfl

theorem readPd_quiet : Acts view (readPd prog) id := fun _ => rfl

theorem readSched_quiet : Acts view readSched id := fun _ => rfl

theorem when_quiet {c : Prop} [Decidable c] {action : Exec Unit} (quiet : Acts view action id) :
    Acts view (when c action) id := by
  unfold when
  split
  · exact quiet
  · exact Acts.pure _

end Actions

section Counters

theorem useCntrs_quiet : Acts view useCntrs id :=
  modifySched_quiet fun sched => by split <;> rfl

theorem writeResults_quiet : Acts view writeResults id :=
  modifySched_quiet fun sched => by split <;> rfl

theorem modifyMcInfo_quiet (change : UncMc → UncMc) : Acts view (modifyMcInfo change) id :=
  modifySched_quiet fun _ => rfl

theorem startMCCounters_quiet : Acts view startMCCounters id := by
  unfold startMCCounters
  refine useCntrs_quiet.skip fun _ => ?_
  refine (readEnv_quiet _).skip fun _ => ?_
  refine (modifyMcInfo_quiet _).skip fun _ => ?_
  refine (readEnv_quiet _).skip fun _ => ?_
  exact modifyMcInfo_quiet _

theorem stopMCCounters_quiet : Acts view stopMCCounters id := by
  unfold stopMCCounters
  refine useCntrs_quiet.skip fun _ => ?_
  refine (readEnv_quiet _).skip fun _ => ?_
  refine (readEnv_quiet _).skip fun _ => ?_
  exact modifyMcInfo_quiet _

theorem getOffcoreMetrics_quiet : Acts view getOffcoreMetrics id := by
  unfold getOffcoreMetrics
  refine useCntrs_quiet.skip fun _ => writeResults_quiet.skip fun _ => ?_
  exact modifySched_quiet fun _ => rfl

theorem schedulingTime_quiet : Acts view schedulingTime id :=
  (readEnv_quiet _).skip fun _ => readSched_quiet.skip fun _ => Acts.pure _

theorem schedInitialMetrics_quiet : Acts view schedInitialMetrics id := by
  unfold schedInitialMetrics
  refine readSched_quiet.skip fun _ => (when_quiet ?_).skip fun _ => writeResults_quiet
  exact schedulingTime_quiet.skip fun _ => useCntrs_quiet.skip fun _ => writeResults_quiet

theorem ssGetCounter_quiet (prog : ProgPtr) (counter : Nat) :
    Acts view (ssGetCounter prog counter) id := by
  unfold ssGetCounter
  exact useCntrs_quiet.skip fun _ => Acts.get.skip fun _ => Acts.pure _

theorem ssGetOccupancy_quiet (prog : ProgPtr) : Acts view (ssGetOccupancy prog) id := by
  unfold ssGetOccupancy
  exact useCntrs_quiet.skip fun _ => Acts.get.skip fun _ => Acts.pure _

theorem getTotal_quiet (prog : ProgPtr) (event : Nat) : Acts view (getTotal prog event) id := by
  unfold getTotal
  exact useCntrs_quiet.skip fun _ => Acts.get.skip fun _ => Acts.pure _

theorem modifyRunning_quiet (prog : ProgPtr) (change : Word64 → Tsc → Tsc) :
    Acts view (modifyRunning prog change) id := by
  unfold modifyRunning
  refine useCntrs_quiet.skip fun _ => ?_
  refine (readEnv_quiet _).skip fun _ => Acts.get.skip fun _ => ?_
  exact modifyPd_quiet fun _ => rfl

/-- Note in which epoch some of the counters were read. -/
def Core.readEpochs (among : List Int → Nat → Bool) (core : Core) : Core :=
  core.modSched fun sched =>
    { sched with prfEpoch := fun i => if among core.cpus i then sched.epoch else sched.prfEpoch i }

/-- Which counters a reading covers depends on the monitored cpus only. -/
theorem readPrfcnts_acts {selected : ExecState → Nat → Bool} (among : List Int → Nat → Bool)
    (same : ∀ st, selected st = among st.cpus) :
    Acts view (readPrfcnts selected) (View.modCore (Core.readEpochs among)) := by
  unfold readPrfcnts
  refine (readEnv_quiet _).skip fun n => Acts.modify fun st => ?_
  simp only [view, View.modCore, Core.readEpochs, Core.modSched, ExecState.core, Sched.core, same,
    View.mk.injEq, Core.mk.injEq, SchedCore.mk.injEq, true_and, and_true]
  funext i
  by_cases read : among st.cpus i = true <;> simp [read, prfcntReadCntsRdmsr]

theorem ssAffReadCounters_acts :
    Acts view ssAffReadCounters (View.modCore (Core.readEpochs fun cpus i => i < cpus.length)) := by
  unfold ssAffReadCounters
  exact useCntrs_quiet.skip fun _ => readPrfcnts_acts _ fun _ => rfl

theorem ssAffReadCounter_acts (cpu : Int) :
    Acts view (ssAffReadCounter cpu)
      (View.modCore (Core.readEpochs fun cpus i => cpus[i]? = some cpu)) := by
  unfold ssAffReadCounter
  exact useCntrs_quiet.skip fun _ => readPrfcnts_acts _ fun _ => rfl

theorem ssAffZeroCntrs_acts : Acts view ssAffZeroCntrs
      (View.modCore (Core.modSched fun sched => { sched with epoch := sched.epoch + 1 })) := by
  unfold ssAffZeroCntrs
  exact useCntrs_quiet.skip fun _ => modifySched_acts fun _ => rfl

/-- A program's samples are zeroed. -/
def Core.zeroEpochs (prog : ProgPtr) : Core → Core :=
  Core.modPd prog fun pd => { pd with epoch := fun _ => none }

theorem ssAffZeroStats_acts (prog : ProgPtr) :
    Acts view (ssAffZeroStats prog) (View.modCore (Core.zeroEpochs prog)) := by
  unfold ssAffZeroStats
  exact useCntrs_quiet.skip fun _ => modifyPd_acts fun _ => rfl

/-- The monitored cpus of a program's cpuset, by their index. -/
def Core.inCpuset (core : Core) (prog : ProgPtr) (i : Nat) : Bool :=
  (core.progs prog).cpuset.any fun cpu => core.cpus[i]? = some cpu

/-- A program's samples are taken from the counters of its cpus; what they show is added
up as `accumulated`. -/
def Core.copyStats (prog : ProgPtr) (accumulated : Nat → Word64) (core : Core) : Core :=
  core.modPd prog fun pd =>
    { pd with
      epoch := fun i => if core.inCpuset prog i then some (core.sched.prfEpoch i) else pd.epoch i
      accumulated := accumulated }

theorem ssAffStatsRead_copies {E : Stop → ExecState → Prop} {st : ExecState} (prog : ProgPtr) :
    wp (ssAffStatsRead prog) (fun _ st' => ∃ accumulated,
      view st' = (view st).modCore (Core.copyStats prog accumulated)) E st := by
  unfold ssAffStatsRead
  refine useCntrs_quiet.before fun _ st₁ same => ?_
  refine Wp.bind_ok rfl (Wp.modify ⟨fun i => if st₁.inCpuset (st₁.progs prog).cpuset i then
    (st₁.pds prog).stats.eventsTmp i 0 + (st₁.sched.cntrs.prfcnt i).counterData 0
    else (st₁.pds prog).stats.eventsTmp i 0, ?_⟩)
  rw [id_eq] at same
  rw [← same]
  simp only [view, View.modCore, Core.copyStats, Core.modPd, ExecState.core, View.mk.injEq,
    Core.mk.injEq, true_and, and_true]
  funext other
  by_cases equal : other = prog
  · subst equal
    simp only [Function.update_self]
    rfl
  · simp [equal]

end Counters

end BachScheduler
