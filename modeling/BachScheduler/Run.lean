import BachScheduler.Policies.FairBwCache
import BachScheduler.Policies.Linux

/-!
# Runs of the executor

`main` up to its loop, and what can happen in the loop: events are handled, a child
has changed its state, the wait ends, or the executor is told to terminate.  `SIGCHLD`
is blocked while events are handled, so the handlers follow one another.  No policy
has a `prog_changed` hook, so notifications of the programs change nothing here, and
nothing sets `reset_qt`.
-/

namespace BachScheduler

/-- The four policies, by the name they are registered under. -/
inductive PolicyName where
  | fair
  | perf
  | perfFair
  | fairBwCache
  deriving DecidableEq, Repr

/-- `get_scheduler`. -/
def PolicyName.policy : PolicyName → Policy
  | .fair => BachScheduler.fair
  | .perf => BachScheduler.perf
  | .perfFair => BachScheduler.perfFair
  | .fairBwCache => BachScheduler.fairBwCache

/-- The static memory of the process before `main`. -/
def ExecState.start (env : Env) (cpus : List Int) : ExecState where
  env := env
  reads := 0
  links := env.freshLinks
  brk := 0
  progs := env.freshProg
  pds := env.freshPd
  linuxData := env.freshLinuxData
  progsAllocated := 0
  events := fun _ => ⟨.qexpired, ⟨0, 0⟩, 0⟩
  eventsAllocated := 1
  eventsHeap := heapInit
  waitingNr := 0
  newNr := 0
  runningNr := 0
  finishedNr := 0
  cpus := cpus
  progPidHash := hashInit maxProgs
  tv0 := ⟨0, 0⟩
  qt := ⟨0, 200000⟩
  massacre := false
  totalQuantums := 0
  sched := .start env 0 fun _ => 0
  linux := .start 0 fun _ => 0
  log := []
  clocks := []

/-- `main` before its loop, with the programs that the file holds. -/
def bootWith (init : Exec Unit) (confs : List ProgConf) : Exec Unit := do
  initState confs
  init
  match ← orElseStop .misuse (heapPeek (← get).eventsHeap) with
  | none => throw (.exit 1)
  | some _ => do
      let tv0 ← readEnv Env.timeOfDay
      modify fun st => { st with tv0 := tv0 }

/-- `main` before its loop, with the targets that the second file holds. -/
def boot (confs : List ProgConf) (targets : Int → Word64) : Exec Unit :=
  bootWith (initPolicy targets) confs

/-- What happens next in the main loop. -/
inductive Input where
  | events
  | sigchld (reports : List WaitStatus)
  | timeout
  | sigterm
  deriving DecidableEq, Repr

/-- One handler, with the hooks of the scheduler. -/
def handleWith (rebalance : Exec Unit) (qexpired : Timeval → Exec Unit) : Input → Exec Unit
  | .events => do
      let _ ← handleEvents rebalance qexpired (some ⟨0, 0⟩)
      return ()
  | .sigchld reports => sigchldHandler rebalance reports
  | .timeout => checkShutdown
  | .sigterm => sigtermHandler

/-- One handler under one of the four policies. -/
def handle (policy : Policy) : Input → Exec Unit :=
  handleWith (rebalance policy) (qexpired policy)

/-- A run from the start of the process: its handlers in the order in which they run. -/
def runExecutor (policy : Policy) (confs : List ProgConf) (targets : Int → Word64)
    (inputs : List Input) : Exec Unit := do
  boot confs targets
  inputs.forM (handle policy)

/-- A run under the `linux` policy. -/
def runLinux (confs : List ProgConf) (targets : Int → Rat) (inputs : List Input) : Exec Unit := do
  bootWith (linuxInit targets) confs
  inputs.forM (handleWith linuxRebalance linuxQexpired)

section Still

/-- An `aff_prog` in which nothing is set. -/
def AffProg.blank : AffProg :=
  ⟨0, 0, 0, 0, [], .frozen, 0, 0, 0, 0, 0, 0, 0, 0, 0, 0, 0⟩

/-- A `prog_data` in which nothing is set. -/
def ProgData.blank : ProgData where
  killed := false
  ipcAlone := 0
  llcAlone := 0
  instrRetdSum := 0
  idealInstr := 0
  ratio := 0
  category := .none
  waitingTime := 0
  cpu := 0
  timesCpu := 0
  coresNeeded := 0
  respawned := false
  initId := 0
  runStatus := .stoped
  tmWstart := 0
  tmWstop := 0
  tmRstart := 0
  tmRstop := 0
  tmRunning := 0
  tmWaiting := 0
  stats := ssAffStatsInit
  instrRetd := 0
  unhCycles := 0
  llcMisses := 0
  l1Repl := 0
  l2In := 0
  memReads := 0
  sumMemReads := 0
  avgMemReads := 0
  fitness := 0
  llcOccupancy := 0

/-- An environment whose clocks and counters stand still, with a process id for each program. -/
def Env.still : Env where
  timeOfDay _ := ⟨0, 0⟩
  cpuTime _ := ⟨0, 0⟩
  getTicks _ _ := 0
  pmc _ _ _ := 0
  qmCtr _ _ := 0
  imcReads _ _ := 0
  imcWrites _ _ := 0
  forkPid n := n + 100
  appPid n := n + 100
  freshProg _ := .blank
  freshPd _ := .blank
  freshLinuxData _ := ⟨0, 0, false⟩
  freshPrfcnt _ := ⟨fun _ => 0, 0, 0⟩
  freshLinks := ⟨id, id⟩
  strayCpu _ := 0
  cmtAvailable := false
  upscalingFactor := 0

/-- An environment in which a second passes from one reading to the next and in which every
counter reads `count`. -/
def Env.counting (count : Word64) : Env :=
  { Env.still with
    timeOfDay := fun n => ⟨n, 0⟩
    getTicks := fun n _ => BitVec.ofNat 64 n
    pmc := fun _ _ _ => count }

/-- An environment in which eight readings of the day clock show the same second. -/
def Env.slow : Env :=
  { Env.counting 5 with timeOfDay := fun n => ⟨n / 8, 0⟩ }

/-- The line of a program that needs one core. -/
def ProgConf.single : ProgConf := ⟨1, 0, 0, 0, 0⟩

/-- The targets of a run in which only the first slot has a target within reach. -/
def oneTarget (i : Int) : Word64 :=
  if i = 0 then 3 else 1000

end Still

end BachScheduler
