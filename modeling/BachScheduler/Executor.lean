import BachScheduler.Common

/-!
# The executor

The part of `aff-executor.c` that moves programs through their states, keeps the
event heap and reacts to signals.  The hooks of the policy are arguments.  Calls of
the system are taken to succeed, and what they return is a reading of the
environment.
-/

namespace BachScheduler

section States

/-- `aff_prog_waiting_new`. -/
def affProgWaitingNew (prog : ProgPtr) : Exec Unit := do
  modify fun st => { st with waitingNr := st.waitingNr - 1 }
  modifyLinks (cdsListAddTail (.plNode prog) .pnewL)
  modify fun st => { st with newNr := st.newNr + 1 }

/-- `aff_prog_new_running`. -/
def affProgNewRunning (prog : ProgPtr) : Exec Unit := do
  modify fun st => { st with newNr := st.newNr - 1 }
  modify fun st => { st with runningNr := st.runningNr + 1 }
  let shellPid := (← readProg prog).shellPid
  modify fun st => { st with progPidHash := hashInsert st.progPidHash shellPid prog }
  emit (.newRunning prog)

/-- `aff_prog_running_finished`. -/
def affProgRunningFinished (pid : Nat) : Exec Unit := do
  let deleted := hashDelete (← get).progPidHash pid
  modify fun st => { st with progPidHash := deleted.2 }
  let prog ← orElseStop .assertFailed deleted.1
  modify fun st => { st with runningNr := st.runningNr - 1 }
  modifyLinks (cdsListDel (.plNode prog))
  modifyLinks (cdsListAddTail (.plNode prog) .pfinishedL)
  modify fun st => { st with finishedNr := st.finishedNr + 1 }
  emit (.runningFinished prog)

end States

section Cpusets

/-- `schedule_setcpurange`, for a program that needs a core: the kernel refuses an empty cpuset, and
`do_setcpumask` exits. -/
def scheduleSetcpurange (prog : ProgPtr) (rstart rend : Int) : Exec Unit := do
  emit (.setCpuRange prog rstart rend)
  let st ← get
  let cpuset := (List.range (rend - rstart).toNat).map fun k : Nat => st.cpuAt (rstart + (k : Int))
  modifyProg prog fun p => { p with cpuset := cpuset }

/-- `get_cpus`: the list of a cpuset begins with its smallest cpu. -/
def getCpus (prog : ProgPtr) : Exec Int := do
  return ((← readProg prog).cpuset.min?).getD 0

/-- `frzr_setstate`. -/
def frzrSetstate (prog : ProgPtr) (state : FrzrState) : Exec Unit :=
  modifyProg prog fun p => { p with freezer := state }

end Cpusets

section Events

/-- `aff_event_leq_ul`. -/
def affEventLeqUl (events : EvntPtr → AffEvent) (evnt1 evnt2 : EvntPtr) : Bool :=
  !timercmpGt (events evnt1).tv (events evnt2).tv

/-- `heap_push` on the event heap. -/
def eventsHeapPush (evnt : EvntPtr) : Exec Unit := do
  let st ← get
  let heap ← orElseStop .misuse (heapPush (affEventLeqUl st.events) st.eventsHeap evnt)
  modify fun st => { st with eventsHeap := heap }

/-- `aff_evnt_alloc`, with the fields that its callers store before they use it. -/
def affEvntAlloc (type : EvntType) (prog : ProgPtr) (tv : Timeval) : Exec EvntPtr := do
  let st ← get
  let evnt := st.eventsAllocated
  set { st with
    events := Function.update st.events evnt ⟨type, tv, prog⟩
    eventsAllocated := evnt + 1 }
  return evnt

/-- `handle_event`. -/
def handleEvent (qexpired : Timeval → Exec Unit) (evnt : EvntPtr) (now : Timeval) : Exec Unit := do
  let event := (← get).events evnt
  match event.type with
  | .newprog => affProgWaitingNew event.prog
  | .sampling => return ()
  | .qexpired => qexpired now

/-- `select_ready_events`; `nextWakeup` is what the pointer refers to, if there is one. -/
def selectReadyEvents (qexpired : Timeval → Exec Unit) (now : Timeval) :
    Nat → Option Timeval → Exec (Option Timeval)
  | 0, _ => throw .noFuel
  | fuel + 1, nextWakeup => do
      let st ← get
      match ← orElseStop .misuse (heapPeek st.eventsHeap) with
      | none => return nextWakeup
      | some evnt =>
          if timercmpGt (st.events evnt).tv now then
            return nextWakeup.map fun _ => timersub (st.events evnt).tv now
          else do
            let popped ← orElseStop .misuse (heapPop (affEventLeqUl st.events) st.eventsHeap)
            modify fun st => { st with eventsHeap := popped.1 }
            handleEvent qexpired evnt now
            selectReadyEvents qexpired now fuel nextWakeup

/-- `get_now`. -/
def getNow : Exec Timeval := do
  let nowAbs ← readEnv Env.timeOfDay
  return timersub nowAbs (← get).tv0

/-- `handle_events`.  Each event of the heap is handled at most once, and `qt_event` once
more, so its size bounds the rounds. -/
def handleEvents (rebalance : Exec Unit) (qexpired : Timeval → Exec Unit)
    (nextWakeup : Option Timeval) : Exec (Option Timeval) := do
  let now ← getNow
  let fuel := heapSize (← get).eventsHeap + 1
  let nextWakeup ← selectReadyEvents qexpired now fuel nextWakeup
  when ((← get).newNr > 0) rebalance
  return nextWakeup

end Events

section Processes

/-- `aff_prog_alloc`, up to the fields that the caller stores. -/
def affProgAlloc (id : Int) : Exec ProgPtr := do
  let fresh ← readEnv Env.freshProg
  let st ← get
  let prog := st.progsAllocated
  set { st with
    progs := Function.update st.progs prog { fresh with id := id, cpuset := [] }
    progsAllocated := prog + 1 }
  return prog

/-- `do_execute`: the new process freezes itself. -/
def doExecute (prog : ProgPtr) : Exec Unit := do
  let shellPid ← readEnv Env.forkPid
  modifyProg prog fun p => { p with shellPid := shellPid }
  modifyProg prog fun p => { p with freezer := .frozen }
  let pid ← readEnv Env.appPid
  modifyProg prog fun p => { p with pid := pid }
  scheduleSetcpurange prog 0 (← get).cpus.length

/-- One line of the configuration file, as `parse_line` reads it. -/
structure ProgConf where
  coresNeeded : Int
  memNeeded : Word64
  thrNeeded : Word64
  thrReal : Word64
  startTime : Int

/-- The stores of `parse_line`. -/
def parseLine (conf : ProgConf) (p : AffProg) : AffProg :=
  { p with
    timesCpu := 0
    llcAlone := 0
    sumMemReads := 0
    memReads := 0
    ratio := 0
    instrRetdSum := 0
    idealInstr := 0
    pid := 0
    startTime := conf.startTime
    memNeeded := conf.memNeeded
    thrNeeded := conf.thrNeeded
    thrReal := conf.thrReal
    coresNeeded := conf.coresNeeded }

/-- Execute a program and put its event into the heap. -/
def launch (prog : ProgPtr) : Exec Unit := do
  doExecute prog
  let startTime := (← readProg prog).startTime
  let evnt ← affEvntAlloc .newprog prog ⟨startTime, 0⟩
  eventsHeapPush evnt
  modify fun st => { st with waitingNr := st.waitingNr + 1 }

/-- The body of the loop in `parse_file`; `cnt` numbers the lines from 1000. -/
def parseFileLine (line : ProgConf × Nat) : Exec Unit := do
  let prog ← affProgAlloc (1000 + line.2)
  modifyProg prog (parseLine line.1)
  launch prog

/-- `parse_file`. -/
def parseFile (confs : List ProgConf) : Exec Unit :=
  confs.zipIdx.forM parseFileLine

/-- `MAX_PROGS`. -/
def maxProgs : Nat := 128

/-- `init_state`. -/
def initState (confs : List ProgConf) : Exec Unit := do
  modifyLinks (cdsInitListHead .pnewL)
  modifyLinks (cdsInitListHead .pfinishedL)
  modify fun st => { st with progPidHash := hashInit maxProgs }
  modify fun st => { st with eventsHeap := heapInit }
  parseFile confs

/-- The fields that `prog_respawn` copies to the new instance. -/
def AffProg.copyFrom (new p : AffProg) (startTime : Int) : AffProg :=
  { new with
    pid := 0
    startTime := startTime
    coresNeeded := p.coresNeeded
    memNeeded := p.memNeeded
    thrNeeded := p.thrNeeded
    thrReal := p.thrReal
    ratio := p.ratio
    instrRetdSum := p.instrRetdSum
    idealInstr := p.idealInstr
    timesCpu := p.timesCpu
    sumMemReads := p.sumMemReads
    memReads := p.memReads
    llcAlone := p.llcAlone }

/-- `prog_respawn`. -/
def progRespawn (prog : ProgPtr) (id : Int) : Exec Unit := do
  let now ← getNow
  let new ← affProgAlloc id
  let p ← readProg prog
  modifyProg new fun fresh => fresh.copyFrom p now.sec
  emit (.respawned prog new)
  launch new

end Processes

section Signals

/-- `shutdown`. -/
def shutdown : Exec Unit := do
  throw (.exit (if (← get).massacre then 42 else 0))

/-- `check_shutdown`. -/
def checkShutdown : Exec Unit := do
  let st ← get
  when (st.runningNr = 0 ∧ st.waitingNr = 0 ∧ st.newNr = 0) shutdown

/-- What `waitpid` reports about a child: the shell of a program has exited, or a child
has stopped. -/
inductive WaitStatus where
  | exited (prog : ProgPtr)
  | stopped
  deriving DecidableEq, Repr

/-- Note that a child is gone once `waitpid` has reported its exit. -/
def noteReport : WaitStatus → Exec Unit
  | .exited prog => emit (.reaped prog)
  | .stopped => return ()

/-- The loop of `sigchld_handler` over what `waitpid` reports, up to the end of the reports.
A report while nothing runs ends the loop. -/
def sigchldLoop : List WaitStatus → Int → Exec Int
  | [], deaths => return deaths
  | status :: later, deaths => do
      noteReport status
      if (← get).runningNr = 0 then
        return deaths
      else
        match status with
        | .stopped => sigchldLoop later deaths
        | .exited prog => do
            let pid := (← readProg prog).shellPid
            affProgRunningFinished pid
            sigchldLoop later (deaths + 1)

/-- `sigchld_handler`. -/
def sigchldHandler (rebalance : Exec Unit) (reports : List WaitStatus) : Exec Unit := do
  let deaths ← sigchldLoop reports 0
  when (deaths > 0) rebalance
  checkShutdown

/-- `sigterm_handler`. -/
def sigtermHandler : Exec Unit :=
  modify fun st => { st with massacre := true }

end Signals

end BachScheduler
