import BachScheduler.CQsort
import BachScheduler.Hash
import BachScheduler.Heap
import BachScheduler.Timeval
import Mathlib.Data.Rat.Defs
import Mathlib.Order.Lattice

/-!
# The state of the executor

The structures of `aff-executor.h`, `scheds/common.h`, `scheds/linux.h` and `stats.h` as far
as the executor and the policies compute with them.  Fields that only format output
are left out.  Programs and events live in tables indexed by their addresses; the
`prog_data` of a program is stored under the program, and memory from `malloc` has
whatever content the environment gives it.  `int` counters and times are integers;
quantities with conversions or wrap-around are machine words.
-/

namespace BachScheduler

open BachScheduler.Ring

/-- `__u64`, `unsigned long` and `long long int`. -/
abbrev Word64 := BitVec 64

/-- `unsigned int`, and `int` where the code converts or wraps. -/
abbrev Word32 := BitVec 32

/-- The address of an `aff_prog`. -/
abbrev ProgPtr := Nat

/-- The address of an `aff_event`; 0 is the static `qt_event`. -/
abbrev EvntPtr := Nat

/-- The list nodes: the heads, the `pl_node` of each program, and the heads that
the quicksort allocates. -/
inductive Node where
  | pnewL
  | pfinishedL
  | progsAll
  | progsSch
  | linuxProgs
  | rest
  | plNode (prog : ProgPtr)
  | temp (k : Nat)
  deriving DecidableEq, Repr

/-- The states a freezer group is set to. -/
inductive FrzrState where
  | thawed
  | frozen
  deriving DecidableEq, Repr

/-- `enum class_type`.  A value that names no class gets no rule of its own, as `N`. -/
inductive ClassType where
  | none
  | bw
  | cs
  | cns
  | n
  deriving DecidableEq, Repr

/-- Conversion of `mem_needed` to `enum class_type`. -/
def ClassType.ofLong (value : Word64) : ClassType :=
  match (value.setWidth 32).toNat with
  | 0 => .none
  | 1 => .bw
  | 2 => .cs
  | 3 => .cns
  | _ => .n

/-- `run_status`: `RS_STOPED` and `RS_RUNNING`. -/
inductive RunStatus where
  | stoped
  | running
  deriving DecidableEq, Repr

/-- `struct aff_prog`.  The freezer group and the cpuset of the kernel are kept
with the program they belong to. -/
structure AffProg where
  startTime : Int
  id : Int
  pid : Nat
  shellPid : Nat
  cpuset : List Int
  freezer : FrzrState
  coresNeeded : Int
  memNeeded : Word64
  thrNeeded : Word64
  thrReal : Word64
  ratio : Word64
  instrRetdSum : Word64
  idealInstr : Word64
  sumMemReads : Word64
  memReads : Word64
  timesCpu : Word32
  llcAlone : Word32

/-- `tsc_t`. -/
structure Tsc where
  ticks : Word64
  last : Word64

/-- `aff_stats_t`, per index of a monitored cpu.  `epoch` is no field of the source: it
notes in which counting epoch `events` was counted, if it was not zeroed since. -/
structure AffStats where
  running : Nat → Tsc
  events : Nat → Nat → Word64
  eventsTmp : Nat → Nat → Word64
  l3OccupancyMetric : Nat → Word64
  epoch : Nat → Option Nat

/-- `struct prog_data`. -/
structure ProgData where
  killed : Bool
  ipcAlone : Word32
  llcAlone : Word32
  instrRetdSum : Word64
  idealInstr : Word64
  ratio : Word64
  category : ClassType
  waitingTime : Word32
  cpu : Int
  timesCpu : Word32
  coresNeeded : Int
  respawned : Bool
  initId : Int
  runStatus : RunStatus
  tmWstart : Word32
  tmWstop : Word32
  tmRstart : Word32
  tmRstop : Word32
  tmRunning : Word32
  tmWaiting : Word32
  stats : AffStats
  instrRetd : Word64
  unhCycles : Word64
  llcMisses : Word64
  l1Repl : Word64
  l2In : Word64
  memReads : Word64
  sumMemReads : Word64
  avgMemReads : Word64
  fitness : Word64
  llcOccupancy : Word64

/-- `prfcnt_t`: what was last read from the counters of one monitored cpu.  `epoch`, no
field of the source, notes the counting epoch of that reading. -/
structure Prfcnt where
  counterData : Nat → Word64
  l3Occupancy : Word64
  epoch : Nat

/-- `UNCMCPCI`: the memory controller. -/
structure UncMc where
  previousMCNormalReads : Word64
  previousMCFullWrites : Word64
  uncMCNormalReads : Word64
  uncMCFullWrites : Word64

/-- `aff_counters_t`.  `live` is cleared when the structure is freed and `staleUses`
counts the uses after that; a counting epoch starts whenever the counters are zeroed. -/
structure AffCounters where
  mcInfo : UncMc
  upscalingFactor : Word32
  prfcnt : Nat → Prfcnt
  epoch : Nat
  live : Bool
  staleUses : Nat

/-- `struct sched`.  The arrays are indexed by the slot of a program.  Of the result files
it is kept whether they are open, how often a closed one was written to, and of the totals
at the end the times finished, where they are numbers, and the scheduling time. -/
structure Sched where
  totalTics : Int
  monitorWnd : Int
  progsNr : Int
  progsInit : Int
  progsLeft : Int
  progsFnsh : Int
  stopExecution : Bool
  doRespawn : Bool
  uncMCReads : Word64
  uncMCWrites : Word64
  cntrs : AffCounters
  instrProgs : Int → Word64
  totalInstr : Int → Word64
  totalCycles : Int → Word64
  lastInstr : Int → Word64
  targetInstr : Int → Word64
  progTimesFinished : Int → Int
  quanta : Int → Int
  finishTime : Int → Word32
  totalRtime : Int → Word32
  totalWtime : Int → Word32
  schedStart : Word32
  resultsOpen : Bool
  closedWrites : Nat
  printedTimes : Int → Option Rat
  printedTotal : Word32

/-- `struct linux_data`, with the times that are a `double` as rationals. -/
structure LinuxData where
  initId : Int
  msecs : Rat
  killed : Bool

/-- `struct linux_sched`, of whose output files it is kept whether `totalsF` is open. -/
structure LinuxSched where
  progsNr : Int
  progsInit : Int
  progsLeft : Int
  totalTics : Int
  schedTime : Int
  totalRtime : Int → Rat
  finish : Int → Rat
  quanta : Int → Rat
  averageRtime : Int → Rat
  timesTarget : Int → Rat
  curTime : Int → Rat
  progTimesFinished : Int → Int
  totalsOpen : Bool

/-- `struct timespec`. -/
structure Timespec where
  sec : Int
  nsec : Int

/-- The types of `struct aff_event`. -/
inductive EvntType where
  | newprog
  | qexpired
  | sampling
  deriving DecidableEq, Repr

/-- `struct aff_event`. -/
structure AffEvent where
  type : EvntType
  tv : Timeval
  prog : ProgPtr

/-- What the executor cannot know: clocks, counters, process ids, and the content of
memory it does not own.  The first argument of a reading is its number in the run, a
second one the index of a monitored cpu or of a memory channel. -/
structure Env where
  timeOfDay : Nat → Timeval
  cpuTime : Nat → Timespec
  getTicks : Nat → Nat → Word64
  pmc : Nat → Nat → Nat → Word64
  qmCtr : Nat → Nat → Word64
  imcReads : Nat → Nat → Word64
  imcWrites : Nat → Nat → Word64
  forkPid : Nat → Nat
  appPid : Nat → Nat
  freshProg : Nat → AffProg
  freshPd : Nat → ProgData
  freshLinuxData : Nat → LinuxData
  freshPrfcnt : Nat → Prfcnt
  freshLinks : Links Node
  strayCpu : Int → Int
  cmtAvailable : Bool
  upscalingFactor : Word32

/-- What a run has done so far, in the order it was done. -/
inductive Event where
  | newRunning (prog : ProgPtr)
  | clearProg (prog : ProgPtr)
  | runningFinished (prog : ProgPtr)
  | retired (prog : ProgPtr)
  | respawned (old new : ProgPtr)
  | deallocated (prog : ProgPtr)
  | setCpuRange (prog : ProgPtr) (rstart rend : Int)
  | thawed (prog : ProgPtr) (epoch : Nat) (cpuset : List Int)
  | charged (prog : ProgPtr) (amount : Word64) (batches : List (Int × Nat))
  | updateTotals (prog : ProgPtr)
  | printTotals
  | finalization
  | killAllMet (prog : ProgPtr)
  | collected (prog : ProgPtr)
  | newKilled (prog : ProgPtr)
  | reaped (prog : ProgPtr)
  deriving DecidableEq, Repr

/-- What happens to the clocks of a program: they are initialised at a reading, the time is
read for them, `sched_update_clock` leaves `tm_running` and `tm_waiting`, the program is
thawed, and the time is read for its `waiting_time`. -/
inductive ClockEvent where
  | init (prog : ProgPtr) (now : Word32)
  | read (prog : ProgPtr) (now : Word32)
  | updated (prog : ProgPtr) (tmRunning tmWaiting : Word32)
  | thawed (prog : ProgPtr)
  | waited (prog : ProgPtr) (now : Word32)
  deriving DecidableEq, Repr

/-- `ExecSt` with everything reachable from it.  `reads` counts the readings of the
environment, `log` records the run and `clocks` what happens to the clocks in it. -/
structure ExecState where
  env : Env
  reads : Nat
  links : Links Node
  brk : Nat
  progs : ProgPtr → AffProg
  pds : ProgPtr → ProgData
  linuxData : ProgPtr → LinuxData
  progsAllocated : Nat
  events : EvntPtr → AffEvent
  eventsAllocated : Nat
  eventsHeap : Heap EvntPtr
  waitingNr : Int
  newNr : Int
  runningNr : Int
  finishedNr : Int
  cpus : List Int
  progPidHash : Hash ProgPtr
  tv0 : Timeval
  qt : Timeval
  massacre : Bool
  totalQuantums : Word32
  sched : Sched
  linux : LinuxSched
  log : List Event
  clocks : List ClockEvent

/-- The ways a run ends: by `exit`, by a failed assertion, or in code without a meaning.
`misuse` is a list head taken for a program, or a cell outside of a heap. -/
inductive Stop where
  | exit (status : Int)
  | assertFailed
  | undefined
  | misuse
  | noFuel
  deriving DecidableEq, Repr

/-- Programs over the state of the executor. -/
abbrev Exec := EStateM Stop ExecState

section Access

def readProg (prog : ProgPtr) : Exec AffProg := do
  return (← get).progs prog

def readPd (prog : ProgPtr) : Exec ProgData := do
  return (← get).pds prog

def readSched : Exec Sched := do
  return (← get).sched

def modifyProg (prog : ProgPtr) (change : AffProg → AffProg) : Exec Unit :=
  modify fun st => { st with progs := Function.update st.progs prog (change (st.progs prog)) }

def modifyPd (prog : ProgPtr) (change : ProgData → ProgData) : Exec Unit :=
  modify fun st => { st with pds := Function.update st.pds prog (change (st.pds prog)) }

def modifySched (change : Sched → Sched) : Exec Unit :=
  modify fun st => { st with sched := change st.sched }

def modifyLinks (change : Links Node → Links Node) : Exec Unit :=
  modify fun st => { st with links := change st.links }

def emit (event : Event) : Exec Unit :=
  modify fun st => { st with log := st.log ++ [event] }

def noteClock (event : ClockEvent) : Exec Unit :=
  modify fun st => { st with clocks := st.clocks ++ [event] }

/-- One reading of the environment. -/
def readEnv {α : Type} (value : Env → Nat → α) : Exec α := do
  let st ← get
  set { st with reads := st.reads + 1 }
  return value st.env st.reads

/-- The result of a library function that is undefined where it has none. -/
def orElseStop {α : Type} (stop : Stop) (result : Option α) : Exec α :=
  match result with
  | some value => return value
  | none => throw stop

/-- An `if` without `else`. -/
def when (condition : Prop) [Decidable condition] (action : Exec Unit) : Exec Unit :=
  if condition then action else return ()

/-- Unsigned division, which traps on zero. -/
def udiv (a b : Word64) : Exec Word64 :=
  if b = 0 then throw .undefined else return a / b

/-- `cpus[i]`, also where `i` lies outside of the array. -/
def ExecState.cpuAt (st : ExecState) (i : Int) : Int :=
  if 0 ≤ i then st.cpus.getD i.toNat (st.env.strayCpu i) else st.env.strayCpu i

end Access

section Lists

/-- `cds_list_entry`: only the `pl_node` of a program lies in an `aff_prog`. -/
def cdsListEntry : Node → Exec ProgPtr
  | .plNode prog => return prog
  | _ => throw .misuse

/-- Number of rounds after which a walk along a list must have come back. -/
def walkFuel : Exec Nat := do
  return (← get).progsAllocated + 1

/-- The walk of `cds_list_for_each_entry_safe`: the next node is looked up before the
body runs.  The body says whether the loop goes on. -/
def cdsListWalkSafe {ρ : Type} (head : Node) (body : ProgPtr → ρ → Exec (ForInStep ρ)) :
    Nat → Node → ρ → Exec ρ
  | 0, _, _ => throw .noFuel
  | fuel + 1, pos, acc =>
      if pos = head then
        return acc
      else do
        let prog ← cdsListEntry pos
        let tmp := (← get).links.next pos
        match ← body prog acc with
        | .done acc => return acc
        | .yield acc => cdsListWalkSafe head body fuel tmp acc

/-- `cds_list_for_each_entry_safe`, with the variables that the body changes. -/
def cdsListForEachEntrySafe {ρ : Type} (head : Node) (acc : ρ)
    (body : ProgPtr → ρ → Exec (ForInStep ρ)) : Exec ρ := do
  let fuel ← walkFuel
  let first := (← get).links.next head
  cdsListWalkSafe head body fuel first acc

/-- The walk of `cds_list_for_each_entry`: the next node is looked up after the body ran. -/
def cdsListWalk (head : Node) (body : ProgPtr → Exec Unit) : Nat → Node → Exec Unit
  | 0, _ => throw .noFuel
  | fuel + 1, pos =>
      if pos = head then
        return ()
      else do
        let prog ← cdsListEntry pos
        body prog
        let next := (← get).links.next pos
        cdsListWalk head body fuel next

/-- `cds_list_for_each_entry`. -/
def cdsListForEachEntry (head : Node) (body : ProgPtr → Exec Unit) : Exec Unit := do
  let fuel ← walkFuel
  let first := (← get).links.next head
  cdsListWalk head body fuel first

/-- `cds_list_entry(head->next, aff_prog_t, pl_node)`, followed. -/
def cdsListFirst (head : Node) : Exec ProgPtr := do
  cdsListEntry ((← get).links.next head)

/-- `cds_list_del` and `CDS_INIT_LIST_HEAD` on the node of a program. -/
def plNodeUnlink (prog : ProgPtr) : Exec Unit := do
  modifyLinks (cdsListDel (.plNode prog))
  modifyLinks (cdsInitListHead (.plNode prog))

/-- `cds_list_empty`. -/
def listEmpty (head : Node) : Exec Bool := do
  return cdsListEmpty head (← get).links

end Lists

end BachScheduler
