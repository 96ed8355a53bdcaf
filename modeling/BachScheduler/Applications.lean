import BachScheduler.Freezer
import BachScheduler.Lib.Interleaving
import BachScheduler.Notifications
import BachScheduler.SharedMemory

/-!
# The executor and its applications

An application is a process of its own.  It shares a page with the executor, writes its handle
to the pipe of the executor when it enters a parallel region, and waits for an answer in a pipe
of its own.  Before all that it sets up its hooks and freezes itself, and `do_execute` goes on
when it finds it frozen.  The processes take their steps in any order, and an application can
die between any two of them.
-/

namespace BachScheduler

open Bytes Interleaving

section Application

/-- Where the code of an application is: in `do_execute` behind `fork`, in `affhooks_init`, in
code of its own, or in `affhook_region_notify`. -/
inductive AppPc where
  | forked
  | initArch
  | initFdRd
  | initFdWr
  | initHandle
  | initRequested
  | initPid
  | initFreezer
  | freeze
  | freezing
  | running
  | request
  | notify
  | await
  | assigned
  | setThreads
  | requested
  deriving DecidableEq, Repr

/-- `xSt`, the state of the hooks. -/
structure Hooks where
  cpusArch : Word32 := 0
  fdRd : Word32 := 0
  fdWr : Word32 := 0
  myhandle : Word64 := 0
  deriving DecidableEq, Repr

/-- What a program has from the system when it is launched: its address, the process of its
application, and the ends of its pipe. -/
structure Wires where
  handle : Word64
  pid : Word32
  pipeRd : Word32
  pipeWr : Word32
  deriving DecidableEq, Repr

/-- An application, with all that it has alone or shares with the executor.  `handed`, `thawed`
and `asked`, no variables of the source, note that `do_execute` has returned, that the executor
has thawed the application, and what the last call of `affhook_region_notify` was given. -/
structure App where
  wires : Wires
  pc : AppPc := .forked
  alive : Bool := true
  reads : Bool := true
  shm : Memory
  hooks : Hooks := {}
  nrThreads : Word32 := 0
  ompThreads : Word32 := 0
  group : GroupState := .uninitialized
  replies : Nat := 0
  pid : Word32 := 0
  handed : Bool := false
  thawed : Bool := false
  asked : Word32 := 0

/-- The first lines of `affhook_region_notify`: more than the machine has is not asked for, and
0 asks for all of it. -/
def clampThreads (cpusArch nrThreads : Word32) : Word32 :=
  if nrThreads = 0 ∨ cpusArch.slt nrThreads then cpusArch else nrThreads

/-- The next step of an application that does not write to the executor. -/
def App.step (a : App) : Option App :=
  match a.pc with
  | .forked => some { a with pc := .initArch, shm := affShmSetFdApp a.shm a.wires.pipeRd }
  | .initArch => some { a with pc := .initFdRd, hooks.cpusArch := affShmGetCpusArch a.shm }
  | .initFdRd => some { a with pc := .initFdWr, hooks.fdRd := affShmGetFdApp a.shm }
  | .initFdWr => some { a with pc := .initHandle, hooks.fdWr := affShmGetFdExecutor a.shm }
  | .initHandle => some { a with pc := .initRequested, hooks.myhandle := affShmGetAppHandler a.shm }
  | .initRequested => some { a with pc := .initPid, shm := affShmSetCpusRequested a.shm 1 }
  | .initPid => some { a with pc := .initFreezer, shm := affShmSetAppPid a.shm a.wires.pid }
  | .initFreezer => some { a with pc := .freeze, group := .thawed }
  | .freeze => some { a with pc := .freezing, group := .freezing }
  -- the write that freezes its own process does not return before that is thawed
  | .freezing => if a.group = .thawed then some { a with pc := .running } else none
  | .running => none
  | .request => some { a with pc := .notify, shm := affShmSetCpusRequested a.shm a.nrThreads }
  | .notify => none
  | .await => if 0 < a.replies ∧ a.hooks.fdRd = a.wires.pipeRd then
        some { a with pc := .assigned, replies := a.replies - 1 } else none
  | .assigned => some { a with pc := .setThreads, nrThreads := affShmGetCpusAssigned a.shm }
  | .setThreads => some { a with pc := .requested, ompThreads := a.nrThreads }
  | .requested => some { a with pc := .running, shm := affShmSetCpusRequested a.shm a.nrThreads }

/-- A call of `affhook_region_notify`. -/
def App.enter (a : App) (nrThreads : Word32) : Option App :=
  if a.pc = .running then
    some { a with pc := .request, asked := nrThreads, nrThreads :=
      clampThreads a.hooks.cpusArch nrThreads }
  else none

/-- The application is alive, and its group is not frozen. -/
def App.canStep (a : App) : Bool :=
  a.alive && a.group ≠ .frozen

end Application

section System

/-- Where `do_execute` is: in its loop, behind it, or behind the record of the pid. -/
inductive LaunchPc where
  | waiting (prog : ProgPtr)
  | recording (prog : ProgPtr)
  | spreading (prog : ProgPtr)
  deriving DecidableEq, Repr

/-- What puts an end to the executor in `handle_prog_notifications`: an access behind the end of
`prog_fds`, a handle of no program, a descriptor that is not open, or a pipe that nobody reads. -/
inductive Fate where
  | overrun
  | wildHandle
  | badFd
  | sigpipe
  deriving DecidableEq, Repr

/-- Where `handle_prog_notifications` is. -/
inductive ServePc where
  | idle
  | reading (cnt : Nat)
  | answering (cnt : Nat)
  | ended (fate : Fate)
  deriving DecidableEq, Repr

/-- `ExecSt.pipe[1]` and `ExecSt.cpus_nr`. -/
structure Wiring where
  executorEnd : Word32
  cpusNr : Word32

/-- The executor and its applications.  `progs` are the programs that were launched and not yet
freed. -/
structure System where
  progs : List ProgPtr := []
  app : ProgPtr → App := fun _ => { wires := ⟨0, 0, 0, 0⟩, shm := fun _ => 0 }
  pipe : List Word64 := []
  launch : Option LaunchPc := none
  serve : ServePc := .idle
  progFds : Vector Word32 progFdsLength := Vector.replicate progFdsLength 0

/-- What can happen.  The executor launches a program, looks at its group in the loop of
`do_execute`, takes the steps behind the loop, assigns cpus, thaws and freezes, whatever its policy
and its signal handlers make it do, and it takes the steps of `handle_prog_notifications`.  An
application takes its next step or enters a parallel region.  The kernel stops the last thread of a
group, an application dies, and its shell after it; then the executor frees the program, whose
address and descriptors can be given out again. -/
inductive SysAction where
  | launch (prog : ProgPtr) (wires : Wires)
  | poll
  | record
  | spread (cpus : Word32)
  | assign (prog : ProgPtr) (cpus : Word32)
  | thaw (prog : ProgPtr)
  | freeze (prog : ProgPtr)
  | notified
  | serve
  | app (prog : ProgPtr)
  | enter (prog : ProgPtr) (nrThreads : Word32)
  | stopped (prog : ProgPtr)
  | die (prog : ProgPtr)
  | close (prog : ProgPtr)
  | free (prog : ProgPtr)
  deriving DecidableEq, Repr

namespace System

/-- The executor runs, and is not in `do_execute`. -/
def free (s : System) : Bool :=
  s.launch.isNone && match s.serve with
    | .ended _ => false
    | _ => true

/-- The program at an address. -/
def deref (s : System) (handle : Word64) : Option ProgPtr :=
  s.progs.find? fun p => (s.app p).wires.handle = handle

/-- The program whose pipe a descriptor writes to. -/
def owner (s : System) (fd : Word32) : Option ProgPtr :=
  s.progs.find? fun p => (s.app p).wires.pipeWr = fd

/-- `aff_shm_alloc`, on the empty page of `ftruncate`. -/
def affShmAlloc (w : Wiring) (handle : Word64) : Memory :=
  let shm : Memory := fun _ => 0
  let shm := affShmSetFdExecutor shm w.executorEnd
  let shm := affShmSetCpusArch shm w.cpusNr
  let shm := affShmSetCpusAssigned shm 0
  affShmSetAppHandler shm handle

/-- One application changes. -/
def set (s : System) (prog : ProgPtr) (a : App) : System :=
  { s with app := Function.update s.app prog a }

/-- The next step of `handle_prog_notifications`.  No scheduler registers `prog_changed`, so
nothing is done with the cpus that a program has requested, and no `rebalance` follows. -/
def serveStep (s : System) : Option System :=
  match s.serve with
  | .idle | .ended _ => none
  | .reading cnt =>
      if cnt < sizeofProgFds then
        match s.pipe with
        | [] => some { s with serve := .answering cnt }
        | handle :: later =>
            match s.deref handle with
            | none => some { s with serve := .ended .wildHandle }
            | some prog =>
                if inside : cnt < progFdsLength then
                  some { s with
                    pipe := later
                    progFds := s.progFds.set cnt (s.app prog).wires.pipeWr inside
                    serve := .reading (cnt + 1) }
                else some { s with serve := .ended .overrun }
      else some { s with serve := .answering cnt }
  | .answering 0 => some { s with serve := .idle }
  | .answering (cnt + 1) =>
      if inside : cnt < progFdsLength then
        match s.owner (s.progFds.get ⟨cnt, inside⟩) with
        | none => some { s with serve := .ended .badFd }
        | some prog =>
            if (s.app prog).reads then
              some { s.set prog { s.app prog with replies := (s.app prog).replies + 1 } with
                serve := .answering cnt }
            else some { s with serve := .ended .sigpipe }
      else some { s with serve := .ended .overrun }

/-- One action, if it is possible. -/
def step (w : Wiring) : SysAction → System → Option System
  | .launch prog wires, s =>
      -- the system gives out no address and no descriptor that is in use
      if s.free ∧ prog ∉ s.progs ∧ s.deref wires.handle = none ∧ s.owner wires.pipeWr = none then
        some { s.set prog { wires := wires, shm := affShmAlloc w wires.handle } with
          progs := prog :: s.progs, launch := some (.waiting prog) }
      else none
  | .poll, s =>
      match s.launch with
      | some (.waiting prog) =>
          if (s.app prog).group = .frozen then some
            { s with launch := some (.recording prog) } else some s
      | _ => none
  | .record, s =>
      match s.launch with
      | some (.recording prog) =>
          some { s.set prog { s.app prog with pid := affShmGetAppPid (s.app prog).shm } with
            launch := some (.spreading prog) }
      | _ => none
  | .spread cpus, s =>
      match s.launch with
      | some (.spreading prog) =>
          some { s.set prog { s.app prog with
              shm := affShmSetCpusAssigned (s.app prog).shm cpus, handed := true } with
            launch := none }
      | _ => none
  | .assign prog cpus, s =>
      if s.free ∧ prog ∈ s.progs ∧ (s.app prog).handed then
        some (s.set prog { s.app prog with shm := affShmSetCpusAssigned (s.app prog).shm cpus })
      else none
  | .thaw prog, s =>
      if s.free ∧ prog ∈ s.progs ∧ (s.app prog).handed then
        some (s.set prog { s.app prog with group := .thawed, thawed := true })
      else none
  | .freeze prog, s =>
      if s.free ∧ prog ∈ s.progs ∧ (s.app prog).handed then
        let group := if (s.app prog).group = .frozen then .frozen else .freezing
        some (s.set prog { s.app prog with group := group })
      else none
  | .notified, s =>
      if s.free ∧ s.serve = .idle ∧ s.pipe ≠ [] then some { s with serve := .reading 0 } else none
  | .serve, s => if s.free then s.serveStep else none
  | .app prog, s =>
      if prog ∈ s.progs ∧ (s.app prog).canStep then
        if (s.app prog).pc = .notify then
          if (s.app prog).hooks.fdWr = w.executorEnd then
            some { s.set prog { s.app prog with pc := .await } with
              pipe := s.pipe ++ [(s.app prog).hooks.myhandle] }
          else none
        else (s.app prog).step.map (s.set prog)
      else none
  | .enter prog nrThreads, s =>
      if prog ∈ s.progs ∧ (s.app prog).canStep then ((s.app prog).enter nrThreads).map
        (s.set prog) else none
  | .stopped prog, s =>
      if prog ∈ s.progs ∧ (s.app prog).group = .freezing then
        some (s.set prog { s.app prog with group := .frozen })
      else none
  | .die prog, s =>
      if prog ∈ s.progs then some (s.set prog { s.app prog with alive := false }) else none
  | .close prog, s =>
      if prog ∈ s.progs ∧ (s.app prog).alive = false then
        some (s.set prog { s.app prog with reads := false })
      else none
  -- `aff_prog_dealloc` of a program whose exit was recorded
  | .free prog, s =>
      if s.free ∧ prog ∈ s.progs ∧ (s.app prog).handed ∧ (s.app prog).reads = false then
        some { s with progs := s.progs.filter (· ≠ prog) }
      else none

/-- What happens, from the start of the executor on. -/
def run (w : Wiring) (actions : List SysAction) : Option System :=
  runAll (step w) actions {}

end System

end System

end BachScheduler
