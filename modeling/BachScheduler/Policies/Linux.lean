import BachScheduler.Policy

/-!
# The policy of `linux.c`

The programs run side by side and are scheduled by the kernel; the policy starts them
again until each has run as often as its target says, the last time possibly in part.
Run times and targets are rationals.
-/

namespace BachScheduler

open BachScheduler.Ring

section Init

/-- Milliseconds of the day clock as `linux.c` uses them. -/
def linuxMillis (tms : Timeval) : Int :=
  tms.sec.tmod 10000 * 1000 + tms.usec.tdiv 1000

/-- The structure that `linux_init` allocates and fills; the targets are read from a file. -/
def LinuxSched.start (waitingNr : Int) (targets : Int → Rat) : LinuxSched where
  progsNr := 0
  progsInit := waitingNr
  progsLeft := waitingNr
  totalTics := -1
  schedTime := 0
  totalRtime := fun _ => 0
  finish := fun _ => 0
  quanta := fun _ => 0
  averageRtime := fun _ => 0
  timesTarget := targets
  curTime := fun _ => 0
  progTimesFinished := fun _ => 0
  totalsOpen := true

def modifyLinux (change : LinuxSched → LinuxSched) : Exec Unit :=
  modify fun st => { st with linux := change st.linux }

def readLinux : Exec LinuxSched := do
  return (← get).linux

def modifyLinuxData (prog : ProgPtr) (change : LinuxData → LinuxData) : Exec Unit :=
  modify fun st =>
    { st with linuxData := Function.update st.linuxData prog (change (st.linuxData prog)) }

def readLinuxData (prog : ProgPtr) : Exec LinuxData := do
  return (← get).linuxData prog

/-- `linux_init`. -/
def linuxInit (targets : Int → Rat) : Exec Unit := do
  modifyLinks (cdsInitListHead .linuxProgs)
  modify fun st => { st with linux := .start st.waitingNr targets }
  modify fun st => { st with qt := ⟨0, 200000⟩ }
  modify fun st =>
    { st with events := Function.update st.events 0 { st.events 0 with tv := st.qt } }
  eventsHeapPush 0
  let tms ← readEnv Env.timeOfDay
  modifyLinux fun sched => { sched with schedTime := linuxMillis tms }

end Init

section Programs

/-- `linux_add_prog`. -/
def linuxAddProg (prog : ProgPtr) : Exec Unit := do
  let fresh ← readEnv Env.freshLinuxData
  let id := (← readProg prog).id
  let sched ← readLinux
  when (sched.progsInit = 0) (throw .undefined)
  modifyLinuxData prog fun _ =>
    { fresh with killed := false, initId := (id - idUserOffset).tmod sched.progsInit }
  modifyLinks (cdsListAddTail (.plNode prog) .linuxProgs)
  modifyLinux fun sched => { sched with progsNr := sched.progsNr + 1 }

/-- `linux_print_totals`. -/
def linuxPrintTotals : Exec Unit := do
  let _ ← readEnv Env.timeOfDay
  modifyLinux fun sched => { sched with totalsOpen := false }
  emit .printTotals

/-- The run time of a program by its cpu clock. -/
def linuxReadClock (prog : ProgPtr) : Exec Unit := do
  let ts ← readEnv Env.cpuTime
  modifyLinuxData prog fun pd =>
    { pd with msecs := ((ts.sec * 1000 + ts.nsec.tdiv 1000000 : Int) : Rat) }

/-- `linux_program_finished`. -/
def linuxProgramFinished (prog : ProgPtr) : Exec Unit := do
  let tms ← readEnv Env.timeOfDay
  let current := linuxMillis tms - (← readLinux).schedTime
  linuxReadClock prog
  let pd ← readLinuxData prog
  let i := pd.initId
  modifyLinux fun sched =>
    { sched with
      quanta := Function.update sched.quanta i (sched.totalTics : Rat)
      finish := Function.update sched.finish i (current : Rat)
      progTimesFinished := Function.update sched.progTimesFinished i (sched.progTimesFinished i + 1)
      timesTarget := Function.update sched.timesTarget i (sched.timesTarget i - 1)
      totalRtime := Function.update sched.totalRtime i (sched.totalRtime i + pd.msecs)
      averageRtime := Function.update sched.averageRtime i pd.msecs
      curTime := Function.update sched.curTime i 0 }

/-- A slot is not used again. -/
def linuxRetire (prog : ProgPtr) : Exec Unit := do
  modifyLinux fun sched => { sched with progsLeft := sched.progsLeft - 1 }
  emit (.retired prog)

/-- The call of `prog_respawn` in `linux_rebalance`; the new id must be an `int`. -/
def linuxRespawn (prog : ProgPtr) : Exec Unit := do
  let id := (← readLinux).progsInit + (← readProg prog).id
  when (id > intMax) (throw .undefined)
  progRespawn prog id

/-- What both hooks do when no program is left. -/
def linuxTerminate : Exec Unit := do
  linuxPrintTotals
  modify fun st => { st with massacre := true }

end Programs

section Hooks

/-- The body of the loop over the new programs in `linux_rebalance`. -/
def linuxRebalanceNew (prog : ProgPtr) : Exec Unit := do
  modifyLinks (cdsListDel (.plNode prog))
  linuxAddProg prog
  affProgNewRunning prog
  frzrSetstate prog .thawed

/-- The end of a program that was not killed. -/
def linuxFinishProg (prog : ProgPtr) : Exec Unit := do
  let i := (← readLinuxData prog).initId
  linuxProgramFinished prog
  if (← readLinux).timesTarget i = 0 then linuxRetire prog else linuxRespawn prog
  when ((← readLinux).progsLeft ≤ 0) linuxTerminate

/-- The body of the loop over the finished programs in `linux_rebalance`. -/
def linuxRebalanceFinished (prog : ProgPtr) : Exec Unit := do
  modifyLinks (cdsListDel (.plNode prog))
  let killed := (← readLinuxData prog).killed
  modifyLinux fun sched => { sched with progsNr := sched.progsNr - 1 }
  when (!killed) (linuxFinishProg prog)
  affProgDealloc prog

/-- `linux_rebalance`. -/
def linuxRebalance : Exec Unit := do
  cdsListForEachEntrySafe .pnewL () fun prog _ => do
    linuxRebalanceNew prog
    return .yield ()
  cdsListForEachEntrySafe .pfinishedL () fun prog _ => do
    linuxRebalanceFinished prog
    return .yield ()

/-- Whether the last, partial run of a program has lasted long enough. -/
def LinuxSched.metTarget (sched : LinuxSched) (i : Int) : Bool :=
  sched.timesTarget i < 1 && sched.averageRtime i * sched.timesTarget i ≤ sched.curTime i

/-- The kill of a program that has met its target. -/
def linuxKill (prog : ProgPtr) (current : Int) : Exec Unit := do
  let pd ← readLinuxData prog
  let i := pd.initId
  linuxRetire prog
  modifyLinux fun sched =>
    { sched with
      quanta := Function.update sched.quanta i (sched.totalTics : Rat)
      finish := Function.update sched.finish i (current : Rat)
      totalRtime := Function.update sched.totalRtime i (sched.totalRtime i + pd.msecs) }
  modifyLinuxData prog fun pd => { pd with killed := true }

/-- The body of the loop in `linux_qexpired`. -/
def linuxQuantum (current : Int) (prog : ProgPtr) : Exec Unit := do
  let i := (← readLinuxData prog).initId
  linuxReadClock prog
  let msecs := (← readLinuxData prog).msecs
  modifyLinux fun sched => { sched with curTime := Function.update sched.curTime i msecs }
  when ((← readLinux).metTarget i) (linuxKill prog current)

/-- `linux_qexpired`. -/
def linuxQexpired (now : Timeval) : Exec Unit := do
  let tms ← readEnv Env.timeOfDay
  let current := linuxMillis tms - (← readLinux).schedTime
  modifyLinux fun sched => { sched with totalTics := sched.totalTics + 1 }
  cdsListForEachEntry .linuxProgs (linuxQuantum current)
  when ((← readLinux).progsLeft ≤ 0) linuxTerminate
  rearm now

end Hooks

end BachScheduler
