import BachScheduler.Slots

/-!
# The life of the programs under the `linux` policy

All programs run side by side.  At a quantum some of them are killed and stay on the list until
their exits come in.  A program that ends by itself retires its slot or hands it on.
-/

namespace BachScheduler

open BachScheduler.Ring Census Lineage

/-- The core of the executor, and what `linux.c` knows of the programs and their slots. -/
structure LinuxCore where
  core : Core
  progsInit : Int
  progsLeft : Int
  initId : ProgPtr → Int
  killed : ProgPtr → Bool

namespace LinuxCore

/-- The core of the executor changes. -/
def lift (effect : Core → Core) (c : LinuxCore) : LinuxCore :=
  { c with core := effect c.core }

/-- A new program runs, with its `linux_data`. -/
def enter (prog : ProgPtr) (c : LinuxCore) : LinuxCore :=
  { c with
    core := (c.core.enroll prog).modProg prog fun p => { p with freezer := .thawed }
    initId := Function.update c.initId prog
      (((c.core.progs prog).id - idUserOffset).tmod c.progsInit)
    killed := Function.update c.killed prog false }

/-- A slot is not used again. -/
def retire (prog : ProgPtr) (c : LinuxCore) : LinuxCore :=
  { c with
    core := c.core.note (.retired prog)
    progsLeft := c.progsLeft - 1 }

/-- A program has met its target. -/
def kill (prog : ProgPtr) (c : LinuxCore) : LinuxCore :=
  { c.retire prog with killed := Function.update c.killed prog true }

/-- Both hooks print the totals when no slot is left. -/
def settle (c : LinuxCore) : LinuxCore :=
  if c.progsLeft ≤ 0 then c.lift fun core => { core.note .printTotals with massacre := true } else c

/-- The end of a program whose slot is retired. -/
def conclude (prog : ProgPtr) (c : LinuxCore) : LinuxCore :=
  (c.retire prog).settle.lift (Core.note (.deallocated prog))

/-- The end of a program whose slot goes to its next instance. -/
def succeed (prog : ProgPtr) (born : ProgCore) (c : LinuxCore) : LinuxCore :=
  (c.lift (Core.bear prog born)).settle.lift (Core.note (.deallocated prog))

end LinuxCore

/-- The heads of the lists of programs under the `linux` policy. -/
def linuxHeads : List Node := [.linuxProgs, .pnewL, .pfinishedL]

namespace Place

/-- The list on which the programs of a place are under the `linux` policy. -/
def linuxHome : Place → Option Node
  | .new => some .pnewL
  | .all | .killed => some .linuxProgs
  | .finished | .reaped => some .pfinishedL
  | _ => none

/-- Whether a program waits, is new or is on the list of the scheduler. -/
def present : Place → Bool
  | .waiting | .new | .all | .killed => true
  | _ => false

/-- Whether no other program of the slot can be there. -/
def holds : Place → Bool
  | .killed => true
  | k => k.live

end Place

/-- The programs, where they are and in which order, and the core. -/
structure LinuxLife where
  place : ProgPtr → Place
  on : Lists
  core : LinuxCore

namespace LinuxLife

def act (a : LinuxLife) (effect : LinuxCore → LinuxCore) : LinuxLife :=
  { a with core := effect a.core }

/-- A program goes to another place. -/
def transfer (a : LinuxLife) (prog : ProgPtr) (k : Place) : LinuxLife :=
  { a with
    place := Function.update a.place prog k
    on := Life.join (Life.leave a.on prog (a.place prog).linuxHome) prog k.linuxHome }

/-- A program is killed and stays on its list. -/
def kill (a : LinuxLife) (prog : ProgPtr) : LinuxLife :=
  { a with
    place := Function.update a.place prog .killed
    core := a.core.kill prog }

/-- The slot of a program goes to its next instance. -/
def respawn (a : LinuxLife) (prog : ProgPtr) (born : ProgCore) : LinuxLife where
  place := Function.update (Function.update a.place prog .gone) a.core.core.progsAllocated .waiting
  on := Life.leave a.on prog (some .pfinishedL)
  core := a.core.succeed prog born

section Simp

variable (a : LinuxLife) (effect : LinuxCore → LinuxCore) (prog : ProgPtr) (k : Place)

@[simp] theorem act_place : (a.act effect).place = a.place := rfl
@[simp] theorem act_on : (a.act effect).on = a.on := rfl
@[simp] theorem act_core : (a.act effect).core = effect a.core := rfl
@[simp] theorem transfer_place : (a.transfer prog k).place = Function.update a.place prog k := rfl
@[simp] theorem transfer_core : (a.transfer prog k).core = a.core := rfl
@[simp] theorem kill_place : (a.kill prog).place = Function.update a.place prog .killed := rfl
@[simp] theorem kill_on : (a.kill prog).on = a.on := rfl
@[simp] theorem kill_core : (a.kill prog).core = a.core.kill prog := rfl
@[simp] theorem respawn_on (born : ProgCore) :
    (a.respawn prog born).on = Life.leave a.on prog (some .pfinishedL) := rfl
@[simp] theorem respawn_core (born : ProgCore) :
    (a.respawn prog born).core = a.core.succeed prog born := rfl

theorem respawn_place (born : ProgCore) (p : ProgPtr) : (a.respawn prog born).place p =
    if p = a.core.core.progsAllocated then .waiting else if p = prog then .gone else a.place p := by
  simp only [respawn, Function.update_apply]

end Simp

end LinuxLife

/-- What a program can do, where it is before and after, and the effect on the core. -/
inductive LinuxMove (a : LinuxLife) (prog : ProgPtr) :
    Place → Place → (LinuxCore → LinuxCore) → Prop
  /-- Its start has come. -/
  | arrive : LinuxMove a prog .waiting .new (LinuxCore.lift Core.arrive)
  /-- It is handed to the scheduler. -/
  | enter (some : a.core.progsInit ≠ 0) : LinuxMove a prog .new .all (LinuxCore.enter prog)
  /-- Its exit is recorded. -/
  | finish {pid : Nat} (found : hashLookup a.core.core.progPidHash pid = some prog) :
      LinuxMove a prog .all .finished (LinuxCore.lift (Core.recordEnd prog pid))
  /-- Its exit is recorded after it was killed. -/
  | reap {pid : Nat} (found : hashLookup a.core.core.progPidHash pid = some prog) :
      LinuxMove a prog .killed .reaped (LinuxCore.lift (Core.recordEnd prog pid))
  /-- Its slot is retired. -/
  | conclude : LinuxMove a prog .finished .gone (LinuxCore.conclude prog)
  /-- It is freed after it was killed. -/
  | bury : LinuxMove a prog .reaped .buried (LinuxCore.lift (Core.note (.deallocated prog)))

/-- In which states a quantum expires, and of which programs the exits come in. -/
structure LinuxRules where
  quanta : LinuxLife → Prop
  exits : ProgPtr → Prop

/-- One step in the life of the programs. -/
inductive LinuxStep (rules : LinuxRules) (a : LinuxLife) : LinuxLife → Prop
  | move {prog : ProgPtr} {source target : Place} {effect : LinuxCore → LinuxCore}
      (here : a.place prog = source) (move : LinuxMove a prog source target effect)
      (allowed : target = .finished ∨ target = .reaped → rules.exits prog) :
      LinuxStep rules a ((a.transfer prog target).act effect)
  /-- Some programs of the list have met their targets. -/
  | quantum {doomed : List ProgPtr} (expires : rules.quanta a)
      (busy : ∃ prog, (a.place prog).present = true)
      (listed : doomed.Sublist (a.on .linuxProgs)) :
      LinuxStep rules a ((doomed.foldl LinuxLife.kill a).act LinuxCore.settle)
  | respawn {prog : ProgPtr} {born : ProgCore} (here : a.place prog = .finished)
      (next : born.id = a.core.progsInit + (a.core.core.progs prog).id) :
        LinuxStep rules a (a.respawn prog born)
  | wait (prog : ProgPtr) : LinuxStep rules a (a.act (LinuxCore.lift (Core.note (.reaped prog))))
  | terminate : LinuxStep rules a (a.act (LinuxCore.lift fun core =>
      { core with massacre := true }))

/-- Any number of steps. -/
abbrev LinuxSteps (rules : LinuxRules) : LinuxLife → LinuxLife → Prop :=
  Relation.ReflTransGen (LinuxStep rules)

variable {rules : LinuxRules} {a b : LinuxLife} {prog : ProgPtr} {source target : Place}
variable {effect : LinuxCore → LinuxCore} {n : Nat}

section Kills

/-- The programs killed in a quantum, and no others, change their places. -/
theorem LinuxLife.kills_place (doomed : List ProgPtr) (a : LinuxLife) (p : ProgPtr) :
    (doomed.foldl kill a).place p = if p ∈ doomed then .killed else a.place p := by
  induction doomed generalizing a with
  | nil => simp
  | cons prog later ih =>
      rw [List.foldl_cons, ih]
      by_cases member : p ∈ later
      · simp [member]
      · by_cases equal : p = prog <;> simp [member, equal]

theorem LinuxLife.kills_on (doomed : List ProgPtr) (a : LinuxLife) :
    (doomed.foldl kill a).on = a.on := by
  induction doomed generalizing a with
  | nil => rfl
  | cons prog later ih => exact ih (a.kill prog)

theorem LinuxLife.kills {P : LinuxLife → Prop}
    (step : ∀ b, P b → ∀ p ∈ a.on .linuxProgs, P (b.kill p)) {doomed : List ProgPtr}
    (listed : doomed ⊆ a.on .linuxProgs) (first : P a) : P (doomed.foldl kill a) := by
  have all : ∀ b, P b → P (doomed.foldl kill b) := by
    induction doomed with
    | nil => exact fun b holds => holds
    | cons prog later ih =>
        intro b holds
        exact ih (fun p member => listed (List.mem_cons_of_mem _ member)) _
          (step b holds prog (listed List.mem_cons_self))
  exact all a first

end Kills

section Frames

/-- The settling of the accounts notes the totals at most. -/
theorem LinuxCore.settle_cases (c : LinuxCore) :
    c.settle = c ∨ c.progsLeft ≤ 0 ∧
      c.settle = c.lift fun core => { core.note .printTotals with massacre := true } := by
  unfold settle
  split
  · next none => exact .inr ⟨none, rfl⟩
  · exact .inl rfl

/-- What is known of every program, and what has been noted since. -/
structure LinuxCore.Follows (c d : LinuxCore) (events : List Event) : Prop where
  progsAllocated : d.core.progsAllocated = c.core.progsAllocated
  progsInit : d.progsInit = c.progsInit
  id : ∀ p, (d.core.progs p).id = (c.core.progs p).id
  shellPid : ∀ p, (d.core.progs p).shellPid = (c.core.progs p).shellPid
  qt : d.core.qt = c.core.qt
  log : d.core.log = c.core.log ++ events

namespace LinuxCore.Follows

variable {c d e : LinuxCore} {events more : List Event}

theorem same (progs : d.core.progs = c.core.progs)
    (progsAllocated : d.core.progsAllocated = c.core.progsAllocated)
    (progsInit : d.progsInit = c.progsInit) (qt : d.core.qt = c.core.qt)
    (log : d.core.log = c.core.log ++ events) : c.Follows d events :=
  ⟨progsAllocated, progsInit, fun _ => by rw [progs], fun _ => by rw [progs], qt, log⟩

theorem refl (c : LinuxCore) : c.Follows c [] := .same rfl rfl rfl rfl (List.append_nil _).symm

theorem trans (first : c.Follows d events) (second : d.Follows e more) :
    c.Follows e (events ++ more) where
  progsAllocated := second.progsAllocated.trans first.progsAllocated
  progsInit := second.progsInit.trans first.progsInit
  id p := (second.id p).trans (first.id p)
  shellPid p := (second.shellPid p).trans (first.shellPid p)
  qt := second.qt.trans first.qt
  log := by rw [second.log, first.log, List.append_assoc]

theorem settle (c : LinuxCore) :
    c.Follows c.settle (if c.progsLeft ≤ 0 then [.printTotals] else []) := by
  unfold LinuxCore.settle
  split
  · exact .same rfl rfl rfl rfl rfl
  · exact .refl c

theorem note (c : LinuxCore) (event : Event) : c.Follows (c.lift (Core.note event)) [event] :=
  .same rfl rfl rfl rfl rfl

theorem retire (c : LinuxCore) (prog : ProgPtr) : c.Follows (c.retire prog) [.retired prog] :=
  .same rfl rfl rfl rfl rfl

theorem kill (c : LinuxCore) (prog : ProgPtr) : c.Follows (c.kill prog) [.retired prog] :=
  .same rfl rfl rfl rfl rfl

end LinuxCore.Follows

/-- What a move notes. -/
def LinuxMove.notes (a : LinuxLife) (prog : ProgPtr) : Place → List Event
  | .all => [.newRunning prog]
  | .finished | .reaped => [.runningFinished prog]
  | .gone => [.retired prog] ++
      (if (a.core.retire prog).progsLeft ≤ 0 then [.printTotals] else []) ++ [.deallocated prog]
  | .buried => [.deallocated prog]
  | _ => []

/-- No move changes what is known of the programs. -/
theorem LinuxMove.follows (move : LinuxMove a prog source target effect) :
    a.core.Follows (effect a.core) (LinuxMove.notes a prog target) := by
  cases move with
  | arrive => exact .same rfl rfl rfl rfl (List.append_nil _).symm
  | enter some =>
      have each : ∀ p, ((a.core.enter prog).core.progs p).id = (a.core.core.progs p).id ∧
          ((a.core.enter prog).core.progs p).shellPid = (a.core.core.progs p).shellPid := by
        intro p
        by_cases equal : p = prog
        · subst equal
          simp [LinuxCore.enter, Core.modProg, Core.enroll]
        · simp [LinuxCore.enter, Core.modProg, Core.enroll, equal]
      exact ⟨rfl, rfl, fun p => (each p).1, fun p => (each p).2, rfl, rfl⟩
  | conclude => exact ((LinuxCore.Follows.retire a.core prog).trans (.settle _)).trans (.note _ _)
  | _ => exact .same rfl rfl rfl rfl rfl

end Frames

end BachScheduler
