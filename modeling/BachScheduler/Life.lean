import BachScheduler.Clocks
import BachScheduler.Decision
import BachScheduler.Lib.Census
import Mathlib.Logic.Relation

/-!
# The life of the programs

What the executor and the policies are for: programs wait for their start, run in turns,
end by themselves or are killed, and are started again until their slots are retired.  A
program is at one place at a time, and its place decides which list it is on.  `Step` says
what can happen; the functions of the source do nothing to the programs but these steps.
-/

namespace BachScheduler

open BachScheduler.Ring

/-- Where a program is in its life.  `reaped`, `passed` and `buried` are what `finished`,
`taken` to `spent`, and `gone` are for a program that was killed before its exit. -/
inductive Place where
  | unborn
  | waiting
  | new
  | all
  | sch
  | finished
  | taken
  | reported
  | spent
  | gone
  | killed
  | reaped
  | passed
  | buried
  deriving DecidableEq, Repr

namespace Place

/-- The list on which the programs of a place are. -/
def home : Place → Option Node
  | .new => some .pnewL
  | .all => some .progsAll
  | .sch => some .progsSch
  | .finished | .reaped => some .pfinishedL
  | _ => none

/-- Whether the slot of a program is still in use. -/
def live : Place → Bool
  | .waiting | .new | .all | .sch | .finished | .taken | .reported => true
  | _ => false

/-- Whether a program has been handed to the scheduler and was not killed. -/
def spared : Place → Bool
  | .all | .sch | .finished | .taken | .reported | .spent | .gone => true
  | _ => false

/-- Whether a program was killed. -/
def dead : Place → Bool
  | .killed | .reaped | .passed | .buried => true
  | _ => false

end Place

/-- What is done with the programs of `progs_sch`: they run, `freeze_sched` settles their
quantum, or others are chosen and thawed. -/
inductive Phase where
  | running
  | settling
  | choosing
  deriving DecidableEq, Repr

/-- The heads of the lists of programs. -/
def lifeHeads : List Node := [.progsAll, .progsSch, .pnewL, .pfinishedL]

/-- The programs, where they are and in which order, the core and the phase of the quantum. -/
structure Life where
  place : ProgPtr → Place
  on : Lists
  core : Core
  phase : Phase

namespace Life

/-- The core changes. -/
def act (a : Life) (effect : Core → Core) : Life :=
  { a with core := effect a.core }

/-- Take a program off its list, if it is on one. -/
def leave (on : Lists) (prog : ProgPtr) : Option Node → Lists
  | none => on
  | some head => on.drop head prog

/-- Append a program to a list, if there is one. -/
def join (on : Lists) (prog : ProgPtr) : Option Node → Lists
  | none => on
  | some head => on.push head prog

/-- A program goes to another place. -/
def transfer (a : Life) (prog : ProgPtr) (k : Place) : Life :=
  { a with
    place := Function.update a.place prog k
    on := join (leave a.on prog (a.place prog).home) prog k.home }

/-- A program does not run: it is frozen and its clock has stopped. -/
def Resting (a : Life) (prog : ProgPtr) : Prop :=
  (a.core.progs prog).freezer = .frozen ∧ (a.core.pds prog).runStatus = .stoped

/-- A program runs. -/
def Running (a : Life) (prog : ProgPtr) : Prop :=
  (a.core.progs prog).freezer = .thawed ∧ (a.core.pds prog).runStatus = .running

/-- No slot is in use. -/
def Empty (a : Life) : Prop :=
  ∀ prog, (a.place prog).live = false

section Simp

variable (a : Life) (effect : Core → Core) (prog : ProgPtr) (k : Place)

@[simp] theorem act_place : (a.act effect).place = a.place := rfl
@[simp] theorem act_on : (a.act effect).on = a.on := rfl
@[simp] theorem act_core : (a.act effect).core = effect a.core := rfl
@[simp] theorem act_phase : (a.act effect).phase = a.phase := rfl
@[simp] theorem transfer_place : (a.transfer prog k).place = Function.update a.place prog k := rfl
@[simp] theorem transfer_core : (a.transfer prog k).core = a.core := rfl
@[simp] theorem transfer_phase : (a.transfer prog k).phase = a.phase := rfl

end Simp

end Life

/-- The exit of a shell with a pid was reported just now. -/
def Core.Told (core : Core) (pid : Nat) : Prop :=
  ∃ before shell, core.log = before ++ [.reaped shell] ∧ (core.progs shell).shellPid = pid

/-- What a program can do, where it is before and after, and the effect on the core.
`exits` says at which places of the programs their exits come in. -/
inductive Move (exits : ProgPtr → Place → Prop) (a : Life) (prog : ProgPtr) :
    Place → Place → (Core → Core) → Prop
  /-- Its start has come. -/
  | arrive : Move exits a prog .waiting .new Core.arrive
  /-- It is handed to the scheduler. -/
  | enter {pd : PdCore} {now : Word32} (some : a.core.sched.progsInit ≠ 0)
      (fresh : PdCore.Fresh pd a.core prog now) :
        Move exits a prog .new .all (Core.enter prog pd now)
  /-- It is put back after a quantum. -/
  | gather (phase : a.phase = .settling) (resting : a.Resting prog) : Move exits a prog .sch .all id
  /-- It is chosen to run alone. -/
  | monitor (phase : a.phase = .choosing) (idle : a.on .progsSch = [])
      (first : (a.on .progsAll).head? = some prog)
      (monitoring : a.core.sched.monitorWnd ≤ a.core.sched.progsNr) :
      Move exits a prog .all .sch fun core =>
        (core.assign prog (core.sched.monitorWnd.tmod maxCores)).bump
  /-- It has met its target and is killed. -/
  | kill (phase : a.phase = .settling) (resting : a.Resting prog) :
      Move exits a prog .sch .killed (Core.kill prog)
  /-- Its exit is recorded. -/
  | finish {pid : Nat} {source : Place} (phase : a.phase = .running) (allowed : exits prog source)
      (found : hashLookup a.core.progPidHash pid = some prog) (runs : source = .all ∨ source = .sch)
      (told : a.core.Told pid) : Move exits a prog source .finished (Core.recordEnd prog pid)
  /-- Its exit is recorded after it was killed. -/
  | reap {pid : Nat} (phase : a.phase = .running) (allowed : exits prog .killed)
      (found : hashLookup a.core.progPidHash pid = some prog) (told : a.core.Told pid) :
      Move exits a prog .killed .reaped (Core.recordEnd prog pid)
  /-- `rebalance` takes it from the list of the finished programs. -/
  | take : Move exits a prog .finished .taken id
  /-- The same after it was killed. -/
  | pass : Move exits a prog .reaped .passed id
  /-- Its totals are reported. -/
  | report : Move exits a prog .taken .reported (Core.report prog)
  /-- Its slot is retired. -/
  | retire : Move exits a prog .reported .spent (Core.retire prog)
  /-- It is freed. -/
  | free : Move exits a prog .spent .gone (Core.free prog)
  /-- The same after it was killed. -/
  | bury : Move exits a prog .passed .buried (Core.free prog)

/-- The programs that were charged, with the batches of the charges. -/
def charges (log : List Event) : List (ProgPtr × List (Int × Nat)) :=
  log.filterMap fun
    | .charged prog _ batches => some (prog, batches)
    | _ => none

@[simp] theorem charges_append (log more : List Event) :
    charges (log ++ more) = charges log ++ charges more :=
  List.filterMap_append

/-- A program was not charged in this counting epoch yet. -/
def Core.Uncharged (core : Core) (prog : ProgPtr) : Prop :=
  ∀ batches, (prog, batches) ∈ charges core.log → ∀ batch ∈ batches, batch.2 < core.sched.epoch

/-- What happens without a program changing its place. -/
inductive Act (a : Life) : (Core → Core) → Prop
  | tick : Act a Core.tick
  | readCounters (among : List Int → Nat → Bool) : Act a (Core.readEpochs among)
  | halt {prog : ProgPtr} (phase : a.phase = .settling) (listed : a.place prog = .sch)
      (runs : (a.core.pds prog).runStatus = .running) (now : Word32) : Act a (Core.halt prog now)
  | sample {prog : ProgPtr} (phase : a.phase = .settling) (listed : a.place prog = .sch)
      (read : ∀ i < a.core.cpus.length, a.core.sched.prfEpoch i = a.core.sched.epoch)
      (instrRetd : Word64) (accumulated : Nat → Word64) :
        Act a (Core.sample prog instrRetd accumulated)
  | sampleLast {prog : ProgPtr} (listed : a.place prog = .taken)
      (read : ∀ i, a.core.cpus[i]? = some (a.core.pds prog).cpu →
        a.core.sched.prfEpoch i = a.core.sched.epoch)
      (ticking : a.core.Ticking prog) (now : Word32) (instrRetd : Word64)
      (accumulated : Nat → Word64) :
      Act a (Core.sampleLast prog now instrRetd accumulated)
  | collect {prog : ProgPtr} (phase : a.phase = .settling) (listed : a.place prog = .sch)
      (monitoring : a.core.sched.monitorWnd ≤ a.core.sched.progsNr) :
        Act a (Core.note (.collected prog))
  | charge {prog : ProgPtr}
      (listed : a.phase = .settling ∧ a.place prog = .sch ∨ a.place prog = .taken)
      {batches : List (Int × Nat)} (sampled : a.core.Sampled prog batches)
      (uncharged : a.core.Uncharged prog) :
      Act a (Core.charge prog batches)
  | bump : Act a Core.bump
  | thaw {prog : ProgPtr} (phase : a.phase = .choosing) (listed : a.place prog = .sch)
      (waits : (a.core.pds prog).runStatus = .stoped) (now : Word32) : Act a (Core.thaw prog now)
  | watch (prog : ProgPtr) (now : Word32) : Act a (Core.noteClocks [.waited prog now])
  | wait (prog : ProgPtr) : Act a (Core.note (.reaped prog))
  | carry {prog : ProgPtr} (listed : a.place prog = .reported) : Act a (Core.carry prog)
  | stop (empty : a.Empty) : Act a Core.stop
  | close (empty : a.Empty) (open_ : Event.printTotals ∉ a.core.log) : Act a Core.close
  | terminate : Act a fun core => { core with massacre := true }

/-- The next instance of a program, as `prog_respawn` starts it. -/
structure ProgCore.Next (born : ProgCore) (core : Core) (old : ProgPtr) : Prop where
  id : born.id = core.sched.progsInit + (core.progs old).id
  cpuset : born.cpuset = core.cpusIn 0 core.cpus.length
  freezer : born.freezer = .frozen
  coresNeeded : born.coresNeeded = (core.progs old).coresNeeded
  instrRetdSum : born.instrRetdSum = (core.progs old).instrRetdSum

/-- A program runs in the counting epoch that the counters are about to begin. -/
def Life.Thawing (a : Life) (prog : ProgPtr) : Prop :=
  a.Running prog ∧ Event.thawed prog (a.core.sched.epoch + 1)
    (a.core.progs prog).cpuset ∈ a.core.log

/-- One step in the life of the programs. -/
inductive Step (exits : ProgPtr → Place → Prop) (a : Life) : Life → Prop
  | move {prog : ProgPtr} {source target : Place} {effect : Core → Core}
      (here : a.place prog = source) (move : Move exits a prog source target effect) :
      Step exits a ((a.transfer prog target).act effect)
  | act {effect : Core → Core} (act : Act a effect) : Step exits a (a.act effect)
  | freeze (phase : a.phase = .running)
      (none : ∀ prog, a.place prog ≠ .finished ∧ a.place prog ≠ .taken) :
      Step exits a { a with phase := .settling }
  | choose (phase : a.phase = .settling) (idle : a.on .progsSch = []) :
      Step exits a { a with phase := .choosing }
  /-- The next counting epoch begins. -/
  | wake (phase : a.phase = .choosing) (thawing : ∀ prog, a.place prog = .sch → a.Thawing prog) :
      Step exits a { a with phase := .running, core := a.core.newEpoch }
  /-- Nothing is left that could run. -/
  | abandon (phase : a.phase = .settling) (idle : a.on .progsSch = []) (empty : a.Empty) :
      Step exits a { a with phase := .running }
  /-- Programs are chosen to run together. -/
  | decide {picked rest : List ProgPtr} (phase : a.phase = .choosing) (idle : a.on .progsSch = [])
      (perm : (picked ++ rest).Perm (a.on .progsAll))
      (guarded : ∀ before prog after, picked = before ++ prog :: after →
        (before.map fun p => (a.core.progs p).coresNeeded).sum ≠ maxCores)
      (ordinary : a.core.sched.progsNr < a.core.sched.monitorWnd) :
      Step exits a
        { a with
          place := fun prog => if prog ∈ picked then .sch else a.place prog
          on := Function.update (Function.update a.on .progsAll rest) .progsSch picked
          core := a.core.assignAll (fun p => (a.core.progs p).coresNeeded) picked 0 }
  /-- The slot of a program goes to its next instance. -/
  | respawn {prog : ProgPtr} {born : ProgCore} (here : a.place prog = .reported)
      (carried : (a.core.progs prog).instrRetdSum = (a.core.pds prog).instrRetdSum)
      (running : a.core.sched.stopExecution = false) (next : born.Next a.core prog) :
      Step exits a
        { a with
          place := Function.update (Function.update a.place prog .spent)
            a.core.progsAllocated .waiting
          core := a.core.bear prog born }

/-- Any number of steps. -/
abbrev Steps (exits : ProgPtr → Place → Prop) : Life → Life → Prop :=
  Relation.ReflTransGen (Step exits)

/-- No exit comes in. -/
def unheard : ProgPtr → Place → Prop := fun _ _ => False

section More

variable {exits more : ProgPtr → Place → Prop} {a b : Life} {prog : ProgPtr} {source target : Place}
variable {effect : Core → Core}

theorem Move.weaken (move : Move exits a prog source target effect)
    (allows : ∀ p k, exits p k → more p k) : Move more a prog source target effect := by
  cases move with
  | finish phase allowed found runs told => exact .finish phase (allows _ _ allowed) found runs told
  | reap phase allowed found told => exact .reap phase (allows _ _ allowed) found told
  | enter some fresh => exact .enter some fresh
  | gather phase resting => exact .gather phase resting
  | monitor phase idle first monitoring => exact .monitor phase idle first monitoring
  | kill phase resting => exact .kill phase resting
  | _ => constructor

theorem Step.weaken (step : Step exits a b) (allows : ∀ p k, exits p k → more p k) :
    Step more a b := by
  cases step with
  | move here move => exact .move here (move.weaken allows)
  | act act => exact .act act
  | freeze phase none => exact .freeze phase none
  | choose phase idle => exact .choose phase idle
  | wake phase thawing => exact .wake phase thawing
  | abandon phase idle empty => exact .abandon phase idle empty
  | decide phase idle perm guarded ordinary => exact .decide phase idle perm guarded ordinary
  | respawn here carried running next => exact .respawn here carried running next

/-- Steps without exits are steps. -/
theorem Steps.heard (steps : Steps unheard a b) : Steps exits a b := by
  induction steps with
  | refl => exact .refl
  | tail _ step ih => exact ih.tail (step.weaken fun _ _ never => never.elim)

/-- What the places of all programs have in common is kept when the moves keep it. -/
theorem Step.places {P : Place → Prop} (step : Step exits a b) (all : ∀ p, P (a.place p))
    (moves : ∀ prog source target effect, Move exits a prog source target effect →
      P source → P target)
    (sch : P .sch) (waiting : P .waiting) (spent : P .reported → P .spent) (p : ProgPtr) :
    P (b.place p) := by
  cases step with
  | @move prog source target effect here move =>
      by_cases equal : p = prog
      · subst equal
        simpa using moves p source target effect move (here ▸ all p)
      · simpa [equal] using all p
  | @decide picked rest =>
      by_cases member : p ∈ picked
      · simpa [member] using sch
      · simpa [member] using all p
  | @respawn prog born here =>
      by_cases new : p = a.core.progsAllocated
      · simpa [new] using waiting
      · by_cases equal : p = prog
        · subst equal
          simpa [new] using spent (here ▸ all p)
        · simpa [new, equal] using all p
  | _ => exact all p

end More

end BachScheduler
