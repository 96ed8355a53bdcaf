import BachScheduler.Lib.Chronicle
import BachScheduler.Slots

/-!
# Whose exit a shell reports

The executor knows a program by the pid of its shell: the exit of the shell is how it hears that
the program has ended.  As long as the shells of the programs that have not ended differ, and a
program that was killed was known by its own pid and its shell is heard of only when nothing
runs, the table leads from the shells to the programs that run and from no other pid.
-/

namespace BachScheduler

open Chronicle Wp

variable {exits : ProgPtr → Place → Prop} {name : PolicyName} {a b : Life} {prog p : ProgPtr}
variable {source target : Place} {effect : Core → Core} {shell own : ProgPtr → Nat}
    {before : List Event}
variable {confs : List ProgConf} {cpus : List Int} {targets : Int → Word64}

section Rules

/-- The programs that were handed to the scheduler. -/
def started (log : List Event) : List ProgPtr :=
  log.filterMap fun
    | .newRunning p => some p
    | _ => none

theorem mem_started {log : List Event} : p ∈ started log ↔ .newRunning p ∈ log := by
  unfold started
  rw [List.mem_filterMap]
  constructor
  · intro found
    obtain ⟨event, member, same⟩ := found
    cases event with
    | newRunning =>
        cases same
        exact member
    | _ => cases same
  · exact fun member => ⟨_, member, rfl⟩

/-- What the system keeps to: a shell exits once, after its program was started, and a new shell
has another pid than the shells of the programs whose end has not been recorded. -/
def shellRule (shell : ProgPtr → Nat) (before : List Event) : Event → Prop
  | .reaped p => .newRunning p ∈ before ∧ .reaped p ∉ before
  | .respawned _ new => ∀ p < new, .clearProg p ∉ before → .runningFinished p ∉ before →
      shell p ≠ shell new
  | _ => True

/-- What the executor relies on when it kills: the program has the pid of its shell, and the exit
of a killed program comes in when the end of every program has been recorded. -/
def killRule (shell own : ProgPtr → Nat) (before : List Event) : Event → Prop
  | .clearProg p => own p = shell p
  | .reaped p => .clearProg p ∈ before → ∀ q ∈ started before, .clearProg q ∈ before ∨
      .runningFinished q ∈ before
  | _ => True

/-- An end is recorded after the exit of the shell was reported. -/
def recordRule (before : List Event) : Event → Prop
  | .runningFinished p => .reaped p ∈ before
  | _ => True

instance (shell : ProgPtr → Nat) (before : List Event) (event : Event) :
    Decidable (shellRule shell before event) := by
  cases event <;> unfold shellRule <;> infer_instance

instance (shell own : ProgPtr → Nat) (before : List Event) (event : Event) :
    Decidable (killRule shell own before event) := by
  cases event <;> unfold killRule <;> infer_instance

/-- Whether an event is the record of an end. -/
def Event.records : Event → Bool
  | .runningFinished _ => true
  | _ => false

theorem recordRule_of_plain {event : Event} (plain : event.records = false) (before : List Event) :
    recordRule before event := by
  cases event with
  | runningFinished => exact absurd plain (by simp [Event.records])
  | _ => trivial

theorem Core.Extends.recorded {core other : Core} (extends_ : core.Extends Event.records other)
    (lawful : Lawful recordRule core.log) : Lawful recordRule other.log := by
  obtain ⟨events, log, plain⟩ := extends_
  rw [log]
  exact lawful.append fun event noted => recordRule_of_plain (plain event noted)

theorem Act.records (act : Act a effect) : a.core.Extends Event.records (effect a.core) := by
  cases act with
  | close => exact ⟨_, a.core.close_notes, by simp [Event.records]⟩
  | _ => first | exact .same rfl | exact .noted rfl rfl

/-- A move records no end, or the end of its program. -/
theorem Move.records (move : Move exits a prog source target effect) :
    a.core.Extends Event.records (effect a.core) ∨
      ∃ pid, effect = Core.recordEnd prog pid ∧ a.core.Told pid ∧
        hashLookup a.core.progPidHash pid = some prog := by
  cases move with
  | finish phase allowed found runs told => exact .inr ⟨_, rfl, told, found⟩
  | reap phase allowed found told => exact .inr ⟨_, rfl, told, found⟩
  | monitor => exact .inl ((a.core.assign_extends (fun _ _ _ => rfl) prog _).trans (.same rfl))
  | kill => exact .inl ⟨_, a.core.kill_notes prog, by simp [Event.records]⟩
  | _ => first | exact .inl (.same rfl) | exact .inl (.noted rfl rfl)

end Rules

section Tables

namespace Place

/-- Whether a program runs, or rests between its quanta. -/
def runs : Place → Bool
  | .all | .sch => true
  | _ => false

/-- Whether a program has not ended. -/
def pending : Place → Bool
  | .waiting | .new => true
  | k => k.runs

theorem pending_of_runs {k : Place} (here : k.runs = true) : k.pending = true := by
  cases k <;> first | rfl | exact absurd here (by decide)

/-- A program that was started and whose end has not been recorded runs. -/
theorem runs_iff (k : Place) : k.runs = true ↔
    Mark.enrolled.borne k = true ∧ Mark.cleared.borne k = false ∧
      Mark.recorded.borne k = false := by
  cases k <;> simp [runs, Mark.borne, spared, dead]

/-- A program that was not started, or whose end has not been recorded, has not ended. -/
theorem pending_iff (k : Place) : k.pending = true ↔
    k ≠ .unborn ∧ Mark.cleared.borne k = false ∧ Mark.recorded.borne k = false := by
  cases k <;> simp [pending, runs, Mark.borne, dead]

end Place

/-- The programs have the pids that are told of them, and the log keeps to the rules. -/
structure Life.Obeys (shell own : ProgPtr → Nat) (a : Life) : Prop where
  shellPid : ∀ p < a.core.progsAllocated, (a.core.progs p).shellPid = shell p
  pid : ∀ p < a.core.progsAllocated, (a.core.progs p).pid = own p
  shells : Lawful (shellRule shell) a.core.log
  kills : Lawful (killRule shell own) a.core.log

/-- What comes before a state that keeps to the rules keeps to them. -/
theorem Step.obeys (step : Step exits a b) (obeys : b.Obeys shell own) : a.Obeys shell own := by
  obtain ⟨more, log⟩ := step.log_grows
  have same : a.core.progsAllocated ≤ b.core.progsAllocated ∧ ∀ p < a.core.progsAllocated,
      (b.core.progs p).shellPid = (a.core.progs p).shellPid ∧
        (b.core.progs p).pid = (a.core.progs p).pid := by
    cases step with
    | move here move =>
        exact ⟨move.keeps.progsAllocated.ge, fun p _ => ⟨move.keeps.shellPid p, move.keeps.pid p⟩⟩
    | act act =>
        exact ⟨act.keeps.progsAllocated.ge, fun p _ => ⟨act.keeps.shellPid p, act.keeps.pid p⟩⟩
    | @decide picked rest =>
        have keeps := Core.assignAll_keeps a.core (fun p => (a.core.progs p).coresNeeded) picked 0
        exact ⟨keeps.progsAllocated.ge, fun p _ => ⟨keeps.shellPid p, keeps.pid p⟩⟩
    | respawn here carried running next =>
        exact ⟨Nat.le_succ _, fun p inside => by simp [Core.bear, inside.ne]⟩
    | _ => exact ⟨le_rfl, fun p _ => ⟨rfl, rfl⟩⟩
  obtain ⟨allocated, fields⟩ := same
  constructor
  case shellPid => exact fun p inside =>
      (fields p inside).1.symm.trans (obeys.shellPid p (inside.trans_le allocated))
  case pid =>
      exact fun p inside => (fields p inside).2.symm.trans (obeys.pid p (inside.trans_le allocated))
  case shells => exact Lawful.earlier (log ▸ obeys.shells)
  case kills => exact Lawful.earlier (log ▸ obeys.kills)

/-- What the executor knows of the shells. -/
structure Life.Known (shell : ProgPtr → Nat) (a : Life) : Prop where
  apart : ∀ p q, (a.place p).pending = true → (a.place q).pending = true → shell p = shell q → p = q
  table : ∀ pid p, hashLookup a.core.progPidHash pid = some p ↔
    (a.place p).runs = true ∧ shell p = pid
  told : Lawful recordRule a.core.log
  unheard : ∀ p, a.place p ≠ .reaped ∧ a.place p ≠ .passed ∧ a.place p ≠ .buried

/-- While a program runs, the shell whose exit was just reported is that of a program that runs. -/
theorem Life.Known.teller (known : a.Known shell) (obeys : a.Obeys shell own) (marked : a.Marked)
    (waited : a.core.log = before ++ [.reaped prog]) (busy : (a.place p).runs = true) :
    (a.place prog).runs = true := by
  obtain ⟨enrolled, once⟩ := (waited ▸ obeys.shells).last
  have earlier : ∀ event ∈ before, event ∈ a.core.log := fun event noted =>
    waited ▸ List.mem_append_left _ noted
  have ahead : ∀ event ∈ a.core.log, event ≠ .reaped prog → event ∈ before := by
    intro event noted differs
    rw [waited] at noted
    exact (List.mem_append.mp noted).resolve_right fun last => differs (List.mem_singleton.mp last)
  have uncleared : .clearProg prog ∉ a.core.log := by
    intro cleared
    have spent := (waited ▸ obeys.kills).last (ahead _ cleared (by simp)) p
      (mem_started.mpr
        (ahead _ ((marked.mem_iff .enrolled p).mpr ((Place.runs_iff _).mp busy).1) (by simp)))
    obtain ⟨-, alive, unrecorded⟩ := (Place.runs_iff _).mp busy
    rcases spent with gone | gone
    · exact absurd ((marked.mem_iff .cleared p).mp (earlier _ gone)) (by simp [alive])
    · exact absurd ((marked.mem_iff .recorded p).mp (earlier _ gone)) (by simp [unrecorded])
  have unrecorded : .runningFinished prog ∉ a.core.log := by
    intro recorded
    obtain ⟨past, rest, split⟩ := List.append_of_mem (ahead _ recorded (by simp))
    have reported := known.told past (.runningFinished prog) (rest ++ [.reaped prog])
      (by rw [waited, split]; simp)
    exact once (split ▸ List.mem_append_left _ reported)
  refine (Place.runs_iff _).mpr ⟨(marked.mem_iff .enrolled prog).mp (earlier _ enrolled), ?_, ?_⟩
  · exact Bool.eq_false_iff.mpr fun bears => uncleared ((marked.mem_iff .cleared prog).mpr bears)
  · exact Bool.eq_false_iff.mpr fun bears => unrecorded ((marked.mem_iff .recorded prog).mpr bears)

end Tables

section Steps

theorem Move.pending (move : Move exits a prog source target effect)
    (stays : target.pending = true) :
    source.pending = true := by
  cases move <;> first | rfl | exact absurd stays (by decide)

/-- A move hands its program to the scheduler, or takes a program that runs from the table, or
leaves the table alone. -/
theorem Move.table (move : Move exits a prog source target effect) (here : a.place prog = source)
    (known : a.Known shell) (obeys : ((a.transfer prog target).act effect).Obeys shell own)
    (born : prog < a.core.progsAllocated) :
    (source = .new ∧ target = .all ∧
        (effect a.core).progPidHash = hashInsert a.core.progPidHash (shell prog) prog) ∨
      (source.runs = true ∧ target.runs = false ∧
        (effect a.core).progPidHash = (hashDelete a.core.progPidHash (shell prog)).2) ∨
      source.runs = target.runs ∧ (effect a.core).progPidHash = a.core.progPidHash := by
  have inside : prog < (effect a.core).progsAllocated := move.keeps.progsAllocated ▸ born
  have shellPid : (a.core.progs prog).shellPid = shell prog :=
    (move.keeps.shellPid prog).symm.trans (obeys.shellPid prog inside)
  have ownPid : (a.core.progs prog).pid = own prog :=
    (move.keeps.pid prog).symm.trans (obeys.pid prog inside)
  cases move with
  | enter some fresh =>
      refine .inl ⟨rfl, rfl, ?_⟩
      rw [← shellPid]
      rfl
  | kill phase resting =>
      have cleared : own prog = shell prog :=
        obeys.kills (a.core.log ++ [.updateTotals prog]) (.clearProg prog) [.retired prog] (by
          rw [Life.act_core, Life.transfer_core, a.core.kill_notes]
          simp)
      refine .inr (.inl ⟨rfl, rfl, ?_⟩)
      rw [← cleared, ← ownPid]
      rfl
  | finish phase allowed found runs told =>
      obtain ⟨-, same⟩ := (known.table _ _).mp found
      refine .inr (.inl ⟨?_, rfl, ?_⟩)
      · rcases runs with rfl | rfl <;> rfl
      · rw [same]
        rfl
  | reap phase allowed found told =>
      obtain ⟨alive, -⟩ := (known.table _ _).mp found
      rw [here] at alive
      exact absurd alive (by decide)
  | monitor =>
      have steady := Core.assign_steady a.core prog (a.core.sched.monitorWnd.tmod maxCores)
      exact .inr (.inr ⟨rfl, steady.progPidHash⟩)
  | _ => exact .inr (.inr ⟨rfl, rfl⟩)

theorem Life.Known.table_move (known : a.Known shell) (here : a.place prog = source)
    (move : Move exits a prog source target effect)
    (obeys : ((a.transfer prog target).act effect).Obeys shell own)
    (born : prog < a.core.progsAllocated) (pid : Nat) (p : ProgPtr) :
    hashLookup (effect a.core).progPidHash pid = some p ↔
      (Function.update a.place prog target p).runs = true ∧ shell p = pid := by
  have before := known.table pid p
  have others : ∀ q, (a.place q).pending = true → shell q = shell prog →
      source.pending = true → q = prog :=
    fun q waits same stays => known.apart q prog waits (by rw [here]; exact stays) same
  rcases move.table here known obeys born with ⟨rfl, rfl, hash⟩ | ⟨runs, ends, hash⟩ | ⟨same, hash⟩
  · rw [hash, hashLookup_insert]
    by_cases equal : p = prog
    · subst equal
      have absent : hashLookup a.core.progPidHash pid ≠ some p := fun found => by
        have alive := (before.mp found).1
        rw [here] at alive
        exact absurd alive (by decide)
      simp [Place.runs, absent, eq_comm]
    · rw [Function.update_of_ne equal, ← before]
      split
      · next same =>
          refine ⟨fun found => absurd (Option.some.inj found).symm equal, fun found => ?_⟩
          obtain ⟨alive, there⟩ := before.mp found
          exact absurd (others p (Place.pending_of_runs alive) (there.trans same) rfl) equal
      · exact Iff.rfl
  · rw [hash, hashLookup_delete]
    by_cases equal : p = prog
    · subst equal
      rw [Function.update_self, ends]
      simp only [Bool.false_eq_true, false_and, iff_false]
      split
      · exact fun none => absurd none (by simp)
      · next differs => exact fun found => differs (before.mp found).2.symm
    · rw [Function.update_of_ne equal, ← before]
      split
      · next same =>
          refine ⟨fun found => absurd found (by simp), fun found => ?_⟩
          obtain ⟨alive, there⟩ := before.mp found
          exact absurd (others p (Place.pending_of_runs alive) (there.trans same)
            (Place.pending_of_runs runs)) equal
      · exact Iff.rfl
  · rw [hash, before]
    by_cases equal : p = prog
    · subst equal
      rw [Function.update_self, ← same, here]
    · rw [Function.update_of_ne equal]

theorem Life.Known.move (known : a.Known shell) (sound : a.Sound) (marked : a.Marked)
    (here : a.place prog = source) (move : Move exits a prog source target effect)
    (obeys : ((a.transfer prog target).act effect).Obeys shell own) :
    ((a.transfer prog target).act effect).Known shell := by
  have born : prog < a.core.progsAllocated := sound.allocated (here ▸ move.source_born)
  have before : a.Obeys shell own := (Step.move here move).obeys obeys
  have waits : ∀ p, (Function.update a.place prog target p).pending = true →
      (a.place p).pending = true := by
    intro p stays
    by_cases equal : p = prog
    · subst equal
      rw [here]
      exact move.pending (by simpa using stays)
    · simpa [equal] using stays
  constructor
  case apart => exact fun p q first second => known.apart p q (waits p first) (waits q second)
  case table => exact known.table_move here move obeys born
  case told =>
    rcases move.records with plain | ⟨pid, rfl, ⟨past, teller, waited, shellPid⟩, found⟩
    · exact plain.recorded known.told
    · obtain ⟨runs, same⟩ := (known.table pid prog).mp found
      have alive := known.teller before marked waited runs
      have inside : teller < a.core.progsAllocated := sound.allocated fun unborn => by
        rw [unborn] at alive
        exact absurd alive (by decide)
      have told : shell teller = shell prog :=
        (before.shellPid teller inside).symm.trans (shellPid.trans same.symm)
      obtain rfl := known.apart teller prog (Place.pending_of_runs alive)
        (Place.pending_of_runs runs) told
      exact known.told.concat (waited ▸ List.mem_append_right _ List.mem_cons_self)
  case unheard =>
    intro p
    by_cases equal : p = prog
    · subst equal
      have fate := known.unheard p
      rw [here] at fate
      cases move with
      | reap phase allowed found told =>
          have runs := ((known.table _ _).mp found).1
          rw [here] at runs
          exact absurd runs (by decide)
      | pass => exact absurd rfl fate.1
      | bury => exact absurd rfl fate.2.1
      | _ => simp
    · simpa [equal] using known.unheard p

theorem Life.Known.congr (known : a.Known shell) (hash : b.core.progPidHash = a.core.progPidHash)
    (extends_ : a.core.Extends Event.records b.core)
    (pending : ∀ p, (b.place p).pending = (a.place p).pending)
    (runs : ∀ p, (b.place p).runs = (a.place p).runs)
    (unheard : ∀ p, b.place p = a.place p ∨ (b.place p).runs = true) : b.Known shell where
  apart p q first second := known.apart p q (pending p ▸ first) (pending q ▸ second)
  table pid p := by rw [hash, runs p, known.table pid p]
  told := extends_.recorded known.told
  unheard p := by
    rcases unheard p with same | alive
    · exact same ▸ known.unheard p
    · refine ⟨?_, ?_, ?_⟩ <;>
      · intro gone
        rw [gone] at alive
        exact absurd alive (by decide)

theorem Life.Known.respawn (known : a.Known shell) (sound : a.Sound) (marked : a.Marked)
    {born : ProgCore} (here : a.place prog = .reported)
    (obeys : Life.Obeys shell own
      { a with
        place := Function.update (Function.update a.place prog .spent)
          a.core.progsAllocated .waiting
        core := a.core.bear prog born }) :
    Life.Known shell
      { a with
        place := Function.update (Function.update a.place
          prog .spent) a.core.progsAllocated .waiting
        core := a.core.bear prog born } := by
  have fresh : a.place a.core.progsAllocated = .unborn := (sound.unborn _).mpr le_rfl
  have place : ∀ p, Function.update (Function.update a.place prog
      .spent) a.core.progsAllocated .waiting p =
      if p = a.core.progsAllocated then .waiting else if p = prog then .spent else a.place p := by
    intro p
    simp only [Function.update_apply]
  have others : ∀ p, p ≠ a.core.progsAllocated →
      (Function.update (Function.update a.place
        prog .spent) a.core.progsAllocated .waiting p).pending = true →
      (a.place p).pending = true := by
    intro p old waits
    rw [place, if_neg old] at waits
    split at waits
    · exact absurd waits (by decide)
    · exact waits
  -- the new shell differs from those of the programs that have not ended
  have apart : ∀ p, p ≠ a.core.progsAllocated → (a.place p).pending = true →
      shell p ≠ shell a.core.progsAllocated := by
    intro p old waits
    obtain ⟨isBorn, alive, unrecorded⟩ := (Place.pending_iff _).mp waits
    refine obeys.shells a.core.log (.respawned prog a.core.progsAllocated) _
      (a.core.bear_notes prog born |>.trans (List.append_assoc ..)) p (sound.allocated isBorn) ?_ ?_
    · exact fun cleared => absurd ((marked.mem_iff .cleared p).mp cleared) (by simp [alive])
    · exact fun recorded => absurd ((marked.mem_iff .recorded p).mp recorded) (by simp [unrecorded])
  constructor
  case apart =>
    intro p q first second same
    by_cases new : p = a.core.progsAllocated
    · by_cases newToo : q = a.core.progsAllocated
      · exact new.trans newToo.symm
      · exact absurd (same.symm.trans
          (congrArg shell new)) (apart q newToo (others q newToo second))
    · by_cases newToo : q = a.core.progsAllocated
      · exact absurd (same.trans (congrArg shell newToo)) (apart p new (others p new first))
      · exact known.apart p q (others p new first) (others q newToo second) same
  case table =>
    intro pid p
    refine (known.table pid p).trans (and_congr_left fun _ => ?_)
    simp only [place]
    split
    · next new => simp [new, fresh, Place.runs]
    · split
      · next same => simp [same, here, Place.runs]
      · rfl
  case told =>
    refine Core.Extends.recorded ⟨[.respawned prog a.core.progsAllocated,
      .setCpuRange a.core.progsAllocated 0 a.core.cpus.length], rfl, ?_⟩ known.told
    simp [Event.records]
  case unheard =>
    intro p
    simp only [place]
    split
    · simp
    · split
      · simp
      · exact known.unheard p

theorem Life.Known.step (known : a.Known shell) (sound : a.Sound) (marked : a.Marked)
    (step : Step exits a b) (obeys : b.Obeys shell own) : b.Known shell := by
  cases step with
  | move here move => exact known.move sound marked here move obeys
  | act act =>
      exact known.congr act.steady.progPidHash act.records (fun _ => rfl) (fun _ => rfl) fun _ =>
        .inl rfl
  | @decide picked rest phase idle perm =>
      have steady := Core.assignAll_steady a.core (fun p => (a.core.progs p).coresNeeded) picked 0
      have waits : ∀ p ∈ picked, a.place p = .all := fun p member => sound.place_picked perm member
      refine known.congr steady.progPidHash
        (Core.assignAll_extends (fun _ _ _ => rfl) _ _ _ _) ?_ ?_ fun p => ?_
      · intro p
        by_cases member : p ∈ picked
        · simp [member, waits p member, Place.pending, Place.runs]
        · simp [member]
      · intro p
        by_cases member : p ∈ picked
        · simp [member, waits p member, Place.runs]
        · simp [member]
      · by_cases member : p ∈ picked
        · simp [member, Place.runs]
        · simp [member]
  | respawn here carried running next => exact known.respawn sound marked here obeys
  | _ => exact known.congr rfl (.same rfl) (fun _ => rfl) (fun _ => rfl) fun _ => .inl rfl

theorem Life.Known.steps (known : a.Known shell) (sound : a.Sound) (marked : a.Marked)
    (steps : Steps exits a b) (obeys : b.Obeys shell own) : b.Known shell := by
  induction steps with
  | refl => exact known
  | tail before step ih =>
      exact (ih (step.obeys obeys)).step (sound.steps before) (marked.steps sound before) step obeys

theorem Life.Boots.known (boots : a.Boots cpus confs targets)
    (apart : ∀ p < confs.length, ∀ q < confs.length, shell p = shell q → p = q) :
    a.Known shell := by
  have waits : ∀ p, (a.place p).pending = true → p < confs.length := by
    intro p here
    rw [boots.place, Place.atStart] at here
    split at here
    · next inside => exact inside
    · exact absurd here (by decide)
  have rests : ∀ p, a.place p = .waiting ∨ a.place p = .unborn := by
    intro p
    rw [boots.place, Place.atStart]
    split
    · exact .inl rfl
    · exact .inr rfl
  constructor
  case apart => exact fun p q first second => apart p (waits p first) q (waits q second)
  case table =>
    intro pid p
    rw [boots.parsed.progPidHash, hashLookup_init]
    rcases rests p with here | here <;> simp [here, Place.runs]
  case told =>
    have early := boots.parsed.early
    refine (List.nil_append a.core.log) ▸ Lawful.nil.append fun event noted =>
      recordRule_of_plain ?_
    have plain := early event noted
    cases event <;> first | rfl | exact absurd plain (by simp [Event.early])
  case unheard =>
    intro p
    rcases rests p with here | here <;> simp [here]

end Steps

end BachScheduler
