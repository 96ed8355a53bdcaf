import BachScheduler.Effects
import Mathlib.Data.BitVec
import Mathlib.Tactic.LinearCombination

/-!
# What the clocks of a program show

The readings of the time for a program cut its life into intervals.  It runs from a reading
before which it is thawed to the next one, and waits in the others.  A clock that ticks shows
how long it ran and how long it waited until the last reading, and the stamp that the next
reading is compared with is the last one.
-/

namespace BachScheduler

/-- What the readings for a program say: the first and the last one, whether the program was
thawed after the last one, and the intervals in which it ran. -/
structure Lapse where
  first : Word32
  last : Word32
  thawed : Bool
  ran : List (Word32 × Word32)

namespace Lapse

/-- An interval ends with each reading. -/
def next (prog : ProgPtr) (lapse : Lapse) : ClockEvent → Lapse
  | .init p now => if p = prog then ⟨now, now, false, []⟩ else lapse
  | .read p now =>
      if p = prog then
        { lapse with
          last := now
          thawed := false
          ran := if lapse.thawed then lapse.ran ++ [(lapse.last, now)] else lapse.ran }
      else lapse
  | .updated .. | .waited .. => lapse
  | .thawed p => if p = prog then { lapse with thawed := true } else lapse

/-- What the readings of a whole run say. -/
def of (prog : ProgPtr) (events : List ClockEvent) : Lapse :=
  events.foldl (next prog) ⟨0, 0, false, []⟩

/-- The time in which a program ran. -/
def time (lapse : Lapse) : Word32 :=
  (lapse.ran.map fun interval => interval.2 - interval.1).sum

theorem of_append (prog : ProgPtr) (events more : List ClockEvent) :
    of prog (events ++ more) = more.foldl (next prog) (of prog events) :=
  List.foldl_append

end Lapse

/-- The program whose clock an event is about. -/
def ClockEvent.prog : ClockEvent → Option ProgPtr
  | .init p _ | .read p _ | .updated p _ _ | .thawed p => some p
  | .waited .. => none

theorem Lapse.of_others {prog : ProgPtr} (events : List ClockEvent) {more : List ClockEvent}
    (others : ∀ event ∈ more, event.prog ≠ some prog) :
    Lapse.of prog (events ++ more) = Lapse.of prog events := by
  rw [of_append]
  generalize of prog events = lapse
  induction more with
  | nil => rfl
  | cons event later ih =>
      have other := others event List.mem_cons_self
      have same : lapse.next prog event = lapse := by
        cases event <;> simp only [ClockEvent.prog, ne_eq,
          Option.some_inj] at other <;> simp [next, other]
      rw [List.foldl_cons, same]
      exact ih fun event member => others event (List.mem_cons_of_mem _ member)

/-- The stamp that the next reading of the time is compared with. -/
def Clock.stamp (clock : Clock) : RunStatus → Word32
  | .stoped => clock.wstart
  | .running => clock.rstart

/-- A clock shows what the readings say. -/
structure Clock.Ticks (clock : Clock) (status : RunStatus) (lapse : Lapse) : Prop where
  total : clock.running + clock.waiting = lapse.last - lapse.first
  ran : clock.running = lapse.time
  thawed : lapse.thawed = true ↔ status = .running
  stamp : clock.stamp status = lapse.last

section Reading

variable {clock : Clock} {status : RunStatus} {lapse : Lapse} {prog : ProgPtr} {now : Word32}

/-- What a clock that ticks shows after a reading. -/
theorem Clock.Ticks.read (ticks : clock.Ticks status lapse) (prog : ProgPtr) (now : Word32) :
    (clock.update status now).running + (clock.update status now).waiting =
        now - (lapse.next prog (.read prog now)).first ∧
      (clock.update status now).running = (lapse.next prog (.read prog now)).time := by
  have total := ticks.total
  have stamp := ticks.stamp
  simp only [Lapse.next, if_true]
  cases status with
  | stoped =>
      have waits : lapse.thawed = false := by simpa using ticks.thawed
      simp only [Clock.update, waits]
      simp only [Clock.stamp] at stamp
      refine ⟨?_, ticks.ran⟩
      rw [stamp]
      linear_combination total
  | running =>
      have runs : lapse.thawed = true := ticks.thawed.mpr rfl
      simp only [Clock.update, runs, if_true]
      simp only [Clock.stamp] at stamp
      constructor
      · rw [stamp]
        linear_combination total
      · rw [ticks.ran, stamp]
        simp [Lapse.time]

theorem Clock.Ticks.stop (ticks : clock.Ticks .running lapse) (prog : ProgPtr) (now : Word32) :
    (clock.update .running now).Ticks .stoped (lapse.next prog (.read prog now)) where
  total := by
    rw [(ticks.read prog now).1]
    simp [Lapse.next]
  ran := (ticks.read prog now).2
  thawed := by simp [Lapse.next]
  stamp := by simp [Lapse.next, Clock.stamp, Clock.update]

theorem Clock.Ticks.thaw (ticks : clock.Ticks .stoped lapse) (prog : ProgPtr) (now : Word32) :
    (clock.update .stoped now).Ticks .running
    ((lapse.next prog (.read prog now)).next prog (.thawed prog)) where
  total := by
    rw [(ticks.read prog now).1]
    simp [Lapse.next]
  ran := by
    rw [(ticks.read prog now).2]
    simp [Lapse.next, Lapse.time]
  thawed := by simp [Lapse.next]
  stamp := by simp [Lapse.next, Clock.stamp, Clock.update]

end Reading

/-- What the readings say about a program. -/
def Core.lapse (core : Core) (prog : ProgPtr) : Lapse := Lapse.of prog core.clocks

/-- The clock of a program was initialised, and ticks. -/
structure Core.Ticking (core : Core) (prog : ProgPtr) : Prop where
  init : .init prog (core.lapse prog).first ∈ core.clocks
  ticks : (core.pds prog).clock.Ticks (core.pds prog).runStatus (core.lapse prog)

/-- The clock of a program is left alone. -/
structure Core.Unclocked (prog : ProgPtr) (core other : Core) : Prop where
  clock : (other.pds prog).clock = (core.pds prog).clock
  runStatus : (other.pds prog).runStatus = (core.pds prog).runStatus
  clocks : ∃ events, other.clocks = core.clocks ++ events ∧ ∀ event ∈ events, event.prog ≠ some prog

namespace Core

variable {core other later : Core} {prog p : ProgPtr} {now : Word32}

theorem Unclocked.same (pds : ∀ q, (other.pds q).clock = (core.pds q).clock ∧
    (other.pds q).runStatus = (core.pds q).runStatus) (clocks : other.clocks = core.clocks) :
    Unclocked p core other :=
  ⟨(pds p).1, (pds p).2, [], by simp [clocks], by simp⟩

theorem Unclocked.trans (first : Unclocked p core other) (second : Unclocked p other later) :
    Unclocked p core later := by
  obtain ⟨events, before, others⟩ := first.clocks
  obtain ⟨more, after, others'⟩ := second.clocks
  refine ⟨second.clock.trans first.clock, second.runStatus.trans first.runStatus,
    events ++ more, ?_, ?_⟩
  · rw [after, before, List.append_assoc]
  · intro event member
    exact (List.mem_append.mp member).elim (others event) (others' event)

theorem Ticking.unclocked (ticking : core.Ticking p) (alone : Unclocked p core other) :
    other.Ticking p := by
  obtain ⟨events, clocks, others⟩ := alone.clocks
  have lapse : other.lapse p = core.lapse p := by
    unfold Core.lapse
    rw [clocks, Lapse.of_others _ others]
  constructor
  · rw [lapse, clocks]
    exact List.mem_append_left _ ticking.init
  · rw [alone.clock, alone.runStatus, lapse]
    exact ticking.ticks

theorem Unclocked.modPd {change : PdCore → PdCore} (same : ∀ pd, (change pd).clock = pd.clock ∧
    (change pd).runStatus = pd.runStatus) : Unclocked p core (core.modPd prog change) := by
  refine .same (fun q => ?_) rfl
  by_cases equal : q = prog
  · subst equal
    simpa [Core.modPd] using same (core.pds q)
  · simp [Core.modPd, equal]

theorem Unclocked.apart {change : PdCore → PdCore} (differs : p ≠ prog) :
    Unclocked p core (core.modPd prog change) :=
  ⟨by simp [Core.modPd, differs], by simp [Core.modPd, differs], [], by simp [Core.modPd], by simp⟩

theorem Unclocked.noted {events : List ClockEvent}
    (others : ∀ event ∈ events, event.prog ≠ some p) :
    Unclocked p core (core.noteClocks events) :=
  ⟨rfl, rfl, events, rfl, others⟩

theorem Unclocked.updateClock (differs : p ≠ prog) :
    Unclocked p core (core.updateClock prog now) := by
  have read : Unclocked p core (core.readClock prog now) :=
    ⟨by simp [readClock, Core.modPd, noteClocks, differs], by
      simp [readClock, Core.modPd, noteClocks, differs],
      [.read prog now], rfl, by simpa [ClockEvent.prog] using differs.symm⟩
  exact read.trans ⟨rfl, rfl, [_], rfl, by simpa [ClockEvent.prog] using differs.symm⟩

theorem Unclocked.sample {instrRetd : Word64} {accumulated : Nat → Word64} :
    Unclocked p core (core.sample prog instrRetd accumulated) := by
  have copied : Unclocked p core (core.copyStats prog accumulated) := .modPd fun _ => ⟨rfl, rfl⟩
  exact copied.trans (.modPd fun _ => ⟨rfl, rfl⟩)

theorem Ticking.halt (ticking : core.Ticking prog) (runs : (core.pds prog).runStatus = .running)
    (now : Word32) : (core.halt prog now).Ticking prog := by
  have lapse : (core.halt prog now).lapse prog = (core.lapse prog).next prog (.read prog now) := by
    simp only [Core.lapse, Core.halt, Core.updateClock, Core.readClock, Core.noteUpdate,
      Core.noteClocks, Core.modPd, Core.modProg, Lapse.of_append]
    rfl
  have ticks := ticking.ticks
  rw [runs] at ticks
  constructor
  · rw [lapse]
    have first : ((core.lapse prog).next prog (.read prog now)).first =
        (core.lapse prog).first := by
      simp [Lapse.next]
    rw [first]
    exact List.mem_append_left _ (List.mem_append_left _ ticking.init)
  · rw [lapse]
    simpa [Core.halt, Core.modPd, Core.modProg, runs] using ticks.stop prog now

theorem Ticking.thaw (ticking : core.Ticking prog) (waits : (core.pds prog).runStatus = .stoped)
    (now : Word32) : (core.thaw prog now).Ticking prog := by
  have lapse : (core.thaw prog now).lapse prog =
      ((core.lapse prog).next prog (.read prog now)).next prog (.thawed prog) := by
    simp only [Core.lapse, Core.thaw, Core.updateClock, Core.readClock, Core.noteUpdate,
      Core.noteClocks, Core.modPd, Core.modProg, Core.note, Core.zeroEpochs, Lapse.of_append]
    rfl
  have ticks := ticking.ticks
  rw [waits] at ticks
  constructor
  · rw [lapse]
    have first : (((core.lapse prog).next prog (.read prog now)).next prog (.thawed prog)).first =
        (core.lapse prog).first := by
      simp [Lapse.next]
    rw [first]
    exact List.mem_append_left _ (List.mem_append_left _ (List.mem_append_left _ ticking.init))
  · rw [lapse]
    simpa [Core.thaw, Core.modPd, Core.modProg, Core.note, Core.noteClocks, Core.zeroEpochs, waits]
      using ticks.thaw prog now

theorem Ticking.enter {pd : PdCore} (fresh : PdCore.Fresh pd core prog now) :
    (core.enter prog pd now).Ticking prog := by
  have lapse : (core.enter prog pd now).lapse prog = ⟨now, now, false, []⟩ := by
    simp only [Core.lapse, Core.enter, Lapse.of_append]
    simp [Lapse.next]
  constructor
  · rw [lapse]
    exact List.mem_append_right _ List.mem_cons_self
  · rw [lapse]
    have clock : ((core.enter prog pd now).pds prog).clock = ⟨now, now, 0, 0⟩ := by
      simp [Core.enter, fresh.clock]
    have status : ((core.enter prog pd now).pds prog).runStatus = .stoped := by
      simp [Core.enter, fresh.runStatus]
    rw [clock, status]
    constructor <;> simp [Lapse.time, Clock.stamp]

end Core

end BachScheduler
