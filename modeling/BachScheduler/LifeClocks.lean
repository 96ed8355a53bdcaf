import BachScheduler.Life

/-!
# The clocks along the life of the programs

The clocks of the programs that may run tick, the programs on `progs_all` wait, and those on
`progs_sch` run between the expiries.
-/

namespace BachScheduler

variable {exits : ProgPtr → Place → Prop} {a : Life} {prog p : ProgPtr} {source target : Place}
variable {effect : Core → Core}

/-- Whether the time is still to be read for the programs of a place. -/
def Place.ticks : Place → Bool
  | .all | .sch | .finished => true
  | _ => false

/-- What holds of the clocks in every state. -/
structure Life.Clocked (a : Life) : Prop where
  ticking : ∀ p, (a.place p).ticks = true → a.core.Ticking p
  idle : ∀ p, a.place p = .all → (a.core.pds p).runStatus = .stoped
  awake : a.phase = .running → ∀ p, a.place p = .sch → (a.core.pds p).runStatus = .running

/-- Without a move, the clock of a program is left alone unless its program is stopped or thawed. -/
theorem Act.clocks (act : Act a effect) (ticks : (a.place p).ticks = true) :
    Core.Unclocked p a.core (effect a.core) ∨
      (a.place p = .sch ∧ a.phase ≠ .running ∧ (a.core.Ticking p → (effect a.core).Ticking p)) := by
  cases act with
  | @halt q phase listed runs now =>
      by_cases equal : p = q
      · subst equal
        exact .inr ⟨listed, by simp [phase], fun ticking => ticking.halt runs now⟩
      · have frozen : Core.Unclocked p a.core
            (a.core.modProg q fun p => { p with freezer := .frozen }) :=
          .same (fun _ => ⟨rfl, rfl⟩) rfl
        exact .inl ((frozen.trans (.updateClock equal)).trans (.apart equal))
  | @thaw q phase listed waits now =>
      by_cases equal : p = q
      · subst equal
        exact .inr ⟨listed, by simp [phase], fun ticking => ticking.thaw waits now⟩
      · have read : Core.Unclocked p a.core ((a.core.zeroEpochs q).updateClock q now) :=
          Core.Unclocked.trans (.apart equal) (.updateClock equal)
        have woken : Core.Unclocked p a.core
            (((a.core.zeroEpochs q).updateClock q now).modPd q fun pd =>
            { pd with runStatus := .running }) := read.trans (.apart equal)
        refine .inl (woken.trans ?_)
        exact ⟨rfl, rfl, [.thawed q], rfl, by simpa [ClockEvent.prog] using Ne.symm equal⟩
  | sample => exact .inl .sample
  | @sampleLast q listed =>
      have differs : p ≠ q := fun equal => by simp [equal, listed, Place.ticks] at ticks
      exact .inl ((Core.Unclocked.updateClock differs).trans .sample)
  | @charge q =>
      refine .inl (.same (fun r => ?_) rfl)
      by_cases equal : r = q
      · subst equal
        simp [Core.charge]
      · simp [Core.charge, equal]
  | watch => exact .inl (.noted (by simp [ClockEvent.prog]))
  | _ => exact .inl (.same (fun _ => ⟨rfl, rfl⟩) rfl)

theorem Life.Clocked.act (clocked : a.Clocked) (act : Act a effect) : (a.act effect).Clocked where
  ticking p ticks := by
    rcases act.clocks ticks with alone | ⟨-, -, ticking⟩
    · exact (clocked.ticking p ticks).unclocked alone
    · exact ticking (clocked.ticking p ticks)
  idle p here := by
    have here : a.place p = .all := here
    rcases act.clocks (p := p) (by rw [here]; rfl) with alone | ⟨listed, -, -⟩
    · exact alone.runStatus.trans (clocked.idle p here)
    · exact absurd (here.symm.trans listed) (by decide)
  awake phase p here := by
    have here : a.place p = .sch := here
    rcases act.clocks (p := p) (by rw [here]; rfl) with alone | ⟨-, rests, -⟩
    · exact alone.runStatus.trans (clocked.awake phase p here)
    · exact absurd phase rests

theorem Core.assign_unclocked (core : Core) (rstart : Int) :
    Core.Unclocked p core (core.assign prog rstart) := by
  unfold assign
  refine .same (fun q => ?_) rfl
  by_cases equal : q = prog
  · subst equal
    simp [modPd, modProg, note]
  · simp [modPd, modProg, note, equal]

theorem Core.assignAll_unclocked (core : Core) (need : ProgPtr → Int) (progs : List ProgPtr)
    (rstart : Int) (p : ProgPtr) : Core.Unclocked p core (core.assignAll need progs rstart) := by
  induction progs generalizing core rstart with
  | nil => exact .same (fun _ => ⟨rfl, rfl⟩) rfl
  | cons prog later ih => exact (core.assign_unclocked rstart).trans (ih _ _)

/-- A move leaves the clocks alone, but for a program that is handed to the scheduler. -/
theorem Move.unclocked (move : Move exits a prog source target effect)
    (old : p = prog → source ≠ .new) :
    Core.Unclocked p a.core (effect a.core) := by
  cases move with
  | @enter pd now some fresh =>
      have other : p ≠ prog := fun equal => old equal rfl
      exact ⟨by simp [Core.enter, other], by simp [Core.enter, other], [.init prog now], rfl,
        by simpa [ClockEvent.prog] using Ne.symm other⟩
  | monitor => exact (a.core.assign_unclocked _).trans (.same (fun _ => ⟨rfl, rfl⟩) rfl)
  | kill =>
      refine .same (fun q => ?_) rfl
      by_cases equal : q = prog
      · subst equal
        simp [Core.kill, Core.clear, Core.report, Core.modPd]
      · simp [Core.kill, Core.clear, Core.report, Core.modPd, equal]
  | _ => exact .same (fun _ => ⟨rfl, rfl⟩) rfl

/-- A clock begins to tick when its program is handed to the scheduler. -/
theorem Move.ticks (move : Move exits a prog source target effect) (ticks : target.ticks = true) :
    source.ticks = true ∨ (effect a.core).Ticking prog := by
  cases move with
  | finish phase allowed found runs => rcases runs with rfl | rfl <;> exact .inl rfl
  | enter some fresh => exact .inr (.enter fresh)
  | gather | monitor => exact .inl rfl
  | _ => exact absurd ticks (by decide)

theorem Move.idle (move : Move exits a prog source target effect) (here : target = .all) :
    ((effect a.core).pds prog).runStatus = .stoped := by
  cases move with
  | enter some fresh => simp [Core.enter, fresh.runStatus]
  | gather phase resting => exact resting.2
  | _ => exact absurd here (by decide)

theorem Move.chosen (move : Move exits a prog source target effect) (here : target = .sch) :
    a.phase = .choosing := by
  cases move with
  | monitor phase => exact phase
  | _ => exact absurd here (by decide)

theorem Life.Clocked.move (clocked : a.Clocked) (here : a.place prog = source)
    (move : Move exits a prog source target effect) :
    ((a.transfer prog target).act effect).Clocked := by
  have place : ∀ q, q ≠ prog → ((a.transfer prog target).act effect).place q = a.place q :=
    fun q other => by
    simp [other]
  have alone : ∀ q, q ≠ prog → Core.Unclocked q a.core (effect a.core) := fun q other =>
    move.unclocked fun equal => absurd equal other
  constructor
  case ticking =>
    intro q ticks
    by_cases equal : q = prog
    · subst equal
      rcases move.ticks (by simpa using ticks) with before | ticking
      · have old : source ≠ .new := fun new => absurd (new ▸ before) (by decide)
        exact (clocked.ticking q (here ▸ before)).unclocked (move.unclocked fun _ => old)
      · exact ticking
    · exact (clocked.ticking q (place q equal ▸ ticks)).unclocked (alone q equal)
  case idle =>
    intro q idle
    by_cases equal : q = prog
    · subst equal
      exact move.idle (by simpa using idle)
    · exact (alone q equal).runStatus.trans (clocked.idle q (place q equal ▸ idle))
  case awake =>
    intro phase q listed
    by_cases equal : q = prog
    · subst equal
      have choosing := move.chosen (by simpa using listed)
      exact absurd (phase.symm.trans choosing) (by decide)
    · exact (alone q equal).runStatus.trans (clocked.awake phase q (place q equal ▸ listed))

end BachScheduler
