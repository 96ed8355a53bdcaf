import BachScheduler.Boot

/-!
# What the log says about a program

Each mark is set once in the life of a program, on its way to certain places; so the log
shows it once when the program has come that far, and never otherwise.
-/

namespace BachScheduler

open Wp

variable {exits : ProgPtr → Place → Prop} {a b : Life} {prog : ProgPtr} {source target : Place}
variable {effect : Core → Core} {confs : List ProgConf} {cpus : List Int} {targets : Int → Word64}

/-- The events that are noted once in the life of a program, or never. -/
inductive Mark where
  | enrolled
  | cleared
  | recorded
  | totalled
  | freed
  | metByKillAll
  | killedNew
  deriving DecidableEq, Repr

namespace Mark

/-- The event of a mark. -/
def event : Mark → ProgPtr → Event
  | .enrolled => .newRunning
  | .cleared => .clearProg
  | .recorded => .runningFinished
  | .totalled => .updateTotals
  | .freed => .deallocated
  | .metByKillAll => .killAllMet
  | .killedNew => .newKilled

/-- The places whose programs bear a mark. -/
def borne : Mark → Place → Bool
  | .enrolled, k => k.spared || k.dead
  | .cleared, k => k.dead
  | .recorded, .finished | .recorded, .taken | .recorded, .reported | .recorded,
    .spent | .recorded, .gone
  | .recorded, .reaped | .recorded, .passed | .recorded, .buried => true
  | .totalled, .reported | .totalled, .spent | .totalled, .gone => true
  | .totalled, k => k.dead
  | .freed, .gone | .freed, .buried => true
  | _, _ => false

end Mark

/-- The log shows each mark of each program as its place says. -/
def Life.Marked (a : Life) : Prop :=
  ∀ (mark : Mark) p, a.core.log.count (mark.event p) = if mark.borne (a.place p) then 1 else 0

theorem Life.Marked.mem_iff (marked : a.Marked) (mark : Mark) (p : ProgPtr) :
    mark.event p ∈ a.core.log ↔ mark.borne (a.place p) = true := by
  rw [← List.count_pos_iff, marked mark p]
  split <;> simp_all

section Steps

/-- The core has only noted events that are no marks. -/
def Core.Quietly (core other : Core) : Prop :=
  ∀ (mark : Mark) p, other.log.count (mark.event p) = core.log.count (mark.event p)

theorem Core.Quietly.same {core other : Core} (log : other.log = core.log) : core.Quietly other :=
  fun _ _ => by rw [log]

theorem Core.assign_quietly (core : Core) (prog : ProgPtr) (rstart : Int) :
    core.Quietly (core.assign prog rstart) := by
  intro mark p
  cases mark <;> simp [assign, modPd, modProg, note, Mark.event]

theorem Core.assignAll_quietly (core : Core) (need : ProgPtr → Int) (progs : List ProgPtr)
    (rstart : Int) : core.Quietly (core.assignAll need progs rstart) := by
  induction progs generalizing core rstart with
  | nil => exact .same rfl
  | cons prog later ih =>
      intro mark p
      exact (ih _ _ mark p).trans (assign_quietly core prog rstart mark p)

theorem Act.quietly (act : Act a effect) : a.core.Quietly (effect a.core) := by
  intro mark p
  cases act <;> cases mark <;>
    simp [Mark.event, Core.readEpochs, Core.modSched, Core.halt, Core.modPd,
      Core.modProg, Core.sample, Core.sampleLast, Core.copyStats, Core.note, Core.noteClocks,
        Core.charge, Core.bump, Core.tick, Core.thaw,
      Core.zeroEpochs, Core.carry, Core.stop, Core.close, Core.print]

/-- A move sets the marks of its program that the new place has and the old one has not. -/
theorem Move.noted (move : Move exits a prog source target effect) (mark : Mark) (p : ProgPtr) :
    (effect a.core).log.count (mark.event p) = a.core.log.count (mark.event p) +
      if prog = p ∧ mark.borne source = false ∧ mark.borne target = true then 1 else 0 := by
  cases move with
  | monitor =>
      have quietly := Core.assign_quietly a.core prog (a.core.sched.monitorWnd.tmod maxCores) mark p
      have none : ¬ (prog = p ∧ mark.borne .all = false ∧ mark.borne .sch = true) := by
        cases mark <;> simp [Mark.borne, Place.spared, Place.dead]
      rw [if_neg none]
      exact quietly
  | finish phase allowed found runs =>
      rcases runs with rfl | rfl <;> cases mark <;>
        simp [Mark.event, Mark.borne, Place.spared, Place.dead, Core.recordEnd, List.count_cons]
  | _ =>
      cases mark <;>
        simp [Mark.event, Mark.borne, Place.spared, Place.dead, Core.arrive, Core.enter,
          Core.kill, Core.clear, Core.report, Core.modPd, Core.recordEnd, Core.retire, Core.free,
            List.count_cons]

/-- A mark that a program bears stays. -/
theorem Move.borne (move : Move exits a prog source target effect) (mark : Mark)
    (bears : mark.borne source = true) : mark.borne target = true := by
  cases move with
  | finish phase allowed found runs =>
      rcases runs with rfl | rfl <;> cases mark <;> first | rfl | exact bears
  | _ => cases mark <;> first | rfl | exact bears

theorem Life.Marked.move (marked : a.Marked) (here : a.place prog = source)
    (move : Move exits a prog source target effect) :
    ((a.transfer prog target).act effect).Marked := by
  intro mark p
  rw [Life.act_core, Life.transfer_core, move.noted mark p, marked mark p, Life.act_place,
    Life.transfer_place]
  by_cases equal : p = prog
  · subst equal
    have stays := move.borne mark
    cases before : mark.borne source <;> cases after : mark.borne target <;> simp_all
  · simp [equal, Ne.symm equal]

/-- The marks are the same when the core has noted none and no program has moved. -/
theorem Life.Marked.congr (marked : a.Marked) (quietly : a.core.Quietly b.core)
    (same : ∀ mark : Mark, ∀ p, mark.borne (b.place p) = mark.borne (a.place p)) : b.Marked := by
  intro mark p
  rw [quietly mark p, marked mark p, same]

theorem Life.Marked.step (marked : a.Marked) (step : Step exits a b) (sound : a.Sound) :
    b.Marked := by
  cases step with
  | move here move => exact marked.move here move
  | act act => exact marked.congr act.quietly fun _ _ => rfl
  | @decide picked rest phase idle perm =>
      refine marked.congr (Core.assignAll_quietly _ _ _ _) fun mark p => ?_
      by_cases member : p ∈ picked
      · simp only [member, if_true, sound.place_picked perm member]
        cases mark <;> rfl
      · simp [member]
  | @respawn prog born here =>
      refine marked.congr (fun mark p => ?_) fun mark p => ?_
      · cases mark <;> simp [Core.bear, Mark.event]
      · by_cases new : p = a.core.progsAllocated
        · subst new
          have unborn := (sound.unborn a.core.progsAllocated).mpr le_rfl
          cases mark <;> simp [unborn, Mark.borne, Place.spared, Place.dead]
        · by_cases equal : p = prog
          · subst equal
            cases mark <;> simp [new, here, Mark.borne, Place.spared, Place.dead]
          · simp [new, equal]
  | _ => exact marked.congr (.same rfl) fun _ _ => rfl

theorem Life.Marked.steps (marked : a.Marked) (sound : a.Sound) (steps : Steps exits a b) :
    b.Marked := by
  induction steps with
  | refl => exact marked
  | tail before step ih => exact ih.step step (sound.steps before)

theorem Life.Boots.marked (boots : a.Boots cpus confs targets) : a.Marked := by
  intro mark p
  have none : mark.event p ∉ a.core.log := fun noted => by
    have early := boots.parsed.early _ noted
    cases mark <;> simp [Mark.event, Event.early] at early
  rw [List.count_eq_zero.mpr none, boots.place, Place.atStart]
  split <;> cases mark <;> rfl

end Steps

end BachScheduler
