import BachScheduler.Drift
import BachScheduler.Shells

/-!
# The order of events in the life of a program

Whatever comes in, and in whatever order, the events of a program follow each other as they
should: it runs only when it was handed to the scheduler and until its end is recorded, it is
charged until its totals are reported, its slot is given up once and only then, and no event
names a program that was freed.
-/

namespace BachScheduler

open Chronicle Wp

variable {exits : ProgPtr → Place → Prop} {name : PolicyName} {a b : Life} {prog p : ProgPtr}
variable {source target : Place} {effect : Core → Core} {before : List Event}
variable {confs : List ProgConf} {cpus : List Int} {targets : Int → Word64}

section Rule

/-- The slot of a program was retired or went to its next instance. -/
def Released (log : List Event) (prog : ProgPtr) : Prop :=
  .retired prog ∈ log ∨ ∃ new, .respawned prog new ∈ log

/-- A program was handed to the scheduler, and its end has not been recorded. -/
def Started (log : List Event) (prog : ProgPtr) : Prop :=
  .newRunning prog ∈ log ∧ .clearProg prog ∉ log ∧ .runningFinished prog ∉ log

/-- The program that an event names, but for the report of an exit. -/
def Event.uses : Event → Option ProgPtr
  | .newRunning p | .clearProg p | .runningFinished p | .retired p | .respawned p _ | .deallocated p
  | .setCpuRange p _ _ | .thawed p _ _ | .charged p _ _ | .updateTotals p | .collected
    p | .killAllMet p
  | .newKilled p => some p
  | .printTotals | .finalization | .reaped _ => none

/-- What has come before an event, and what has not. -/
def Event.follows (before : List Event) : Event → Prop
  | .newRunning p => .newRunning p ∉ before ∧ .printTotals ∉ before
  | .setCpuRange p _ _ =>
      .clearProg p ∉ before ∧ .runningFinished p ∉ before ∧ .printTotals ∉ before
  | .thawed p _ _ | .collected p => Started before p ∧ .printTotals ∉ before
  | .charged p _ _ => .newRunning p ∈ before ∧ .updateTotals p ∉ before ∧ .printTotals ∉ before
  | .updateTotals p => .newRunning p ∈ before ∧ .updateTotals p ∉ before ∧ .printTotals ∉ before
  | .clearProg p => Started before p ∧ .updateTotals p ∈ before ∧ .printTotals ∉ before
  | .runningFinished p => .newRunning p ∈ before ∧ .runningFinished p ∉ before
  | .retired p => .updateTotals p ∈ before ∧ ¬ Released before p ∧ .printTotals ∉ before
  | .respawned p _ =>
      .updateTotals p ∈ before ∧ .runningFinished p ∈ before ∧ .clearProg p ∉ before ∧
        ¬ Released before p ∧
        .printTotals ∉ before
  | .deallocated p => .runningFinished p ∈ before ∧ .updateTotals p ∈ before ∧ Released before p
  | .printTotals => .printTotals ∉ before
  | .finalization => .printTotals ∈ before ∧ .finalization ∉ before
  | .killAllMet _ | .newKilled _ => False
  | .reaped _ => True

/-- The rule that the log of every run keeps to. -/
def lifeRule (before : List Event) (event : Event) : Prop :=
  event.follows before ∧ ∀ p ∈ event.uses, .deallocated p ∉ before

/-- The places whose programs have given up their slots. -/
def Place.released : Place → Bool
  | .spent | .gone | .killed | .reaped | .passed | .buried => true
  | _ => false

/-- What the log says about the programs is what their places say. -/
structure Life.Tells (a : Life) : Prop where
  started : ∀ p, .newRunning p ∈ a.core.log ↔ Mark.enrolled.borne (a.place p) = true
  cleared : ∀ p, .clearProg p ∈ a.core.log ↔ Mark.cleared.borne (a.place p) = true
  recorded : ∀ p, .runningFinished p ∈ a.core.log ↔ Mark.recorded.borne (a.place p) = true
  totalled : ∀ p, .updateTotals p ∈ a.core.log ↔ Mark.totalled.borne (a.place p) = true
  freed : ∀ p, .deallocated p ∈ a.core.log ↔ Mark.freed.borne (a.place p) = true
  released : ∀ p, Released a.core.log p ↔ (a.place p).released = true
  closed : .printTotals ∈ a.core.log → a.Empty

/-- The totals were not printed while a slot is in use. -/
theorem Life.Tells.goesOn (tells : a.Tells) (live : (a.place p).live = true) :
    .printTotals ∉ a.core.log := by
  intro printed
  have idle := tells.closed printed p
  rw [live] at idle
  exact absurd idle (by decide)

end Rule

section Released

theorem Core.Extends.released {core other : Core} (births : core.Extends Event.births other)
    (retires : core.Extends Event.retires other) (p : ProgPtr) :
    Released other.log p ↔ Released core.log p := by
  exact or_congr (retires.mem_iff rfl) (exists_congr fun _ => births.mem_iff rfl)

theorem Act.released (act : Act a effect) (p : ProgPtr) :
    Released (effect a.core).log p ↔ Released a.core.log p :=
  act.births.released act.retires p

/-- A move gives up the slot of its program when its new place says so and the old one does not. -/
theorem Move.released (move : Move exits a prog source target effect) (p : ProgPtr) :
    Released (effect a.core).log p ↔
      Released a.core.log p ∨ prog = p ∧ source.released = false ∧ target.released = true := by
  cases move with
  | kill => simp [Released, Core.kill_notes, Place.released, or_assoc, or_comm, eq_comm]
  | retire => simp [Released, Core.retire, Place.released, or_assoc, or_comm, eq_comm]
  | finish phase allowed found runs =>
      rcases runs with rfl | rfl <;> simp [Released, Core.recordEnd, Place.released]
  | monitor =>
      simp [Released, Core.bump, Core.modSched, Core.assign, Core.modPd, Core.modProg, Core.note,
        Place.released]
  | _ => simp [Released, Core.arrive, Core.enter, Core.recordEnd, Core.report, Core.free,
      Place.released]

/-- Which programs have given up their slots is what their places say. -/
def Life.Releases (a : Life) : Prop :=
  ∀ p, Released a.core.log p ↔ (a.place p).released = true

theorem Move.keeps_released (move : Move exits a prog source target effect)
    (given : source.released = true) :
    target.released = true := by
  cases move with
  | finish phase allowed found runs => rcases runs with rfl | rfl <;> exact absurd given (by decide)
  | _ => first | rfl | exact absurd given (by decide)

theorem Life.Releases.move (releases : a.Releases) (here : a.place prog = source)
    (move : Move exits a prog source target effect) :
    ((a.transfer prog target).act effect).Releases := by
  intro p
  rw [Life.act_core, Life.transfer_core, move.released p, releases p, Life.act_place,
    Life.transfer_place]
  by_cases equal : p = prog
  · subst equal
    have stays := move.keeps_released
    cases old : source.released <;> cases new : target.released <;> simp_all
  · simp [equal, Ne.symm equal]

theorem Life.Releases.step (releases : a.Releases) (sound : a.Sound) (step : Step exits a b) :
    b.Releases := by
  cases step with
  | move here move => exact releases.move here move
  | act act => exact fun p => (act.released p).trans (releases p)
  | @decide picked rest phase idle perm =>
      intro p
      have same : Released _ p ↔ Released a.core.log p :=
        (Core.assignAll_extends (fun _ _ _ => rfl) a.core (fun p => (a.core.progs p).coresNeeded)
          picked 0).released
          (Core.assignAll_extends (fun _ _ _ => rfl) _ _ _ _) p
      refine same.trans ((releases p).trans ?_)
      by_cases member : p ∈ picked
      · simp [member, sound.place_picked perm member, Place.released]
      · simp [member]
  | @respawn prog born here =>
      intro p
      have old : prog ≠ a.core.progsAllocated := by
        have inside : prog < a.core.progsAllocated := sound.allocated (by simp [here])
        exact Nat.ne_of_lt inside
      have given : Released (a.core.bear prog born).log p ↔ Released a.core.log p ∨ p = prog := by
        simp [Released, Core.bear, or_assoc, exists_or]
      refine given.trans ?_
      rw [releases p]
      by_cases new : p = a.core.progsAllocated
      · subst new
        have unborn := (sound.unborn a.core.progsAllocated).mpr le_rfl
        simp [unborn, Place.released, Ne.symm old]
      · by_cases equal : p = prog
        · subst equal
          simp [new, Place.released]
        · simp [new, equal]
  | _ => exact releases

theorem Life.Releases.steps (releases : a.Releases) (sound : a.Sound) (steps : Steps exits a b) :
    b.Releases := by
  induction steps with
  | refl => exact releases
  | tail before step ih => exact ih.step (sound.steps before) step

/-- At the start every program of the file has its slot. -/
theorem Life.Boots.releases (boots : a.Boots cpus confs targets) : a.Releases := by
  intro p
  have none : ∀ event, event.early = false → event ∉ a.core.log := fun event late noted =>
    absurd (boots.parsed.early event noted) (by simp [late])
  have kept : ¬ Released a.core.log p := by
    rintro (retired | ⟨new, respawned⟩)
    · exact none _ rfl retired
    · exact none _ rfl respawned
  refine iff_of_false kept ?_
  rw [boots.place, Place.atStart]
  split <;> decide

theorem Life.Marked.tells (marked : a.Marked) (releases : a.Releases) (sound : a.Sound) :
    a.Tells where
  started := marked.mem_iff .enrolled
  cleared := marked.mem_iff .cleared
  recorded := marked.mem_iff .recorded
  totalled := marked.mem_iff .totalled
  freed := marked.mem_iff .freed
  released := releases
  closed := sound.closed

end Released

section Rules

theorem Life.Tells.started_of (tells : a.Tells) (here : a.place prog = .all ∨ a.place prog = .sch) :
    Started a.core.log prog := by
  rw [Started, tells.started, tells.cleared, tells.recorded]
  rcases here with here | here <;> rw [here] <;> decide

/-- A program that was not freed may be used. -/
theorem Life.Tells.unfreed (tells : a.Tells) (kept : Mark.freed.borne (a.place prog) = false)
    {event : Event} (uses : event.uses = some prog) :
    ∀ p ∈ event.uses, .deallocated p ∉ a.core.log := by
  intro p used
  rw [uses] at used
  cases used
  rw [tells.freed, kept]
  decide

theorem Act.lawful (act : Act a effect) (tells : a.Tells) (closes : a.ClosesOnce)
    (lawful : Lawful lifeRule a.core.log) : Lawful lifeRule (effect a.core).log := by
  cases act with
  | @thaw prog phase listed =>
      exact lawful.concat ⟨⟨tells.started_of (.inr listed), tells.goesOn (by rw [listed]; rfl)⟩,
        tells.unfreed (by rw [listed]; rfl) rfl⟩
  | @collect prog phase listed =>
      exact lawful.concat ⟨⟨tells.started_of (.inr listed), tells.goesOn (by rw [listed]; rfl)⟩,
        tells.unfreed (by rw [listed]; rfl) rfl⟩
  | @charge prog listed =>
      have live : (a.place prog).live = true := by
        rcases listed with ⟨-, here⟩ | here <;> rw [here] <;> rfl
      have kept : Mark.freed.borne (a.place prog) = false := by
        rcases listed with ⟨-, here⟩ | here <;> rw [here] <;> rfl
      refine lawful.concat ⟨⟨?_, ?_, tells.goesOn live⟩, tells.unfreed kept rfl⟩
      · rw [tells.started]
        rcases listed with ⟨-, here⟩ | here <;> rw [here] <;> rfl
      · rw [tells.totalled]
        rcases listed with ⟨-, here⟩ | here <;> rw [here] <;> decide
  | wait => exact lawful.concat ⟨trivial, fun p used => by cases used⟩
  | close empty open_ =>
      have unfinished : Event.finalization ∉ a.core.log := by
        rw [← List.count_eq_zero, closes.finalized, List.count_eq_zero]
        exact open_
      have printed : lifeRule a.core.log .printTotals := ⟨open_, fun p used => by cases used⟩
      rw [a.core.close_notes, List.append_cons]
      refine (lawful.concat printed).concat ⟨⟨by simp, ?_⟩, fun p used => by cases used⟩
      simpa using unfinished
  | _ => exact lawful

/-- A kill is noted in the order in which its parts follow each other. -/
theorem Life.Tells.kill_lawful (tells : a.Tells) (here : a.place prog = .sch)
    (lawful : Lawful lifeRule a.core.log) :
    Lawful lifeRule (Core.kill prog a.core).log := by
  have goesOn := tells.goesOn (p := prog) (by rw [here]; rfl)
  have kept : .deallocated prog ∉ a.core.log := by
    rw [tells.freed, here]
    decide
  have running := tells.started_of (.inr here)
  have untold : .updateTotals prog ∉ a.core.log := by
    rw [tells.totalled, here]
    decide
  have own : ¬ Released a.core.log prog := by
    rw [tells.released, here]
    decide
  have reported : lifeRule a.core.log (.updateTotals prog) :=
    ⟨⟨running.1, untold, goesOn⟩, by simpa [Event.uses] using kept⟩
  have cleared : lifeRule (a.core.log ++ [.updateTotals prog]) (.clearProg prog) :=
    ⟨⟨by simpa [Started] using running, by simp, by simpa using goesOn⟩, by
      simpa [Event.uses] using kept⟩
  have retired : lifeRule (a.core.log ++ [.updateTotals prog] ++ [.clearProg prog])
      (.retired prog) :=
    ⟨⟨by simp, by simpa [Released] using own, by simpa using goesOn⟩, by
      simpa [Event.uses] using kept⟩
  rw [Core.kill_notes, List.append_cons, List.append_cons]
  exact ((lawful.concat reported).concat cleared).concat retired

theorem Move.lawful (move : Move exits a prog source target effect) (here : a.place prog = source)
    (tells : a.Tells) (lawful : Lawful lifeRule a.core.log) :
    Lawful lifeRule (effect a.core).log := by
  have goesOn : source.live = true → .printTotals ∉ a.core.log := fun live =>
    tells.goesOn (here ▸ live)
  have unfreed : Mark.freed.borne source = false → ∀ {event : Event}, event.uses = some prog →
      ∀ p ∈ event.uses, .deallocated p ∉ a.core.log := fun kept _ => tells.unfreed (here ▸ kept)
  have released := tells.released prog
  have started := tells.started prog
  have cleared := tells.cleared prog
  have recorded := tells.recorded prog
  have totalled := tells.totalled prog
  rw [here] at released started cleared recorded totalled
  cases move with
  | enter => exact lawful.concat ⟨⟨by rw [started]; decide, goesOn rfl⟩, unfreed rfl rfl⟩
  | monitor =>
      refine lawful.concat ⟨⟨?_, ?_, goesOn rfl⟩, unfreed rfl rfl⟩
      · rw [cleared]
        decide
      · rw [recorded]
        decide
  | kill => exact tells.kill_lawful here lawful
  | finish phase allowed found runs =>
      rcases runs with rfl | rfl <;>
        exact lawful.concat ⟨⟨by rw [started]; decide, by rw [recorded]; decide⟩, unfreed rfl rfl⟩
  | reap =>
      exact lawful.concat ⟨⟨by rw [started]; decide, by rw [recorded]; decide⟩, unfreed rfl rfl⟩
  | report =>
      exact lawful.concat ⟨⟨by rw [started]; decide, by rw [totalled]; decide, goesOn rfl⟩,
        unfreed rfl rfl⟩
  | retire =>
      exact lawful.concat ⟨⟨by rw [totalled]; decide, by rw [released]; decide, goesOn rfl⟩,
        unfreed rfl rfl⟩
  | free =>
      refine lawful.concat ⟨⟨?_, ?_, ?_⟩, unfreed rfl rfl⟩
      · rw [recorded]
        decide
      · rw [totalled]
        decide
      · rw [released]
        decide
  | bury =>
      refine lawful.concat ⟨⟨?_, ?_, ?_⟩, unfreed rfl rfl⟩
      · rw [recorded]
        decide
      · rw [totalled]
        decide
      · rw [released]
        decide
  | _ => exact lawful

/-- The cores of the programs that were picked are noted one after the other. -/
theorem Core.assignAll_lawful (core : Core) (need : ProgPtr → Int) (progs : List ProgPtr)
    (rstart : Int)
    (allowed : ∀ p ∈ progs, .clearProg p ∉ core.log ∧ .runningFinished p ∉ core.log ∧
      .printTotals ∉ core.log ∧
      .deallocated p ∉ core.log)
    (lawful : Lawful lifeRule core.log) :
    Lawful lifeRule (core.assignAll need progs rstart).log := by
  induction progs generalizing core rstart with
  | nil => exact lawful
  | cons prog later ih =>
      obtain ⟨cleared, recorded, printed, freed⟩ := allowed prog List.mem_cons_self
      refine ih (core.assign prog rstart) (rstart + need prog) (fun p member => ?_) ?_
      · have others := allowed p (List.mem_cons_of_mem prog member)
        simpa [Core.assign, Core.modPd, Core.modProg, Core.note] using others
      · exact lawful.concat ⟨⟨cleared, recorded, printed⟩, by simpa [Event.uses] using freed⟩

/-- The next instance of a slot comes when the last one has ended by itself. -/
theorem Life.Tells.bear_lawful (tells : a.Tells) (sound : a.Sound) (here : a.place prog = .reported)
    (born : ProgCore) (lawful : Lawful lifeRule a.core.log) :
    Lawful lifeRule (a.core.bear prog born).log := by
  have goesOn := tells.goesOn (p := prog) (by rw [here]; rfl)
  have unborn := (sound.unborn a.core.progsAllocated).mpr le_rfl
  have respawned : lifeRule a.core.log (.respawned prog a.core.progsAllocated) := by
    refine ⟨⟨?_, ?_, ?_, ?_, goesOn⟩, tells.unfreed (by rw [here]; rfl) rfl⟩
    · rw [tells.totalled, here]
      rfl
    · rw [tells.recorded, here]
      rfl
    · rw [tells.cleared, here]
      decide
    · rw [tells.released, here]
      decide
  have placed : lifeRule (a.core.log ++ [.respawned prog a.core.progsAllocated])
      (.setCpuRange a.core.progsAllocated 0 a.core.cpus.length) := by
    refine ⟨⟨?_, ?_, by simpa using goesOn⟩, ?_⟩
    · simp [tells.cleared, unborn, Mark.borne, Place.dead]
    · simp [tells.recorded, unborn, Mark.borne]
    · simp [Event.uses, tells.freed, unborn, Mark.borne]
  rw [Core.bear_notes]
  exact (lawful.concat respawned).concat placed

theorem Step.lawful (step : Step exits a b) (tells : a.Tells) (closes : a.ClosesOnce)
    (sound : a.Sound) (lawful : Lawful lifeRule a.core.log) : Lawful lifeRule b.core.log := by
  cases step with
  | move here move => exact move.lawful here tells lawful
  | act act => exact act.lawful tells closes lawful
  | @decide picked rest phase idle perm =>
      refine Core.assignAll_lawful _ _ _ _ (fun p member => ?_) lawful
      have here := sound.place_picked perm member
      rw [tells.cleared, tells.recorded, tells.freed, here]
      exact ⟨by decide, by decide, tells.goesOn (p := p) (by rw [here]; rfl), by decide⟩
  | @respawn prog born here => exact tells.bear_lawful sound here born lawful
  | _ => exact lawful

/-- Before the loop nothing but cores is given to programs. -/
theorem lawful_of_early {log : List Event} (early : ∀ event ∈ log, event.early = true) :
    Lawful lifeRule log := by
  intro before event after split
  have none : ∀ other, other.early = false → other ∉ before := fun other late noted =>
    absurd (early other (split ▸ List.mem_append_left _ noted)) (by simp [late])
  have first := early event (split ▸ by simp)
  cases event with
  | setCpuRange => exact ⟨⟨none _ rfl, none _ rfl, none _ rfl⟩, fun _ _ => none _ rfl⟩
  | _ => exact absurd first (by simp [Event.early])

theorem Life.Boots.lawful (boots : a.Boots cpus confs targets) (steps : Steps exits a b) :
    Lawful lifeRule b.core.log := by
  induction steps with
  | refl => exact lawful_of_early boots.parsed.early
  | tail earlier step ih =>
      have sound := boots.sound.steps earlier
      have tells := (boots.marked.steps boots.sound earlier).tells
        (boots.releases.steps boots.sound earlier) sound
      exact step.lawful tells (boots.closesOnce.steps earlier) sound ih

end Rules

section Runs

/-- In every state that is reached, the events of the programs have followed each other in order. -/
theorem biographies_in_order (name : PolicyName) (confs : List ProgConf) (targets : Int → Word64)
    (inputs : List Input) (env : Env) (cpus : List Int) (st : ExecState)
    (reaches : Reaches name confs targets env cpus inputs st) : Lawful lifeRule st.log := by
  obtain ⟨a, b, boots, xs, shows_, -⟩ := reaches.between
  rw [show st.log = b.core.log from congrArg Core.log shows_.tracks.core]
  exact boots.lawful shows_.tracks.steps

/-- A program is killed, and it is freed when its exit has come in. -/
theorem biographies_in_order_killed :
    ∃ st, runExecutor PolicyName.perf.policy [.single, .single, .single] oneTarget
        [.events, .events, .events, .events, .events, .sigchld [.exited 0]]
        (ExecState.start (Env.counting 5) [0, 1, 2]) = .ok () st ∧
      .clearProg 0 ∈ st.log ∧ .deallocated 0 ∈ st.log ∧ Lawful lifeRule st.log := by
  obtain ⟨st, run, freed⟩ := exists_of_returnsWith (by decide +kernel :
    returnsWith (runExecutor PolicyName.perf.policy [.single, .single, .single] oneTarget
        [.events, .events, .events, .events, .events, .sigchld [.exited 0]])
      (ExecState.start (Env.counting 5) [0, 1, 2])
        (fun st => .clearProg 0 ∈ st.log ∧ .deallocated 0 ∈ st.log) = true)
  obtain ⟨cleared, freed⟩ := of_decide_eq_true freed
  exact ⟨st, run, cleared, freed, biographies_in_order .perf _ _ _ _ _ st (.inl run)⟩

end Runs

end BachScheduler
