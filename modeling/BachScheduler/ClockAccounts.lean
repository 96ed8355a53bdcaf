import BachScheduler.Boot

/-!
# What the clocks show is accounted for

Each call of `sched_update_clock` leaves what the clock of the program shows behind its
reading.  Only `stop_prog`, `thaw_prog` and the end of a program update a clock, and each of
them finds a clock that ticks; so no interval is counted twice, and none is dropped.
-/

namespace BachScheduler

open Wp

variable {exits : ProgPtr → Place → Prop} {name : PolicyName} {a b : Life} {st : ExecState}
    {prog : ProgPtr}
variable {source target : Place} {effect : Core → Core} {clocks : List ClockEvent}
variable {confs : List ProgConf} {env : Env} {cpus : List Int} {targets : Int → Word64}

/-- What a clock shows is what the readings before say.  The last reading is that of the call,
and the first one that of `sched_init_clock`. -/
structure Accounts (readings : List ClockEvent) (prog : ProgPtr) (running waiting : Word32) :
    Prop where
  read : ∃ earlier, readings = earlier ++ [.read prog (Lapse.of prog readings).last]
  init : .init prog (Lapse.of prog readings).first ∈ readings
  total : running + waiting = (Lapse.of prog readings).last - (Lapse.of prog readings).first
  ran : running = (Lapse.of prog readings).time

/-- All that the clocks have shown is accounted for by the readings before it. -/
def Accounted (clocks : List ClockEvent) : Prop :=
  ∀ before prog running waiting after, clocks = before ++ .updated prog running waiting :: after →
    Accounts before prog running waiting

section Events

theorem accounted_nil : Accounted [] := by
  intro before prog running waiting after split
  simp at split

theorem Accounted.snoc (accounted : Accounted clocks) {event : ClockEvent}
    (last : ∀ prog running waiting, event = .updated prog running waiting →
      Accounts clocks prog running waiting) : Accounted (clocks ++ [event]) := by
  intro before prog running waiting after split
  cases after using List.reverseRecOn with
  | nil =>
      obtain ⟨rfl, same⟩ := List.append_inj' split rfl
      exact last prog running waiting (List.cons.inj same).1
  | append_singleton after other =>
      have split : clocks ++ [event] = (before ++ .updated prog running waiting :: after) ++
          [other] := by
        simpa using split
      exact accounted before prog running waiting after (List.append_inj' split rfl).1

/-- An update of a clock that ticks is accounted for. -/
theorem Core.Ticking.accounted {core : Core} (ticking : core.Ticking prog)
    (accounted : Accounted core.clocks) (now : Word32) :
    Accounted (core.updateClock prog now).clocks := by
  have read : Accounted (core.clocks ++ [.read prog now]) := accounted.snoc nofun
  have lapse : Lapse.of prog (core.clocks ++ [.read prog now]) =
      (core.lapse prog).next prog (.read prog now) :=
    Lapse.of_append ..
  have last : ((core.lapse prog).next prog (.read prog now)).last = now := by simp [Lapse.next]
  have first : ((core.lapse prog).next prog (.read prog now)).first = (core.lapse prog).first := by
    simp [Lapse.next]
  refine read.snoc fun p running waiting shown => ?_
  cases shown
  have same : ((core.readClock prog now).pds prog).clock =
      (core.pds prog).clock.update (core.pds prog).runStatus now := by
    simp [Core.readClock, Core.modPd, Core.noteClocks]
  obtain ⟨total, ran⟩ := ticking.ticks.read prog now
  constructor
  · exact ⟨core.clocks, by rw [lapse, last]⟩
  · rw [lapse, first]
    exact List.mem_append_left _ ticking.init
  · rw [lapse, last, same]
    exact total
  · rw [lapse, same]
    exact ran

end Events

section Steps

theorem Act.accounted (act : Act a effect) (sound : a.Sound) (accounted : Accounted a.core.clocks) :
    Accounted (effect a.core).clocks := by
  cases act with
  | @halt q phase listed runs now =>
      have ticking : a.core.Ticking q := sound.clocked.ticking q (by rw [listed]; rfl)
      have frozen : (a.core.modProg q fun p => { p with freezer := .frozen }).Ticking q :=
        ticking.unclocked (.same (fun _ => ⟨rfl, rfl⟩) rfl)
      exact frozen.accounted accounted now
  | @thaw q phase listed waits now =>
      have ticking : a.core.Ticking q := sound.clocked.ticking q (by rw [listed]; rfl)
      have zeroed : (a.core.zeroEpochs q).Ticking q :=
        ticking.unclocked (.modPd fun _ => ⟨rfl, rfl⟩)
      exact (zeroed.accounted accounted now).snoc fun _ _ _ shown => ClockEvent.noConfusion shown
  | @sampleLast q listed read ticking now => exact ticking.accounted accounted now
  | watch q now => exact accounted.snoc fun _ _ _ shown => ClockEvent.noConfusion shown
  | _ => exact accounted

theorem Move.accounted (move : Move exits a prog source target effect)
    (accounted : Accounted a.core.clocks) :
    Accounted (effect a.core).clocks := by
  cases move with
  | @enter pd now => exact accounted.snoc nofun
  | monitor => exact accounted
  | _ => exact accounted

theorem Core.assignAll_clocks (core : Core) (need : ProgPtr → Int) (progs : List ProgPtr)
    (rstart : Int) : (core.assignAll need progs rstart).clocks = core.clocks := by
  induction progs generalizing core rstart with
  | nil => rfl
  | cons prog later ih => exact ih _ _

theorem Step.accounted (step : Step exits a b) (sound : a.Sound)
    (accounted : Accounted a.core.clocks) :
    Accounted b.core.clocks := by
  cases step with
  | move here move => exact move.accounted accounted
  | act act => exact act.accounted sound accounted
  | decide =>
      rw [Core.assignAll_clocks]
      exact accounted
  | _ => exact accounted

theorem Steps.accounted (steps : Steps exits a b) (sound : a.Sound)
    (accounted : Accounted a.core.clocks) :
    Accounted b.core.clocks := by
  induction steps with
  | refl => exact accounted
  | tail before step ih => exact step.accounted (sound.steps before) ih

end Steps

section Runs

theorem Life.Boots.accounted (boots : a.Boots cpus confs targets) (steps : Steps exits a b) :
    Accounted b.core.clocks := by
  refine steps.accounted boots.sound ?_
  rw [boots.parsed.clocks]
  exact accounted_nil

/-- In every run, whether it goes on or was left, what each call of `sched_update_clock` shows is
accounted for: the running and the waiting time together are the time since the clock was
initialised, and the running time is that of the intervals in which the program was thawed. -/
theorem clocks_accounted (name : PolicyName) (confs : List ProgConf) (targets : Int → Word64)
    (inputs : List Input) (env : Env) (cpus : List Int) (st : ExecState)
    (reached : runExecutor name.policy confs targets inputs (ExecState.start env cpus) = .ok () st ∨
      ∃ stop, runExecutor name.policy confs targets inputs (ExecState.start env cpus) =
        .error stop st ∧
        ¬ Astray stop st) : Accounted st.clocks := by
  have heard := heard_anywhere name confs targets env cpus inputs
  have between : ∀ a b, a.Boots cpus confs targets → Between anywhere name a st b →
      Accounted st.clocks := by
    intro a b boots between
    obtain ⟨xs, shows_, -⟩ := between
    rw [show st.clocks = b.core.clocks from congrArg Core.clocks shows_.tracks.core]
    exact boots.accounted shows_.tracks.steps
  rcases reached with run | ⟨stop, run, meaning⟩
  · obtain ⟨a, b, boots, shown⟩ := runExecutor_between heard run
    exact between a b boots shown
  · obtain ⟨a, boots, ends⟩ := (runExecutor_ends heard run).resolve_left meaning
    cases ends with
    | astray astray => exact absurd astray meaning
    | failed sound rounds phase runs unknown told same =>
        rw [show st.clocks = _ from congrArg Core.clocks same]
        exact boots.accounted rounds.steps
    | done shown => exact between a _ boots shown

/-- Two programs take turns on a cpu, and the first one has waited twice and run twice. -/
theorem clocks_accounted_two :
    ∃ st, runExecutor PolicyName.perf.policy [.single, .single] (fun _ => 3)
      [.events, .events, .events, .events]
        (ExecState.start (Env.counting 5) [0]) = .ok () st ∧
      ClockEvent.updated 0 15000 17000 ∈ st.clocks ∧ Accounted st.clocks := by
  obtain ⟨st, run, seen⟩ := exists_of_returnsWith (by decide +kernel :
    returnsWith (runExecutor PolicyName.perf.policy [.single, .single] (fun _ => 3)
        [.events, .events, .events, .events])
      (ExecState.start (Env.counting 5) [0])
        (fun st => ClockEvent.updated 0 15000 17000 ∈ st.clocks) = true)
  exact ⟨st, run, of_decide_eq_true seen, clocks_accounted .perf _ _ _ _ _ st (.inl run)⟩

end Runs

end BachScheduler
