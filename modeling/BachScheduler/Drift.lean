import BachScheduler.Counting
import BachScheduler.Totals

/-!
# How far the counters are off

The counters are changed apart from the lists.  When the exit of a program is recorded that was
killed before, `running_nr`, `finished_nr`, `progs_nr` and `progs_fnsh` are off by one more, all
in step, and nothing else ever puts a counter off; so their sums are right in every state.
-/

namespace BachScheduler

open BachScheduler.Ring Census Wp

variable {exits : ProgPtr → Place → Prop} {name : PolicyName} {a b : Life} {st : ExecState}
    {xs : List EvntPtr}

/-- The end of a program was recorded twice: it was killed, and its exit came in afterwards. -/
def ExecState.EndedTwice (st : ExecState) (prog : ProgPtr) : Prop :=
  .clearProg prog ∈ st.log ∧ .runningFinished prog ∈ st.log

instance (st : ExecState) (prog : ProgPtr) : Decidable (st.EndedTwice prog) :=
  inferInstanceAs (Decidable (_ ∧ _))

/-- What the counters are, when some ends were recorded twice. -/
structure ExecState.Counts (st : ExecState) (queue : List EvntPtr) (on : Lists)
    (ended twice : Int) : Prop where
  waitingNr : st.waitingNr = (queue.filter (· ≠ 0)).length
  newNr : st.newNr = (on .pnewL).length
  runningNr : st.runningNr = (on .progsAll).length + (on .progsSch).length - twice
  finishedNr : st.finishedNr = ended + twice
  progsNr : st.sched.progsNr = (on .progsAll).length + (on .progsSch).length - twice
  progsFnsh : st.sched.progsFnsh = ended + twice
  progsLeft : st.sched.progsLeft =
    (queue.filter (· ≠ 0)).length + (on .pnewL).length + (on .progsAll).length +
    (on .progsSch).length
  all : st.waitingNr + st.newNr + st.runningNr + st.finishedNr = st.progsAllocated

section Lives

/-- What a program whose end was recorded twice adds to their number. -/
def Place.twice (k : Place) : Int :=
  if k.endedTwice then 1 else 0

/-- What a program that has ended adds to their number. -/
def Place.ended (k : Place) : Int :=
  if k.dead ∨ Mark.recorded.borne k then 1 else 0

/-- The arrivals in the heap are those of the programs that wait. -/
theorem Tracks.waiting (tracks : Tracks exits a st xs b) :
    tally (fun k => if k = .waiting then 1 else 0) b.core.progsAllocated b.place =
      ((xs.filter (· ≠ 0)).length : Int) := by
  have queue := tracks.models.queue
  have apart : ((xs.filter (· ≠ 0)).map fun evnt => (st.events evnt).prog).Nodup := by
    refine (queue.nodup.filter _).map_on fun evnt member other otherToo same => ?_
    obtain ⟨inside, arrival⟩ := List.mem_filter.mp member
    obtain ⟨insideToo, arrivalToo⟩ := List.mem_filter.mp otherToo
    exact queue.once evnt inside other insideToo (by simpa using arrival)
      (by simpa using arrivalToo) same
  refine (tally_eq_length Place.waiting apart fun p => ?_).trans (by rw [List.length_map])
  rw [List.mem_map]
  constructor
  · intro found
    obtain ⟨evnt, member, same⟩ := found
    obtain ⟨inside, arrival⟩ := List.mem_filter.mp member
    have here := (queue.waits p).mpr ⟨evnt, inside, by simpa using arrival, same⟩
    exact ⟨tracks.sound.allocated (by simp [here]), here⟩
  · intro waits
    obtain ⟨evnt, member, arrival, same⟩ := (queue.waits p).mp waits.2
    exact ⟨evnt, List.mem_filter.mpr ⟨member, by simpa using arrival⟩, same⟩

/-- Every program that has started is counted once by the four counters of the executor. -/
theorem Life.Sound.all_counted (sound : a.Sound) :
    a.core.counter .waitingNr + a.core.counter .newNr + a.core.counter .runningNr +
      a.core.counter .finishedNr =
      a.core.progsAllocated := by
  simp only [sound.counter]
  rw [← tally_add, ← tally_add, ← tally_add]
  have each : ∀ p < a.core.progsAllocated,
      Counter.weight .waitingNr (a.place p) + Counter.weight .newNr (a.place p) +
      Counter.weight .runningNr (a.place p) + Counter.weight .finishedNr (a.place p) = 1 := by
    intro p inside
    have born : a.place p ≠ .unborn := fun unborn =>
      Nat.not_le.mpr inside ((sound.unborn p).mp unborn)
    cases here : a.place p <;> first | exact absurd here born | rfl
  have ones : tally (fun _ => 1) a.core.progsAllocated a.place = a.core.progsAllocated := by
    simp [tally]
  exact (tally_congr each).trans ones

/-- Where no program is on its way out, four counters tell the programs on the lists and those that
have ended, but for the ends recorded twice. -/
theorem Life.Sound.drift (sound : a.Sound) (settled : a.Settled) :
    a.core.counter .runningNr = tally Place.scheduled a.core.progsAllocated a.place -
        tally Place.twice a.core.progsAllocated a.place ∧
      a.core.counter .finishedNr = tally Place.ended a.core.progsAllocated a.place +
        tally Place.twice a.core.progsAllocated a.place ∧
      a.core.counter .progsNr = tally Place.scheduled a.core.progsAllocated a.place -
        tally Place.twice a.core.progsAllocated a.place ∧
      a.core.counter .progsFnsh = tally Place.ended a.core.progsAllocated a.place +
        tally Place.twice a.core.progsAllocated a.place := by
  simp only [sound.counter]
  rw [← tally_sub, ← tally_add]
  have stays : ∀ p, (a.place p).settled = true := settled
  refine ⟨?_, ?_, ?_, ?_⟩ <;> refine tally_congr fun p _ =>
    ?_ <;> have here := stays p <;> revert here <;>
    cases a.place p <;> decide

theorem tally_eq_card {P : ProgPtr → Prop} [DecidablePred P] {Q : Place → Prop} [DecidablePred Q]
    {n : Nat} {place : ProgPtr → Place} (same : ∀ p, P p ↔ Q (place p)) :
    tally (fun k => if Q k then 1 else 0) n place = (((Finset.range n).filter P).card : Int) := by
  rw [Finset.natCast_card_filter]
  exact Finset.sum_congr rfl fun p _ => by simp only [same p]

/-- Between the handlers the counters are off by the ends that were recorded twice. -/
theorem Tracks.counts (tracks : Tracks exits a st xs b) (settled : b.Settled) (marked : b.Marked) :
    st.Counts xs b.on (((Finset.range st.progsAllocated).filter st.Ended).card : Int)
      (((Finset.range st.progsAllocated).filter st.EndedTwice).card : Int) := by
  have sound := tracks.sound
  have core := tracks.core
  have log : st.log = b.core.log := congrArg Core.log core
  have cleared : ∀ p, Event.clearProg p ∈ b.core.log ↔ _ := marked.mem_iff .cleared
  have recorded : ∀ p, Event.runningFinished p ∈ b.core.log ↔ _ := marked.mem_iff .recorded
  have counter : ∀ c, st.core.counter c = b.core.counter c := fun c =>
    congrArg (fun core => core.counter c) core
  have waiting : b.core.counter .waitingNr = ((xs.filter (· ≠ 0)).length : Int) := by
    rw [sound.counter, ← tracks.waiting]
    exact tally_congr fun p _ => by cases b.place p <;> rfl
  have news : b.core.counter .newNr = ((b.on .pnewL).length : Int) := by
    rw [sound.counter, ← sound.length_on (by simp [lifeHeads] : Node.pnewL ∈ lifeHeads)
      (k := .new) fun other => by cases other <;> simp [Place.home]]
    exact tally_congr fun p _ => by cases b.place p <;> rfl
  have ended : tally Place.ended b.core.progsAllocated b.place =
      (((Finset.range st.progsAllocated).filter st.Ended).card : Int) := by
    rw [tracks.progsAllocated]
    refine tally_eq_card fun p => ?_
    rw [ExecState.Ended, log, cleared, recorded]
    rfl
  have twice : tally Place.twice b.core.progsAllocated b.place =
      (((Finset.range st.progsAllocated).filter st.EndedTwice).card : Int) := by
    rw [tracks.progsAllocated]
    refine tally_eq_card fun p => ?_
    rw [ExecState.EndedTwice, log, cleared, recorded]
    cases b.place p <;> simp [Mark.borne, Place.dead, Place.endedTwice]
  obtain ⟨runningNr, finishedNr, progsNr, progsFnsh⟩ := sound.drift settled
  rw [sound.scheduled, twice] at runningNr progsNr
  rw [ended, twice] at finishedNr progsFnsh
  constructor
  case waitingNr => exact (counter .waitingNr).trans waiting
  case newNr => exact (counter .newNr).trans news
  case runningNr => exact (counter .runningNr).trans runningNr
  case finishedNr => exact (counter .finishedNr).trans finishedNr
  case progsNr => exact (counter .progsNr).trans progsNr
  case progsFnsh => exact (counter .progsFnsh).trans progsFnsh
  case progsLeft =>
    refine (counter .progsLeft).trans ?_
    rw [← waiting, ← news, add_assoc, ← sound.scheduled]
    simp only [sound.counter]
    rw [← tally_add, ← tally_add]
    refine tally_congr fun p _ => ?_
    have here := settled p
    revert here
    cases b.place p <;> decide
  case all =>
    have counted := sound.all_counted
    rw [← counter .waitingNr, ← counter .newNr, ← counter .runningNr, ← counter .finishedNr,
      ← tracks.progsAllocated] at counted
    exact counted

end Lives

section Runs

/-- In every state that is reached, the counters are what the lists, the heap and the log say, but
for the ends that were recorded twice: each of these is missing once in `running_nr` and `progs_nr`
and is once too many in `finished_nr` and `progs_fnsh`. -/
theorem counters_drift (name : PolicyName) (confs : List ProgConf) (targets : Int → Word64)
    (inputs : List Input) (env : Env) (cpus : List Int) (st : ExecState)
    (reaches : Reaches name confs targets env cpus inputs st) :
    ∃ queue on, st.Holds lifeHeads queue on ∧
      st.Counts queue on (((Finset.range st.progsAllocated).filter st.Ended).card : Int)
        (((Finset.range st.progsAllocated).filter st.EndedTwice).card : Int) := by
  obtain ⟨a, b, boots, xs, shows_, settled⟩ := reaches.between
  have marked := boots.marked.steps boots.sound shows_.tracks.steps
  exact ⟨xs, b.on, shows_.tracks.holds, shows_.tracks.counts settled marked⟩

/-- One of three programs is killed, and its exit comes in afterwards. -/
theorem counters_drift_killed :
    ∃ st, runExecutor PolicyName.perf.policy [.single, .single, .single] oneTarget
        [.events, .events, .events, .events, .events, .sigchld [.exited 0]]
        (ExecState.start (Env.counting 5) [0, 1, 2]) = .ok () st ∧
      st.EndedTwice 0 ∧ ∃ queue on, st.Holds lifeHeads queue on ∧
        st.Counts queue on (((Finset.range st.progsAllocated).filter st.Ended).card : Int)
          (((Finset.range st.progsAllocated).filter st.EndedTwice).card : Int) := by
  obtain ⟨st, run, twice⟩ := exists_of_returnsWith (by decide +kernel :
    returnsWith (runExecutor PolicyName.perf.policy [.single, .single, .single] oneTarget
        [.events, .events, .events, .events, .events, .sigchld [.exited 0]])
      (ExecState.start (Env.counting 5) [0, 1, 2]) (fun st => st.EndedTwice 0) = true)
  exact ⟨st, run, of_decide_eq_true twice, counters_drift .perf _ _ _ _ _ st (.inl run)⟩

end Runs

end BachScheduler
