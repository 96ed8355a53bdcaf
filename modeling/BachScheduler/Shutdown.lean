import BachScheduler.Shells
import BachScheduler.Totals

/-!
# What the executor has counted when it exits

`check_shutdown` ends the run when the counters say that no program is left.  They say so
truly, and the assertion of `aff_prog_running_finished` holds, in every run in which no kill
hides the exit of a shell from the table.
-/

namespace BachScheduler

open Census Chronicle Wp

variable {exits : ProgPtr → Place → Prop} {a b : Life} {shell own : ProgPtr → Nat} {st : ExecState}
variable {confs : List ProgConf} {cpus : List Int} {targets : Int → Word64}

/-- A program was handed to the scheduler and its end has not been recorded. -/
def ExecState.Open (st : ExecState) (prog : ProgPtr) : Prop :=
  .newRunning prog ∈ st.log ∧ ¬ st.Ended prog

instance (st : ExecState) (prog : ProgPtr) : Decidable (st.Open prog) :=
  inferInstanceAs (Decidable (_ ∧ _))

/-- The counters count the programs that run and those that have ended, the table leads from the
shells of the programs that run to these and from nowhere else, and no end was recorded twice. -/
structure ExecState.CountsEnds (st : ExecState) : Prop where
  runningNr : st.runningNr = (((Finset.range st.progsAllocated).filter st.Open).card : Int)
  finishedNr : st.finishedNr = (((Finset.range st.progsAllocated).filter st.Ended).card : Int)
  progPidHash : ∀ pid p, hashLookup st.progPidHash pid = some p ↔
    st.Open p ∧ (st.progs p).shellPid = pid
  once : ∀ p, st.log.count (.clearProg p) + st.log.count (.runningFinished p) ≤ 1

/-- The shells of the `n` programs of the file have different pids, a new shell has another pid than
the shells of the programs that have not ended, and a shell exits once, after its program was
started. -/
def ExecState.ShellsApart (st : ExecState) (n : Nat) : Prop :=
  (∀ p < n, ∀ q < n, (st.progs p).shellPid = (st.progs q).shellPid → p = q) ∧
    Lawful (shellRule fun p => (st.progs p).shellPid) st.log

/-- Every program that was killed had the pid of its shell, and the exit of a killed program came in
when no program was running. -/
def ExecState.KillsHeard (st : ExecState) : Prop :=
  Lawful (killRule (fun p => (st.progs p).shellPid) fun p => (st.progs p).pid) st.log

instance (st : ExecState) (n : Nat) : Decidable (st.ShellsApart n) :=
  inferInstanceAs (Decidable (_ ∧ _))

instance (st : ExecState) : Decidable st.KillsHeard :=
  inferInstanceAs (Decidable (Lawful _ _))

section Lives

theorem Life.Marked.open_iff (marked : a.Marked) (log : st.log = a.core.log) (p : ProgPtr) :
    st.Open p ↔ (a.place p).runs = true := by
  have enrolled : Event.newRunning p ∈ a.core.log ↔ _ := marked.mem_iff .enrolled p
  have cleared : Event.clearProg p ∈ a.core.log ↔ _ := marked.mem_iff .cleared p
  have recorded : Event.runningFinished p ∈ a.core.log ↔ _ := marked.mem_iff .recorded p
  rw [ExecState.Open, ExecState.Ended, log, enrolled, cleared, recorded, Place.runs_iff]
  simp

theorem Life.Known.countsEnds (known : a.Known fun p => (st.progs p).shellPid) (sound : a.Sound)
    (marked : a.Marked) (core : st.core = a.core) : st.CountsEnds := by
  have log : st.log = a.core.log := congrArg Core.log core
  have allocated : st.progsAllocated = a.core.progsAllocated := congrArg Core.progsAllocated core
  have hash : st.progPidHash = a.core.progPidHash := congrArg Core.progPidHash core
  have cleared : ∀ p, Event.clearProg p ∈ a.core.log ↔ _ := marked.mem_iff .cleared
  have recorded : ∀ p, Event.runningFinished p ∈ a.core.log ↔ _ := marked.mem_iff .recorded
  constructor
  case runningNr =>
    have counted : st.runningNr = _ := (congrArg Core.runningNr core).trans
      (sound.counter .runningNr)
    rw [counted, Finset.natCast_card_filter, allocated]
    refine Finset.sum_congr rfl fun p _ => ?_
    have heard := known.unheard p
    simp only [marked.open_iff log p]
    cases here : a.place p <;> simp [here] at heard <;> rfl
  case finishedNr =>
    have counted : st.finishedNr = _ :=
      (congrArg Core.finishedNr core).trans (sound.counter .finishedNr)
    rw [counted, Finset.natCast_card_filter, allocated]
    refine Finset.sum_congr rfl fun p _ => ?_
    have heard := known.unheard p
    simp only [ExecState.Ended, log, cleared, recorded]
    cases here : a.place p <;> simp [here] at heard <;> rfl
  case progPidHash =>
    intro pid p
    rw [hash, known.table pid p, marked.open_iff log p]
  case once =>
    intro p
    have heard := known.unheard p
    rw [log]
    refine (congrArg₂ (· + ·) (marked .cleared p) (marked .recorded p)).le.trans ?_
    cases here : a.place p <;> simp [here] at heard <;> simp [Mark.borne, Place.dead]

/-- When the counters say that no program waits, is new or runs, every program has ended. -/
theorem Life.Known.ended (known : a.Known shell) (sound : a.Sound) (marked : a.Marked)
    (core : st.core = a.core) (runningNr : a.core.runningNr = 0) (waitingNr : a.core.waitingNr = 0)
    (newNr : a.core.newNr = 0) (p : ProgPtr) (inside : p < st.progsAllocated) :
    .newRunning p ∈ st.log ∧ st.Ended p := by
  have log : st.log = a.core.log := congrArg Core.log core
  have allocated : st.progsAllocated = a.core.progsAllocated := congrArg Core.progsAllocated core
  have none : ∀ c : Counter, a.core.counter c = 0 → (∀ q, 0 ≤ c.weight (a.place q)) →
      c.weight (a.place p) = 0 := by
    intro c zero nonneg
    have sum : ∑ q ∈ Finset.range a.core.progsAllocated,
        c.weight (a.place q) = 0 := (sound.counter c).symm.trans zero
    exact (Finset.sum_eq_zero_iff_of_nonneg fun q _ => nonneg q).mp sum p
      (Finset.mem_range.mpr (allocated ▸ inside))
  have rests := none .runningNr runningNr fun q => by
    have heard := known.unheard q
    cases here : a.place q <;> simp [here] at heard <;> simp [Counter.weight]
  have arrived := none .waitingNr waitingNr fun q => by cases a.place q <;> simp [Counter.weight]
  have entered := none .newNr newNr fun q => by cases a.place q <;> simp [Counter.weight]
  have born : a.place p ≠ .unborn := fun unborn =>
    absurd ((sound.unborn p).mp unborn) (Nat.not_le.mpr (allocated ▸ inside))
  have enrolled : Event.newRunning p ∈ a.core.log ↔ _ := marked.mem_iff .enrolled p
  have cleared : Event.clearProg p ∈ a.core.log ↔ _ := marked.mem_iff .cleared p
  have recorded : Event.runningFinished p ∈ a.core.log ↔ _ := marked.mem_iff .recorded p
  rw [ExecState.Ended, log, enrolled, cleared, recorded]
  revert rests arrived entered born
  cases a.place p <;> simp [Counter.weight, Mark.borne, Place.spared, Place.dead]

end Lives

section Runs

/-- The executor knows the shells in a life that a state of the run shows. -/
theorem Life.Boots.knows (boots : a.Boots cpus confs targets) (steps : Steps exits a b)
    (apart : st.ShellsApart confs.length) (kills : st.KillsHeard) (log : st.log = b.core.log)
    (progs : ∀ p, (st.progs p).core = b.core.progs p) :
    b.Obeys (fun p => (st.progs p).shellPid) (fun p => (st.progs p).pid) ∧ b.Known fun p =>
      (st.progs p).shellPid := by
  have obeys : b.Obeys (fun p => (st.progs p).shellPid) fun p => (st.progs p).pid :=
    ⟨fun p _ => (congrArg ProgCore.shellPid (progs p)).symm, fun p _ =>
      (congrArg ProgCore.pid (progs p)).symm,
      log ▸ apart.2, log ▸ kills⟩
  exact ⟨obeys, (boots.known apart.1).steps boots.sound boots.marked steps obeys⟩

/-- The assertion of `aff_prog_running_finished` holds in a life that keeps to the rules. -/
theorem Life.Known.finds (known : a.Known shell) (obeys : a.Obeys shell own) (sound : a.Sound)
    (marked : a.Marked) {before : List Event} {prog : ProgPtr} (runs : a.core.runningNr ≠ 0)
    (told : a.core.log = before ++ [.reaped prog]) :
    hashLookup a.core.progPidHash (a.core.progs prog).shellPid = some prog := by
  obtain ⟨p, counts⟩ := sound.exists_of_counter .runningNr runs
  have busy : (a.place p).runs = true := by
    have heard := known.unheard p
    cases here : a.place p <;> simp [here, Counter.weight] at heard counts <;> rfl
  have alive := known.teller obeys marked told busy
  refine (known.table _ prog).mpr
    ⟨alive, (obeys.shellPid prog (sound.allocated fun unborn => ?_)).symm⟩
  rw [unborn] at alive
  exact absurd alive (by decide)

/-- Where the shells behave and no kill hides an exit, the programs that run and those that have
ended are counted truly between the handlers, the assertion of `aff_prog_running_finished` holds,
and the executor exits when every program has ended. -/
theorem ends_counted_once (name : PolicyName) (confs : List ProgConf) (targets : Int → Word64)
    (inputs : List Input) (env : Env) (cpus : List Int) (st : ExecState)
    (apart : st.ShellsApart confs.length) (kills : st.KillsHeard) :
    (runExecutor name.policy confs targets inputs (ExecState.start env cpus) = .ok () st →
      st.CountsEnds) ∧
      runExecutor name.policy confs targets inputs (ExecState.start env cpus) ≠ .error
        .assertFailed st ∧
      ∀ status, runExecutor name.policy confs targets inputs (ExecState.start env cpus) =
        .error (.exit status) st →
        st.CountsEnds ∧ ∀ p < st.progsAllocated, .newRunning p ∈ st.log ∧ st.Ended p := by
  have heard := heard_anywhere name confs targets env cpus inputs
  refine ⟨fun run => ?_, fun run => ?_, fun status run => ?_⟩
  · obtain ⟨a, b, boots, xs, shows_, -⟩ := runExecutor_between heard run
    have steps := shows_.tracks.steps
    have core := shows_.tracks.core
    obtain ⟨-, known⟩ := boots.knows steps apart kills (congrArg Core.log core) fun p =>
      congrArg (fun core => core.progs p) core
    exact known.countsEnds (boots.sound.steps steps) (boots.marked.steps boots.sound steps) core
  · rcases runExecutor_ends heard run with astray | ⟨a, boots, ends⟩
    · simp [Astray] at astray
    · cases ends with
      | astray astray => simp [Astray] at astray
      | failed sound rounds phase runs unknown told same =>
          have steps := rounds.steps
          obtain ⟨obeys, known⟩ := boots.knows steps apart kills (congrArg Core.log same) fun p =>
            congrArg (fun core => core.progs p) same
          have found := known.finds obeys sound (boots.marked.steps boots.sound steps) runs told
          exact absurd (unknown.symm.trans found) (by simp)
  · rcases runExecutor_ends heard run with astray | ⟨a, boots, ends⟩
    · simp [Astray] at astray
    · cases ends with
      | astray astray => simp [Astray] at astray
      | done between runningNr waitingNr newNr =>
          obtain ⟨xs, shows_, -⟩ := between
          have steps := shows_.tracks.steps
          have core := shows_.tracks.core
          have sound := boots.sound.steps steps
          have marked := boots.marked.steps boots.sound steps
          obtain ⟨-, known⟩ := boots.knows steps apart kills (congrArg Core.log core) fun p =>
            congrArg (fun core => core.progs p) core
          exact ⟨known.countsEnds sound marked core,
            known.ended sound marked core runningNr waitingNr newNr⟩

/-- An environment in which a shell becomes its program, and both have one pid. -/
def Env.exec : Env :=
  { Env.slow with appPid := fun n => n + 99 }

/-- One program is killed, and the exits of both shells come in when the other one has ended. -/
theorem ends_counted_once_killed :
    ∃ st, runExecutor PolicyName.perf.policy [.single, .single] oneTarget
        (List.replicate 6 .events ++ [.sigchld [.exited 1, .exited 0]])
        (ExecState.start .exec [0, 1, 2, 3, 4, 5]) =
          .error (.exit 42) st ∧
      .clearProg 0 ∈ st.log ∧ .reaped 0 ∈ st.log ∧ st.CountsEnds ∧
      ∀ p < st.progsAllocated, .newRunning p ∈ st.log ∧ st.Ended p := by
  obtain ⟨st, run, checked⟩ := exists_of_stopsWith (by decide +kernel :
    stopsWith (runExecutor PolicyName.perf.policy [.single, .single] oneTarget
        (List.replicate 6 .events ++ [.sigchld [.exited 1, .exited 0]]))
      (ExecState.start .exec [0, 1, 2, 3, 4, 5]) (.exit 42)
      (fun st => .clearProg 0 ∈ st.log ∧ .reaped 0 ∈ st.log ∧ st.ShellsApart 2 ∧ st.KillsHeard) =
        true)
  obtain ⟨cleared, waited, apart, kills⟩ := of_decide_eq_true checked
  obtain ⟨-, -, exits⟩ := ends_counted_once .perf [.single, .single] oneTarget
    (List.replicate 6 .events ++ [.sigchld [.exited 1, .exited 0]]) .exec [0, 1, 2, 3, 4, 5]
      st apart kills
  exact ⟨st, run, cleared, waited, exits 42 run⟩

/-- Two programs run.  One of them is killed, and then its shell exits: where the pids differ, the
end is counted twice and the executor exits while the other program runs, and where they are the
same the assertion fails. -/
theorem ends_counted_twice : (∃ st, runExecutor PolicyName.perf.policy [.single, .single] oneTarget
        (List.replicate 6 .events ++ [.sigchld [.exited 0]])
        (ExecState.start .slow [0, 1, 2, 3, 4, 5]) =
          .error (.exit 0) st ∧
      st.ShellsApart 2 ∧ st.runningNr = 0 ∧ st.finishedNr = 2 ∧ .clearProg 0 ∈ st.log ∧
      .runningFinished 0 ∈ st.log ∧ st.Open 1) ∧
    ∃ st, runExecutor PolicyName.perf.policy [.single, .single] oneTarget
        (List.replicate 6 .events ++ [.sigchld [.exited 0]])
        (ExecState.start .exec [0, 1, 2, 3, 4, 5]) =
          .error .assertFailed st ∧
      st.ShellsApart 2 ∧ .clearProg 0 ∈ st.log ∧ st.Open 1 := by
  constructor
  · obtain ⟨st, run, wrong⟩ := exists_of_stopsWith (by decide +kernel :
      stopsWith (runExecutor PolicyName.perf.policy [.single, .single] oneTarget
          (List.replicate 6 .events ++ [.sigchld [.exited 0]]))
        (ExecState.start .slow [0, 1, 2, 3, 4, 5]) (.exit 0)
        (fun st => st.ShellsApart 2 ∧ st.runningNr = 0 ∧ st.finishedNr = 2 ∧ .clearProg 0 ∈ st.log ∧
          .runningFinished 0 ∈ st.log ∧ st.Open 1) = true)
    exact ⟨st, run, of_decide_eq_true wrong⟩
  · obtain ⟨st, run, wrong⟩ := exists_of_stopsWith (by decide +kernel :
      stopsWith (runExecutor PolicyName.perf.policy [.single, .single] oneTarget
          (List.replicate 6 .events ++ [.sigchld [.exited 0]]))
        (ExecState.start .exec [0, 1, 2, 3, 4, 5]) .assertFailed
        (fun st => st.ShellsApart 2 ∧ .clearProg 0 ∈ st.log ∧ st.Open 1) = true)
    exact ⟨st, run, of_decide_eq_true wrong⟩

end Runs

end BachScheduler
