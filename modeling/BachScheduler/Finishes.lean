import BachScheduler.ListWalk
import BachScheduler.Samples

/-!
# The sample of a program that finishes in the middle of a quantum

`rebalance` reads the counters of `pd->cpu` only, and then adds up what is held for the whole
cpuset; `freeze_sched` reads all counters first.  Both samples are the same exactly if what is
held for the other cpus adds up to what their counters read.
-/

namespace BachScheduler

open Wp

variable {prog : ProgPtr} {st st' : ExecState} {p : Probe}

section Counts

/-- What `sched_update_prfm` stores of the events of a program. -/
structure Counts where
  instrRetd : Word64
  unhCycles : Word64
  llcMisses : Word64
  l1Repl : Word64
  l2In : Word64
  memReads : Word64

def ProgData.counts (pd : ProgData) : Counts :=
  ⟨pd.instrRetd, pd.unhCycles, pd.llcMisses, pd.l1Repl, pd.l2In, pd.memReads⟩

/-- The events that `sched_update_prfm` stores. -/
def usedEvents : List Nat := [0, 1, 3, 4, 5, 6]

def Counts.of (value : Nat → Word64) : Counts :=
  ⟨value 0, value 1, value 3, value 4, value 5, value 6⟩

theorem Counts.of_inj {value other : Nat → Word64} :
    Counts.of value = Counts.of other ↔ ∀ j ∈ usedEvents, value j = other j := by
  simp [Counts.of, usedEvents]

/-- What `ss_get_counter` returns for an event. -/
def Probe.counted (p : Probe) (j : Nat) : Word64 :=
  p.sumOver (fun i => (p.running i).ticks ≠ 0) fun i => p.events i j

theorem ssGetCounter_run (prog : ProgPtr) (j : Nat) (st : ExecState) :
    ∃ st', ssGetCounter prog j st = .ok ((probe prog st).counted j) st' ∧
      probe prog st' = probe prog st ∧
      st'.pds = st.pds := by
  unfold Probe.counted
  rw [← sumRun_eq]
  exact ⟨_, rfl, (useCntrs_probe prog).run (a := ()) rfl, rfl⟩

theorem ssGetOccupancy_run (prog : ProgPtr) (st : ExecState) :
    ∃ st', ssGetOccupancy prog st = .ok ((st.pds prog).stats.sumRun st.cpus.length
      (st.pds prog).stats.l3OccupancyMetric) st' ∧ st'.pds = st.pds :=
  ⟨_, rfl, rfl⟩

theorem modifyPd_probe {change : ProgData → ProgData} (same : ∀ pd, (change pd).stats = pd.stats) :
    Acts (probe prog) (modifyPd prog change) id :=
  Acts.modify fun st => by simp [probe, same]

theorem storeCounter {Q : Unit → ExecState → Prop} {E : Stop → ExecState → Prop}
    {rest : Unit → Exec Unit} (j : Nat) (change : Word64 → ProgData → ProgData)
    (same : ∀ value pd, (change value pd).stats = pd.stats)
    (next : ∀ st', probe prog st' = probe prog st →
      st'.pds prog = change ((probe prog st).counted j) (st.pds prog) → wp (rest ()) Q E st') :
    wp (ssGetCounter prog j >>= fun value => modifyPd prog (change value) >>= rest) Q E st := by
  obtain ⟨read, run, kept, pds⟩ := ssGetCounter_run prog j st
  refine Wp.bind_ok run (Wp.bind_ok rfl (next _ ?_ ?_))
  · rw [← kept]
    exact modifyPd_probe (same _) read
  · simp [pds]

/-- `sched_update_prfm` stores what `ss_get_counter` returns. -/
theorem schedUpdatePrfm_counts (prog : ProgPtr) (st : ExecState) :
    wp (schedUpdatePrfm prog)
      (fun _ st' => (st'.pds prog).counts = Counts.of (probe prog st).counted)
      (fun _ _ => False) st := by
  unfold schedUpdatePrfm
  refine storeCounter 0 (fun value pd => { pd with instrRetd := value }) (fun _ _ => rfl)
    fun st₀ kept₀ pd₀ => ?_
  refine storeCounter 1 (fun value pd => { pd with unhCycles := value }) (fun _ _ => rfl)
    fun st₁ kept₁ pd₁ => ?_
  refine storeCounter 3 (fun value pd => { pd with llcMisses := value }) (fun _ _ => rfl)
    fun st₂ kept₂ pd₂ => ?_
  refine storeCounter 4 (fun value pd => { pd with l1Repl := value }) (fun _ _ => rfl)
    fun st₃ kept₃ pd₃ => ?_
  refine storeCounter 5 (fun value pd => { pd with l2In := value }) (fun _ _ => rfl)
    fun st₄ kept₄ pd₄ => ?_
  refine storeCounter 6 (fun value pd => { pd with memReads := value }) (fun _ _ => rfl)
    fun st₅ kept₅ pd₅ => ?_
  rw [kept₀] at kept₁ pd₁
  rw [kept₁] at kept₂ pd₂
  rw [kept₂] at kept₃ pd₃
  rw [kept₃] at kept₄ pd₄
  rw [kept₄] at pd₅
  generalize (probe prog st).counted = value at *
  have counts : (st₅.pds prog).counts = Counts.of value := by
    simp only [pd₅, pd₄, pd₃, pd₂, pd₁, pd₀, ProgData.counts, Counts.of]
  refine Wp.bind_ok rfl (Wp.ite (fun _ => ?_) fun _ => Wp.pure counts)
  obtain ⟨read, run, pds⟩ := ssGetOccupancy_run prog st₅
  refine Wp.bind_ok run (Wp.modify ?_)
  simpa [ProgData.counts, pds] using counts

end Counts

section Paths

/-- What `freeze_sched` reads for a program: all counters first, then those of its cpuset. -/
def sampleFully (prog : ProgPtr) : Exec Unit := do
  ssAffStopCounters
  ssAffReadCounters
  stopMCCounters
  stopPower
  getOffcoreMetrics
  ssAffStatsPause prog
  ssAffStatsRead prog
  schedUpdatePrfm prog

/-- Readings that are not about programs. -/
def Probe.skip (n : Nat) (p : Probe) : Probe := { p with reads := p.reads + n }

/-- The sample after a reading of some of the counters. -/
def Probe.settle (among : List Int → Nat → Bool) (p : Probe) : Probe :=
  (Probe.clock tscPause ((p.sample among).skip 2)).copy

theorem readEnv_probe {α : Type} (prog : ProgPtr) (value : Env → Nat → α) :
    Acts (probe prog) (readEnv value) (Probe.skip 1) :=
  fun _ => rfl

theorem modifyMcInfo_probe (prog : ProgPtr) (change : UncMc → UncMc) :
    Acts (probe prog) (modifyMcInfo change) id :=
  Acts.modify fun _ => rfl

theorem writeResults_probe (prog : ProgPtr) : Acts (probe prog) writeResults id := by
  refine Acts.modify fun st => ?_
  unfold probe
  dsimp only
  split <;> rfl

theorem stopMCCounters_probe (prog : ProgPtr) : Acts (probe prog) stopMCCounters (Probe.skip 2) :=
  (useCntrs_probe prog).skip fun _ => (readEnv_probe prog _).bind fun _ =>
    (readEnv_probe prog _).bind fun _ =>
    modifyMcInfo_probe prog _

theorem getOffcoreMetrics_probe (prog : ProgPtr) : Acts (probe prog) getOffcoreMetrics id :=
  (useCntrs_probe prog).skip fun _ => (writeResults_probe prog).skip fun _ => Acts.modify fun _ =>
    rfl

/-- What both paths do between the reading of the counters and their use. -/
theorem offcore_probe (prog : ProgPtr) {Q : Unit → ExecState → Prop} {E : Stop → ExecState → Prop}
    {rest : Exec Unit} (next : ∀ st', probe prog st' = (probe prog st).skip 2 → wp rest Q E st') :
    wp (do stopMCCounters; stopPower; getOffcoreMetrics; rest) Q E st := by
  refine (stopMCCounters_probe prog).before fun _ st₁ skipped => ?_
  refine (useCntrs_probe prog).before fun _ st₂ same => ?_
  refine (getOffcoreMetrics_probe prog).before fun _ st₃ same' => next st₃ ?_
  rw [same', same, skipped]
  rfl

/-- What both paths do with the counters that are held. -/
theorem settle_probe {Q : Unit → ExecState → Prop} {E : Stop → ExecState → Prop} {rest : Exec Unit}
    (next : ∀ st', probe prog st' = (Probe.clock tscPause (probe prog st)).copy → wp rest Q E st') :
    wp (do ssAffStatsPause prog; ssAffStatsRead prog; rest) Q E st := by
  refine (modifyRunning_probe tscPause).before fun _ st₁ paused =>
    ssAffStatsRead_probe.before fun _ st₂ read => ?_
  apply next
  rw [read, paused]

/-- What a sample adds up to does not depend on the number of readings so far. -/
theorem readEnv_counted {α : Type} (prog : ProgPtr) (value : Env → Nat → α) :
    Acts (fun st => (probe prog st).counted) (readEnv value) id :=
  fun _ => rfl

theorem noteClock_counted (prog : ProgPtr) (event : ClockEvent) :
    Acts (fun st => (probe prog st).counted) (noteClock event) id :=
  fun _ => rfl

theorem modifyPd_counted {change : ProgData → ProgData}
    (same : ∀ pd, (change pd).stats = pd.stats) :
    Acts (fun st => (probe prog st).counted) (modifyPd prog change) id :=
  fun st => congrArg Probe.counted (modifyPd_probe same st)

theorem readPd_counted (prog : ProgPtr) :
    Acts (fun st => (probe prog st).counted) (readPd prog) id :=
  fun _ => rfl

theorem when_counted {c : Prop} [Decidable c] {action : Exec Unit}
    (acts : Acts (fun st => (probe prog st).counted) action id) :
    Acts (fun st => (probe prog st).counted) (when c action) id := by
  unfold when
  split
  · exact acts
  · exact Acts.pure ()

theorem schedUpdateClock_counted (prog : ProgPtr) :
    Acts (fun st => (probe prog st).counted) (schedUpdateClock prog) id := by
  refine Acts.skip ?_ fun _ => Acts.skip ?_ fun _ => ?_
  · exact (readPd_counted prog).skip fun _ => when_counted ((readEnv_counted prog _).skip fun _ =>
      (noteClock_counted prog _).skip fun _ => modifyPd_counted fun _ => rfl)
  · exact (readPd_counted prog).skip fun _ => when_counted ((readEnv_counted prog _).skip fun _ =>
      (noteClock_counted prog _).skip fun _ => modifyPd_counted fun _ => rfl)
  · exact (readPd_counted prog).skip fun _ => noteClock_counted prog _

/-- The per-core path stores what the cached counters add up to once those of one cpu are read. -/
theorem sampleFinished_counts (prog : ProgPtr) (st : ExecState) :
    wp (sampleFinished prog) (fun _ st' => (st'.pds prog).counts = Counts.of
      (Probe.settle (fun cpus i => cpus[i]? = some (st.pds prog).cpu) (probe prog st)).counted)
      (fun _ _ => False) st := by
  refine Wp.bind_ok (readPd_run prog st) ((useCntrs_probe prog).before fun _ st₁ same₁ => ?_)
  refine (ssAffReadCounter_probe prog _).before fun _ st₂ sampled =>
    offcore_probe prog fun st₃ skipped => ?_
  refine (useCntrs_probe prog).before fun _ st₄ same₄ => settle_probe fun st₅ settled => ?_
  refine (schedUpdateClock_counted prog).before fun _ st₆ same₆ => ?_
  refine Wp.bind (schedUpdatePrfm_counts prog st₆) fun _ st₇ counts => Wp.modify ?_
  rw [same₆, settled, same₄, skipped, sampled, same₁] at counts
  simpa [ProgData.counts, Probe.settle] using counts

/-- The full path stores what all counters add up to. -/
theorem sampleFully_counts (prog : ProgPtr) (st : ExecState) :
    wp (sampleFully prog) (fun _ st' => (st'.pds prog).counts = Counts.of
      (Probe.settle (fun cpus i => i < cpus.length) (probe prog st)).counted)
        (fun _ _ => False) st := by
  refine (useCntrs_probe prog).before fun _ st₁ same₁ =>
    (ssAffReadCounters_probe prog).before fun _ st₂ sampled => ?_
  refine offcore_probe prog fun st₃ skipped => settle_probe fun st₄ settled => ?_
  refine Wp.imp (schedUpdatePrfm_counts prog st₄) fun _ st₅ counts => ?_
  rw [settled, skipped, sampled, same₁] at counts
  exact counts

end Paths

section Agreement

/-- The cpus of the cpuset whose counters `rebalance` does not read. -/
def Probe.others (p : Probe) (cpu : Int) (i : Nat) : Bool :=
  p.selects i && !decide (p.cpus[i]? = some cpu)

/-- The values that the counters show now. -/
def Probe.fresh (p : Probe) (i : Nat) : Nat → Word64 := p.env.pmc p.reads i

/-- A program is in its quantum: its statistics were zeroed and its clocks started. -/
inductive Running (prog : ProgPtr) (probes : List Probe) (st : ExecState) : Prop
  | intro {idle zeroed thawed started : ExecState} (before : Quanta prog probes idle)
      (zero : ssAffZeroStats prog idle = .ok () zeroed) (thaws : Within prog zeroed thawed)
      (start : ssAffStatsStart prog thawed = .ok () started) (runs : Within prog started st)

/-- What holds of a program in its quantum: nothing is left of its earlier events, and a pause
of its clocks makes them show that it has run on its cpus. -/
structure Begun (reads : Nat) (p : Probe) : Prop where
  events : ∀ i j, p.events i j = 0
  clocks : ∀ i n, p.selects i = true → p.reads ≤ n → n < reads →
    (tscPause (p.env.getTicks n i) (p.running i)).ticks ≠ 0

theorem Running.begun {probes : List Probe} {reads : Nat} (running : Running prog probes st)
    (late : st.reads ≤ reads) (increasing : st.env.Increasing reads) :
    Begun reads (probe prog st) := by
  obtain @⟨idle, zeroed, thawed, started, before, zero, thaws, start, runs⟩ := running
  have zero := ssAffZeroStats_probe.run zero
  have start := (modifyRunning_probe tscStart).run start
  have selects : (probe prog thawed).selects = (probe prog st).selects := by
    rw [Probe.selects_congr runs.cpuset runs.cpus, start]
    rfl
  have env : (probe prog st).env = (probe prog idle).env := by
    simp only [runs.env, start, Probe.clock, thaws.env, zero, Probe.zero]
  have later := runs.reads
  have earlier := thaws.reads
  simp only [start, zero, Probe.clock, Probe.zero] at later earlier
  have late : (probe prog st).reads ≤ reads := late
  have increasing : (probe prog idle).env.Increasing reads := env ▸ increasing
  have tallied := before.tallied (by omega) increasing
  constructor
  · intro i j
    simp only [runs.events, start, Probe.clock, thaws.events, zero, Probe.zero]
  · intro i n selected after early
    have clock : (probe prog st).running i =
        tscStart ((probe prog idle).env.getTicks (probe prog thawed).reads i)
          ((probe prog idle).running i) := by
      simp only [runs.running, start, Probe.clock, selects, selected, if_true, thaws.running,
        thaws.env, zero, Probe.zero]
    rw [clock, env]
    exact (goesOn (tallied.behind i _ earlier (by omega)) (increasing i _ n (by omega) early)).2

variable {reads : Nat}

theorem settle_running (among : List Int → Nat → Bool) (i : Nat) :
    (p.settle among).running i =
      if p.selects i then tscPause (p.env.getTicks (p.reads + 3) i)
        (p.running i) else p.running i := rfl

theorem settle_events (among : List Int → Nat → Bool) (i j : Nat) :
    (p.settle among).events i j =
      if p.selects i then (if among p.cpus i then p.fresh i j else p.counterData i j)
      else p.events i j := by
  have events : (p.settle among).events i =
      if p.selects i then (if among p.cpus i then p.fresh i else p.counterData i) else p.events i :=
        rfl
  rw [events]
  split
  · exact apply_ite (fun data : Nat → Word64 => data j) ..
  · rfl

/-- In a quantum a sample is the sum over the cpuset of what was read or is held. -/
theorem Begun.counted (begun : Begun reads p) (late : p.reads + 3 < reads)
    (among : List Int → Nat → Bool) (j : Nat) :
    (p.settle among).counted j =
      p.sum fun i => if among p.cpus i then p.fresh i j else p.counterData i j := by
  unfold Probe.counted Probe.sum Probe.sumOver
  congr 1
  refine List.map_congr_left fun i _ => ?_
  simp only [settle_running, settle_events]
  by_cases selected : p.selects i = true
  · have ran := begun.clocks i (p.reads + 3) selected (by omega) late
    simp only [selected, if_true, decide_eq_true ran]
  · simp [selected, begun.events]

theorem Begun.counted_full (begun : Begun reads p) (late : p.reads + 3 < reads) (j : Nat) :
    (p.settle fun cpus i => i < cpus.length).counted j = p.sum fun i => p.fresh i j := by
  rw [begun.counted late]
  unfold Probe.sum Probe.sumOver
  congr 1
  refine List.map_congr_left fun i member => ?_
  dsimp only
  rw [if_pos (decide_eq_true (List.mem_range.mp member))]

/-- Reading the other cpus as well replaces what is held for them. -/
theorem sum_add_others (p : Probe) (cpu : Int) (j : Nat) :
    (p.sum fun i => if decide (p.cpus[i]? = some cpu) then p.fresh i j else p.counterData i j) +
        p.sumOver (p.others cpu) (fun i => p.fresh i j) =
      (p.sum fun i => p.fresh i j) + p.sumOver (p.others cpu) fun i => p.counterData i j := by
  unfold Probe.sum Probe.sumOver
  rw [← List.sum_map_add, ← List.sum_map_add]
  congr 1
  refine List.map_congr_left fun i _ => ?_
  unfold Probe.others
  by_cases selected : p.selects i = true
  · by_cases own : p.cpus[i]? = some cpu
    · simp [selected, own]
    · simp [selected, own, add_comm]
  · simp [selected]

/-- Both paths would store the same counts, the sums over the cpuset of what the counters
show now. -/
def SamplesAgree (prog : ProgPtr) (st : ExecState) : Prop :=
  ∃ finished full, sampleFinished prog st = .ok () finished ∧ sampleFully prog st = .ok () full ∧
    (finished.pds prog).counts = (full.pds prog).counts ∧
    (finished.pds prog).counts = Counts.of fun j => (probe prog st).sum fun i =>
      (probe prog st).fresh i j

/-- Both paths run, and their samples are these sums. -/
theorem Begun.samples (begun : Begun reads (probe prog st)) (late : st.reads + 3 < reads) :
    ∃ finished full, sampleFinished prog st = .ok () finished ∧ sampleFully prog st = .ok () full ∧
      (finished.pds prog).counts = (Counts.of fun j => (probe prog st).sum fun i =>
        if decide ((probe prog st).cpus[i]? = some (st.pds prog).cpu) then (probe prog st).fresh i j
        else (probe prog st).counterData i j) ∧
      (full.pds prog).counts = Counts.of fun j => (probe prog st).sum fun i =>
      (probe prog st).fresh i j := by
  have finishedSpec := sampleFinished_counts prog st
  have fullSpec := sampleFully_counts prog st
  cases finished : sampleFinished prog st with
  | error stop st' => exact ((of_error finished).mp finishedSpec).elim
  | ok _ finishedSt =>
      cases full : sampleFully prog st with
      | error stop st' => exact ((of_error full).mp fullSpec).elim
      | ok _ fullSt =>
          refine ⟨finishedSt, fullSt, rfl, rfl, ?_, ?_⟩
          · rw [(of_ok finished).mp finishedSpec]
            exact congrArg Counts.of (funext fun j => begun.counted late _ j)
          · rw [(of_ok full).mp fullSpec]
            exact congrArg Counts.of (funext fun j => begun.counted_full late j)

theorem Begun.samplesAgree_iff (begun : Begun reads (probe prog st)) (late : st.reads + 3 < reads) :
    SamplesAgree prog st ↔ ∀ j ∈ usedEvents,
      (probe prog st).sumOver ((probe prog st).others (st.pds prog).cpu)
      (fun i => (probe prog st).counterData i j) =
        (probe prog st).sumOver ((probe prog st).others (st.pds prog).cpu) fun i =>
        (probe prog st).fresh i j := by
  obtain ⟨finished, full, finishedRun, fullRun, counts, sums⟩ := begun.samples late
  have agree : SamplesAgree prog st ↔ (finished.pds prog).counts = (full.pds prog).counts := by
    constructor
    · intro agrees
      obtain ⟨finished', full', finishedRun', fullRun', same, -⟩ := agrees
      cases finishedRun.symm.trans finishedRun'
      cases fullRun.symm.trans fullRun'
      exact same
    · intro same
      exact ⟨finished, full, finishedRun, fullRun, same, same.trans sums⟩
  rw [agree, counts, sums, Counts.of_inj]
  refine forall_congr' fun j => forall_congr' fun _ => ?_
  have total := sum_add_others (probe prog st) (st.pds prog).cpu j
  constructor
  · intro same
    rw [same] at total
    exact (add_left_cancel total).symm
  · intro same
    rw [same] at total
    exact add_right_cancel total

/-- The sample of a program that finishes within its quantum is that of the full path exactly
if what is held for the other cpus of its cpuset adds up to what their counters show. -/
theorem finished_sample_iff (prog : ProgPtr) (probes : List Probe) (st : ExecState)
    (running : Running prog probes st) (increasing : st.env.Increasing (st.reads + 4)) :
    SamplesAgree prog st ↔ ∀ j ∈ usedEvents,
      (probe prog st).sumOver ((probe prog st).others (st.pds prog).cpu)
      (fun i => (probe prog st).counterData i j) =
        (probe prog st).sumOver ((probe prog st).others (st.pds prog).cpu) fun i =>
        (probe prog st).fresh i j :=
  (running.begun (by omega) increasing).samplesAgree_iff (by omega)

/-- The state after `sched_prog` has thawed program 0. -/
def ExecState.thawed (st : ExecState) : ExecState :=
  let quantum : Exec Unit := do
    ssAffZeroStats 0
    ssAffStatsStart 0
  match quantum st with
  | .ok _ st | .error _ st => st

/-- A program that was not in a quantum yet, on the cpus of its cpuset. -/
def ExecState.restingOn (cpuset : List Int) : ExecState :=
  { ExecState.start (.counting 7) [0, 1] with pds := fun _ => .blank }.withCpuset 0 cpuset

theorem thawed_running {probes : List Probe} {st : ExecState} (before : Quanta 0 probes st) :
    Running 0 probes st.thawed :=
  .intro before rfl (.refl _) rfl (.refl _)

/-- A program that finishes on two cpus in its second quantum, in which both count as in the first
one. -/
theorem finished_sample_iff_second :
    let st := ((ExecState.restingOn [0, 1]).afterQuantum 0).thawed
    (probe 0 st).counterData 1 0 = 7 ∧ SamplesAgree 0 st := by
  have first : Quanta 0 _ ((ExecState.restingOn [0, 1]).afterQuantum 0) :=
    .quantum (.init rfl) (afterQuantum_quantum 0 _)
  refine ⟨by
    decide, (finished_sample_iff 0 _ _ (thawed_running first)
      (counting_increasing 7 _ (by decide))).mpr ?_⟩
  decide

/-- A program that finishes on two cpus in its first quantum loses what the second one counted. -/
theorem finished_sample_two_cpus :
    Running 0 [] (ExecState.restingOn [0, 1]).thawed ∧
      ¬ SamplesAgree 0 (ExecState.restingOn [0, 1]).thawed := by
  have running : Running 0 [] (ExecState.restingOn [0, 1]).thawed := thawed_running (.init rfl)
  have begun : Begun 5 (probe 0 (ExecState.restingOn [0, 1]).thawed) :=
    running.begun (show 1 ≤ 5 by decide) (counting_increasing 7 5 (by decide))
  refine ⟨running, fun agree => ?_⟩
  have same := (begun.samplesAgree_iff (show 1 + 3 < 5 by decide)).mp agree 0 (by decide)
  exact absurd same (by decide)

end Agreement

end BachScheduler
