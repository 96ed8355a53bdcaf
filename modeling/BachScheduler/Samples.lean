import BachScheduler.Lib.Wp
import BachScheduler.Run
import Mathlib.Algebra.BigOperators.Group.List.Basic
import Mathlib.Data.BitVec

/-!
# What the samples of a program add up to

A quantum of a program zeroes its events, starts its clocks, and at the end copies the
counters of the cpus of its cpuset.  The cpuset may be another one in each quantum: what
`ss_get_counter` and the totals return only depends on the cpusets and on the counters held
at the ends of the quanta.
-/

namespace BachScheduler

open Wp

/-- What the samples of a program depend on: its statistics and its cpuset, the counters last
read from the monitored cpus, and the environment. -/
structure Probe where
  running : Nat → Tsc
  events : Nat → Nat → Word64
  eventsTmp : Nat → Nat → Word64
  l3OccupancyMetric : Nat → Word64
  cpuset : List Int
  counterData : Nat → Nat → Word64
  l3Occupancy : Nat → Word64
  upscalingFactor : Word32
  env : Env
  cpus : List Int
  reads : Nat

def probe (prog : ProgPtr) (st : ExecState) : Probe where
  running := (st.pds prog).stats.running
  events := (st.pds prog).stats.events
  eventsTmp := (st.pds prog).stats.eventsTmp
  l3OccupancyMetric := (st.pds prog).stats.l3OccupancyMetric
  cpuset := (st.progs prog).cpuset
  counterData i := (st.sched.cntrs.prfcnt i).counterData
  l3Occupancy i := (st.sched.cntrs.prfcnt i).l3Occupancy
  upscalingFactor := st.sched.cntrs.upscalingFactor
  env := st.env
  cpus := st.cpus
  reads := st.reads

namespace Probe

/-- Whether the monitored cpu with index `i` belongs to the cpuset of the program. -/
def selects (p : Probe) (i : Nat) : Bool := p.cpuset.any fun cpu => p.cpus[i]? = some cpu

/-- The sum over some of the monitored cpus. -/
def sumOver (p : Probe) (among : Nat → Bool) (value : Nat → Word64) : Word64 :=
  ((List.range p.cpus.length).map fun i => if among i then value i else 0).sum

/-- The sum over the monitored cpus of the cpuset. -/
def sum (p : Probe) (value : Nat → Word64) : Word64 := p.sumOver p.selects value

/-- The scaled occupancy of a monitored cpu. -/
def occupancy (p : Probe) (i : Nat) : Word64 :=
  if p.env.cmtAvailable then p.l3Occupancy i * p.upscalingFactor.setWidth 64 else 0

/-- `ss_aff_zero_stats`. -/
def zero (p : Probe) : Probe :=
  { p with events := fun _ _ => 0, l3OccupancyMetric := fun _ => 0 }

/-- A change of the running clocks on the cpus of the cpuset. -/
def clock (change : Word64 → Tsc → Tsc) (p : Probe) : Probe :=
  { p with
    running := fun i =>
      if p.selects i then change (p.env.getTicks p.reads i) (p.running i) else p.running i
    reads := p.reads + 1 }

/-- A reading of the counters of some monitored cpus. -/
def sample (among : List Int → Nat → Bool) (p : Probe) : Probe :=
  { p with
    counterData := fun i => if among p.cpus i then p.env.pmc p.reads i else p.counterData i
    l3Occupancy := fun i =>
      let data := p.env.qmCtr p.reads i
      if among p.cpus i && p.env.cmtAvailable && !data.getLsbD 63 &&
        !data.getLsbD 62 then data <<< 2 >>> 2
      else p.l3Occupancy i
    reads := p.reads + 1 }

/-- `ss_aff_stats_read`. -/
def copy (p : Probe) : Probe :=
  { p with
    events := fun i => if p.selects i then p.counterData i else p.events i
    eventsTmp := fun i j => if p.selects i then p.eventsTmp i j + p.counterData i
      j else p.eventsTmp i j
    l3OccupancyMetric := fun i =>
      if p.selects i && p.env.cmtAvailable then p.l3Occupancy i * p.upscalingFactor.setWidth 64
      else p.l3OccupancyMetric i }

end Probe

section Effects

variable {prog : ProgPtr}

theorem useCntrs_probe (prog : ProgPtr) : Acts (probe prog) useCntrs id := by
  refine Acts.modify fun st => ?_
  unfold probe
  dsimp only
  split <;> rfl

theorem ssAffZeroStats_probe : Acts (probe prog) (ssAffZeroStats prog) Probe.zero :=
  (useCntrs_probe prog).skip fun _ => Acts.modify fun st => by simp [probe, Probe.zero]

theorem modifyRunning_probe (change : Word64 → Tsc → Tsc) :
    Acts (probe prog) (modifyRunning prog change) (Probe.clock change) := by
  refine (useCntrs_probe prog).skip fun _ st => ?_
  change probe prog _ = _
  simp only [probe, Function.update_self]
  rfl

theorem readPrfcnts_probe (prog : ProgPtr) {selected : ExecState → Nat → Bool}
    {among : List Int → Nat → Bool} (same : ∀ st i, selected st i = among st.cpus i) :
    Acts (probe prog) (readPrfcnts selected) (Probe.sample among) := by
  intro st
  change probe prog _ = _
  simp only [probe, Probe.sample, Probe.mk.injEq, true_and, and_true, same]
  constructor
  · funext i
    exact apply_ite Prfcnt.counterData ..
  · funext i
    refine (apply_ite Prfcnt.l3Occupancy ..).trans ?_
    by_cases chosen : among st.cpus i = true
    · simp only [chosen, if_true, Bool.true_and]
      rfl
    · simp [chosen]

/-- `ss_aff_read_counters` reads every monitored cpu. -/
theorem ssAffReadCounters_probe (prog : ProgPtr) :
    Acts (probe prog) ssAffReadCounters (Probe.sample fun cpus i => i < cpus.length) :=
  (useCntrs_probe prog).skip fun _ => readPrfcnts_probe prog fun _ _ => rfl

/-- `ss_aff_read_counter` reads the monitored cpus with one id. -/
theorem ssAffReadCounter_probe (prog : ProgPtr) (cpu : Int) :
    Acts (probe prog) (ssAffReadCounter cpu) (Probe.sample fun cpus i => cpus[i]? = some cpu) :=
  (useCntrs_probe prog).skip fun _ => readPrfcnts_probe prog fun _ _ => rfl

theorem ssAffStatsRead_probe : Acts (probe prog) (ssAffStatsRead prog) Probe.copy := by
  refine (useCntrs_probe prog).skip fun _ st => ?_
  change probe prog _ = _
  simp only [probe, Function.update_self]
  rfl

theorem foldl_ite_eq_sum (count : Nat) (among : Nat → Bool) (value : Nat → Word64) :
    (List.range count).foldl (fun total i => if among i then total + value i else total) 0 =
      ((List.range count).map fun i => if among i then value i else 0).sum := by
  induction count with
  | zero => rfl
  | succ count ih =>
      rw [List.range_succ, List.foldl_concat, ih, List.map_append, List.sum_append]
      cases chosen : among count <;> simp [chosen]

theorem foldl_eq_sum (count : Nat) (value : Nat → Word64) :
    (List.range count).foldl (fun total i => total + value i) 0 =
    ((List.range count).map value).sum := by
  simpa using foldl_ite_eq_sum count (fun _ => true) value

theorem sumRun_eq (prog : ProgPtr) (st : ExecState) (metric : Nat → Word64) :
    (st.pds prog).stats.sumRun st.cpus.length metric =
      (probe prog st).sumOver (fun i => ((probe prog st).running i).ticks ≠ 0) metric := by
  unfold AffStats.sumRun Probe.sumOver
  rw [← foldl_ite_eq_sum]
  simp only [decide_eq_true_eq]
  rfl

end Effects

section Quanta

variable {prog : ProgPtr} {st st' : ExecState} {probes : List Probe}

/-- Steps between those of a program: other programs run, clocks and counters go on. -/
structure Elsewhere (prog : ProgPtr) (st st' : ExecState) : Prop where
  running : (probe prog st').running = (probe prog st).running
  events : (probe prog st').events = (probe prog st).events
  eventsTmp : (probe prog st').eventsTmp = (probe prog st).eventsTmp
  l3OccupancyMetric : (probe prog st').l3OccupancyMetric = (probe prog st).l3OccupancyMetric
  env : (probe prog st').env = (probe prog st).env
  cpus : (probe prog st').cpus = (probe prog st).cpus
  reads : (probe prog st).reads ≤ (probe prog st').reads

/-- Steps within a quantum of a program, which keeps its cpuset. -/
structure Within (prog : ProgPtr) (st st' : ExecState) : Prop extends Elsewhere prog st st' where
  cpuset : (probe prog st').cpuset = (probe prog st).cpuset

/-- Steps within a quantum of a program between the reading of the counters and their use. -/
structure Settling (prog : ProgPtr) (st st' : ExecState) : Prop extends Within prog st st' where
  counterData : (probe prog st').counterData = (probe prog st).counterData
  l3Occupancy : (probe prog st').l3Occupancy = (probe prog st).l3Occupancy
  upscalingFactor : (probe prog st').upscalingFactor = (probe prog st).upscalingFactor

/-- One complete quantum of a program. -/
inductive Quantum (prog : ProgPtr) (st st' : ExecState) : Prop
  | intro {zeroed thawed started stopped sampled settled paused done : ExecState}
      (zero : ssAffZeroStats prog st = .ok () zeroed) (thaws : Within prog zeroed thawed)
      (start : ssAffStatsStart prog thawed = .ok () started) (runs : Within prog started stopped)
      (sample : ssAffReadCounters stopped = .ok () sampled)
      (settles : Settling prog sampled settled)
      (pause : ssAffStatsPause prog settled = .ok () paused) (ends : Settling prog paused done)
      (read : ssAffStatsRead prog done = .ok () st')

/-- The quanta of a program since its statistics were initialised, each with the cpuset that
it had and the counters that were held at the end of it. -/
inductive Quanta (prog : ProgPtr) : List Probe → ExecState → Prop
  | init {st : ExecState} (fresh : (st.pds prog).stats = ssAffStatsInit) : Quanta prog [] st
  | elsewhere {probes : List Probe} {st st' : ExecState} (before : Quanta prog probes st)
      (other : Elsewhere prog st st') : Quanta prog probes st'
  | quantum {probes : List Probe} {st st' : ExecState} (before : Quanta prog probes st)
      (next : Quantum prog st st') : Quanta prog (probes ++ [probe prog st']) st'

/-- What a complete quantum leaves: for the cpus of the cpuset the counters held, for the
others nothing; the clocks of the cpus of the cpuset went on from one reading to a later one. -/
structure Sampled (p p' : Probe) : Prop where
  env : p'.env = p.env
  cpus : p'.cpus = p.cpus
  events : ∀ i, p'.events i = if p'.selects i then p'.counterData i else fun _ => 0
  eventsTmp : ∀ i j, p'.eventsTmp i j = p.eventsTmp i
    j + if p'.selects i then p'.counterData i j else 0
  l3OccupancyMetric : ∀ i, p'.l3OccupancyMetric i = if p'.selects i then p'.occupancy i else 0
  clocks : ∃ m n, p.reads ≤ m ∧ m < n ∧ n < p'.reads ∧ ∀ i, (p'.running i).ticks =
    if p'.selects i then (p.running i).ticks + (p.env.getTicks n i - p.env.getTicks m i)
    else (p.running i).ticks

theorem Probe.selects_congr {p q : Probe} (cpuset : p.cpuset = q.cpuset) (cpus : p.cpus = q.cpus) :
    p.selects = q.selects := by
  funext i
  unfold Probe.selects
  rw [cpuset, cpus]

theorem Quantum.sampled (quantum : Quantum prog st st') :
    Sampled (probe prog st) (probe prog st') := by
  obtain @⟨_, thawed, started, stopped, sampled, settled, _, done, zero, thaws, start, runs, sample,
      settles, pause,
    ends, read⟩ := quantum
  have zero := ssAffZeroStats_probe.run zero
  have start := (modifyRunning_probe tscStart).run start
  have sample := (ssAffReadCounters_probe prog).run sample
  have pause := (modifyRunning_probe tscPause).run pause
  have read := ssAffStatsRead_probe.run read
  -- the cpuset is the same from the start to the end
  have atDone : (probe prog done).selects = (probe prog st').selects := by
    rw [read]
    rfl
  have atSettled : (probe prog settled).selects = (probe prog done).selects := by
    rw [Probe.selects_congr ends.cpuset ends.cpus, pause]
    rfl
  have atThawed : (probe prog thawed).selects = (probe prog done).selects :=
    calc (probe prog thawed).selects
        = (probe prog started).selects := by rw [start]; rfl
      _ = (probe prog stopped).selects := (Probe.selects_congr runs.cpuset runs.cpus).symm
      _ = (probe prog sampled).selects := by rw [sample]; rfl
      _ = (probe prog settled).selects := (Probe.selects_congr settles.cpuset settles.cpus).symm
      _ = (probe prog done).selects := atSettled
  have env : (probe prog st').env = (probe prog st).env := by
    simp only [read, Probe.copy, ends.env, pause, Probe.clock, settles.env, sample,
      Probe.sample, runs.env, start, thaws.env, zero, Probe.zero]
  have later := ends.reads
  have later' := settles.reads
  have later'' := runs.reads
  have later₃ := thaws.reads
  simp only [pause, sample, start, zero, Probe.clock, Probe.sample,
    Probe.zero] at later later' later'' later₃
  refine ⟨env, ?_, fun i => ?_, fun i j => ?_, fun i => ?_,
    (probe prog thawed).reads, (probe prog settled).reads, later₃, by omega, ?_, fun i => ?_⟩
  · simp only [read, Probe.copy, ends.cpus, pause, Probe.clock, settles.cpus, sample,
      Probe.sample, runs.cpus, start, thaws.cpus, zero, Probe.zero]
  · rw [← atDone]
    simp only [read, Probe.copy, ends.events, pause, Probe.clock, settles.events,
      sample, Probe.sample, runs.events, start, thaws.events, zero, Probe.zero]
  · rw [← atDone]
    simp only [read, Probe.copy, ends.eventsTmp, pause, Probe.clock, settles.eventsTmp,
      sample, Probe.sample, runs.eventsTmp, start, thaws.eventsTmp, zero, Probe.zero]
    split <;> simp
  · rw [← atDone]
    simp only [read, Probe.copy, Probe.occupancy, ends.l3OccupancyMetric, pause, Probe.clock,
      settles.l3OccupancyMetric, sample, Probe.sample, runs.l3OccupancyMetric, start,
        thaws.l3OccupancyMetric,
      zero, Probe.zero]
    cases (probe prog done).selects i <;> simp
  · simp only [read, Probe.copy]
    omega
  · rw [← atDone]
    simp only [read, Probe.copy, ends.running, pause, Probe.clock, atSettled,
      settles.running, sample, Probe.sample, runs.running, start, atThawed, thaws.running, zero,
        Probe.zero, settles.env, runs.env, thaws.env]
    cases (probe prog done).selects i <;> simp [tscPause, tscStart]

/-- The time stamp counter of each cpu increases from each reading to the next one. -/
def Env.Increasing (env : Env) (reads : Nat) : Prop :=
  ∀ i m n, m < n → n < reads → (env.getTicks m i).toNat < (env.getTicks n i).toNat

/-- The clocks of a program are behind every later reading, and its totals are the sums over
the quanta. -/
structure Tallied (reads : Nat) (probes : List Probe) (p : Probe) : Prop where
  behind : ∀ i n, p.reads ≤ n → n < reads → (p.running i).ticks.toNat ≤ (p.env.getTicks n i).toNat
  totals : ∀ j, ((List.range p.cpus.length).map fun i => p.eventsTmp i j).sum =
    (probes.map fun q => q.sum fun i => q.counterData i j).sum

/-- A clock that is behind one reading and goes on to the next is then behind that one and
does not stand at zero. -/
theorem goesOn {ticks first last : Word64} (behind : ticks.toNat ≤ first.toNat)
    (less : first.toNat < last.toNat) :
    (ticks + (last - first)).toNat ≤ last.toNat ∧ ticks + (last - first) ≠ 0 := by
  have difference : (last - first).toNat = last.toNat - first.toNat :=
    BitVec.toNat_sub_of_le (BitVec.le_def.mpr less.le)
  have bound := last.isLt
  have total : (ticks + (last - first)).toNat = ticks.toNat + (last.toNat - first.toNat) := by
    rw [BitVec.toNat_add, difference, Nat.mod_eq_of_lt (by omega)]
  refine ⟨by omega, fun zero => ?_⟩
  rw [zero] at total
  change 0 = _ at total
  omega

variable {reads : Nat} {p p' : Probe}

theorem Sampled.reads_lt (sampled : Sampled p p') : p.reads < p'.reads := by
  obtain ⟨m, n, before, between, after, -⟩ := sampled.clocks
  omega

/-- The clocks of the cpus of the cpuset do not stand at zero after a quantum. -/
theorem Sampled.ticks_ne_zero (sampled : Sampled p p') (tallied : Tallied reads probes p)
    (increasing : p.env.Increasing reads) (late : p'.reads ≤ reads) {i : Nat}
    (selected : p'.selects i = true) :
    (p'.running i).ticks ≠ 0 := by
  obtain ⟨m, n, before, between, after, ticks⟩ := sampled.clocks
  rw [ticks, if_pos selected]
  exact (goesOn (tallied.behind i m before (by omega)) (increasing i m n between (by omega))).2

theorem Sampled.tallied (sampled : Sampled p p') (tallied : Tallied reads probes p)
    (increasing : p.env.Increasing reads) : Tallied reads (probes ++ [p']) p' where
  behind i k after early := by
    obtain ⟨m, n, before, between, inside, ticks⟩ := sampled.clocks
    have start := tallied.behind i m before (by omega)
    rw [ticks, sampled.env]
    split
    · have next := increasing i n k (by omega) early
      have last := (goesOn start (increasing i m n between (by omega))).1
      omega
    · exact tallied.behind i k (by omega) early
  totals j := by
    simp only [sampled.eventsTmp, sampled.cpus, List.sum_map_add, tallied.totals, List.map_append,
      List.sum_append, List.map_singleton, List.sum_singleton]
    unfold Probe.sum Probe.sumOver
    rw [sampled.cpus]

theorem Quanta.tallied (quanta : Quanta prog probes st) (late : (probe prog st).reads ≤ reads)
    (increasing : (probe prog st).env.Increasing reads) : Tallied reads probes (probe prog st) := by
  induction quanta with
  | init fresh =>
      constructor
      · intro i n _ _
        simp [probe, fresh, ssAffStatsInit, tscInit]
      · intro j
        simp [probe, fresh, ssAffStatsInit]
  | elsewhere before other ih =>
      have same := ih (other.reads.trans late) (other.env ▸ increasing)
      constructor
      · intro i n after early
        rw [other.running, other.env]
        exact same.behind i n (other.reads.trans after) early
      · intro j
        rw [other.cpus, other.eventsTmp]
        exact same.totals j
  | quantum before next ih =>
      have sampled := next.sampled
      have increasing := sampled.env ▸ increasing
      exact sampled.tallied (ih (sampled.reads_lt.le.trans late) increasing) increasing

/-- What a metric that only counts on the cpus of the cpuset adds up to. -/
theorem sumRun_of_selected {metric value : Nat → Word64}
    (ran : ∀ i, (probe prog st).selects i = true → ((probe prog st).running i).ticks ≠ 0)
    (counts : ∀ i, metric i = if (probe prog st).selects i then value i else 0) :
    (st.pds prog).stats.sumRun st.cpus.length metric = (probe prog st).sum value := by
  rw [sumRun_eq, Probe.sum, Probe.sumOver, Probe.sumOver]
  congr 2
  funext i
  rw [counts]
  by_cases selected : (probe prog st).selects i = true
  · rw [if_pos selected, if_pos (decide_eq_true (ran i selected))]
  · simp [selected]

/-- After each quantum `ss_get_counter` returns the sum over the cpus of that quantum's cpuset
of what is held for them, and the totals are the sums over all quanta. -/
theorem quanta_samples (prog : ProgPtr) (probes : List Probe) (st st' : ExecState)
    (before : Quanta prog probes st) (last : Quantum prog st st')
    (increasing : st'.env.Increasing st'.reads) : let p := probe prog st'
    (∀ j, ∃ s, ssGetCounter prog j st' = .ok (p.sum fun i => p.counterData i j) s) ∧
      (∃ s, ssGetOccupancy prog st' = .ok (p.sum p.occupancy) s) ∧
      (∃ s, getTotalInstr prog st' =
        .ok (((probes ++ [p]).map fun q => q.sum fun i => q.counterData i 0).sum) s) ∧
      ∃ s, getTotalCycles prog st' =
        .ok (((probes ++ [p]).map fun q => q.sum fun i => q.counterData i 1).sum) s := by
  intro p
  have sampled := last.sampled
  have earlier : (probe prog st).env.Increasing st'.reads := sampled.env ▸ increasing
  have tallied := before.tallied sampled.reads_lt.le earlier
  have ran : ∀ i, p.selects i = true → (p.running i).ticks ≠ 0 := fun i =>
    sampled.ticks_ne_zero tallied earlier le_rfl
  have totals := (sampled.tallied tallied earlier).totals
  have total : ∀ j, ∃ s, getTotal prog j st' =
      .ok ((List.range p.cpus.length).map fun i => p.eventsTmp i j).sum s :=
    fun j => ⟨_, congrArg (EStateM.Result.ok · _) (foldl_eq_sum ..)⟩
  refine ⟨fun j => ?_, ?_, ?_, ?_⟩
  · have counts : ∀ i, p.events i j = if p.selects i then p.counterData i j else 0 := fun i => by
      rw [sampled.events]
      split <;> rfl
    have sum := sumRun_of_selected ran counts
    rw [← sum]
    exact ⟨_, rfl⟩
  · have sum := sumRun_of_selected ran sampled.l3OccupancyMetric
    rw [← sum]
    exact ⟨_, rfl⟩
  · rw [← totals]
    exact total 0
  · rw [← totals]
    exact total 1

section Migration

theorem Within.refl (st : ExecState) : Within prog st st :=
  ⟨⟨rfl, rfl, rfl, rfl, rfl, rfl, le_rfl⟩, rfl⟩

theorem Settling.refl (st : ExecState) : Settling prog st st := ⟨.refl st, rfl, rfl, rfl⟩

/-- A quantum in which nothing else happens. -/
def ExecState.afterQuantum (prog : ProgPtr) (st : ExecState) : ExecState :=
  let quantum : Exec Unit := do
    ssAffZeroStats prog
    ssAffStatsStart prog
    ssAffReadCounters
    ssAffStatsPause prog
    ssAffStatsRead prog
  match quantum st with
  | .ok _ st' | .error _ st' => st'

theorem afterQuantum_quantum (prog : ProgPtr) (st : ExecState) :
    Quantum prog st (st.afterQuantum prog) :=
  .intro rfl (.refl _) rfl (.refl _) rfl (.refl _) rfl (.refl _) rfl

/-- A program gets another cpuset. -/
def ExecState.withCpuset (prog : ProgPtr) (cpuset : List Int) (st : ExecState) : ExecState :=
  { st with progs := Function.update st.progs prog { st.progs prog with cpuset := cpuset } }

theorem counting_increasing (count : Word64) (reads : Nat) (small : reads < 2 ^ 64) :
    (Env.counting count).Increasing reads := by
  intro i m n less early
  change (BitVec.ofNat 64 m).toNat < (BitVec.ofNat 64 n).toNat
  simp only [BitVec.toNat_ofNat]
  omega

/-- A program that migrates from one cpu to another. -/
theorem quanta_samples_migrating :
    let start := { ExecState.start (.counting 7) [0, 1] with pds := fun _ => .blank }
    let first := (start.withCpuset 0 [0]).afterQuantum 0
    let last := (first.withCpuset 0 [1]).afterQuantum 0
    (∃ s, ssGetCounter 0 0 last = .ok 7 s) ∧ ∃ s, getTotalInstr 0 last = .ok 14 s := by
  intro start first last
  have migrates : Elsewhere 0 first (first.withCpuset 0 [1]) :=
    ⟨rfl, rfl, rfl, rfl, rfl, rfl, le_rfl⟩
  have increasing : last.env.Increasing last.reads := counting_increasing 7 6 (by decide)
  obtain ⟨counter, -, total, -⟩ := quanta_samples 0 [probe 0 first] (first.withCpuset 0 [1]) last
    (.elsewhere (.quantum (.init rfl) (afterQuantum_quantum 0 _)) migrates)
      (afterQuantum_quantum 0 _) increasing
  exact ⟨counter 0, total⟩

end Migration

end Quanta

end BachScheduler
