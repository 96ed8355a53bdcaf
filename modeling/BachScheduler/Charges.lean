import BachScheduler.Cores

/-!
# Who is charged for what a core has counted

Where every program needs one core and the exits come in while their programs run, or after they
were killed, a program is charged for the counters of the cpus it had in the counting epoch, and
nobody is charged for them again.
-/

namespace BachScheduler

open Wp

variable {exits : ProgPtr → Place → Prop} {name : PolicyName} {a b : Life} {prog p : ProgPtr}
variable {source target : Place} {effect : Core → Core} {core other later : Core} {st : ExecState}
variable {confs : List ProgConf} {env : Env} {cpus : List Int} {targets : Int → Word64}

/-- The programs that were thawed, with the counting epochs and their cpus. -/
def thawings (log : List Event) : List (ProgPtr × Nat × List Int) :=
  log.filterMap fun
    | .thawed prog epoch cpuset => some (prog, epoch, cpuset)
    | _ => none

@[simp] theorem thawings_append (log more : List Event) :
    thawings (log ++ more) = thawings log ++ thawings more :=
  List.filterMap_append

theorem mem_thawings {log : List Event} {epoch : Nat} {cpuset : List Int} :
    (prog, epoch, cpuset) ∈ thawings log ↔ .thawed prog epoch cpuset ∈ log := by
  unfold thawings
  rw [List.mem_filterMap]
  constructor
  · rintro ⟨event, member, found⟩
    cases event with
    | thawed =>
        cases found
        exact member
    | _ => cases found
  · exact fun member => ⟨_, member, rfl⟩

theorem mem_charges {log : List Event} {batches : List (Int × Nat)} :
    (prog, batches) ∈ charges log ↔ ∃ amount, .charged prog amount batches ∈ log := by
  unfold charges
  rw [List.mem_filterMap]
  constructor
  · rintro ⟨event, member, found⟩
    cases event with
    | charged prog amount batches =>
        cases found
        exact ⟨amount, member⟩
    | _ => cases found
  · rintro ⟨amount, member⟩
    exact ⟨_, member, rfl⟩

/-- The exits come in while their programs run, or after they were killed. -/
def promptly : ProgPtr → Place → Prop := fun _ k => k = .sch ∨ k = .killed

/-- A program has cpus of its own in the counting epoch, and only these were sampled. -/
structure Life.Metered (a : Life) (p : ProgPtr) : Prop where
  thawed : (p, a.core.sched.epoch, (a.core.progs p).cpuset) ∈ thawings a.core.log
  single : (a.core.progs p).cpuset = [(a.core.pds p).cpu]
  sampled : ∀ i e, (a.core.pds p).epoch i = some e →
    e = a.core.sched.epoch ∧ a.core.inCpuset p i = true

/-- Where the counts of the cores go. -/
structure Life.Attributed (a : Life) : Prop where
  still : a.phase ≠ .running → ∀ p, a.place p ≠ .finished ∧ a.place p ≠ .taken
  thawed : ∀ p e cpuset, (p, e, cpuset) ∈ thawings a.core.log → e ≤ a.core.sched.epoch ∨
    a.phase = .choosing ∧ a.place p = .sch ∧ e = a.core.sched.epoch + 1 ∧
      cpuset = (a.core.progs p).cpuset
  apart : ∀ p q e cpuset others, (p, e, cpuset) ∈ thawings a.core.log →
    (q, e, others) ∈ thawings a.core.log →
    ∀ cpu ∈ cpuset, cpu ∈ others → p = q
  runs : a.phase ≠ .choosing → ∀ p, a.place p = .sch →
    (p, a.core.sched.epoch, (a.core.progs p).cpuset) ∈ thawings a.core.log
  ended : ∀ p, a.place p = .finished ∨ a.place p = .taken → a.Metered p
  charged : ∀ charge ∈ charges a.core.log, ∀ batch ∈ charge.2,
    ∃ cpuset, (charge.1, batch.2, cpuset) ∈ thawings a.core.log ∧ batch.1 ∈ cpuset
  once : ((charges a.core.log).flatMap Prod.snd).Nodup

section Frames

/-- What happens without a move thaws a program of `progs_sch`, or nobody. -/
theorem Act.thawings (act : Act a effect) :
    (∃ prog now, effect = Core.thaw prog now ∧ a.phase = .choosing ∧ a.place prog = .sch) ∨
      BachScheduler.thawings (effect a.core).log = BachScheduler.thawings a.core.log := by
  cases act with
  | thaw phase listed => exact .inl ⟨_, _, rfl, phase, listed⟩
  | collect | wait | close | charge =>
      refine .inr ?_
      simp [Core.note, Core.close, Core.print, Core.charge, BachScheduler.thawings]
  | _ => exact .inr rfl

theorem Core.thawings_thaw (core : Core) (prog : ProgPtr) (now : Word32) :
    thawings (core.thaw prog now).log =
      thawings core.log ++ [(prog, core.sched.epoch + 1, (core.progs prog).cpuset)] := by
  simp [thaw, modProg, modPd, note, noteClocks, zeroEpochs, thawings]

theorem Move.thawings (move : Move exits a prog source target effect) :
    BachScheduler.thawings (effect a.core).log = BachScheduler.thawings a.core.log := by
  cases move <;>
    simp [Core.arrive, Core.enter, Core.bump, Core.modSched, Core.assign, Core.modPd,
      Core.modProg, Core.note, Core.kill, Core.clear, Core.report, Core.recordEnd, Core.retire,
        Core.free, BachScheduler.thawings]

theorem Core.assignAll_thawings (core : Core) (need : ProgPtr → Int) (progs : List ProgPtr)
    (rstart : Int) : thawings (core.assignAll need progs rstart).log = thawings core.log := by
  induction progs generalizing core rstart with
  | nil => rfl
  | cons prog later ih =>
      refine (ih _ _).trans ?_
      simp [assign, modPd, modProg, note, thawings]

/-- The last sample of a program is taken in the counting epoch that is on, on its cpus. -/
theorem Act.lastStamps (act : Act a effect) (leaves : a.place p = .finished ∨ a.place p = .taken)
    (single : (a.core.progs p).cpuset = [(a.core.pds p).cpu]) {i e : Nat}
    (stamped : ((effect a.core).pds p).epoch i = some e) :
    (a.core.pds p).epoch i = some e ∨ e = a.core.sched.epoch ∧ a.core.inCpuset p i = true := by
  have away : ∀ q, a.place q = .sch → p ≠ q := by
    rintro q listed rfl
    rcases leaves with here | here <;> exact absurd (here.symm.trans listed) (by decide)
  cases act with
  | @sampleLast q taken read =>
      by_cases equal : p = q
      · subst equal
        simp only [Core.sampleLast, Core.sample, Core.copyStats, Core.modPd, Core.updateClock_pds,
          Function.update_self] at stamped
        split at stamped
        · next covers =>
            have covers : a.core.inCpuset p i = true := covers
            have monitored : a.core.cpus[i]? = some (a.core.pds p).cpu := by
              simpa [Core.inCpuset, single] using covers
            exact .inr ⟨(Option.some.inj stamped).symm.trans (read i monitored), covers⟩
        · exact .inl stamped
      · exact .inl
          (by simpa [Core.sampleLast, Core.sample, Core.copyStats, Core.modPd, equal] using stamped)
  | @halt q phase listed =>
      exact .inl (by simpa [Core.halt, Core.modProg, Core.modPd, away q listed] using stamped)
  | @sample q phase listed =>
      exact .inl (by simpa [Core.sample, Core.copyStats, Core.modPd, away q listed] using stamped)
  | @thaw q phase listed =>
      have differs := away q listed
      exact .inl
        (by
          simpa [Core.thaw, Core.modProg, Core.modPd, Core.note, Core.noteClocks, Core.zeroEpochs,
            differs] using stamped)
  | @charge q =>
      by_cases equal : p = q
      · subst equal
        exact .inl (by simpa [Core.charge] using stamped)
      · exact .inl (by simpa [Core.charge, equal] using stamped)
  | _ => exact .inl stamped

theorem Core.Sampled.nodup {batches : List (Int × Nat)} (sampled : core.Sampled prog batches)
    (distinct : core.cpus.Nodup) : batches.Nodup := by
  obtain ⟨ran, rfl⟩ := sampled
  refine List.nodup_range.filterMap fun i j batch first second => ?_
  simp only [Option.bind_eq_bind, Option.mem_def, Option.bind_eq_some_iff] at first second
  obtain ⟨cpu, here, epoch, -, found⟩ := first
  obtain ⟨cpu', there, epoch', -, found'⟩ := second
  split at found <;> split at found' <;> simp only [Option.some_inj, reduceCtorEq] at found found'
  obtain ⟨rfl, -⟩ := Prod.mk.inj (found.trans found'.symm)
  exact (List.getElem?_inj (List.getElem?_eq_some_iff.mp here).1 distinct).mp
    (here.trans there.symm)

end Frames

section Steps

/-- Of the first `MAX_CORES` positions only those of cpus were given out. -/
def WithinCpus (cpus : List Int) (log : List Event) : Prop :=
  ∀ prog rstart rend, .setCpuRange prog rstart rend ∈ log → rend ≤ maxCores → rend ≤ cpus.length

/-- The ranges that were given out, each with its program. -/
def givenRanges (log : List Event) : List (ProgPtr × Int × Int) :=
  log.filterMap fun event =>
    match event with
    | .setCpuRange prog rstart rend => some (prog, rstart, rend)
    | _ => none

theorem mem_givenRanges {log : List Event} {prog : ProgPtr} {rstart rend : Int} :
    (prog, rstart, rend) ∈ givenRanges log ↔ .setCpuRange prog rstart rend ∈ log := by
  rw [givenRanges, List.mem_filterMap]
  constructor
  · rintro ⟨event, noted, given⟩
    cases event with
    | setCpuRange =>
        obtain ⟨rfl, rfl, rfl⟩ := Option.some.inj given
        exact noted
    | _ => cases given
  · exact fun noted => ⟨_, noted, rfl⟩

theorem WithinCpus.earlier {log more : List Event} (within : WithinCpus cpus more)
    (grows : log <+: more) : WithinCpus cpus log :=
  fun prog rstart rend given => within prog rstart rend (grows.subset given)

/-- No two programs on `progs_sch` share a cpu. -/
theorem Life.Spread.cpuset_apart (spread : a.Spread cpus) (distinct : cpus.Nodup)
    (within : WithinCpus cpus a.core.log) {q : ProgPtr} (first : a.place p = .sch)
    (second : a.place q = .sch) {cpu : Int} (here : cpu ∈ (a.core.progs p).cpuset)
    (there : cpu ∈ (a.core.progs q).cpuset) : p = q := by
  obtain ⟨position, known, apart⟩ := spread.positions
  have monitored : ∀ r, a.place r = .sch → cpu ∈ (a.core.progs r).cpuset →
      a.core.cpus[position r]? = some cpu := by
    intro r listed member
    obtain ⟨below, cpuset, -, given⟩ := known r listed
    rw [cpuset, List.mem_singleton] at member
    have inside := within _ _ _ given (by omega)
    rw [member]
    apply Core.getElem?_cpus
    rw [spread.cpus]
    omega
  have here := monitored p first here
  refine apart p q first second ?_
  refine (List.getElem?_inj (List.getElem?_eq_some_iff.mp here).1 ?_).mp
    (here.trans (monitored q second there).symm)
  rw [spread.cpus]
  exact distinct

theorem Life.Spread.single_cpu (spread : a.Spread cpus) (listed : a.place p = .sch) :
    (a.core.progs p).cpuset = [(a.core.pds p).cpu] := by
  obtain ⟨position, known, -⟩ := spread.positions
  rw [(known p listed).2.1, (known p listed).2.2.1]

theorem Life.Metered.congr (metered : a.Metered p) (same : a.core.Uncharging b.core)
    (log : thawings b.core.log = thawings a.core.log) (progs : b.core.progs p = a.core.progs p)
    (pds : b.core.pds p = a.core.pds p) (cpus : b.core.cpus = a.core.cpus) : b.Metered p where
  thawed := by
    rw [log, progs, same.epoch]
    exact metered.thawed
  single := by
    rw [progs, pds]
    exact metered.single
  sampled := by
    unfold Core.inCpuset
    rw [progs, pds, same.epoch, cpus]
    exact metered.sampled

theorem Move.leaving (move : Move promptly a prog source target effect)
    (ends : target = .finished ∨ target = .taken) :
    (a.phase = .running ∧ source = .sch ∧ ∃ pid, effect = Core.recordEnd prog pid) ∨
      source = .finished ∧ effect = id := by
  cases move with
  | finish phase allowed found runs =>
      refine .inl ⟨phase, allowed.resolve_right ?_, _, rfl⟩
      rintro rfl
      rcases runs with killed | killed <;> exact absurd killed (by decide)
  | take => exact .inr ⟨rfl, rfl⟩
  | _ => rcases ends with there | there <;> exact absurd there (by decide)

theorem Life.Attributed.move (attributed : a.Attributed) (sound : a.Sound) (spread : a.Spread cpus)
    (here : a.place prog = source) (move : Move promptly a prog source target effect) :
    ((a.transfer prog target).act effect).Attributed := by
  have same := move.charges
  have log := move.thawings
  have stays : ∀ p, p ≠ prog → ((a.transfer prog target).act effect).place p = a.place p :=
    fun p differs => by
    simp [differs]
  constructor
  case still =>
    intro rests p
    have before := attributed.still rests
    by_cases equal : p = prog
    · subst equal
      cases move with
      | finish phase => exact absurd phase rests
      | take => exact absurd here (before p).1
      | _ => simp
    · rw [stays p equal]
      exact before p
  case thawed =>
    intro p e cpuset noted
    simp only [Life.act_core, Life.transfer_core, Life.act_phase, Life.transfer_phase] at noted ⊢
    rw [same.epoch]
    rcases attributed.thawed p e cpuset (log ▸ noted) with before | ⟨choosing, listed, now, own⟩
    · exact .inl before
    · by_cases equal : p = prog
      · subst equal
        have from_sch : source = .sch := here.symm.trans listed
        cases move with
        | gather phase | kill phase | finish phase =>
            exact absurd (choosing.symm.trans phase) (by decide)
        | _ => exact absurd from_sch (by decide)
      · exact .inr ⟨choosing, (stays p equal).trans listed, now, by
          rw [(move.other equal).1]; exact own⟩
  case apart =>
    rw [Life.act_core, Life.transfer_core, log]
    exact attributed.apart
  case runs =>
    intro awake p listed
    simp only [Life.act_core, Life.transfer_core, Life.act_phase, Life.transfer_phase] at awake ⊢
    by_cases equal : p = prog
    · subst equal
      exact absurd (move.chosen (by simpa using listed)) awake
    · rw [log, same.epoch, (move.other equal).1]
      exact attributed.runs awake p (stays p equal ▸ listed)
  case ended =>
    intro p leaves
    by_cases equal : p = prog
    · subst equal
      rcases move.leaving (by simpa using leaves) with ⟨running, rfl, pid, rfl⟩ | ⟨rfl, rfl⟩
      · refine ⟨?_, spread.single_cpu here, fun i e stamped => ?_⟩
        · rw [Life.act_core, Life.transfer_core, log]
          exact attributed.runs (by rw [running]; decide) p here
        · have none := sound.charged.zeroed p here (.inl running) i
          exact absurd (none.symm.trans stamped) (by simp)
      · exact (attributed.ended p (.inl here)).congr same log rfl rfl rfl
    · obtain ⟨progs, pds⟩ := move.other equal
      have cpus : (effect a.core).cpus = a.core.cpus := by cases move <;> rfl
      exact (attributed.ended p (stays p equal ▸ leaves)).congr same log progs pds cpus
  case charged =>
    rw [Life.act_core, Life.transfer_core, log, same.charges]
    exact attributed.charged
  case once =>
    rw [Life.act_core, Life.transfer_core, same.charges]
    exact attributed.once

/-- A program is thawed that shares its cpu with no other one. -/
theorem Life.Attributed.thaw (attributed : a.Attributed) (spread : a.Spread cpus)
    (distinct : cpus.Nodup) (within : WithinCpus cpus a.core.log) (choosing : a.phase = .choosing)
    (listed : a.place prog = .sch) (now : Word32) (act : Act a (Core.thaw prog now)) :
    (a.act (Core.thaw prog now)).Attributed := by
  have noted := a.core.thawings_thaw prog now
  have cpuset : ∀ p, ((Core.thaw prog now a.core).progs p).cpuset = (a.core.progs p).cpuset :=
    act.cores.progs
  have fresh : ∀ q others cpu, (q, a.core.sched.epoch + 1, others) ∈ thawings a.core.log →
      cpu ∈ (a.core.progs prog).cpuset → cpu ∈ others → q = prog := by
    intro q others cpu thawed here there
    rcases attributed.thawed q _ others thawed with before | ⟨-, also, -, rfl⟩
    · exact absurd before (Nat.not_succ_le_self _)
    · exact spread.cpuset_apart distinct within also listed there here
  have charges : a.core.Uncharging (Core.thaw prog now a.core) := by
    refine ⟨rfl, ?_⟩
    simp [Core.thaw, Core.modProg, Core.modPd, Core.note, Core.noteClocks, Core.zeroEpochs,
      BachScheduler.charges]
  constructor
  case still => exact attributed.still
  case thawed =>
    intro p e others member
    rcases List.mem_append.mp (noted ▸ member) with before | new
    · rcases attributed.thawed p e others before with old | ⟨-, also, next, own⟩
      · exact .inl old
      · exact .inr ⟨choosing, also, next, own.trans (cpuset p).symm⟩
    · cases List.mem_singleton.mp new
      exact .inr ⟨choosing, listed, rfl, (cpuset prog).symm⟩
  case apart =>
    intro p q e first second one two cpu here there
    rcases List.mem_append.mp (noted ▸ one) with old | new <;>
      rcases List.mem_append.mp (noted ▸ two) with old' | new'
    · exact attributed.apart p q e first second old old' cpu here there
    · cases List.mem_singleton.mp new'
      exact fresh p first cpu old there here
    · cases List.mem_singleton.mp new
      exact (fresh q second cpu old' here there).symm
    · cases List.mem_singleton.mp new
      cases List.mem_singleton.mp new'
      rfl
  case runs => exact fun awake => absurd choosing awake
  case ended =>
    intro p leaves
    have rests := attributed.still (by rw [choosing]; decide) p
    rcases leaves with here | here
    · exact absurd here rests.1
    · exact absurd here rests.2
  case charged =>
    intro charge member batch among
    obtain ⟨others, thawed, here⟩ := attributed.charged charge
      (charges.charges ▸ member) batch among
    exact ⟨others, noted ▸ List.mem_append_left _ thawed, here⟩
  case once =>
    rw [Life.act_core, charges.charges]
    exact attributed.once

/-- The cpus that are charged are those of the program in the counting epoch. -/
theorem Life.Attributed.metered (attributed : a.Attributed) (sound : a.Sound)
    (spread : a.Spread cpus)
    (listed : a.phase = .settling ∧ a.place prog = .sch ∨ a.place prog = .taken) :
    a.Metered prog := by
  rcases listed with ⟨settling, here⟩ | here
  · exact ⟨attributed.runs (by rw [settling]; decide) prog here, spread.single_cpu here,
      sound.charged.sampled settling prog here⟩
  · exact attributed.ended prog (.inr here)

/-- A program is charged for its cpus, which nobody was charged for in this counting epoch. -/
theorem Life.Attributed.charge (attributed : a.Attributed) (sound : a.Sound)
    (spread : a.Spread cpus) (distinct : cpus.Nodup) {batches : List (Int × Nat)}
    (act : Act a (Core.charge prog batches))
    (listed : a.phase = .settling ∧ a.place prog = .sch ∨ a.place prog = .taken)
    (sampled : a.core.Sampled prog batches) (uncharged : a.core.Uncharged prog) :
    (a.act (Core.charge prog batches)).Attributed := by
  have metered := attributed.metered sound spread listed
  have noted := a.core.charges_charge prog batches
  have own : ∀ batch ∈ batches, batch.2 = a.core.sched.epoch ∧
      batch.1 ∈ (a.core.progs prog).cpuset := by
    intro batch among
    obtain ⟨i, monitored, stamped⟩ := sampled.stamped batch among
    obtain ⟨now, covers⟩ := metered.sampled i batch.2 stamped
    obtain ⟨cpu, member, same⟩ := List.any_eq_true.mp covers
    have same : a.core.cpus[i]? = some cpu := of_decide_eq_true same
    obtain rfl : batch.1 = cpu := Option.some.inj (monitored.symm.trans same)
    exact ⟨now, member⟩
  have log : thawings (Core.charge prog batches a.core).log = thawings a.core.log := by
    simp [Core.charge, thawings]
  constructor
  case still => exact attributed.still
  case thawed =>
    rw [Life.act_core, log]
    exact attributed.thawed
  case apart =>
    rw [Life.act_core, log]
    exact attributed.apart
  case runs =>
    rw [Life.act_core, log]
    exact attributed.runs
  case ended =>
    intro p leaves
    have before := attributed.ended p leaves
    have cores := act.cores
    refine ⟨?_, (cores.progs p).trans (before.single.trans (congrArg (· :: []) (cores.pds p).symm)),
      fun i e stamped => ?_⟩
    · rw [Life.act_core, log]
      exact before.thawed
    · rcases act.lastStamps leaves before.single stamped with old | now
      · exact before.sampled i e old
      · exact now
  case charged =>
    rw [Life.act_core, log]
    intro charge member batch among
    rcases List.mem_append.mp (noted ▸ member) with before | new
    · exact attributed.charged charge before batch among
    · obtain rfl := List.mem_singleton.mp new
      obtain ⟨now, member⟩ := own batch among
      exact ⟨_, by rw [now]; exact metered.thawed, member⟩
  case once =>
    rw [Life.act_core, noted, List.flatMap_append, List.flatMap_singleton]
    refine List.nodup_append.mpr ⟨attributed.once, sampled.nodup (spread.cpus ▸ distinct), ?_⟩
    rintro batch before _ among rfl
    obtain ⟨charge, member, inside⟩ := List.mem_flatMap.mp before
    obtain ⟨others, thawed, there⟩ := attributed.charged charge member batch inside
    obtain ⟨now, here⟩ := own batch among
    rw [now] at thawed
    have same : charge.1 = prog := attributed.apart _ _ _ _ _ thawed metered.thawed
      batch.1 there here
    have earlier := uncharged charge.2 (same ▸ member) batch inside
    exact absurd now earlier.ne

theorem Life.Attributed.act (attributed : a.Attributed) (sound : a.Sound) (spread : a.Spread cpus)
    (distinct : cpus.Nodup) (within : WithinCpus cpus a.core.log) (act : Act a effect) :
    (a.act effect).Attributed := by
  rcases act.thawings with ⟨prog, now, rfl, choosing, listed⟩ | log
  · exact attributed.thaw spread distinct within choosing listed now act
  rcases act.charges with ⟨prog, batches, rfl, listed, sampled, uncharged⟩ | same
  · exact attributed.charge sound spread distinct act listed sampled uncharged
  have cores := act.cores
  constructor
  case still => exact attributed.still
  case thawed =>
    intro p e cpuset noted
    rw [Life.act_core, log] at noted
    rw [Life.act_core, same.epoch, cores.progs p]
    exact attributed.thawed p e cpuset noted
  case apart =>
    rw [Life.act_core, log]
    exact attributed.apart
  case runs =>
    intro awake p listed
    rw [Life.act_core, log, same.epoch, cores.progs p]
    exact attributed.runs awake p listed
  case ended =>
    intro p leaves
    have before := attributed.ended p leaves
    refine ⟨?_, (cores.progs p).trans (before.single.trans (congrArg (· :: []) (cores.pds p).symm)),
      fun i e stamped => ?_⟩
    · rw [Life.act_core, log, same.epoch, cores.progs p]
      exact before.thawed
    · rw [Life.act_core, same.epoch, act.inCpuset]
      rcases act.lastStamps leaves before.single stamped with old | now
      · exact before.sampled i e old
      · exact now
  case charged =>
    rw [Life.act_core, log, same.charges]
    exact attributed.charged
  case once =>
    rw [Life.act_core, same.charges]
    exact attributed.once

theorem Life.Attributed.phase (attributed : a.Attributed) (phase : Phase)
    (still : phase ≠ .running → ∀ p, a.place p ≠ .finished ∧ a.place p ≠ .taken)
    (early : a.phase = .choosing → phase = .choosing)
    (idle : a.phase ≠ .choosing ∨ ∀ p, a.place p ≠ .sch) :
    Life.Attributed { a with phase := phase } where
  still := still
  thawed p e cpuset noted := (attributed.thawed p e cpuset noted).imp id fun ⟨choosing, rest⟩ =>
    ⟨early choosing, rest⟩
  apart := attributed.apart
  runs _ p listed := by
    rcases idle with awake | none
    · exact attributed.runs awake p listed
    · exact absurd listed (none p)
  ended p leaves := ⟨(attributed.ended p leaves).thawed, (attributed.ended p leaves).single,
    (attributed.ended p leaves).sampled⟩
  charged := attributed.charged
  once := attributed.once

/-- The next counting epoch begins with the programs that were thawed for it. -/
theorem Life.Attributed.wake (attributed : a.Attributed) (choosing : a.phase = .choosing)
    (thawing : ∀ p, a.place p = .sch → a.Thawing p) :
    Life.Attributed { a with phase := .running, core := a.core.newEpoch } where
  still rests := absurd rfl rests
  thawed p e cpuset noted := by
    rcases attributed.thawed p e cpuset noted with before | ⟨-, -, now, -⟩
    · exact .inl (before.trans (Nat.le_succ _))
    · exact .inl now.le
  apart := attributed.apart
  runs _ p listed := mem_thawings.mpr (thawing p listed).2
  ended p leaves := by
    have rests := attributed.still (by rw [choosing]; decide) p
    rcases leaves with here | here
    · exact absurd here rests.1
    · exact absurd here rests.2
  charged := attributed.charged
  once := attributed.once

/-- Programs are chosen to run together. -/
theorem Life.Attributed.decide (attributed : a.Attributed) (choosing : a.phase = .choosing)
    (idle : ∀ p, a.place p ≠ .sch) {picked : List ProgPtr} (on : Lists) (need : ProgPtr → Int) :
    Life.Attributed
      { a with
        place := fun prog => if prog ∈ picked then .sch else a.place prog
        on := on
        core := a.core.assignAll need picked 0 } := by
  have same := Core.assignAll_uncharging a.core need picked 0
  have log := Core.assignAll_thawings a.core need picked 0
  have rests : ∀ p, (if p ∈ picked then Place.sch else a.place p) ≠ .finished ∧
      (if p ∈ picked then Place.sch else a.place p) ≠ .taken := by
    intro p
    split
    · exact ⟨by decide, by decide⟩
    · exact attributed.still (by rw [choosing]; decide) p
  constructor
  case still => exact fun _ => rests
  case thawed =>
    intro p e cpuset noted
    rw [same.epoch]
    rcases attributed.thawed p e cpuset (log ▸ noted) with before | ⟨-, listed, -⟩
    · exact .inl before
    · exact absurd listed (idle p)
  case apart =>
    rw [log]
    exact attributed.apart
  case runs => exact fun awake => absurd choosing awake
  case ended =>
    intro p leaves
    rcases leaves with here | here
    · exact absurd here (rests p).1
    · exact absurd here (rests p).2
  case charged =>
    rw [log, same.charges]
    exact attributed.charged
  case once =>
    rw [same.charges]
    exact attributed.once

/-- The slot of a program goes to its next instance. -/
theorem Life.Attributed.respawn (attributed : a.Attributed) (here : a.place prog = .reported)
    (unborn : a.place a.core.progsAllocated = .unborn) {born : ProgCore} : Life.Attributed
      { a with
        place := Function.update (Function.update a.place prog .spent)
          a.core.progsAllocated .waiting
        core := a.core.bear prog born } := by
  have same : a.core.Uncharging (a.core.bear prog born) := ⟨rfl, by simp [Core.bear, charges]⟩
  have log : thawings (a.core.bear prog born).log = thawings a.core.log := by
    simp [Core.bear, thawings]
  have earlier : ∀ p k, k ≠ .waiting → k ≠ .spent →
      Function.update (Function.update a.place prog .spent) a.core.progsAllocated .waiting p = k →
        a.place p = k ∧ (a.core.bear prog born).progs p = a.core.progs p := by
    intro p k waits spent there
    rw [Function.update_apply, Function.update_apply] at there
    split_ifs at there with new equal
    · exact absurd there.symm waits
    · exact absurd there.symm spent
    · exact ⟨there, Function.update_of_ne new _ _⟩
  constructor
  case still =>
    intro rests p
    have before := attributed.still rests p
    exact ⟨fun there => before.1 (earlier p .finished (by decide) (by decide) there).1,
      fun there => before.2 (earlier p .taken (by decide) (by decide) there).1⟩
  case thawed =>
    intro p e cpuset noted
    rcases attributed.thawed p e cpuset (log ▸ noted) with before | ⟨choosing, listed, now, own⟩
    · exact .inl before
    · have old : p ≠ a.core.progsAllocated := fun equal => by simp [equal, unborn] at listed
      have other : p ≠ prog := fun equal => by simp [equal, here] at listed
      have progs : (a.core.bear prog born).progs p = a.core.progs p := Function.update_of_ne old _ _
      refine .inr ⟨choosing, ?_, now, by rw [progs]; exact own⟩
      exact (Function.update_of_ne old _ _).trans ((Function.update_of_ne other _ _).trans listed)
  case apart =>
    rw [log]
    exact attributed.apart
  case runs =>
    intro awake p there
    obtain ⟨listed, progs⟩ := earlier p .sch (by decide) (by decide) there
    rw [log, same.epoch, progs]
    exact attributed.runs awake p listed
  case ended =>
    intro p leaves
    rcases leaves with there | there
    · obtain ⟨before, progs⟩ := earlier p .finished (by decide) (by decide) there
      exact (attributed.ended p (.inl before)).congr same log progs rfl rfl
    · obtain ⟨before, progs⟩ := earlier p .taken (by decide) (by decide) there
      exact (attributed.ended p (.inr before)).congr same log progs rfl rfl
  case charged =>
    rw [log, same.charges]
    exact attributed.charged
  case once =>
    rw [same.charges]
    exact attributed.once

theorem Life.Attributed.step (attributed : a.Attributed) (sound : a.Sound) (spread : a.Spread cpus)
    (distinct : cpus.Nodup) (within : WithinCpus cpus a.core.log) (step : Step promptly a b) :
    b.Attributed := by
  cases step with
  | move here move => exact attributed.move sound spread here move
  | act act => exact attributed.act sound spread distinct within act
  | freeze phase none =>
      exact attributed.phase .settling (fun _ => none)
        (fun choosing => absurd (phase.symm.trans choosing) (by decide))
        (.inl (by rw [phase]; decide))
  | choose phase idle =>
      exact attributed.phase .choosing (fun _ => attributed.still (by rw [phase]; decide))
        (fun _ => rfl)
        (.inl (by rw [phase]; decide))
  | wake phase thawing => exact attributed.wake phase thawing
  | abandon phase idle empty =>
      exact attributed.phase .running (fun rests => absurd rfl rests)
        (fun choosing => absurd (phase.symm.trans choosing) (by decide))
          (.inl (by rw [phase]; decide))
  | decide phase idle => exact attributed.decide phase (sound.unlisted idle) _ _
  | respawn here => exact attributed.respawn here ((sound.unborn _).mpr le_rfl)

theorem Life.Attributed.steps (attributed : a.Attributed) (sound : a.Sound) (spread : a.Spread cpus)
    (distinct : cpus.Nodup) (steps : Steps promptly a b) (within : WithinCpus cpus b.core.log) :
    b.Attributed := by
  induction steps with
  | refl => exact attributed
  | tail before step ih =>
      have earlier := within.earlier step.log_grows
      exact (ih earlier).step (sound.steps before) (spread.steps sound before) distinct earlier step

theorem Life.Boots.attributed (boots : a.Boots cpus confs targets) : a.Attributed := by
  have places : ∀ p, a.place p = .waiting ∨ a.place p = .unborn := fun p => by
    rw [boots.place, Place.atStart]
    split
    · exact .inl rfl
    · exact .inr rfl
  have unnoted : thawings a.core.log = [] ∧ charges a.core.log = [] := by
    constructor
    all_goals
      refine List.filterMap_eq_nil_iff.mpr fun event noted => ?_
      have early := boots.parsed.early event noted
      cases event with
      | charged | thawed => exact absurd early Bool.false_ne_true
      | _ => rfl
  constructor
  case still => exact fun rests => absurd boots.phase rests
  case thawed => exact fun _ _ _ noted => absurd noted (by simp [unnoted.1])
  case apart => exact fun _ _ _ _ _ noted => absurd noted (by simp [unnoted.1])
  case runs =>
    intro _ p here
    rcases places p with other | other <;> exact absurd (here.symm.trans other) (by decide)
  case ended =>
    intro p leaves
    rcases places p with other | other <;> rcases leaves with here | here <;>
      exact absurd (here.symm.trans other) (by decide)
  case charged => exact fun _ noted => absurd noted (by simp [unnoted.2])
  case once => simp [unnoted.2]

end Steps

section Runs

/-- An exit that is recorded in good time: its program runs in the quantum, or it was killed. -/
def ExecState.InTime (st : ExecState) (prog : ProgPtr) : Prop :=
  (st.pds prog).runStatus = .running ∨ (st.pds prog).killed = true

/-- The core shows where the counts of the cores went. -/
theorem Life.Boots.charges (boots : a.Boots cpus confs targets)
    (between : Between promptly name a st b) (single : ∀ conf ∈ confs, conf.coresNeeded = 1)
    (within : WithinCpus cpus st.log) (distinct : cpus.Nodup) :
    (∀ prog amount batches, .charged prog amount batches ∈ st.log →
      ∀ cpu epoch, (cpu, epoch) ∈ batches →
      ∃ cpuset, .thawed prog epoch cpuset ∈ st.log ∧ cpu ∈ cpuset ∧
        ∀ other others, .thawed other epoch others ∈ st.log → cpu ∈ others → other = prog) ∧
      ((BachScheduler.charges st.log).flatMap Prod.snd).Nodup := by
  obtain ⟨xs, shows_, -⟩ := between
  have tracks := shows_.tracks
  have log : st.log = b.core.log := congrArg Core.log tracks.core
  rw [log] at within ⊢
  have attributed := boots.attributed.steps boots.sound (boots.spread single) distinct
    tracks.steps within
  refine ⟨fun prog amount batches noted cpu epoch among => ?_, attributed.once⟩
  obtain ⟨cpuset, thawed, here⟩ := attributed.charged _ (mem_charges.mpr ⟨amount, noted⟩) _ among
  refine ⟨cpuset, mem_thawings.mp thawed, here, fun other others noted' there => ?_⟩
  exact attributed.apart other prog epoch others cpuset (mem_thawings.mpr noted') thawed
    cpu there here

/-- The exits of a run come in promptly when they are recorded in good time. -/
theorem RecordsOnly.promptly {inputs : List Input}
    (inTime : RecordsOnly ExecState.InTime name confs targets env cpus inputs) :
    Heard promptly name confs targets env cpus inputs := by
  refine inTime.heard fun mid a b boots between p expected allowed => ?_
  obtain ⟨xs, shows_, -⟩ := between
  have sound := shows_.tracks.sound
  have runStatus : (mid.pds p).runStatus = (b.core.pds p).runStatus :=
    congrArg (fun core => (core.pds p).runStatus) shows_.tracks.core
  have killed : (mid.pds p).killed = (b.core.pds p).killed :=
    congrArg (fun core => (core.pds p).killed) shows_.tracks.core
  rw [ExecState.InTime, runStatus, killed] at allowed
  cases here : b.place p with
  | sch => exact .inl rfl
  | killed => exact .inr rfl
  | all =>
      rw [sound.clocked.idle p here, sound.spared p (by rw [here]; rfl)] at allowed
      exact absurd allowed (by decide)
  | _ => exact absurd (here ▸ expected) (by decide)

/-- Where every program needs one core, the cpus are different ones, no position behind the last cpu
is given out (with `MAX_CORES` cpus none is) and the exits are recorded in good time: what a program
is charged for was counted on a cpu that it had in that counting epoch, and no other program, and
nothing is charged twice. -/
theorem counts_charged_once (name : PolicyName) (confs : List ProgConf) (targets : Int → Word64)
    (inputs : List Input) (env : Env) (cpus : List Int) (st : ExecState)
    (single : ∀ conf ∈ confs, conf.coresNeeded = 1) (distinct : cpus.Nodup)
    (enough : WithinCpus cpus st.log)
    (inTime : RecordsOnly ExecState.InTime name confs targets env cpus inputs)
    (reached : runExecutor name.policy confs targets inputs (ExecState.start env cpus) = .ok () st ∨
      ∃ status, runExecutor name.policy confs targets inputs (ExecState.start env cpus) =
        .error (.exit status) st) :
    (∀ prog amount batches, .charged prog amount batches ∈ st.log →
      ∀ cpu epoch, (cpu, epoch) ∈ batches →
      ∃ cpuset, .thawed prog epoch cpuset ∈ st.log ∧ cpu ∈ cpuset ∧
        ∀ other others, .thawed other epoch others ∈ st.log → cpu ∈ others → other = prog) ∧
      ((charges st.log).flatMap Prod.snd).Nodup := by
  rcases reached with run | ⟨status, run⟩
  · obtain ⟨a, b, boots, between⟩ := runExecutor_between inTime.promptly run
    exact boots.charges between single enough distinct
  · rcases runExecutor_ends inTime.promptly run with astray | ⟨a, boots, ends⟩
    · simp [Astray] at astray
    · cases ends with
      | astray astray => simp [Astray] at astray
      | done between => exact boots.charges between single enough distinct

/-- The exit of the program that runs is recorded, and it is charged for its cpu. -/
theorem counts_charged_once_running :
    ∃ st, runExecutor PolicyName.perf.policy [.single, .single] (fun _ => 2000000000)
        ([.events, .events, .events] ++ [.sigchld [.exited 0]])
        (ExecState.start .slow [0, 1]) = .ok () st ∧
      charges st.log = [(0, [(0, 2)])] ∧ ∃ cpuset, .thawed 0 2 cpuset ∈ st.log ∧ 0 ∈ cpuset := by
  obtain ⟨st, run, noted⟩ := exists_of_returnsWith (by decide +kernel :
    returnsWith (runExecutor PolicyName.perf.policy [.single, .single] (fun _ => 2000000000)
        ([.events, .events, .events] ++ [.sigchld [.exited 0]]))
      (ExecState.start .slow [0, 1])
      (fun st => charges st.log = [(0, [(0, 2)])] ∧ .charged 0 5 [(0, 2)] ∈ st.log ∧
        ∀ range ∈ givenRanges st.log, range.2.2 ≤ 2) = true)
  obtain ⟨mid, run', runs⟩ := exists_of_returnsWith (by decide +kernel :
    returnsWith (runExecutor PolicyName.perf.policy [.single, .single] (fun _ => 2000000000)
        [.events, .events, .events]) (ExecState.start .slow [0, 1])
      (fun mid => ∀ p ∈ hashLookup mid.progPidHash (mid.progs 0).shellPid,
        (mid.pds p).runStatus = .running) = true)
  obtain ⟨charges, charged, given⟩ := of_decide_eq_true noted
  have inTime : RecordsOnly ExecState.InTime .perf [.single, .single]
      (fun _ => 2000000000) .slow [0, 1]
      ([.events, .events, .events] ++ [.sigchld [.exited 0]]) :=
    RecordsOnly.lastExit (by simp) run' fun p found => .inl (of_decide_eq_true runs p found)
  have enough : WithinCpus [0, 1] st.log := fun prog rstart rend ranged _ =>
    given (prog, rstart, rend) (mem_givenRanges.mpr ranged)
  obtain ⟨own, -⟩ := counts_charged_once .perf _ _ _ _ _ st (by decide) (by decide) enough
    inTime (.inl run)
  obtain ⟨cpuset, thawed, here, -⟩ := own 0 5 [(0, 2)] charged 0 2 (by simp)
  exact ⟨st, run, charges, cpuset, thawed, here⟩

/-- The last of seven programs dies while it runs on cpu 5, and its exit comes in when cpu 5 counts
for another program: both are charged for the same instructions. -/
theorem counts_charged_twice :
    ∃ st, runExecutor PolicyName.perf.policy (List.replicate 7 .single) (fun _ => 2000000000)
        (List.replicate 10 .events ++ [.sigchld [.exited 3], .events])
        (ExecState.start .slow [0, 1, 2, 3, 4, 5]) = .ok () st ∧
      .thawed 1 10 [5] ∈ st.log ∧ .charged 3 5 [(5, 10)] ∈ st.log ∧
        .charged 1 5 [(5, 10)] ∈ st.log ∧
      (∀ cpuset, .thawed 3 10 cpuset ∉ st.log) ∧ ¬ ((charges st.log).flatMap Prod.snd).Nodup := by
  obtain ⟨st, run, wrong⟩ := exists_of_returnsWith (by decide +kernel :
    returnsWith (runExecutor PolicyName.perf.policy (List.replicate 7 .single) (fun _ => 2000000000)
        (List.replicate 10 .events ++ [.sigchld [.exited 3], .events]))
      (ExecState.start .slow [0, 1, 2, 3, 4, 5])
      (fun st => .thawed 1 10 [5] ∈ st.log ∧ .charged 3 5 [(5, 10)] ∈ st.log ∧
        .charged 1 5 [(5, 10)] ∈ st.log ∧
        (∀ thawing ∈ thawings st.log, thawing.1 = 3 → thawing.2.1 ≠ 10) ∧
        ¬ ((charges st.log).flatMap Prod.snd).Nodup) = true)
  obtain ⟨thawed, late, charged, never, twice⟩ := of_decide_eq_true wrong
  exact ⟨st, run, thawed, late, charged, fun cpuset noted =>
    never _ (mem_thawings.mpr noted) rfl rfl, twice⟩

end Runs

end BachScheduler
