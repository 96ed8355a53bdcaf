import BachScheduler.DecisionRanges
import BachScheduler.Intake
import BachScheduler.Tracking

/-!
# A quantum as steps in the life of the programs

`freeze_sched` puts the programs of `progs_sch` to rest, samples and settles them and moves
them back; the decision picks those that run next; `thaw_sched` lets them run.
-/

namespace BachScheduler

open BachScheduler.Ring Wp

variable {exits : ProgPtr → Place → Prop} {name : PolicyName} {start a : Life} {st : ExecState}
    {xs : List EvntPtr}
variable {prog : ProgPtr}

/-- The monitoring phase is on. -/
abbrev Core.Monitoring (core : Core) : Prop :=
  core.sched.monitorWnd ≤ core.sched.progsNr

namespace Tracks

theorem monitoringPhase_run (tracks : Tracks exits start st xs a) :
    monitoringPhase st = .ok (decide a.core.Monitoring) st := by
  rw [← tracks.core]
  change EStateM.Result.ok (!decide (st.sched.monitorWnd > st.sched.progsNr)) st = _
  congr 1
  simp only [← decide_not, not_lt, gt_iff_lt]
  rfl

theorem place_sch (tracks : Tracks exits start st xs a) (listed : prog ∈ a.on .progsSch) :
    a.place prog = .sch := by
  have home := (tracks.sound.listed.mem .progsSch (by simp [lifeHeads]) prog).mp listed
  revert home
  cases a.place prog <;> simp [Place.home]

theorem place_all (tracks : Tracks exits start st xs a) (listed : prog ∈ a.on .progsAll) :
    a.place prog = .all := by
  have home := (tracks.sound.listed.mem .progsAll (by simp [lifeHeads]) prog).mp listed
  revert home
  cases a.place prog <;> simp [Place.home]

end Tracks

/-- What a quantum of the monitoring phase does with a program. -/
inductive Trial where
  | run (prog : ProgPtr) (epoch : Nat)
  | sampled (prog : ProgPtr)
  deriving DecidableEq, Repr

/-- The programs that were thawed, and those that were sampled by the `collect` of the
policy, in the order in which this happened. -/
def trials (log : List Event) : List Trial :=
  log.filterMap fun
    | .thawed prog epoch _ => some (.run prog epoch)
    | .collected prog => some (.sampled prog)
    | _ => none

@[simp] theorem trials_append (log more : List Event) :
    trials (log ++ more) = trials log ++ trials more :=
  List.filterMap_append

/-- The monitoring has not gone on. -/
structure Life.Past (a b : Life) : Prop where
  trials : BachScheduler.trials b.core.log = BachScheduler.trials a.core.log
  window : b.core.sched.monitorWnd = a.core.sched.monitorWnd
  progsNr : b.core.sched.progsNr ≤ a.core.sched.progsNr
  epoch : b.core.sched.epoch = a.core.sched.epoch

namespace Life.Past

theorem refl (a : Life) : a.Past a := ⟨rfl, rfl, le_rfl, rfl⟩

theorem trans {b c : Life} (first : a.Past b) (second : b.Past c) : a.Past c where
  trials := second.trials.trans first.trials
  window := second.window.trans first.window
  progsNr := second.progsNr.trans first.progsNr
  epoch := second.epoch.trans first.epoch

theorem ordinary {b : Life} (past : a.Past b) (ordinary : ¬ a.core.Monitoring) :
    ¬ b.core.Monitoring := by
  have window := past.window
  have progsNr := past.progsNr
  unfold Core.Monitoring at ordinary ⊢
  omega

end Life.Past

section Freeze

/-- Nothing has changed but what a program is measured by and whether it runs. -/
structure Life.Halted (a b : Life) : Prop where
  place : b.place = a.place
  on : b.on = a.on
  phase : b.phase = a.phase
  cpus : b.core.cpus = a.core.cpus
  log : b.core.log = a.core.log
  sched : b.core.sched = a.core.sched

theorem Life.Halted.refl (a : Life) : a.Halted a := ⟨rfl, rfl, rfl, rfl, rfl, rfl⟩

theorem stopLoop_spec (tracks : Tracks exits start st xs a) (phase : a.phase = .settling)
    (runs : ∀ p ∈ a.on .progsSch, (a.core.pds p).runStatus = .running) :
    wp (cdsListForEachEntrySafe .progsSch () fun prog _ => do
        stopProg prog
        return .yield ())
      (fun _ st' => ∃ b, Tracks exits start st' xs b ∧ a.Halted b ∧
        ∀ p ∈ b.on .progsSch, b.Resting p) Astray st := by
  have member : Node.progsSch ∈ lifeHeads := by simp [lifeHeads]
  refine forEachEntrySafe_spec (fun ahead _ st => ∃ b before, Tracks exits start st xs b ∧
      a.Halted b ∧ b.on .progsSch = before ++ ahead ∧ (∀ p ∈ before, b.Resting p) ∧
      ∀ p ∈ ahead, (b.core.pds p).runStatus = .running)
    (tracks.ring member) (tracks.short member) ?_ ?_ ?_
    ⟨a, [], tracks, .refl a, rfl, by simp, runs⟩
  · intro ahead _ st inv
    obtain ⟨b, before, tracks, -, split, -⟩ := inv
    exact ⟨before, split ▸ tracks.ring member⟩
  · intro prog ahead _ st inv
    obtain ⟨b, before, tracks, halted, split, resting, runs⟩ := inv
    refine Wp.bind (stopProg_halts prog) fun _ st' stopped => Wp.pure ?_
    obtain ⟨now, stopped⟩ := stopped
    have listed : prog ∈ b.on .progsSch := by simp [split]
    have here := tracks.place_sch listed
    have later := tracks.act
      (.halt (halted.phase.trans phase) here (runs prog List.mem_cons_self) now) stopped
    have alone : prog ∉ ahead := by
      have nodup := tracks.sound.listed.nodup .progsSch member
      rw [split] at nodup
      exact (List.nodup_cons.mp (List.nodup_append.mp nodup).2.1).1
    refine ⟨_, before ++ [prog], later,
      ⟨halted.place, halted.on, halted.phase, halted.cpus, halted.log, halted.sched⟩,
      by simpa using split, fun p there => ?_, fun p there => ?_⟩
    · by_cases equal : p = prog
      · simp [Life.Resting, Core.halt, Core.modPd, Core.modProg, equal]
      · have rests := resting p (by simpa [equal] using there)
        simpa [Life.Resting, Core.halt, Core.modPd, Core.modProg, equal] using rests
    · have other : p ≠ prog := fun equal => alone (equal ▸ there)
      simpa [Core.halt, Core.modPd, Core.modProg, other] using runs p (List.mem_cons_of_mem _ there)
  · intro _ st inv
    obtain ⟨b, before, tracks, halted, split, resting, -⟩ := inv
    rw [List.append_nil] at split
    exact ⟨b, tracks, halted, split ▸ resting⟩

/-- No slot is in use once the programs left are counted down. -/
theorem Life.Sound.empty_iff (sound : a.Sound) : a.core.sched.progsLeft ≤ 0 ↔ a.Empty := by
  have counted := sound.counter .progsLeft
  have nonneg : ∀ k, 0 ≤ Counter.weight .progsLeft k := by
    intro k
    cases k <;> decide
  have live : ∀ k, Counter.weight .progsLeft k = 0 ↔ k.live = false := by
    intro k
    cases k <;> decide
  change a.core.sched.progsLeft = _ at counted
  have positive : 0 ≤ Census.tally (Counter.weight .progsLeft) a.core.progsAllocated a.place :=
    Census.tally_nonneg nonneg
  constructor
  · intro none p
    have zero : Census.tally (Counter.weight .progsLeft) a.core.progsAllocated a.place = 0 :=
      le_antisymm (counted ▸ none) positive
    by_cases inside : p < a.core.progsAllocated
    · exact (live _).mp ((Census.tally_eq_zero_iff nonneg).mp zero p inside)
    · rw [(sound.unborn p).mpr (Nat.not_lt.mp inside)]
      rfl
  · intro empty
    rw [counted, (Census.tally_eq_zero_iff nonneg).mpr fun p _ => (live _).mpr (empty p)]

/-- Nothing has changed but the log and what was printed. -/
structure Life.Closed (a b : Life) : Prop where
  place : b.place = a.place
  on : b.on = a.on
  phase : b.phase = a.phase
  progs : b.core.progs = a.core.progs
  pds : b.core.pds = a.core.pds
  cpus : b.core.cpus = a.core.cpus
  epoch : b.core.sched.epoch = a.core.sched.epoch
  prfEpoch : b.core.sched.prfEpoch = a.core.sched.prfEpoch
  charges : a.core.Uncharging b.core
  past : a.Past b

/-- What `kill_app` and `respawn` do at the end: everything is closed if no slot is in use. -/
theorem Tracks.close_spec (tracks : Tracks exits start st xs a)
    (open_ : Event.printTotals ∉ a.core.log) :
    wp (when (a.core.sched.progsLeft ≤ 0) closeResults)
      (fun _ st' => ∃ b, Tracks exits start st' xs b ∧
      a.Closed b) Astray st := by
  refine Wp.ite (fun none => ?_) fun left =>
    Wp.pure ⟨a, tracks, rfl, rfl, rfl, rfl, rfl, rfl, rfl, rfl, ⟨rfl, rfl⟩, .refl a⟩
  refine closeResults_acts.last fun _ st' closed => ?_
  have empty := tracks.sound.empty_iff.mp none
  have past : a.Past (a.act Core.close) :=
    ⟨by simp [Core.close, Core.print, Core.note, trials], rfl, le_rfl, rfl⟩
  have charges : a.core.Uncharging (Core.close a.core) :=
    ⟨rfl, by simp [Core.close, Core.print, Core.note, BachScheduler.charges]⟩
  exact ⟨_, tracks.act (.close empty open_) closed, rfl, rfl, rfl, rfl, rfl, rfl, rfl, rfl,
    charges, past⟩

/-- The counters of all cpus were read in the current counting epoch. -/
def Life.Read (a : Life) : Prop :=
  ∀ i < a.core.cpus.length, a.core.sched.prfEpoch i = a.core.sched.epoch

theorem Tracks.killApp_spec (tracks : Tracks exits start st xs a) (phase : a.phase = .settling)
    (here : a.place prog = .sch) (resting : a.Resting prog) :
    wp (killApp prog) (fun _ st' => ∃ b, Tracks exits start st' xs b ∧ b.phase = .settling ∧
      b.on = a.on.drop .progsSch prog ∧ (a.Read → b.Read) ∧ (∀ p, a.Resting p → b.Resting p) ∧
      a.core.Uncharging b.core ∧ a.Past b) Astray st := by
  refine BachScheduler.killApp_spec fun st' killed => ?_
  have uses : ¬ a.Empty := fun empty => by simpa [here, Place.live] using empty prog
  have move : Move exits a prog .sch .killed (Core.kill prog) := .kill phase resting
  have later := tracks.withdraw here move (by simp [lifeHeads]) rfl rfl (by decide) killed
  have open_ : Event.printTotals ∉ ((a.transfer prog .killed).act (Core.kill prog)).core.log :=
    fun printed => uses (tracks.sound.closed (move.printTotals.mp printed))
  rw [tracks.core]
  refine Wp.imp (later.close_spec open_) fun _ st'' closes => ?_
  obtain ⟨b, ended, closed⟩ := closes
  have kills : a.Past ((a.transfer prog .killed).act (Core.kill prog)) := by
    refine ⟨?_, rfl, ?_, rfl⟩
    · simp [Core.kill, Core.clear, Core.report, Core.modPd, trials]
    · simp [Core.kill, Core.clear, Core.report, Core.modPd]
  refine ⟨b, ended, closed.phase.trans phase, ?_, fun read => ?_, fun p rests => ?_,
    move.charges.trans closed.charges,
    kills.trans closed.past⟩
  · rw [closed.on]
    simp [Life.transfer, here, Place.home, Life.leave, Life.join]
  · unfold Life.Read at read ⊢
    rw [closed.cpus, closed.epoch, closed.prfEpoch]
    exact read
  · unfold Life.Resting at rests ⊢
    rw [closed.progs, closed.pds]
    refine ⟨rests.1, ?_⟩
    by_cases equal : p = prog
    · subst equal
      simpa [Core.kill, Core.clear, Core.report, Core.modPd] using rests.2
    · simpa [Core.kill, Core.clear, Core.report, Core.modPd, equal] using rests.2

theorem readTarget_run (prog : ProgPtr) (st : ExecState) :
    readTarget prog st = .ok (st.sched.targetInstr (st.pds prog).initId) st := rfl

theorem Life.Resting.act {effect : Core → Core} {p : ProgPtr} (rests : a.Resting p)
    (progs : ((effect a.core).progs p).freezer = (a.core.progs p).freezer)
    (pds : ((effect a.core).pds p).runStatus = (a.core.pds p).runStatus) :
    (a.act effect).Resting p :=
  ⟨progs.trans rests.1, pds.trans rests.2⟩

theorem Core.sample_runStatus (core : Core) (prog p : ProgPtr) (instrRetd : Word64)
    (accumulated : Nat → Word64) :
    ((core.sample prog instrRetd accumulated).pds p).runStatus = (core.pds p).runStatus := by
  by_cases equal : p = prog
  · subst equal
    simp [sample, copyStats, modPd]
  · simp [sample, copyStats, modPd, equal]

theorem Core.charge_runStatus (core : Core) (prog p : ProgPtr) (batches : List (Int × Nat)) :
    ((core.charge prog batches).pds p).runStatus = (core.pds p).runStatus := by
  by_cases equal : p = prog
  · subst equal
    simp [charge]
  · simp [charge, equal]

/-- The settling of the programs of a quantum, some of which may be killed. -/
structure Life.Settling (b : Life) (before ahead : List ProgPtr) : Prop where
  phase : b.phase = .settling
  split : b.on .progsSch = before ++ ahead
  read : b.Read
  resting : ∀ p ∈ b.on .progsSch, b.Resting p
  uncharged : ∀ p ∈ ahead, b.core.Uncharged p

/-- In the monitoring phase the programs of a quantum are sampled, and nothing else happens. -/
structure Life.Collected (a b : Life) (progs : List ProgPtr) : Prop where
  place : b.place = a.place
  on : b.on = a.on
  trials : trials b.core.log = trials a.core.log ++ progs.map Trial.sampled
  sched : b.core.sched = a.core.sched

theorem Tracks.chargeProg_spec {before ahead : List ProgPtr} (tracks : Tracks exits start st xs a)
    (settling : a.Settling before (prog :: ahead)) :
    wp (chargeProg prog) (fun _ st' => ∃ b before', Tracks exits start st' xs b ∧
      b.Settling before' ahead ∧
      a.Past b) Astray st := by
  have listed : prog ∈ a.on .progsSch := by simp [settling.split]
  have here := tracks.place_sch listed
  refine Wp.bind (addRetired_spec prog) fun _ st₀ added => ?_
  obtain ⟨batches, sampled, added⟩ := added
  refine (chargeTarget_acts prog).before fun _ st₁ charged => ?_
  have charged : view st₁ = (view st).modCore (Core.charge prog batches) := by
    rw [charged, added]
    exact congrArg (fun core => { view st with core := core }) (Core.chargeTarget_addRetired ..)
  have sampled : a.core.Sampled prog batches := tracks.core ▸ sampled
  have later := tracks.act (.charge (.inl ⟨settling.phase, here⟩) sampled
    (settling.uncharged prog List.mem_cons_self)) charged
  have nodup : (before ++ prog :: ahead).Nodup :=
    settling.split ▸ tracks.sound.listed.nodup .progsSch (by simp [lifeHeads])
  have alone := (List.nodup_cons.mp (List.nodup_append.mp nodup).2.1).1
  have uncharged : ∀ p ∈ ahead, (Core.charge prog batches a.core).Uncharged p := fun p there => by
    have differs : p ≠ prog := fun equal => alone (equal ▸ there)
    exact (settling.uncharged p (List.mem_cons_of_mem _ there)).charge differs batches
  have resting : ∀ p, a.Resting p → (a.act (Core.charge prog batches)).Resting p := fun p rests =>
    rests.act rfl (Core.charge_runStatus ..)
  have charges : a.Past (a.act (Core.charge prog batches)) :=
    ⟨by simp [Core.charge, trials], rfl, le_rfl, rfl⟩
  refine Wp.bind_ok (readTarget_run prog st₁) (Wp.ite (fun met => ?_) fun unmet => Wp.pure ?_)
  · refine Wp.imp
      (later.killApp_spec settling.phase here (resting prog (settling.resting prog listed)))
      fun _ st₂ killed => ?_
    obtain ⟨b, ended, phase, on, read, rests, same, past⟩ := killed
    have left : b.on .progsSch = before ++ ahead := by
      rw [on, Lists.drop, Function.update_self, Life.act_on, settling.split, erase_middle nodup]
    refine ⟨b, before, ended, ⟨phase, left, read settling.read, fun p there => ?_, fun p there =>
      same.uncharged (uncharged p there)⟩, charges.trans past⟩
    refine rests p (resting p (settling.resting p ?_))
    rw [settling.split]
    rw [left] at there
    exact (List.Sublist.append_left (List.sublist_cons_self prog ahead) before).subset there
  · exact ⟨_, before ++ [prog], later,
      ⟨settling.phase, by simpa using settling.split, settling.read,
      fun p there => resting p (settling.resting p there), uncharged⟩, charges⟩

theorem Tracks.settleProg_spec {before ahead : List ProgPtr} (tracks : Tracks exits start st xs a)
    (settling : a.Settling before (prog :: ahead)) (unhCycles : Word64) :
    wp (settleProg name.policy prog unhCycles)
      (fun step st' => ∃ unhCycles', step = .yield unhCycles' ∧
      ∃ b before', Tracks exits start st' xs b ∧ b.Settling before' ahead ∧
        (a.core.Monitoring → a.Collected b [prog]) ∧ (¬ a.core.Monitoring → a.Past b))
          Astray st := by
  have listed : prog ∈ a.on .progsSch := by simp [settling.split]
  have here := tracks.place_sch listed
  refine Wp.bind (sampleProg_samples prog) fun _ st₁ samples => ?_
  obtain ⟨instrRetd, accumulated, sampled⟩ := samples
  have tracks₁ := tracks.act (.sample settling.phase here settling.read instrRetd accumulated)
    sampled
  have settling₁ : (a.act (Core.sample prog instrRetd accumulated)).Settling before
      (prog :: ahead) :=
    ⟨settling.phase, settling.split, settling.read, fun p there =>
      (settling.resting p there).act rfl (Core.sample_runStatus ..), settling.uncharged⟩
  refine Wp.bind_ok (readPd_run prog st₁) ?_
  refine Wp.bind (R := fun _ st' => ∃ b before', Tracks exits start st' xs b ∧
    b.Settling before' ahead ∧
    (a.core.Monitoring → a.Collected b [prog]) ∧ (¬ a.core.Monitoring → a.Past b)) ?_
    fun _ st' settled => Wp.pure ⟨_, rfl, settled⟩
  refine Wp.bind_ok tracks₁.monitoringPhase_run (Wp.ite (fun monitoring => ?_) fun ordinary => ?_)
  · have monitoring : a.core.Monitoring := of_decide_eq_true monitoring
    refine (emit_acts _).before fun _ st₂ noted => ?_
    have tracks₂ := tracks₁.act (.collect settling.phase here monitoring) noted
    refine Wp.mono (collect_quiet prog st₂) (fun _ st₃ same => ?_) fun _ _ stopped => .inl stopped.1
    refine ⟨_, before ++ [prog], tracks₂.quiet same,
      ⟨settling.phase, by simpa using settling.split, settling.read, ?_, fun p there => ?_⟩,
      fun _ => ⟨rfl, rfl, trials_append _ _, rfl⟩, fun ordinary => absurd monitoring ordinary⟩
    · exact fun p there => (settling₁.resting p there).act rfl rfl
    · have same : a.core.Uncharging
          (Core.note (.collected prog) (Core.sample prog instrRetd accumulated a.core)) :=
        ⟨rfl, by simp [Core.note, Core.sample, Core.copyStats, Core.modPd, charges]⟩
      exact same.uncharged (settling.uncharged p (List.mem_cons_of_mem _ there))
  · refine Wp.imp (tracks₁.chargeProg_spec settling₁) fun _ st₂ charged => ?_
    obtain ⟨b, before', ended, settled, past⟩ := charged
    have sampled : a.Past (a.act (Core.sample prog instrRetd accumulated)) :=
      ⟨rfl, rfl, le_rfl, rfl⟩
    exact ⟨b, before', ended, settled, fun monitoring =>
      absurd (decide_eq_true monitoring) ordinary,
      fun _ => sampled.trans past⟩

theorem Life.Collected.trans {b c : Life} {first second : List ProgPtr}
    (collected : a.Collected b first) (later : b.Collected c second) :
    a.Collected c (first ++ second) where
  place := later.place.trans collected.place
  on := later.on.trans collected.on
  trials := by rw [later.trials, collected.trials, List.append_assoc, List.map_append]
  sched := later.sched.trans collected.sched

theorem Life.Collected.monitoring {b : Life} {progs : List ProgPtr}
    (collected : a.Collected b progs) (monitoring : a.core.Monitoring) : b.core.Monitoring := by
  unfold Core.Monitoring at monitoring ⊢
  rwa [collected.sched]

theorem Tracks.settleLoop_spec (tracks : Tracks exits start st xs a)
    (settling : a.Settling [] (a.on .progsSch)) :
    wp (cdsListForEachEntrySafe .progsSch 0 (settleProg name.policy))
      (fun _ st' => ∃ b before, Tracks exits start st' xs b ∧ b.Settling before [] ∧
        (a.core.Monitoring → a.Collected b (a.on .progsSch)) ∧ (a.on .progsSch = [] → b = a) ∧
        (¬ a.core.Monitoring → a.Past b)) Astray st := by
  have member : Node.progsSch ∈ lifeHeads := by simp [lifeHeads]
  refine forEachEntrySafe_spec (fun ahead _ st => ∃ b before, Tracks exits start st xs b ∧
      b.Settling before ahead ∧ ∃ done, a.on .progsSch = done ++ ahead ∧
        (a.core.Monitoring → a.Collected b done) ∧ (done = [] → b = a) ∧
          (¬ a.core.Monitoring → a.Past b))
    (tracks.ring member) (tracks.short member) ?_ ?_ ?_
    ⟨a, [], tracks, settling, [], rfl, fun _ => ⟨rfl, rfl, by simp, rfl⟩, fun _ => rfl, fun _ =>
      .refl a⟩
  · intro ahead _ st inv
    obtain ⟨b, before, tracks, settling, -⟩ := inv
    exact ⟨before, settling.split ▸ tracks.ring member⟩
  · intro prog ahead acc st inv
    obtain ⟨b, before, tracks, settling, done, all, collected, -, past⟩ := inv
    refine Wp.imp (tracks.settleProg_spec settling acc) fun step st' settled => ?_
    obtain ⟨acc', rfl, c, before', ended, settling', one, other⟩ := settled
    refine ⟨c, before', ended, settling', done ++ [prog], by simpa using all, fun monitoring => ?_,
      fun none => absurd none (by simp), fun ordinary =>
        (past ordinary).trans (other ((past ordinary).ordinary ordinary))⟩
    exact (collected monitoring).trans (one ((collected monitoring).monitoring monitoring))
  · intro _ st inv
    obtain ⟨b, before, tracks, settling, done, all, collected, same, past⟩ := inv
    rw [List.append_nil] at all
    exact ⟨b, before, tracks, settling, all ▸ collected, all ▸ same, past⟩

/-- Some programs of `progs_sch` were moved back to `progs_all`. -/
structure Life.Gathered (a b : Life) (before : List ProgPtr) : Prop where
  phase : b.phase = .settling
  all : b.on .progsAll = a.on .progsAll ++ before
  core : b.core = a.core

theorem gather_run (prog : ProgPtr) (st : ExecState) :
    (do
      elemMove2tail prog .progsAll
      return .yield () : Exec (ForInStep Unit)) st = .ok (.yield ()) (st.moved prog .progsAll) :=
        rfl

/-- `move_progs_to_all` after the programs were put to rest. -/
theorem Tracks.moveProgsToAll_spec (tracks : Tracks exits start st xs a)
    (phase : a.phase = .settling) (resting : ∀ p ∈ a.on .progsSch, a.Resting p) :
    wp moveProgsToAll (fun _ st' => ∃ b, Tracks exits start st' xs b ∧ b.on .progsSch = [] ∧
      a.Gathered b (a.on .progsSch) ∧ (a.on .progsSch = [] → b = a)) Astray st := by
  have member : Node.progsSch ∈ lifeHeads := by simp [lifeHeads]
  refine Wp.bind_ok (listEmpty_run _ st) (Wp.ite (fun several => ?_) fun none => Wp.pure ?_)
  · have several : a.on .progsSch ≠ [] := fun none => by
      rw [(tracks.empty_iff member).mpr none] at several
      exact absurd several (by simp)
    refine forEachEntrySafe_spec (fun ahead _ st => ∃ b before, Tracks exits start st xs b ∧
        b.on .progsSch = ahead ∧ a.on .progsSch = before ++ ahead ∧ a.Gathered b before)
      (tracks.ring member) (tracks.short member) ?_ ?_ ?_
      ⟨a, [], tracks, rfl, rfl, phase, by simp, rfl⟩
    · intro ahead _ st inv
      obtain ⟨b, before, tracks, left, -⟩ := inv
      exact ⟨[], by simpa [left] using tracks.ring member⟩
    · intro prog ahead _ st inv
      obtain ⟨b, before, tracks, left, split, gathered⟩ := inv
      refine (of_ok (gather_run prog st)).mpr ?_
      have here := tracks.place_sch (show prog ∈ b.on .progsSch by simp [left])
      have rests : b.Resting prog := by
        have rests := resting prog (by simp [split])
        unfold Life.Resting at rests ⊢
        rwa [gathered.core]
      have later := tracks.relocate here (.gather gathered.phase rests) member
        (by simp [lifeHeads]) rfl rfl
        (show view (st.moved prog .progsAll) = _ from rfl)
      refine ⟨_, before ++ [prog], later, ?_, by
        simpa using split, gathered.phase, ?_, gathered.core⟩
      · simp [Life.transfer, here, Place.home, Life.leave, Life.join, Lists.drop, Lists.push, left]
      · simp [Life.transfer, here, Place.home, Life.leave, Life.join, Lists.drop,
          Lists.push, gathered.all]
    · intro _ st inv
      obtain ⟨b, before, tracks, left, split, gathered⟩ := inv
      rw [List.append_nil] at split
      exact ⟨b, tracks, left, split ▸ gathered, fun none => absurd none several⟩
  · have none : a.on .progsSch = [] := (tracks.empty_iff member).mp (by simpa using none)
    exact ⟨a, tracks, none, ⟨phase, by simp [none], rfl⟩, fun _ => rfl⟩

theorem Tracks.progressLoop_spec (tracks : Tracks exits start st xs a) (unhCycles : Word64) :
    wp (cdsListForEachEntry .progsAll (progressProg name.policy unhCycles))
      (fun _ st' => ∃ events, Tracks exits start st' xs (a.act (Core.noteClocks events)))
      Astray st := by
  have member : Node.progsAll ∈ lifeHeads := by simp [lifeHeads]
  have same : a.act (Core.noteClocks []) = a := by simp [Life.act, Core.noteClocks]
  refine Wp.imp (forEachEntry_spec
    (fun before ahead st => ∃ events, Tracks exits start st xs (a.act (Core.noteClocks events)) ∧
      a.on .progsAll = before ++ ahead)
    (tracks.ring member) (tracks.short member) ?_ ?_ ⟨[], same.symm ▸ tracks, rfl⟩)
    fun _ _ ended => ended.imp fun _ both => both.1
  · intro before ahead st inv
    obtain ⟨events, tracks, split⟩ := inv
    exact split ▸ tracks.ring member
  · intro before prog ahead st inv
    obtain ⟨events, tracks, split⟩ := inv
    refine Wp.imp (progressProg_waits unhCycles prog) fun _ st' waits => ?_
    obtain ⟨now, waited⟩ := waits
    have more : (a.act (Core.noteClocks events)).act (Core.noteClocks [.waited prog now]) =
        a.act (Core.noteClocks (events ++ [.waited prog now])) := by
      simp [Life.act, Core.noteClocks]
    exact ⟨_, more ▸ tracks.act (.watch prog now) waited, by simpa using split⟩

/-- What `freeze_sched` leaves: all programs rest on `progs_all`.  In the monitoring phase
those that have run were sampled and follow the others. -/
structure Life.Frozen (name : PolicyName) (a b : Life) : Prop where
  phase : b.phase = .settling
  sch : b.on .progsSch = []
  idle : a.on .progsSch = [] → b.place = a.place ∧ b.on = a.on ∧ b.core.log = a.core.log
  all : a.core.Monitoring → b.on .progsAll = a.on .progsAll ++ a.on .progsSch
  trials : a.core.Monitoring → trials b.core.log = trials a.core.log ++
    (a.on .progsSch).map Trial.sampled
  sched : a.core.Monitoring → ∃ prfEpoch, b.core.sched =
    { a.core.sched with
      prfEpoch := prfEpoch
      monitorWnd :=
        if a.core.sched.monitorWnd = name.policy.windowFactor * a.core.sched.progsNr
          then a.core.sched.monitorWnd + 1 else a.core.sched.monitorWnd }
  ordinary : ¬ a.core.Monitoring →
    BachScheduler.trials b.core.log = BachScheduler.trials a.core.log ∧
    b.core.sched.monitorWnd =
      (if a.core.sched.monitorWnd = name.policy.windowFactor * b.core.sched.progsNr
        then a.core.sched.monitorWnd + 1 else a.core.sched.monitorWnd) ∧
    b.core.sched.progsNr ≤ a.core.sched.progsNr ∧ b.core.sched.epoch = a.core.sched.epoch

/-- The window only moves on. -/
theorem Life.Frozen.window {b : Life} (frozen : a.Frozen name b) :
    a.core.sched.monitorWnd ≤ b.core.sched.monitorWnd := by
  by_cases monitoring : a.core.Monitoring
  · obtain ⟨prfEpoch, sched⟩ := frozen.sched monitoring
    rw [sched]
    dsimp only
    split <;> omega
  · rw [(frozen.ordinary monitoring).2.1]
    split <;> omega

theorem Tracks.freezeSched_spec (tracks : Tracks exits start st xs a) (phase : a.phase = .running)
    (none : ∀ p, a.place p ≠ .finished ∧ a.place p ≠ .taken) :
    wp (freezeSched name.policy) (fun _ st' => ∃ b, Tracks exits start st' xs b ∧ a.Frozen name b)
      Astray st := by
  refine freezeCounters_acts.before fun _ st₁ reads => ?_
  have tracks₁ := (tracks.act (.readCounters _) reads).freeze phase none
  have runs : ∀ p ∈ a.on .progsSch, (a.core.pds p).runStatus = .running := fun p listed =>
    tracks.sound.clocked.awake phase p (tracks.place_sch listed)
  refine Wp.bind (stopLoop_spec tracks₁ rfl runs) fun _ st₂ stopped => ?_
  obtain ⟨b, tracks₂, halted, resting⟩ := stopped
  have read : b.Read := by
    unfold Life.Read
    rw [halted.sched, halted.cpus]
    intro i inside
    exact if_pos (decide_eq_true inside)
  have uncharged : ∀ p ∈ b.on .progsSch, b.core.Uncharged p := fun p listed => by
    have due := tracks.sound.charged.due phase p
      (by rw [tracks.place_sch (halted.on ▸ listed)]; rfl)
    have same : a.core.Uncharging b.core := by
      refine ⟨?_, congrArg charges halted.log⟩
      rw [halted.sched]
      rfl
    exact same.uncharged due
  refine Wp.bind (tracks₂.settleLoop_spec ⟨halted.phase, rfl, read, resting, uncharged⟩)
    fun unhCycles st₃ settled => ?_
  obtain ⟨c, before, tracks₃, settling, collected, stays, past⟩ := settled
  refine Wp.bind (tracks₃.moveProgsToAll_spec settling.phase settling.resting) fun _ st₄ gathers =>
    ?_
  obtain ⟨d, tracks₄, sch, gathered, stays'⟩ := gathers
  refine writeResults_quiet.before fun _ st₅ same => ?_
  refine Wp.bind ((tracks₄.quiet same).progressLoop_spec unhCycles) fun _ st₆ watched => ?_
  obtain ⟨events, tracks₆⟩ := watched
  refine Wp.bind_ok (readSched_run st₆) ?_
  have window : st₆.sched.monitorWnd = d.core.sched.monitorWnd :=
    congrArg (fun core => core.sched.monitorWnd) tracks₆.core
  have progsNr : st₆.sched.progsNr = d.core.sched.progsNr :=
    congrArg (fun core => core.sched.progsNr) tracks₆.core
  have monitored : a.core.Monitoring → d.on .progsAll = a.on .progsAll ++ a.on .progsSch ∧
      trials d.core.log = trials a.core.log ++ (a.on .progsSch).map Trial.sampled ∧
      ∃ prfEpoch, d.core.sched = { a.core.sched with prfEpoch := prfEpoch } := by
    intro monitoring
    have monitors : b.core.Monitoring := by
      unfold Core.Monitoring
      rw [halted.sched]
      exact monitoring
    have collected := collected monitors
    refine ⟨?_, ?_, ?_⟩
    · rw [gathered.all, collected.on, halted.on]
      rfl
    · rw [gathered.core, collected.trials, halted.log, halted.on]
      rfl
    · rw [gathered.core, collected.sched, halted.sched]
      exact ⟨_, rfl⟩
  have ordinary : ¬ a.core.Monitoring → a.Past d := by
    intro ordinary
    have halts : a.Past b := by
      refine ⟨congrArg trials halted.log, ?_, ?_, ?_⟩
      · rw [halted.sched]
        rfl
      · rw [halted.sched]
        exact le_rfl
      · rw [halted.sched]
        rfl
    have settles := past (halts.ordinary ordinary)
    have gathers : c.Past d := by
      refine ⟨?_, ?_, ?_, ?_⟩ <;> rw [gathered.core]
    exact (halts.trans settles).trans gathers
  have idle : a.on .progsSch = [] → d.place = a.place ∧ d.on = a.on ∧ d.core.log = a.core.log := by
    intro none
    have same : c = b := stays (by rw [halted.on]; exact none)
    have same' : d = c := stays' (by rw [same, halted.on]; exact none)
    rw [same', same, halted.place, halted.on, halted.log]
    exact ⟨rfl, rfl, rfl⟩
  rw [window, progsNr]
  refine Wp.ite (fun reached => ?_) fun open_ => Wp.pure ?_
  · refine Acts.last (modifySched_acts
      (g := fun sched => { sched with monitorWnd := sched.monitorWnd + 1 }) fun _ => rfl)
      fun _ st₇ bumped => ⟨_, tracks₆.act .bump bumped, ?_⟩
    refine ⟨gathered.phase, sch, idle, fun monitoring => (monitored monitoring).1,
      fun monitoring => (monitored monitoring).2.1, fun monitoring => ?_, fun other => ?_⟩
    · obtain ⟨-, -, prfEpoch, sched⟩ := monitored monitoring
      rw [sched] at reached
      refine ⟨prfEpoch, ?_⟩
      rw [if_pos reached, Life.act_core, Life.act_core, Core.bump, Core.modSched,
        Core.noteClocks, sched]
    · have past := ordinary other
      rw [past.window] at reached
      refine ⟨past.trials, ?_, past.progsNr, past.epoch⟩
      exact (congrArg (· + 1) past.window).trans (if_pos reached).symm
  · refine ⟨_, tracks₆, gathered.phase, sch, idle, fun monitoring => (monitored monitoring).1,
      fun monitoring => (monitored monitoring).2.1, fun monitoring => ?_, fun other => ?_⟩
    · obtain ⟨-, -, prfEpoch, sched⟩ := monitored monitoring
      rw [sched] at open_
      refine ⟨prfEpoch, ?_⟩
      rw [if_neg open_, Life.act_core, Core.noteClocks, sched]
    · have past := ordinary other
      rw [past.window] at open_
      exact ⟨past.trials, past.window.trans (if_neg open_).symm, past.progsNr, past.epoch⟩

end Freeze

section Decisions

/-- The decision that a state starts from. -/
def Life.decision (a : Life) (st : ExecState) (idle : List ProgPtr)
    (enough : a.core.progsAllocated ≤ st.progsAllocated) : Decision where
  others := [.pnewL, .pfinishedL]
  bound := a.core.progsAllocated
  on := a.on
  idle := idle
  origin := view st
  traits := fun prog => (st.pds prog).traits
  noRest := by simp
  noTemp := by simp
  enough := enough

/-- All programs rest on `progs_all` before a decision. -/
theorem Life.decision_at (models : Models (view st) xs a) (idle : a.on .progsSch = []) :
    ∃ resting enough, (∀ p, a.place p = .killed → p ∈ resting) ∧
      (a.decision st resting enough).At [] (a.on .progsAll) st := by
  obtain ⟨resting, rings, killed⟩ := models.rings
  have enough : a.core.progsAllocated ≤ st.progsAllocated :=
    (congrArg Core.progsAllocated models.core).ge
  refine ⟨resting, enough, killed, ?_, rfl, fun _ => rfl⟩
  refine rings.restrict (List.Subset.refl _) fun head member => ?_
  cases head <;> simp_all [Decision.lists, Life.decision]

variable {picked rest : List ProgPtr} {resting : List ProgPtr}
variable {enough : a.core.progsAllocated ≤ st.progsAllocated} {st' : ExecState}

/-- The lists after a decision. -/
theorem Life.decision_lists (head : Node) :
    Function.update (Function.update a.on .progsAll rest) .progsSch picked head =
      (a.decision st resting enough).lists picked rest head := by
  cases head <;> simp [Decision.lists, Life.decision]

theorem Tracks.decided (tracks : Tracks exits start st xs a) (phase : a.phase = .choosing)
    (idle : a.on .progsSch = [])
    (ordinary : ¬ a.core.Monitoring) (killed : ∀ p, a.place p = .killed → p ∈ resting)
    (chosen : (a.decision st resting enough).Chosen name.full (a.on .progsAll) picked rest st') :
    Tracks exits start st' xs
      { a with
        place := fun prog => if prog ∈ picked then .sch else a.place prog
        on := Function.update (Function.update a.on .progsAll rest) .progsSch picked
        core := a.core.assignAll (fun p => (a.core.progs p).coresNeeded) picked 0 } where
  steps := by
    refine tracks.steps.tail (.decide phase idle chosen.perm ?_ (not_le.mp ordinary))
    intro before prog after split full
    refine chosen.guarded before prog after split ?_
    have sum : (a.decision st resting enough).cores before = maxCores := by
      rw [← full, ← tracks.core]
      rfl
    rw [sum]
    exact name.full_max
  sound := tracks.sound.decide phase idle chosen.perm _
  models := by
    have core := chosen.here.core
    have viewed := chosen.here.viewed
    constructor
    case core =>
      rw [← tracks.core]
      exact core
    case rings =>
      refine ⟨resting, ?_, fun p there => killed p ?_⟩
      · rw [Core.assignAll_progsAllocated]
        exact chosen.here.rings.restrict (List.Subset.refl _) fun head _ => Life.decision_lists head
      · by_cases member : p ∈ picked
        · simp [member] at there
        · simpa [member] using there
    case queue =>
      have queue : Queue (view st') xs a.place := by
        rw [viewed]
        exact tracks.models.queue.view rfl rfl rfl
      refine queue.congr fun p => ?_
      by_cases member : p ∈ picked
      · have here := tracks.place_all (chosen.perm.subset (List.mem_append_left _ member))
        simp [member, here]
      · simp [member]

/-- What a decision leaves.  In the monitoring phase the first program runs alone. -/
structure Life.Scheduled (a b : Life) : Prop where
  phase : b.phase = .choosing
  waits : ∀ p, b.place p = .sch → (b.core.pds p).runStatus = .stoped
  trials : trials b.core.log = trials a.core.log
  monitored : a.core.Monitoring → ∃ first later, a.on .progsAll = first :: later ∧
    b.on .progsAll = later ∧ b.on .progsSch = [first] ∧
    b.core.sched = { a.core.sched with monitorWnd := a.core.sched.monitorWnd + 1 }
  ordinary : ¬ a.core.Monitoring → b.core.sched = a.core.sched

theorem Tracks.monitor_spec (tracks : Tracks exits start st xs a) (phase : a.phase = .choosing)
    (idle : a.on .progsSch = []) (monitoring : a.core.Monitoring) :
    wp monitor (fun _ st' => ∃ b, Tracks exits start st' xs b ∧ a.Scheduled b ∧
      st'.intake = st.intake)
      Astray st := by
  obtain ⟨resting, enough, killed, here⟩ := Life.decision_at tracks.models idle
  cases all : a.on .progsAll with
  | nil =>
      rw [all] at here
      exact (of_error (monitor_empty here)).mpr (.inr (.inl rfl))
  | cons first later =>
      rw [all] at here
      refine Wp.imp (BachScheduler.monitor_spec here) fun _ st' picked => ?_
      obtain ⟨rings, same⟩ := picked
      have atAll := tracks.place_all (show first ∈ a.on .progsAll by simp [all])
      have move : Move exits a first .all .sch fun core =>
          (core.assign first (core.sched.monitorWnd.tmod maxCores)).bump :=
        .monitor phase idle (by simp [all]) monitoring
      have on : ∀ head, (a.transfer first .sch).on head =
          (a.decision st resting enough).lists [first] later head := by
        intro head
        cases head <;> simp [Life.transfer, atAll, Place.home, Life.leave, Life.join,
          Lists.drop, Lists.push, Decision.lists, Life.decision, all, idle]
      refine ⟨(a.transfer first .sch).act _, ⟨tracks.steps.tail (.move atAll move),
        tracks.sound.move atAll move, ?_⟩, ⟨phase, fun p there => ?_, ?_, fun _ => ?_,
        fun ordinary => absurd monitoring ordinary⟩, (congrArg View.intake same).trans rfl⟩
      · rw [same]
        refine ⟨?_, ⟨resting, ?_, fun p there => killed p ?_⟩, ?_⟩
        · exact congrArg (fun core : Core =>
            (core.assign first (core.sched.monitorWnd.tmod maxCores)).bump) tracks.core
        · rw [Life.act_core, Life.transfer_core, move.keeps.progsAllocated]
          exact rings.restrict (List.Subset.refl _) fun head _ => on head
        · by_cases equal : p = first
          · simp [equal] at there
          · simpa [equal] using there
        · exact (tracks.models.queue.update (by simp [atAll]) (by decide)).view rfl rfl rfl
      · have equal : p = first := by
          by_contra other
          exact tracks.sound.unlisted idle p (by simpa [other] using there)
        subst equal
        exact (move.unclocked fun _ => by decide).runStatus.trans
          (tracks.sound.clocked.idle p atAll)
      · simp [Core.bump, Core.modSched, Core.assign, Core.modPd, Core.modProg, Core.note,
          BachScheduler.trials]
      · exact ⟨first, later, all, on .progsAll, on .progsSch, rfl⟩

theorem Core.assignAll_qt (core : Core) (need : ProgPtr → Int) (progs : List ProgPtr)
    (rstart : Int) : (core.assignAll need progs rstart).qt = core.qt := by
  induction progs generalizing core rstart with
  | nil => rfl
  | cons prog later ih => exact ih _ _

theorem Core.assignAll_trials (core : Core) (need : ProgPtr → Int) (progs : List ProgPtr)
    (rstart : Int) : trials (core.assignAll need progs rstart).log = trials core.log := by
  induction progs generalizing core rstart with
  | nil => rfl
  | cons prog later ih =>
      rw [assignAll, ih]
      simp [assign, modPd, modProg, note, trials]

/-- A decision leaves the event heap and who arrives. -/
theorem Decision.Has.intake {d : Decision} {among : List Node} {on : Lists}
    {assigned : List ProgPtr} (has : d.Has among on assigned st) : st.intake = d.origin.intake := by
  have keeps := Core.assignAll_keeps d.origin.core d.need assigned 0
  have steady := Core.assignAll_steady d.origin.core d.need assigned 0
  have waitingNr : (d.origin.core.assignAll d.need assigned 0).waitingNr =
      d.origin.core.waitingNr :=
    steady.counter .waitingNr
  have newNr : (d.origin.core.assignAll d.need assigned 0).newNr = d.origin.core.newNr :=
    steady.counter .newNr
  rw [ExecState.intake, has.viewed]
  simp only [View.intake, keeps.progsAllocated, Core.assignAll_qt, waitingNr, newNr]

theorem Tracks.schedule_spec (tracks : Tracks exits start st xs a) (phase : a.phase = .choosing)
    (idle : a.on .progsSch = []) :
    wp name.policy.schedule (fun _ st' => ∃ b, Tracks exits start st' xs b ∧ a.Scheduled b ∧
      st'.intake = st.intake) Astray st := by
  by_cases monitoring : a.core.Monitoring
  · have window : st.sched.monitorWnd ≤ st.sched.progsNr := by
      have same := tracks.core
      unfold Core.Monitoring at monitoring
      rwa [← same] at monitoring
    have spec := tracks.monitor_spec phase idle monitoring
    unfold wp at spec ⊢
    rwa [schedule_monitors name window]
  · obtain ⟨resting, enough, killed, here⟩ := Life.decision_at tracks.models idle
    have ordinary : (a.decision st resting enough).Ordinary := by
      have less := not_le.mp monitoring
      rw [← tracks.core] at less
      exact less
    refine Wp.mono (BachScheduler.schedule_spec name here ordinary) (fun _ st' done => ?_)
      fun _ _ stopped =>
      .inr (.inl stopped.2.1)
    obtain ⟨picked, rest, chosen, -⟩ := done
    refine ⟨_, tracks.decided phase idle monitoring killed chosen, ⟨phase, fun p there => ?_,
      Core.assignAll_trials .., fun monitors => absurd monitors monitoring, fun _ =>
        Core.assignAll_sched ..⟩,
      chosen.here.intake⟩
    have listed : p ∈ picked := by
      by_contra outside
      exact tracks.sound.unlisted idle p (by simpa [outside] using there)
    have here := tracks.place_all (chosen.perm.subset (List.mem_append_left _ listed))
    exact (Core.assignAll_unclocked ..).runStatus.trans (tracks.sound.clocked.idle p here)

end Decisions

section Thaw

/-- What `thaw_sched` leaves: the programs of `progs_sch` run. -/
structure Life.Thawed (a b : Life) : Prop where
  phase : b.phase = .running
  on : b.on = a.on
  trials : trials b.core.log =
    trials a.core.log ++ (a.on .progsSch).map (Trial.run · (a.core.sched.epoch + 1))
  sched : b.core.sched = { a.core.sched with epoch := a.core.sched.epoch + 1 }

/-- Some programs of `progs_sch` were thawed. -/
structure Life.Thaws (a b : Life) (before : List ProgPtr) : Prop where
  phase : b.phase = .choosing
  on : b.on = a.on
  trials : BachScheduler.trials b.core.log =
    BachScheduler.trials a.core.log ++ before.map (Trial.run · (a.core.sched.epoch + 1))
  sched : b.core.sched = a.core.sched
  thawing : ∀ p ∈ before, b.Thawing p

theorem Life.Thaws.thaw {before : List ProgPtr} {b : Life} (thaws : a.Thaws b before)
    (now : Word32) : a.Thaws (b.act (Core.thaw prog now)) (before ++ [prog]) where
  phase := thaws.phase
  on := thaws.on
  trials := by
    simp only [Life.act_core, Core.thaw, Core.zeroEpochs, Core.modPd, Core.modProg, Core.note,
      Core.noteClocks, Core.updateClock_log, trials_append, thaws.trials, thaws.sched,
        List.map_append, List.append_assoc]
    rfl
  sched := thaws.sched
  thawing := by
    intro p there
    by_cases equal : p = prog
    · subst equal
      simp [Life.Thawing, Life.Running, Core.thaw, Core.zeroEpochs, Core.modPd,
        Core.modProg, Core.note, Core.noteClocks]
    · obtain ⟨runs, noted⟩ := thaws.thawing p (by simpa [equal] using there)
      refine ⟨?_, ?_⟩
      · simpa [Life.Running, Core.thaw, Core.zeroEpochs, Core.modPd, Core.modProg, Core.note,
          Core.noteClocks, equal]
          using runs
      · have cpuset : ((b.act (Core.thaw prog now)).core.progs p).cpuset =
            (b.core.progs p).cpuset := by
          simp [Core.thaw, Core.zeroEpochs, Core.modPd, Core.modProg, Core.note,
            Core.noteClocks, equal]
        rw [cpuset]
        exact List.mem_append_left _ noted

theorem Tracks.thawSched_spec (tracks : Tracks exits start st xs a) (phase : a.phase = .choosing)
    (waits : ∀ p, a.place p = .sch → (a.core.pds p).runStatus = .stoped) :
    wp thawSched (fun _ st' => ∃ b, Tracks exits start st' xs b ∧ a.Thawed b) Astray st := by
  have member : Node.progsSch ∈ lifeHeads := by simp [lifeHeads]
  have loop : wp (cdsListForEachEntry .progsSch thawProg)
      (fun _ st' => ∃ b, Tracks exits start st' xs b ∧
      a.Thaws b (a.on .progsSch)) Astray st := by
    refine Wp.imp (forEachEntry_spec (fun before ahead st => ∃ b, Tracks exits start st xs b ∧
        a.Thaws b before ∧ b.on .progsSch = before ++ ahead ∧
        ∀ p ∈ ahead, (b.core.pds p).runStatus = .stoped)
      (tracks.ring member) (tracks.short member) ?_ ?_
      ⟨a, tracks, ⟨phase, rfl, by simp, rfl, by simp⟩, rfl, fun p listed =>
        waits p (tracks.place_sch listed)⟩) ?_
    · intro before ahead st inv
      obtain ⟨b, tracks, -, split, -⟩ := inv
      exact split ▸ tracks.ring member
    · intro before prog ahead st inv
      obtain ⟨b, tracks, thaws, split, waits⟩ := inv
      refine Wp.imp (thawProg_thaws prog) fun _ st' thawed => ?_
      obtain ⟨now, thawed⟩ := thawed
      have here := tracks.place_sch (show prog ∈ b.on .progsSch by simp [split])
      refine ⟨_, tracks.act (.thaw thaws.phase here (waits prog List.mem_cons_self) now) thawed,
        thaws.thaw now,
        by simpa using split, fun p there => ?_⟩
      have nodup := tracks.sound.listed.nodup .progsSch member
      rw [split] at nodup
      have alone := (List.nodup_cons.mp (List.nodup_append.mp nodup).2.1).1
      have other : p ≠ prog := fun equal => alone (equal ▸ there)
      simpa [Core.thaw, Core.zeroEpochs, Core.modPd, Core.modProg, Core.note,
        Core.noteClocks, other]
        using waits p (List.mem_cons_of_mem _ there)
    · intro _ st' ended
      obtain ⟨b, tracks, thaws, -⟩ := ended
      exact ⟨b, tracks, thaws⟩
  refine Wp.bind loop fun _ st₁ thawed => restartCounters_acts.last fun _ st₂ restarted => ?_
  obtain ⟨b, tracks₁, thaws⟩ := thawed
  refine ⟨_, tracks₁.wake thaws.phase (fun p there => thaws.thawing p ?_) restarted, rfl, thaws.on,
    thaws.trials, ?_⟩
  · rw [← thaws.on]
    exact tracks₁.listed member (by rw [there]; rfl)
  · rw [← thaws.sched]
    rfl

theorem Tracks.rearm_spec (tracks : Tracks exits start st xs a) (outside : 0 ∉ xs) (now : Timeval) :
    wp (rearm now) (fun _ st' => ∃ ys, ys.Perm (0 :: xs) ∧ Tracks exits start st' ys a ∧
      st'.core = st.core ∧
      st'.events = Function.update st.events 0 { st.events 0 with tv := timeradd st.qt now })
        Astray st := by
  have queue := tracks.models.queue
  refine BachScheduler.rearm_spec queue.valid outside fun events heap ys same valid perm => ?_
  refine ⟨ys, perm, ⟨tracks.steps, tracks.sound, tracks.models.core, tracks.models.rings, ?_⟩, rfl,
    same⟩
  refine queue.requeue outside (fun evnt differs => ?_) ?_ rfl valid perm
  · exact (congrFun same evnt).trans (Function.update_of_ne differs _ _)
  · change (events 0).type = _
    rw [same, Function.update_self]
    exact queue.quantum

/-- What one quantum does. -/
def Life.Quantum (name : PolicyName) (a b : Life) : Prop :=
  Steps unheard (a.act Core.tick) b ∧ ∃ frozen scheduled,
    (a.act Core.tick).Frozen name frozen ∧ frozen.Scheduled scheduled ∧ scheduled.Thawed b

theorem Tracks.retimed {b : Life} {st₅ st₆ : ExecState} {ys : List EvntPtr} {now : Timeval}
    (tracks : Tracks exits start st xs a) (tracks₆ : Tracks unheard (a.act Core.tick) st₆ ys b)
    (kept : st₅.intake = st.intake) (core : st₆.core = st₅.core)
    (events : st₆.events = Function.update st₅.events 0
      { st₅.events 0 with tv := timeradd st₅.qt now })
    (perm : ys.Perm (0 :: xs)) : Retimed now st xs st₆ where
  events := by
    have events₅ : st₅.events = st.events := congrArg Intake.events kept
    have qt₅ : st₅.qt = st.qt := congrArg Intake.qt kept
    rw [events, events₅, qt₅]
  queued := ⟨ys, tracks₆.models.queue.valid, perm⟩
  qt := (congrArg Core.qt core).trans (congrArg Intake.qt kept)
  waitingNr := (congrArg Core.waitingNr core).trans (congrArg Intake.waitingNr kept)
  newNr := (congrArg Core.newNr core).trans (congrArg Intake.newNr kept)
  ring := by
    intro nodes ring
    have numbers : b.core = st₅.core := tracks₆.core.symm.trans core
    have first := tracks.core
    have pnewL : b.on .pnewL = a.on .pnewL := by
      refine tracks₆.steps.awaits ?_ ?_ ?_
      · rw [numbers, Life.act_core, ← first]
        exact congrArg Intake.progsAllocated kept
      · rw [numbers, Life.act_core, ← first]
        exact congrArg Intake.waitingNr kept
      · rw [numbers, Life.act_core, ← first]
        exact congrArg Intake.newNr kept
    have member : Node.pnewL ∈ lifeHeads := by simp [lifeHeads]
    rw [ring.unique (tracks.ring member), ← pnewL]
    exact tracks₆.ring member

theorem Tracks.qexpired_spec (tracks : Tracks exits start st xs a) (outside : 0 ∉ xs)
    (phase : a.phase = .running) (none : ∀ p, a.place p ≠ .finished ∧ a.place p ≠ .taken)
    (now : Timeval) :
    wp (qexpired name.policy now)
      (fun _ st' => ∃ b ys, Tracks exits start st' ys b ∧ ys.Perm (0 :: xs) ∧
      b.phase = .running ∧ a.Quantum name b ∧ Retimed now st xs st') Astray st := by
  refine Acts.before (modifySched_acts (g := fun sched =>
    { sched with totalTics := sched.totalTics + 1 }) fun _ => rfl) fun _ st₁ ticked => ?_
  have counted : Acts view
      (modify fun st => { st with totalQuantums := st.totalQuantums + 1 } : Exec Unit) id :=
    Acts.modify fun _ => rfl
  refine counted.before fun _ st₂ same => ?_
  have intake₂ : st₂.intake = st.intake :=
    (congrArg View.intake (same.trans ticked : view st₂ = _)).trans rfl
  have tracks₁ := tracks.act .tick ticked
  have tracks₂ : Tracks unheard (a.act Core.tick) st₂ xs (a.act Core.tick) :=
    tracks₁.reroot.quiet same
  have freezing : wp (freezeSched name.policy) _ _ st₂ :=
    Wp.and (tracks₂.freezeSched_spec phase none) (freezeSched_intake name st.intake st₂ intake₂)
  refine Wp.bind (Wp.mono freezing (fun _ _ freezes => freezes) fun _ _ ended => ended.1)
    fun _ st₃ freezes => ?_
  obtain ⟨⟨b, tracks₃, frozen⟩, intake₃⟩ := freezes
  refine Wp.bind ((tracks₃.choose frozen.phase frozen.sch).schedule_spec rfl frozen.sch)
    fun _ st₄ schedules => ?_
  obtain ⟨c, tracks₄, scheduled, intake₄⟩ := schedules
  have thawing := Wp.and (tracks₄.thawSched_spec scheduled.phase scheduled.waits)
    (thawSched_intake st.intake st₄ (intake₄.trans intake₃))
  refine Wp.bind (Wp.mono thawing (fun _ _ thaws => thaws) fun _ _ ended => ended.1)
    fun _ st₅ thaws => ?_
  obtain ⟨⟨d, tracks₅, thawed⟩, intake₅⟩ := thaws
  refine Wp.imp (tracks₅.rearm_spec outside now) fun _ st₆ rearmed => ?_
  obtain ⟨ys, perm, tracks₆, core, events⟩ := rearmed
  refine ⟨d, ys, tracks₆.since tracks₁.steps, perm, thawed.phase, ⟨tracks₆.steps, b, c, frozen,
    ⟨scheduled.phase, scheduled.waits, scheduled.trials, scheduled.monitored, scheduled.ordinary⟩,
      thawed⟩, ?_⟩
  exact tracks.retimed tracks₆ intake₅ core events perm

end Thaw

end BachScheduler
