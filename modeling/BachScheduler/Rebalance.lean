import BachScheduler.Quanta
import BachScheduler.Starts

/-!
# `rebalance` as steps in the life of the programs

The programs of `pfinished_l` are reported, retired or started again, and freed; those of
`pnew_l` are handed to the scheduler.  When the last slot is retired the run stops, and by
then there is no program left that the end of the run could meet.
-/

namespace BachScheduler

open BachScheduler.Ring Wp

variable {exits : ProgPtr → Place → Prop} {name : PolicyName} {start a b c : Life} {st : ExecState}
variable {xs : List EvntPtr} {prog : ProgPtr}

/-- Whether a program is not on its way out. -/
def Place.settled : Place → Bool
  | .finished | .taken | .reported | .spent | .reaped | .passed => false
  | _ => true

/-- No other program has changed its place, except that a program may have been started. -/
def Life.Apart (prog : ProgPtr) (a b : Life) : Prop :=
  ∀ p, p ≠ prog → b.place p = a.place p ∨ a.place p = .unborn ∧ b.place p = .waiting

/-- The monitoring has not gone on, and its window has only moved if the run stops. -/
structure Life.Calm (a b : Life) : Prop where
  trials : BachScheduler.trials b.core.log = BachScheduler.trials a.core.log
  window : a.core.sched.monitorWnd ≤ b.core.sched.monitorWnd
  stays : a.core.sched.stopExecution = true → b.core.sched.stopExecution = true
  same : b.core.sched.stopExecution = true ∨ b.core.sched.monitorWnd = a.core.sched.monitorWnd

namespace Life.Calm

theorem refl (a : Life) : a.Calm a := ⟨rfl, le_rfl, id, .inr rfl⟩

theorem trans (first : a.Calm b) (second : b.Calm c) : a.Calm c where
  trials := second.trials.trans first.trials
  window := first.window.trans second.window
  stays stopped := second.stays (first.stays stopped)
  same := by
    rcases first.same with stopped | same
    · exact .inl (second.stays stopped)
    · exact second.same.imp_right fun later => later.trans same

/-- The window stays where it is. -/
theorem still (trials : BachScheduler.trials b.core.log = BachScheduler.trials a.core.log)
    (window : b.core.sched.monitorWnd = a.core.sched.monitorWnd)
    (stop : b.core.sched.stopExecution = a.core.sched.stopExecution) : a.Calm b :=
  ⟨trials, window.ge, fun stopped => stop.trans stopped, .inr window⟩

end Life.Calm

section Stop

theorem Life.Empty.unlisted (empty : a.Empty) (sound : a.Sound) {head : Node}
    (member : head ∈ lifeHeads) (uses : ∀ k : Place, k.home = some head → k.live = true) :
    a.on head = [] := by
  refine List.eq_nil_iff_forall_not_mem.mpr fun p listed => ?_
  have live := uses _ ((sound.listed.mem head member p).mp listed)
  rw [empty p] at live
  exact absurd live (by decide)

theorem Tracks.killAll_spec (tracks : Tracks exits start st xs a) (phase : a.phase = .settling)
    (empty : a.Empty) : wp killAll (fun _ st' => Tracks exits start st' xs a) Astray st := by
  have sch : a.on .progsSch = [] := empty.unlisted tracks.sound (by simp [lifeHeads])
    fun k home => by revert home; cases k <;> simp [Place.home, Place.live]
  have all : a.on .progsAll = [] := empty.unlisted tracks.sound (by simp [lifeHeads])
    fun k home => by revert home; cases k <;> simp [Place.home, Place.live]
  refine Wp.bind (tracks.moveProgsToAll_spec phase (by simp [sch])) fun _ st₁ moved => ?_
  obtain ⟨b, tracks₁, -, -, same⟩ := moved
  rw [same sch] at tracks₁
  have none : cdsListEmpty .progsAll st₁.links = true :=
    (tracks₁.empty_iff (by simp [lifeHeads])).mpr all
  refine Wp.bind_ok (listEmpty_run _ st₁) (Wp.ite (fun some => ?_) fun _ => Wp.pure tracks₁)
  rw [none] at some
  exact absurd some (by simp)

theorem Life.Empty.none (empty : a.Empty) (p : ProgPtr) :
    a.place p ≠ .finished ∧ a.place p ≠ .taken := by
  have idle := empty p
  constructor <;>
  · intro here
    rw [here] at idle
    exact absurd idle (by decide)

theorem Tracks.stopRun_spec (tracks : Tracks exits start st xs a) (phase : a.phase = .running)
    (empty : a.Empty) (open_ : Event.printTotals ∉ a.core.log) :
    wp (stopRun name.policy) (fun _ st' => ∃ b, Tracks exits start st' xs b ∧ b.phase = .running ∧
      b.place = a.place ∧ b.on = a.on ∧ a.Calm b) Astray st := by
  have marks : Acts view (modify fun st => { st with massacre := true } : Exec Unit)
      (View.modCore fun core => { core with massacre := true }) := fun _ => rfl
  refine marks.before fun _ st₀ massacre => ?_
  refine Acts.before (modifySched_acts (g := fun sched => { sched with stopExecution := true })
    fun _ => rfl) fun _ st₁ stops => ?_
  rw [massacre] at stops
  have tracks₁ := tracks.act (.stop empty) stops
  have sch : a.on .progsSch = [] := empty.unlisted tracks.sound (by simp [lifeHeads])
    fun k home => by revert home; cases k <;> simp [Place.home, Place.live]
  refine Wp.bind (tracks₁.reroot.freezeSched_spec phase empty.none) fun _ st₂ freezes => ?_
  obtain ⟨b, tracks, frozen⟩ := freezes
  have tracks₂ := tracks.since tracks₁.steps
  have stopped : b.core.sched.stopExecution = true := tracks.steps.stays_stopped rfl
  obtain ⟨place, on, log⟩ := frozen.idle sch
  have empty₂ : b.Empty := fun p => by
    rw [place]
    exact empty p
  refine Wp.bind (tracks₂.killAll_spec frozen.phase empty₂) fun _ st₃ tracks₃ => ?_
  refine closeResults_acts.last fun _ st₄ closed => ?_
  have open₂ : Event.printTotals ∉ b.core.log := by
    rw [log]
    exact open_
  have tracks₄ := (tracks₃.act (.close empty₂ open₂) closed).abandon frozen.phase frozen.sch empty₂
  refine ⟨_, tracks₄, rfl, place, on, ?_, ?_, fun _ => stopped, .inl stopped⟩
  · change trials (b.core.log ++ [.printTotals] ++ [.finalization]) = _
    rw [log, trials_append, trials_append]
    simp [trials, Core.stop]
  · exact frozen.window

end Stop

section Finished

theorem Life.Apart.trans {c : Life} (apart : Life.Apart prog a b) (later : Life.Apart prog b c) :
    Life.Apart prog a c := by
  intro p other
  rcases apart p other with same | ⟨unborn, waiting⟩
  · rw [← same]
    exact later p other
  · refine .inr ⟨unborn, ?_⟩
    rcases later p other with same | ⟨unborn', -⟩
    · exact same.trans waiting
    · rw [waiting] at unborn'
      exact absurd unborn' (by decide)

theorem Life.Apart.transfer (prog : ProgPtr) (k : Place) (effect : Core → Core) :
    Life.Apart prog a ((a.transfer prog k).act effect) :=
  fun _ other => .inl (Function.update_of_ne other _ _)

/-- The end of a program that was reported. -/
structure Life.Left (prog : ProgPtr) (a b : Life) : Prop where
  phase : b.phase = .running
  place : b.place prog = .spent
  on : b.on = a.on
  apart : Life.Apart prog a b
  calm : a.Calm b

theorem Tracks.respawn_spec (tracks : Tracks exits start st xs a) (phase : a.phase = .running)
    (here : a.place prog = .reported) :
    wp (respawn name.policy prog)
      (fun _ st' => ∃ b ys, Tracks exits start st' ys b ∧ Life.Left prog a b)
      Astray st := by
  have uses : ¬ a.Empty := fun empty => by simpa [here, Place.live] using empty prog
  refine Wp.bind_ok (readPd_run prog st) ?_
  refine Acts.before
    (modifyProg_acts (g := fun p => { p with instrRetdSum := (st.pds prog).instrRetdSum })
    fun p => ?_) fun _ st₁ carries => ?_
  · cases name <;> rfl
  have carried : view st₁ = (view st).modCore (Core.carry prog) := carries
  have tracks₁ := tracks.act (.carry here) carried
  refine Wp.bind_ok (readTarget_run prog st₁) ?_
  dsimp only
  by_cases again : (st₁.sched.targetInstr (st₁.pds prog).initId).toInt > respawnLimit
  · have left : ¬ st₁.sched.progsLeft ≤ 0 := fun none => by
      have same : st₁.sched.progsLeft = (a.act (Core.carry prog)).core.sched.progsLeft :=
        congrArg (fun core => core.sched.progsLeft) tracks₁.core
      rw [same] at none
      exact uses (tracks₁.sound.empty_iff.mp none)
    have running : a.core.sched.stopExecution = false := by
      by_contra stops
      exact uses (tracks.sound.stopped (by simpa using stops))
    rw [when_neg (not_not.mpr again)]
    refine Wp.bind_ok rfl (Wp.bind_ok (readSched_run st₁) ?_)
    rw [when_neg left]
    refine Wp.bind_ok rfl (Wp.bind_ok (readSched_run st₁) ?_)
    have stopExecution : st₁.sched.stopExecution = false :=
      (congrArg (fun core => core.sched.stopExecution) tracks₁.core).trans running
    rw [when_pos ⟨by simp [stopExecution], again⟩]
    refine Wp.bind_ok (readSched_run st₁) (Wp.bind_ok (readProg_run prog st₁) ?_)
    refine Wp.bind (R := fun _ st' => st' = st₁)
      (Wp.ite (fun _ => Wp.throw (.inl rfl)) fun _ => Wp.pure rfl) fun _ st₂ same => ?_
    subst same
    have id : st₂.sched.progsInit + (st₂.progs prog).id =
        (a.act (Core.carry prog)).core.sched.progsInit +
        ((a.act (Core.carry prog)).core.progs prog).id := by
      rw [← tracks₁.core]
      rfl
    rw [id]
    have handed : ((a.act (Core.carry prog)).core.progs prog).instrRetdSum =
        ((a.act (Core.carry prog)).core.pds prog).instrRetdSum := by
      simp [Core.carry, Core.modProg]
    refine Wp.imp (tracks₁.progRespawn_spec here handed running) fun _ st₃ respawned => ?_
    obtain ⟨b, ys, tracks₃, on, phase', place, sched, log⟩ := respawned
    have calm : a.Calm b := by
      refine .still ?_ ?_ ?_
      · rw [log, trials_append]
        simp [trials, Core.carry, Core.modProg]
      · rw [sched]
        rfl
      · rw [sched]
        rfl
    have old : prog < a.core.progsAllocated := tracks.sound.allocated (by simp [here])
    refine ⟨b, ys, tracks₃, phase'.trans phase, ?_, on, fun p other => ?_, calm⟩
    · rw [place]
      exact (Function.update_of_ne old.ne _ _).trans (Function.update_self ..)
    · rw [place]
      by_cases new : p = a.core.progsAllocated
      · subst new
        exact .inr ⟨(tracks.sound.unborn _).mpr le_rfl, Function.update_self ..⟩
      · exact .inl ((Function.update_of_ne new _ _).trans (Function.update_of_ne other _ _))
  · rw [when_pos again]
    refine (retire_acts prog).before fun _ st₂ retired => ?_
    have tracks₂ := tracks₁.pass here .retire rfl rfl (by decide) (by decide) (by decide) retired
    have left : Life.Left prog a
        (((a.act (Core.carry prog)).transfer prog .spent).act (Core.retire prog)) :=
      ⟨phase, Function.update_self .., by
        simp [Life.transfer, here, Place.home, Life.leave, Life.join],
        Life.Apart.transfer prog .spent _,
          .still (by simp [Core.retire, Core.carry, Core.modProg, trials]) rfl rfl⟩
    have open_ : Event.printTotals ∉ (((a.act (Core.carry prog)).transfer prog .spent).act
        (Core.retire prog)).core.log := by
      intro printed
      exact uses
        (tracks.sound.closed (by simpa [Core.retire, Core.carry, Core.modProg] using printed))
    refine Wp.bind_ok (readSched_run st₂) ?_
    have progsLeft : st₂.sched.progsLeft = _ :=
      congrArg (fun core => core.sched.progsLeft) tracks₂.core
    refine Wp.bind (R := fun _ st' => ∃ b, Tracks exits start st' xs b ∧ Life.Left prog a b)
      (Wp.ite (fun none => ?_) fun _ => Wp.pure ⟨_, tracks₂, left⟩) fun _ st₃ ended => ?_
    · rw [progsLeft] at none
      have empty := tracks₂.sound.empty_iff.mp none
      refine Wp.imp (tracks₂.stopRun_spec left.phase empty open_) fun _ st₃ stopped => ?_
      obtain ⟨b, tracks₃, phase', place, on, calm⟩ := stopped
      refine ⟨b, tracks₃, phase', ?_, on.trans left.on, fun p other => ?_, left.calm.trans calm⟩
      · rw [place]
        exact left.place
      · rw [place]
        exact left.apart p other
    · obtain ⟨b, tracks₃, left⟩ := ended
      refine Wp.bind_ok (readSched_run st₃)
        (Wp.ite (fun both => absurd both.2 again) fun _ => Wp.pure ?_)
      exact ⟨b, xs, tracks₃, left⟩

/-- What `rebalance` reads for a finished program. -/
theorem Tracks.sampleFinished_spec (tracks : Tracks exits start st xs a)
    (here : a.place prog = .taken) (ticking : a.core.Ticking prog) :
    wp (sampleFinished prog) (fun _ st' => ∃ b, Tracks exits start st' xs b ∧ b.place = a.place ∧
      b.on = a.on ∧ b.phase = a.phase ∧ (a.core.Uncharged prog → b.core.Uncharged prog) ∧ a.Calm b)
        Astray st := by
  refine Wp.imp (sampleFinished_samples prog) fun _ st₁ samples => ?_
  obtain ⟨now, instrRetd, accumulated, sampled⟩ := samples
  have taken : (a.act (Core.readEpochs (st.core.lastCpu prog))).place prog = .taken := here
  have ticks : (Core.readEpochs (st.core.lastCpu prog) a.core).Ticking prog :=
    ticking.unclocked (.same (fun _ => ⟨rfl, rfl⟩) rfl)
  have sample : Act (a.act (Core.readEpochs (st.core.lastCpu prog)))
      (Core.sampleLast prog now instrRetd accumulated) := by
    refine .sampleLast taken (fun i last => ?_) ticks now instrRetd accumulated
    rw [tracks.core]
    exact if_pos (decide_eq_true last)
  refine ⟨_, tracks.acts (.readCounters _) sample sampled, rfl, rfl, rfl, fun before => before,
    .still ?_ ?_ ?_⟩
  · simp [Core.sampleLast, Core.sample, Core.copyStats, Core.modPd, Core.readEpochs, Core.modSched]
  · rfl
  · rfl

theorem Tracks.finishProg_spec (tracks : Tracks exits start st xs a) (phase : a.phase = .running)
    (here : a.place prog = .taken) (ticking : a.core.Ticking prog)
    (uncharged : a.core.Uncharged prog) :
    wp (finishProg name.policy prog)
      (fun _ st' => ∃ b ys, Tracks exits start st' ys b ∧ Life.Left prog a b)
      Astray st := by
  refine Wp.bind (tracks.sampleFinished_spec here ticking) fun _ st₁ sampled => ?_
  obtain ⟨b, tracks₁, place, on, phase₁, stays, calm⟩ := sampled
  have taken : b.place prog = .taken := by rw [place, here]
  refine Wp.bind (addRetired_spec prog) fun _ st₂ adds => ?_
  obtain ⟨batches, covers, added⟩ := adds
  refine writeResults_quiet.before fun _ st₃ same₃ =>
    (finishProgress_quiet prog).go fun _ st₄ same₄ => ?_
  refine (chargeTarget_acts prog).before fun _ st₅ charges => ?_
  have charged : view st₅ = (view st₁).modCore (Core.charge prog batches) := by
    rw [charges, same₄, same₃, id_eq, added]
    exact congrArg (fun core => { view st₁ with core := core }) (Core.chargeTarget_addRetired ..)
  have tracks₅ := tracks₁.act (.charge (.inr taken) (tracks₁.core ▸ covers) (stays uncharged))
    charged
  refine (schedUpdateTotals_acts prog).before fun _ st₆ reported => ?_
  have tracks₆ := tracks₅.pass taken .report rfl rfl (by decide) (by decide) (by decide) reported
  refine Wp.imp (tracks₆.respawn_spec (phase₁.trans phase) (Function.update_self ..))
    fun _ st₇ leaves => ?_
  obtain ⟨c, ys, tracks₇, left⟩ := leaves
  have reports : b.Calm
      (((b.act (Core.charge prog batches)).transfer prog .reported).act (Core.report prog)) :=
    .still (by simp [Core.report, Core.charge, trials]) rfl rfl
  refine ⟨c, ys, tracks₇, left.phase, left.place, ?_,
    Life.Apart.trans (fun p other => .inl ?_) left.apart,
    (calm.trans reports).trans left.calm⟩
  · rw [left.on]
    simp [Life.transfer, taken, Place.home, Life.leave, Life.join, on]
  · rw [← place]
    exact Function.update_of_ne other _ _

/-- What `rebalance` leaves of a finished program. -/
structure Life.Disposed (prog : ProgPtr) (a b : Life) : Prop where
  phase : b.phase = .running
  place : b.place prog = .gone ∨ b.place prog = .buried
  on : b.on = a.on.drop .pfinishedL prog
  apart : Life.Apart prog a b
  calm : a.Calm b

theorem Tracks.rebalanceFinished_spec (tracks : Tracks exits start st xs a)
    (phase : a.phase = .running) (listed : prog ∈ a.on .pfinishedL) :
    wp (rebalanceFinished name.policy prog) (fun _ st' => ∃ b ys, Tracks exits start st' ys b ∧
      Life.Disposed prog a b) Astray st := by
  have home := (tracks.sound.listed.mem .pfinishedL (by simp [lifeHeads]) prog).mp listed
  have member : Node.pfinishedL ∈ lifeHeads := by simp [lifeHeads]
  refine (plNodeUnlink_acts prog).before fun _ st₁ unlinked => ?_
  refine Wp.bind_ok (readPd_run prog st₁) (Wp.bind_ok (readSched_run st₁) ?_)
  dsimp only
  have here : a.place prog = .finished ∨ a.place prog = .reaped := by
    revert home
    cases a.place prog <;> simp [Place.home]
  rcases here with here | here
  · have ticking : a.core.Ticking prog := tracks.sound.clocked.ticking prog (by rw [here]; rfl)
    have uncharged : a.core.Uncharged prog :=
      tracks.sound.charged.due phase prog (by rw [here]; rfl)
    have tracks₁ := tracks.withdraw here .take member rfl rfl (by decide) unlinked
    have taken : ((a.transfer prog .taken).act id).place prog = .taken := Function.update_self ..
    have alive : (st₁.pds prog).killed = false := by
      have spared := tracks₁.sound.spared prog (by rw [taken]; rfl)
      rwa [← tracks₁.core] at spared
    have running : st₁.sched.stopExecution = false := by
      by_contra stops
      have stopped := tracks₁.sound.stopped
        (by rw [← tracks₁.core]; exact eq_true_of_ne_false stops) prog
      rw [taken] at stopped
      exact absurd stopped (by decide)
    rw [when_pos (by simp [alive, running])]
    refine Wp.bind (tracks₁.finishProg_spec phase taken ticking uncharged) fun _ st₂ leaves => ?_
    obtain ⟨b, ys, tracks₂, left⟩ := leaves
    refine (rebalanceFree_acts prog).last fun _ st₃ freed => ?_
    have tracks₃ := tracks₂.pass left.place .free rfl rfl (by decide) (by decide) (by decide) freed
    have taking : a.Calm ((a.transfer prog .taken).act id) := .still rfl rfl rfl
    have freeing : b.Calm ((b.transfer prog .gone).act (Core.free prog)) :=
      .still (by simp [Core.free, trials]) rfl rfl
    refine ⟨_, ys, tracks₃, left.phase, .inl (Function.update_self ..), ?_,
      (Life.Apart.transfer prog .taken id).trans
        (left.apart.trans (Life.Apart.transfer prog .gone _)),
      (taking.trans left.calm).trans freeing⟩
    simp [Life.transfer, left.place, left.on, here, Place.home, Life.leave, Life.join]
  · have tracks₁ := tracks.withdraw here .pass member rfl rfl (by decide) unlinked
    have passed : ((a.transfer prog .passed).act id).place prog = .passed := Function.update_self ..
    have killed : (st₁.pds prog).killed = true := by
      have dead := tracks₁.sound.dead prog (by rw [passed]; rfl)
      rwa [← tracks₁.core] at dead
    rw [when_neg (by simp [killed])]
    refine Wp.bind_ok rfl ((rebalanceFree_acts prog).last fun _ st₂ freed => ?_)
    have tracks₂ := tracks₁.pass passed .bury rfl rfl (by decide) (by decide) (by decide) freed
    refine ⟨_, xs, tracks₂, phase, .inr (Function.update_self ..), ?_,
      (Life.Apart.transfer prog .passed id).trans (Life.Apart.transfer prog .buried _),
      .still (by simp [Core.free, trials]) rfl rfl⟩
    simp [Life.transfer, here, Place.home, Life.leave, Life.join]

end Finished

section New

/-- What `rebalance` does to the core for a new program. -/
theorem enter_acts (prog : ProgPtr) (pd : PdCore) (now : Word32) {st₁ : ExecState}
    (added : view st₁ = (view st).modCore (Core.initPd prog pd now)) {Q : Unit → ExecState → Prop}
    (entered : ∀ st', view st' = ((view st).modLinks fun links =>
      cdsListAddTail (.plNode prog) .progsAll (unlinkNode prog links)).modCore
        (Core.enter prog pd now) → Q () st') :
    wp (do
      modifySched fun sched => { sched with progsNr := sched.progsNr + 1 }
      elemMove2tail prog .progsAll
      affProgNewRunning prog) Q Astray st₁ := by
  refine Acts.before
    (modifySched_acts (g := fun sched => { sched with progsNr := sched.progsNr + 1 })
    fun _ => rfl) fun _ st₂ counted => ?_
  refine (elemMove2tail_acts prog .progsAll).before fun _ st₃ moved => ?_
  refine (affProgNewRunning_acts prog).last fun _ st₄ enrolled => entered st₄ ?_
  rw [enrolled, moved, counted, added]
  rfl

theorem Tracks.rebalanceNew_spec (tracks : Tracks exits start st xs a)
    (listed : prog ∈ a.on .pnewL) :
    wp (rebalanceNew prog) (fun _ st' => ∃ b, Tracks exits start st' xs b ∧ b.phase = a.phase ∧
      b.place = Function.update a.place prog .all ∧ b.on .pnewL = (a.on .pnewL).erase prog ∧
        a.Calm b) Astray st := by
  have home := (tracks.sound.listed.mem .pnewL (by simp [lifeHeads]) prog).mp listed
  have here : a.place prog = .new := by
    revert home
    cases a.place prog <;> simp [Place.home]
  have running : st.sched.stopExecution = false := by
    by_contra stops
    have stopped := tracks.sound.stopped
      (by rw [← tracks.core]; exact eq_true_of_ne_false stops) prog
    rw [here] at stopped
    exact absurd stopped (by decide)
  refine Wp.bind_ok (readSched_run st) (Wp.ite (fun stops => ?_) fun _ => ?_)
  · rw [running] at stops
    exact absurd stops (by decide)
  refine Wp.bind (schedAddProg_adds prog) fun _ st₁ adds => ?_
  obtain ⟨some, pd, now, fresh, added⟩ := adds
  rw [tracks.core] at some fresh
  refine enter_acts prog pd now added fun st₂ entered => ?_
  refine ⟨_, tracks.relocate here (.enter some fresh) (by simp [lifeHeads]) (by simp [lifeHeads])
    rfl rfl entered,
    rfl, rfl, ?_, .still (by simp [Core.enter, trials]) rfl rfl⟩
  simp [Life.transfer, here, Place.home, Life.leave, Life.join, Lists.drop, Lists.push]

end New

section Loops

/-- The programs on their way out are on `pfinished_l`. -/
def Life.Tidy (a : Life) : Prop :=
  ∀ p, (a.place p).settled = false → p ∈ a.on .pfinishedL

/-- No program is on its way out. -/
def Life.Settled (a : Life) : Prop :=
  ∀ p, (a.place p).settled = true

theorem Life.Settled.tidy (settled : a.Settled) : a.Tidy :=
  fun p leaves => absurd (settled p) (by simp [leaves])

/-- No program is on its way out. -/
theorem Life.Settled.none (settled : a.Settled) (p : ProgPtr) :
    a.place p ≠ .finished ∧ a.place p ≠ .taken := by
  have stays := settled p
  constructor <;>
  · intro here
    rw [here] at stays
    exact absurd stays (by decide)

theorem Life.Disposed.tidy (disposed : Life.Disposed prog a b) (tidy : a.Tidy)
    (nodup : (a.on .pfinishedL).Nodup) : b.Tidy := by
  intro p leaves
  rw [disposed.on, Lists.drop, Function.update_self]
  by_cases equal : p = prog
  · subst equal
    rcases disposed.place with gone | buried
    · rw [gone] at leaves
      exact absurd leaves (by decide)
    · rw [buried] at leaves
      exact absurd leaves (by decide)
  · refine (nodup.mem_erase_iff).mpr ⟨equal, ?_⟩
    rcases disposed.apart p equal with same | ⟨-, waiting⟩
    · exact tidy p (same ▸ leaves)
    · rw [waiting] at leaves
      exact absurd leaves (by decide)

theorem Move.settled {source target : Place} {effect : Core → Core}
    (move : Move unheard a prog source target effect) (settled : source.settled = true) :
    target.settled = true := by
  cases move with
  | finish phase allowed => exact allowed.elim
  | reap phase allowed => exact allowed.elim
  | _ => first | rfl | exact absurd settled (by decide)

/-- Without exits, all programs stay where they are not on their way out. -/
theorem Life.Settled.steps (settled : a.Settled) (steps : Steps unheard a b) : b.Settled := by
  induction steps with
  | refl => exact settled
  | tail _ step ih =>
      have kept := step.places (P := fun k => k.settled = true) ih
      exact kept (fun _ _ _ _ move => move.settled) rfl rfl fun leaves => absurd leaves (by decide)

theorem Tracks.rebalance_spec (tracks : Tracks exits start st xs a) (phase : a.phase = .running)
    (tidy : a.Tidy) :
    wp (rebalance name.policy)
      (fun _ st' => ∃ b ys, Tracks exits start st' ys b ∧ b.phase = .running ∧
      b.Settled ∧ a.Calm b) Astray st := by
  have finished : Node.pfinishedL ∈ lifeHeads := by simp [lifeHeads]
  have new : Node.pnewL ∈ lifeHeads := by simp [lifeHeads]
  have first : wp (cdsListForEachEntrySafe .pfinishedL () fun prog _ => do
        rebalanceFinished name.policy prog
        return .yield ()) (fun _ st' => ∃ b ys, Tracks exits start st' ys b ∧ b.phase = .running ∧
      b.Tidy ∧ b.on .pfinishedL = [] ∧ a.Calm b) Astray st := by
    refine forEachEntrySafe_spec
      (fun ahead _ st => ∃ b ys, Tracks exits start st ys b ∧ b.phase = .running ∧
        b.Tidy ∧ b.on .pfinishedL = ahead ∧ a.Calm b) (tracks.ring finished)
          (tracks.short finished) ?_ ?_ ?_
      ⟨a, xs, tracks, phase, tidy, rfl, .refl a⟩
    · intro ahead _ st inv
      obtain ⟨b, ys, tracks, -, -, left, -⟩ := inv
      exact ⟨[], left ▸ tracks.ring finished⟩
    · intro prog ahead _ st inv
      obtain ⟨b, ys, tracks, phase, tidy, left, calm⟩ := inv
      refine Wp.bind (tracks.rebalanceFinished_spec phase (by simp [left])) fun _ st' disposes =>
        Wp.pure ?_
      obtain ⟨c, zs, tracks', disposed⟩ := disposes
      refine ⟨c, zs, tracks', disposed.phase,
        disposed.tidy tidy (tracks.sound.listed.nodup _ finished), ?_,
        calm.trans disposed.calm⟩
      rw [disposed.on, Lists.drop, Function.update_self, left, List.erase_cons_head]
    · exact fun _ st inv => inv
  refine Wp.bind first fun _ st₁ ended => ?_
  obtain ⟨b, ys, tracks₁, phase₁, tidy₁, none, calm₁⟩ := ended
  have settled : b.Settled := by
    intro p
    by_contra leaves
    have there := tidy₁ p (by simpa using leaves)
    simp [none] at there
  refine forEachEntrySafe_spec
    (fun ahead _ st => ∃ c, Tracks exits start st ys c ∧ c.phase = .running ∧
      c.Settled ∧ c.on .pnewL = ahead ∧ a.Calm c) (tracks₁.ring new) (tracks₁.short new) ?_ ?_ ?_
    ⟨b, tracks₁, phase₁, settled, rfl, calm₁⟩
  · intro ahead _ st inv
    obtain ⟨c, tracks, -, -, left, -⟩ := inv
    exact ⟨[], left ▸ tracks.ring new⟩
  · intro prog ahead _ st inv
    obtain ⟨c, tracks, phase, settled, left, calm⟩ := inv
    refine Wp.bind (tracks.rebalanceNew_spec (by simp [left])) fun _ st' enters => Wp.pure ?_
    obtain ⟨d, tracks', phase', place, on, calm'⟩ := enters
    refine ⟨d, tracks', phase'.trans phase, fun p => ?_, ?_, calm.trans calm'⟩
    · rw [place]
      by_cases equal : p = prog
      · subst equal
        simp [Place.settled]
      · rw [Function.update_of_ne equal]
        exact settled p
    · rw [on, left, List.erase_cons_head]
  · intro _ st inv
    obtain ⟨c, tracks, phase, settled, -, calm⟩ := inv
    exact ⟨c, ys, tracks, phase, settled, calm⟩

end Loops

end BachScheduler
