import BachScheduler.Fields
import BachScheduler.Marks
import Mathlib.Data.BitVec

/-!
# What the totals add up

`sched_update_totals` is called once for each program that ends, when its statistics have
been read for the last time: by `kill_app`, or by `rebalance` for a program that was not
killed.  So the totals of a slot are sums over its instances that have ended.
-/

namespace BachScheduler

open Census Wp

variable {exits : ProgPtr → Place → Prop} {name : PolicyName} {a b : Life} {prog : ProgPtr}
variable {source target : Place} {effect : Core → Core} {st : ExecState}
variable {confs : List ProgConf} {env : Env} {cpus : List Int} {targets : Int → Word64}

/-- Whether a program has been reported to `sched_update_totals`. -/
abbrev Place.totalled (k : Place) : Bool := Mark.totalled.borne k

/-- The instructions that a program adds to a slot. -/
def Life.share (a : Life) (i : Int) (p : ProgPtr) : Word64 :=
  if (a.place p).totalled ∧ (a.core.pds p).initId = i then a.core.instructions p else 0

/-- What a program adds to the ends of a slot by themselves. -/
def Life.ending (a : Life) (i : Int) (p : ProgPtr) : Int :=
  if (a.place p).totalled ∧ (a.place p).dead = false ∧ (a.core.pds p).initId = i then 1 else 0

/-- The totals are sums over the programs. -/
structure Life.Totalled (a : Life) : Prop where
  instr : ∀ i, a.core.sched.totalInstr i = ∑ p ∈ Finset.range a.core.progsAllocated, a.share i p
  ends : ∀ i, a.core.sched.progTimesFinished i = ∑ p ∈ Finset.range a.core.progsAllocated,
    a.ending i p

section Steps

/-- The account of a program is the same. -/
structure Life.SameAccount (a b : Life) (p : ProgPtr) : Prop where
  totalled : (b.place p).totalled = (a.place p).totalled
  dead : (a.place p).totalled = true → (b.place p).dead = (a.place p).dead
  initId : (a.place p).totalled = true → (b.core.pds p).initId = (a.core.pds p).initId
  accumulated : (a.place p).totalled = true →
    (b.core.pds p).accumulated = (a.core.pds p).accumulated

theorem Core.instructions_congr {core other : Core} {p : ProgPtr} (cpus : other.cpus = core.cpus)
    (same : (other.pds p).accumulated = (core.pds p).accumulated) :
    other.instructions p = core.instructions p := by
  simp only [instructions, cpus, same]

theorem Life.SameAccount.share {p : ProgPtr} (same : a.SameAccount b p)
    (cpus : b.core.cpus = a.core.cpus) (i : Int) : b.share i p = a.share i p := by
  unfold Life.share
  rw [same.totalled]
  by_cases totalled : (a.place p).totalled = true
  · rw [same.initId totalled, Core.instructions_congr cpus (same.accumulated totalled)]
  · simp [totalled]

theorem Life.SameAccount.ending {p : ProgPtr} (same : a.SameAccount b p) (i : Int) :
    b.ending i p = a.ending i p := by
  unfold Life.ending
  rw [same.totalled]
  by_cases totalled : (a.place p).totalled = true
  · rw [same.initId totalled, same.dead totalled]
  · simp [totalled]

theorem Life.Totalled.congr (totalled : a.Totalled) (same : ∀ p, a.SameAccount b p)
    (cpus : b.core.cpus = a.core.cpus) (allocated : b.core.progsAllocated = a.core.progsAllocated)
    (instr : b.core.sched.totalInstr = a.core.sched.totalInstr)
    (ends : b.core.sched.progTimesFinished = a.core.sched.progTimesFinished) : b.Totalled where
  instr i := by
    rw [instr, totalled.instr i, allocated]
    exact Finset.sum_congr rfl fun p _ => ((same p).share cpus i).symm
  ends i := by
    rw [ends, totalled.ends i, allocated]
    exact Finset.sum_congr rfl fun p _ => ((same p).ending i).symm

/-- What happens without a move changes the statistics of programs that have not been reported. -/
theorem Act.accumulated (act : Act a effect) (p : ProgPtr)
    (totalled : (a.place p).totalled = true) :
    ((effect a.core).pds p).accumulated = (a.core.pds p).accumulated := by
  have other : ∀ q, (a.place q).totalled = false → p ≠ q := fun q fresh equal => by
    rw [equal, fresh] at totalled
    exact absurd totalled (by decide)
  cases act with
  | @halt q phase listed runs now =>
      have halted : Core.Agree (fun _ => ()) PdCore.accumulated a.core (a.core.halt q now) :=
        .modPd (.updateClock (.modProg (.refl _) rfl) fun _ _ => rfl) rfl
      exact halted.pds p
  | @sample q phase listed =>
      have differs := other q (by rw [listed]; rfl)
      simp [Core.sample, Core.copyStats, Core.modPd, differs]
  | @sampleLast q listed =>
      have differs := other q (by rw [listed]; rfl)
      simp [Core.sampleLast, Core.sample, Core.copyStats, Core.modPd, differs]
  | @charge q =>
      have charged : Core.Agree (fun _ => ()) PdCore.accumulated a.core (a.core.modPd q fun pd =>
        { pd with instrRetdSum := (a.core.pds q).instrRetdSum + (a.core.pds q).instrRetd }) :=
          .modPd (.refl _) rfl
      exact charged.pds p
  | @thaw q phase listed waits now =>
      have woken : Core.Agree (fun _ => ()) PdCore.accumulated a.core
          (((a.core.zeroEpochs q).updateClock q now).modPd q fun pd =>
            { pd with runStatus := .running }) :=
        .modPd (.updateClock (.modPd (.refl _) rfl) fun _ _ => rfl) rfl
      exact woken.pds p
  | _ => rfl

theorem Act.totals (act : Act a effect) :
    (effect a.core).sched.totalInstr = a.core.sched.totalInstr ∧
    (effect a.core).sched.progTimesFinished = a.core.sched.progTimesFinished := by
  cases act <;> exact ⟨rfl, rfl⟩

theorem Life.Totalled.act (totalled : a.Totalled) (act : Act a effect) : (a.act effect).Totalled :=
  totalled.congr (fun p => ⟨rfl, fun _ => rfl, fun _ => act.steady.initId p, act.accumulated p⟩)
    act.keeps.cpus
    act.keeps.progsAllocated act.totals.1 act.totals.2

/-- The statistics of a program that was reported stay as they are. -/
theorem Move.fixed (move : Move exits a prog source target effect)
    (totalled : source.totalled = true) :
    (effect a.core).pds = a.core.pds ∧ target.totalled = true ∧ target.dead = source.dead := by
  cases move with
  | finish phase allowed found runs =>
      rcases runs with rfl | rfl <;> exact absurd totalled (by decide)
  | _ => first | exact absurd totalled (by decide) | exact ⟨rfl, rfl, rfl⟩

/-- A move keeps the account of every program that it does not report. -/
theorem Move.account (move : Move exits a prog source target effect) (here : a.place prog = source)
    (p : ProgPtr) (unreported : p = prog → source.totalled = false → target.totalled = false) :
    a.SameAccount ((a.transfer prog target).act effect) p := by
  by_cases equal : p = prog
  · subst equal
    cases before : source.totalled with
    | true =>
        obtain ⟨pds, after, dead⟩ := move.fixed before
        constructor
        case totalled => simp [here, before, after]
        case dead => simp [here, dead]
        case initId => exact fun _ => congrArg (fun pds => (pds p).initId) pds
        case accumulated => exact fun _ => congrArg (fun pds => (pds p).accumulated) pds
    | false =>
        have after := unreported rfl before
        have fresh : (a.place p).totalled ≠ true := by simp [here, before]
        constructor
        case totalled => simp [here, before, after]
        case dead => exact fun totalled => absurd totalled fresh
        case initId => exact fun totalled => absurd totalled fresh
        case accumulated => exact fun totalled => absurd totalled fresh
  · have same : ((a.transfer prog target).act effect).place p = a.place p := by simp [equal]
    have pds : ((a.transfer prog target).act effect).core.pds p = a.core.pds p :=
      (move.other equal).2
    exact ⟨by rw [same], fun _ => by rw [same], fun _ => by rw [pds], fun _ => by rw [pds]⟩

theorem Core.report_totalInstr (core : Core) (prog : ProgPtr) (i : Int) :
    (core.report prog).sched.totalInstr i = core.sched.totalInstr i +
      if (core.pds prog).initId = i then core.instructions prog else 0 := by
  by_cases slot : (core.pds prog).initId = i
  · subst slot
    simp [report]
  · simp [report, slot, Ne.symm slot]

theorem Core.report_progTimesFinished (core : Core) (prog : ProgPtr) (i : Int) :
    (core.report prog).sched.progTimesFinished i = core.sched.progTimesFinished i +
      if (core.pds prog).killed = false ∧ (core.pds prog).initId = i then 1 else 0 := by
  by_cases killed : (core.pds prog).killed = true
  · simp [report, killed]
  · by_cases slot : (core.pds prog).initId = i
    · subst slot
      simp [report, killed]
    · simp [report, killed, slot, Ne.symm slot]

/-- What a move does to the totals. -/
theorem Move.totals (move : Move exits a prog source target effect)
    (alive : source.spared = true → (a.core.pds prog).killed = false) (i : Int) :
    (effect a.core).sched.totalInstr i = a.core.sched.totalInstr i +
        (if source.totalled = false then ((a.transfer prog target).act effect).share i
          prog else 0) ∧
      (effect a.core).sched.progTimesFinished i = a.core.sched.progTimesFinished i +
        if source.totalled = false then ((a.transfer prog target).act effect).ending i
          prog else 0 := by
  cases move with
  | finish phase allowed found runs =>
      rcases runs with rfl | rfl <;>
        simp [Life.share, Life.ending, Core.recordEnd, Mark.borne, Place.dead]
  | kill =>
      have killed :
          ((a.core.modPd prog fun pd => { pd with killed := true }).pds prog).killed = true := by
        simp [Core.modPd]
      have instr := Core.report_totalInstr
        (a.core.modPd prog fun pd => { pd with killed := true }) prog i
      have times := Core.report_progTimesFinished
        (a.core.modPd prog fun pd => { pd with killed := true }) prog i
      rw [if_neg (by simp [killed])] at times
      simp only [Life.share, Life.ending, Life.act_place, Life.transfer_place, Function.update_self,
        Mark.borne, Place.dead, Life.act_core, Life.transfer_core, if_true, true_and]
      refine ⟨instr, times.trans ?_⟩
      simp [Core.modPd]
  | report =>
      have instr := Core.report_totalInstr a.core prog i
      have times := Core.report_progTimesFinished a.core prog i
      simp only [alive rfl, true_and] at times
      simp only [Life.share, Life.ending, Life.act_place, Life.transfer_place, Function.update_self,
        Mark.borne, Place.dead, Life.act_core, Life.transfer_core, if_true, true_and]
      exact ⟨instr, times⟩
  | monitor =>
      simp [Life.share, Life.ending, Mark.borne, Place.dead, Core.bump, Core.modSched,
        Core.assign, Core.modPd, Core.modProg, Core.note]
  | _ =>
      simp [Life.share, Life.ending, Mark.borne, Place.dead, Core.arrive, Core.enter, Core.retire,
        Core.free, Core.recordEnd]

theorem Life.Totalled.move (totalled : a.Totalled) (sound : a.Sound) (here : a.place prog = source)
    (move : Move exits a prog source target effect) :
    ((a.transfer prog target).act effect).Totalled := by
  have born : prog < a.core.progsAllocated := sound.allocated (here ▸ move.source_born)
  have totals := move.totals fun spared => sound.spared prog (here ▸ spared)
  have others : ∀ p, p ≠ prog → a.SameAccount ((a.transfer prog target).act effect) p :=
    fun p differs =>
    move.account here p fun equal => absurd equal differs
  have allocated : ((a.transfer prog target).act effect).core.progsAllocated =
      a.core.progsAllocated :=
    move.keeps.progsAllocated
  cases before : source.totalled with
  | true =>
      have same : ∀ p, a.SameAccount ((a.transfer prog target).act effect) p := fun p =>
        move.account here p fun _ fresh => by simp [before] at fresh
      refine totalled.congr same move.keeps.cpus allocated (funext fun i => ?_) (funext fun i => ?_)
      · simpa [before] using (totals i).1
      · simpa [before] using (totals i).2
  | false =>
      constructor
      case instr =>
        intro i
        have none : a.share i prog = 0 := by simp [Life.share, here, before]
        rw [allocated, sum_gain born none fun p differs =>
          (others p differs).share move.keeps.cpus i, ← totalled.instr i]
        simpa [before] using (totals i).1
      case ends =>
        intro i
        have none : a.ending i prog = 0 := by simp [Life.ending, here, before]
        rw [allocated, sum_gain born none fun p differs => (others p differs).ending i,
          ← totalled.ends i]
        simpa [before] using (totals i).2

theorem Life.Totalled.respawn (totalled : a.Totalled) (sound : a.Sound) {born : ProgCore}
    (here : a.place prog = .reported) :
    Life.Totalled { a with
      place := Function.update (Function.update a.place prog .spent) a.core.progsAllocated .waiting
      core := a.core.bear prog born } := by
  have old : prog < a.core.progsAllocated := sound.allocated (by simp [here])
  have same : ∀ p < a.core.progsAllocated, a.SameAccount { a with
      place := Function.update (Function.update a.place prog .spent) a.core.progsAllocated .waiting
      core := a.core.bear prog born } p := by
    intro p inside
    by_cases equal : p = prog
    · subst equal
      exact ⟨by simp [inside.ne, here, Mark.borne], by
        simp [inside.ne, here, Place.dead], fun _ => rfl, fun _ => rfl⟩
    · exact ⟨by simp [inside.ne, equal], by simp [inside.ne, equal], fun _ => rfl, fun _ => rfl⟩
  constructor
  case instr =>
    intro i
    refine (totalled.instr i).trans (Eq.symm ((Finset.sum_range_succ _ _).trans ?_))
    have new : Life.share { a with
        place := Function.update (Function.update a.place prog .spent)
          a.core.progsAllocated .waiting
        core := a.core.bear prog born } i a.core.progsAllocated = 0 := by
      simp [Life.share, Mark.borne, Place.dead]
    rw [new, add_zero]
    exact Finset.sum_congr rfl fun p member => (same p (Finset.mem_range.mp member)).share rfl i
  case ends =>
    intro i
    refine (totalled.ends i).trans (Eq.symm ((Finset.sum_range_succ _ _).trans ?_))
    have new : Life.ending { a with
        place := Function.update
          (Function.update a.place prog .spent) a.core.progsAllocated .waiting
        core := a.core.bear prog born } i a.core.progsAllocated = 0 := by
      simp [Life.ending, Mark.borne, Place.dead]
    rw [new, add_zero]
    exact Finset.sum_congr rfl fun p member => (same p (Finset.mem_range.mp member)).ending i

theorem Life.Totalled.step (totalled : a.Totalled) (sound : a.Sound) (step : Step exits a b) :
    b.Totalled := by
  cases step with
  | move here move => exact totalled.move sound here move
  | act act => exact totalled.act act
  | @decide picked rest phase idle perm =>
      have sched := Core.assignAll_sched a.core (fun p => (a.core.progs p).coresNeeded) picked 0
      have agree : Core.Agree (fun _ => ()) PdCore.accumulated _ _ :=
        .assignAll a.core (fun p => (a.core.progs p).coresNeeded) picked
          0 (fun _ _ => rfl) fun _ _ => rfl
      have keeps := Core.assignAll_keeps a.core (fun p => (a.core.progs p).coresNeeded) picked 0
      have steady := Core.assignAll_steady a.core (fun p => (a.core.progs p).coresNeeded) picked 0
      refine totalled.congr (fun p => ?_) keeps.cpus keeps.progsAllocated
        (congrArg SchedCore.totalInstr sched) (congrArg SchedCore.progTimesFinished sched)
      by_cases member : p ∈ picked
      · have fresh : (a.place p).totalled = false := by
          rw [sound.place_picked perm member]
          rfl
        refine ⟨by simp [member, fresh, Mark.borne, Place.dead], fun borne => ?_,
          fun _ => steady.initId p,
          fun _ => agree.pds p⟩
        exact absurd (fresh.symm.trans borne) (by decide)
      · exact ⟨by simp [member], fun _ => by simp [member], fun _ => steady.initId p, fun _ =>
          agree.pds p⟩
  | @respawn prog born here =>
      exact totalled.respawn sound here
  | _ =>
      exact totalled.congr (fun p => ⟨rfl, fun _ => rfl, fun _ => rfl, fun _ => rfl⟩)
        rfl rfl rfl rfl

/-- The account of a program that has been reported stays as it is. -/
theorem Step.account (step : Step exits a b) (sound : a.Sound) {p : ProgPtr}
    (totalled : (a.place p).totalled = true) : a.SameAccount b p := by
  cases step with
  | move here move =>
      refine move.account here p fun equal fresh => ?_
      subst equal
      rw [here, fresh] at totalled
      exact absurd totalled (by decide)
  | act act => exact ⟨rfl, fun _ => rfl, fun _ => act.steady.initId p, act.accumulated p⟩
  | @decide picked rest phase idle perm =>
      have agree : Core.Agree (fun _ => ()) PdCore.accumulated _ _ :=
        .assignAll a.core (fun p => (a.core.progs p).coresNeeded) picked 0 (fun _ _ => rfl)
          fun _ _ => rfl
      have steady := Core.assignAll_steady a.core (fun p => (a.core.progs p).coresNeeded) picked 0
      have waiting : p ∉ picked := fun member => by
        rw [sound.place_picked perm member] at totalled
        exact absurd totalled (by decide)
      exact ⟨by simp [waiting], fun _ => by
        simp [waiting], fun _ => steady.initId p, fun _ => agree.pds p⟩
  | @respawn prog born here =>
      have old : p ≠ a.core.progsAllocated := fun equal => by
        rw [equal, (sound.unborn _).mpr le_rfl] at totalled
        exact absurd totalled (by decide)
      by_cases equal : p = prog
      · subst equal
        exact ⟨by simp [old, here, Mark.borne], by
          simp [old, here, Place.dead], fun _ => rfl, fun _ => rfl⟩
      · exact ⟨by simp [old, equal], by simp [old, equal], fun _ => rfl, fun _ => rfl⟩
  | _ => exact ⟨rfl, fun _ => rfl, fun _ => rfl, fun _ => rfl⟩

theorem Step.keeps_cpus (step : Step exits a b) : b.core.cpus = a.core.cpus := by
  cases step with
  | move here move => exact move.keeps.cpus
  | act act => exact act.keeps.cpus
  | decide => exact (Core.assignAll_keeps ..).cpus
  | _ => rfl

theorem Steps.account (steps : Steps exits a b) (sound : a.Sound) {p : ProgPtr}
    (totalled : (a.place p).totalled = true) :
    a.SameAccount b p ∧ b.core.cpus = a.core.cpus := by
  induction steps with
  | refl => exact ⟨⟨rfl, fun _ => rfl, fun _ => rfl, fun _ => rfl⟩, rfl⟩
  | tail before step ih =>
      have there := ih.1.totalled.trans totalled
      have same := step.account (sound.steps before) there
      exact ⟨⟨same.totalled.trans ih.1.totalled, fun _ =>
        (same.dead there).trans (ih.1.dead totalled),
        fun _ => (same.initId there).trans (ih.1.initId totalled),
        fun _ => (same.accumulated there).trans (ih.1.accumulated totalled)⟩,
            step.keeps_cpus.trans ih.2⟩

theorem Life.Totalled.steps (totalled : a.Totalled) (sound : a.Sound) (steps : Steps exits a b) :
    b.Totalled := by
  induction steps with
  | refl => exact totalled
  | tail before step ih => exact ih.step (sound.steps before) step

theorem Life.Boots.totalled (boots : a.Boots cpus confs targets) : a.Totalled := by
  have fresh : ∀ p, (a.place p).totalled = false := fun p => by
    rw [boots.place, Place.atStart]
    split <;> rfl
  constructor
  case instr =>
    intro i
    rw [boots.totalInstr]
    exact (Finset.sum_eq_zero fun p _ => by simp [Life.share, fresh]).symm
  case ends =>
    intro i
    rw [boots.progTimesFinished]
    exact (Finset.sum_eq_zero fun p _ => by simp [Life.ending, fresh]).symm

end Steps

section Runs

/-- The end of a program has been recorded, by `sched_clear_prog` or by
`aff_prog_running_finished`. -/
def ExecState.Ended (st : ExecState) (prog : ProgPtr) : Prop :=
  .clearProg prog ∈ st.log ∨ .runningFinished prog ∈ st.log

instance (st : ExecState) (prog : ProgPtr) : Decidable (st.Ended prog) :=
  inferInstanceAs (Decidable (_ ∨ _))

/-- The instances of a slot. -/
def ExecState.instances (st : ExecState) (i : Int) : Finset ProgPtr :=
  (Finset.range st.progsAllocated).filter fun p => (st.pds p).initId = i

/-- Between the handlers, the programs whose end has been recorded are those that were reported. -/
theorem Life.Marked.ended_iff (marked : a.Marked) (settled : a.Settled) (core : st.core = a.core)
    (p : ProgPtr) : st.Ended p ↔ (a.place p).totalled = true := by
  have log : st.log = a.core.log := congrArg Core.log core
  have cleared : Event.clearProg p ∈ a.core.log ↔ _ := marked.mem_iff .cleared p
  have recorded : Event.runningFinished p ∈ a.core.log ↔ _ := marked.mem_iff .recorded p
  have stays := settled p
  rw [ExecState.Ended, log, cleared, recorded]
  cases here : a.place p <;> simp [here, Place.settled] at stays <;> simp [Mark.borne, Place.dead]

/-- Of those, the programs that were not killed are the ones without a mark of it. -/
theorem Life.Marked.unkilled_iff (marked : a.Marked) (settled : a.Settled) (core : st.core = a.core)
    (p : ProgPtr) : (st.Ended p ∧ .clearProg p ∉ st.log) ↔ (a.place p).totalled = true ∧
    (a.place p).dead = false := by
  have log : st.log = a.core.log := congrArg Core.log core
  have cleared : Event.clearProg p ∈ a.core.log ↔ _ := marked.mem_iff .cleared p
  rw [marked.ended_iff settled core, log, cleared]
  simp [Mark.borne]

/-- In every state that is reached, also where the run exits: every program whose end has been
recorded was reported to `sched_update_totals` once, and no other one; the totals of each slot are
those of its instances that have ended. -/
theorem update_totals_once (name : PolicyName) (confs : List ProgConf) (targets : Int → Word64)
    (inputs : List Input) (env : Env) (cpus : List Int) (st : ExecState)
    (reaches : Reaches name confs targets env cpus inputs st) :
    (∀ p, st.log.count (.updateTotals p) = if st.Ended p then 1 else 0) ∧
      ∀ i, st.sched.totalInstr i = ∑ p ∈ (st.instances i).filter st.Ended, st.core.instructions p ∧
        st.sched.progTimesFinished i =
          (((st.instances i).filter fun p => st.Ended p ∧ .clearProg p ∉ st.log).card : Int) := by
  obtain ⟨a, b, boots, xs, shows_, settled⟩ := reaches.between
  have marked := boots.marked.steps boots.sound shows_.tracks.steps
  have totalled := boots.totalled.steps boots.sound shows_.tracks.steps
  have core := shows_.tracks.core
  have log : st.log = b.core.log := congrArg Core.log core
  have initId : ∀ p, (st.pds p).initId = (b.core.pds p).initId := fun p =>
    congrArg (fun core => (core.pds p).initId) core
  have ended := marked.ended_iff settled core
  refine ⟨fun p => ?_, fun i => ⟨?_, ?_⟩⟩
  · rw [log]
    refine (marked .totalled p).trans ?_
    simp only [ended p]
  · have instr : st.sched.totalInstr i = _ :=
      (congrArg (fun core => core.sched.totalInstr i) core).trans (totalled.instr i)
    rw [instr, ExecState.instances, Finset.filter_filter, Finset.sum_filter,
      shows_.tracks.progsAllocated, core]
    refine Finset.sum_congr rfl fun p _ => ?_
    simp only [Life.share, ended p, initId p, and_comm]
  · have ends : st.sched.progTimesFinished i = _ :=
      (congrArg (fun core => core.sched.progTimesFinished i) core).trans (totalled.ends i)
    rw [ends, ExecState.instances, Finset.filter_filter, Finset.natCast_card_filter,
      shows_.tracks.progsAllocated]
    refine Finset.sum_congr rfl fun p _ => ?_
    simp only [Life.ending, marked.unkilled_iff settled core p, initId p]
    exact if_congr (by tauto) rfl rfl

/-- The totals of the only slot, where the end of its program ends the run. -/
theorem update_totals_once_exit :
    ∃ st, runExecutor PolicyName.perf.policy [.single] (fun _ => 7)
      [.events, .events, .sigchld [.exited 0]]
        (ExecState.start (Env.counting 5) [0]) = .error (.exit 42) st ∧
      st.Ended 0 ∧ st.log.count (.updateTotals 0) = (if st.Ended 0 then 1 else 0) ∧
      st.sched.totalInstr 0 = ∑ p ∈ (st.instances 0).filter st.Ended, st.core.instructions p := by
  obtain ⟨st, run, ended⟩ := exists_of_stopsWith (by decide +kernel :
    stopsWith (runExecutor PolicyName.perf.policy [.single] (fun _ => 7)
      [.events, .events, .sigchld [.exited 0]])
      (ExecState.start (Env.counting 5) [0]) (.exit 42) (fun st => st.Ended 0) = true)
  have totals := update_totals_once .perf [.single] (fun _ => 7) _ _ _ st (.inr ⟨42, run⟩)
  exact ⟨st, run, of_decide_eq_true ended, totals.1 0, (totals.2 0).1⟩

end Runs

end BachScheduler
