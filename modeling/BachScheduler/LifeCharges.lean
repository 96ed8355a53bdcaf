import BachScheduler.Fields
import BachScheduler.LifeClocks

/-!
# The charges along the life of the programs

The samples of a program that is settled were taken in the counting epoch that is on, on the cpus
it has.  Until its quantum is settled or its end is handled, a program is not charged for this
epoch.
-/

namespace BachScheduler

variable {exits : ProgPtr → Place → Prop} {a b : Life} {prog p : ProgPtr} {source target : Place}
variable {effect : Core → Core} {core other later : Core}

/-- Whether a program of a place was handed to the scheduler. -/
def Place.enrolled (k : Place) : Bool :=
  k.spared || k.dead

/-- What holds of the samples and the charges in every state. -/
structure Life.Charged (a : Life) : Prop where
  zeroed : ∀ p, a.place p = .sch →
    a.phase = .running ∨ a.phase = .choosing ∧ (a.core.pds p).runStatus = .running →
      ∀ i, (a.core.pds p).epoch i = none
  sampled : a.phase = .settling → ∀ p, a.place p = .sch → ∀ i e, (a.core.pds p).epoch i = some e →
    e = a.core.sched.epoch ∧ a.core.inCpuset p i = true
  batches : ∀ p, (a.place p).ticks = true → ∀ batches, (p, batches) ∈ charges a.core.log →
    ∀ batch ∈ batches, batch.2 ≤ a.core.sched.epoch
  enrolled : ∀ charge ∈ charges a.core.log, (a.place charge.1).enrolled = true
  due : a.phase = .running → ∀ p, (a.place p).ticks = true → a.core.Uncharged p

section Frames

/-- Nobody is charged, and the counting epoch goes on. -/
structure Core.Uncharging (core other : Core) : Prop where
  epoch : other.sched.epoch = core.sched.epoch
  charges : charges other.log = charges core.log

theorem Core.Uncharging.uncharged (same : core.Uncharging other) (before : core.Uncharged prog) :
    other.Uncharged prog := by
  intro batches charged batch member
  rw [same.epoch]
  exact before batches (same.charges ▸ charged) batch member

theorem Core.Uncharging.trans (first : core.Uncharging other) (second : other.Uncharging later) :
    core.Uncharging later :=
  ⟨second.epoch.trans first.epoch, second.charges.trans first.charges⟩

/-- What happens without a move is a charge, or charges nobody. -/
theorem Act.charges (act : Act a effect) :
    (∃ prog batches, effect = Core.charge prog batches ∧
      (a.phase = .settling ∧ a.place prog = .sch ∨ a.place prog = .taken) ∧
      a.core.Sampled prog batches ∧
      a.core.Uncharged prog) ∨ a.core.Uncharging (effect a.core) := by
  cases act with
  | charge listed sampled uncharged => exact .inl ⟨_, _, rfl, listed, sampled, uncharged⟩
  | collect | wait | close | thaw =>
      refine .inr ⟨rfl, ?_⟩
      simp [Core.note, Core.close, Core.print, Core.thaw, Core.modProg, Core.modPd, Core.noteClocks,
        Core.zeroEpochs, BachScheduler.charges]
  | _ => exact .inr ⟨rfl, rfl⟩

theorem Core.assign_uncharging (core : Core) (prog : ProgPtr) (rstart : Int) :
    core.Uncharging (core.assign prog rstart) :=
  ⟨rfl, by simp [assign, modPd, modProg, note, BachScheduler.charges]⟩

theorem Core.assignAll_uncharging (core : Core) (need : ProgPtr → Int) (progs : List ProgPtr)
    (rstart : Int) : core.Uncharging (core.assignAll need progs rstart) := by
  induction progs generalizing core rstart with
  | nil => exact ⟨rfl, rfl⟩
  | cons prog later ih => exact (core.assign_uncharging prog rstart).trans (ih _ _)

theorem Move.charges (move : Move exits a prog source target effect) :
    a.core.Uncharging (effect a.core) := by
  cases move <;>
    exact ⟨rfl, by
      simp [Core.arrive, Core.enter, Core.bump, Core.modSched, Core.assign,
        Core.modPd, Core.modProg, Core.note, Core.kill, Core.clear, Core.report, Core.recordEnd,
          Core.retire, Core.free, BachScheduler.charges]⟩

/-- Nothing but a decision changes the cpus of a program. -/
theorem Act.inCpuset (act : Act a effect) (i : Nat) :
    (effect a.core).inCpuset p i = a.core.inCpuset p i := by
  have cpuset : ((effect a.core).progs p).cpuset = (a.core.progs p).cpuset := by
    cases act with
    | @halt q | @thaw q | @carry q =>
        by_cases equal : p = q
        · subst equal
          simp [Core.halt, Core.thaw, Core.carry, Core.modProg, Core.modPd, Core.note,
            Core.noteClocks, Core.zeroEpochs]
        · simp [Core.halt, Core.thaw, Core.carry, Core.modProg, Core.modPd, Core.note,
            Core.noteClocks, Core.zeroEpochs, equal]
    | _ => rfl
  have cpus : (effect a.core).cpus = a.core.cpus := by cases act <;> rfl
  rw [Core.inCpuset, Core.inCpuset, cpuset, cpus]

/-- A program on `progs_sch` is only sampled while its quantum is settled, on its cpus. -/
theorem Act.stamps (act : Act a effect) (listed : a.place p = .sch) {i e : Nat}
    (stamped : ((effect a.core).pds p).epoch i = some e) :
    (a.core.pds p).epoch i = some e ∨
      a.phase = .settling ∧ e = a.core.sched.epoch ∧ a.core.inCpuset p i = true := by
  cases act with
  | @sample q phase here read =>
      by_cases equal : p = q
      · subst equal
        simp only [Core.sample, Core.copyStats, Core.modPd, Function.update_self] at stamped
        split at stamped
        · next covers =>
            obtain ⟨cpu, -, monitored⟩ := List.any_eq_true.mp covers
            have inside : i < a.core.cpus.length :=
              (List.getElem?_eq_some_iff.mp (of_decide_eq_true monitored)).1
            exact .inr ⟨phase, (Option.some.inj stamped).symm.trans (read i inside), covers⟩
        · exact .inl stamped
      · exact .inl (by simpa [Core.sample, Core.copyStats, Core.modPd, equal] using stamped)
  | @sampleLast q taken =>
      have differs : p ≠ q := fun equal => by simp [equal, taken] at listed
      exact .inl
        (by simpa [Core.sampleLast, Core.sample, Core.copyStats, Core.modPd, differs] using stamped)
  | @thaw q =>
      by_cases equal : p = q
      · subst equal
        simp [Core.thaw, Core.modProg, Core.modPd, Core.note, Core.noteClocks,
          Core.zeroEpochs] at stamped
      · exact .inl (by
          simpa [Core.thaw, Core.modProg, Core.modPd, Core.note, Core.noteClocks, Core.zeroEpochs,
            equal] using stamped)
  | @halt q | @charge q =>
      by_cases equal : p = q
      · subst equal
        exact .inl (by simpa [Core.halt, Core.charge, Core.modProg, Core.modPd] using stamped)
      · exact .inl
          (by simpa [Core.halt, Core.charge, Core.modProg, Core.modPd, equal] using stamped)
  | _ => exact .inl stamped

/-- A program that is made to run loses its samples. -/
theorem Act.wakes (act : Act a effect) (choosing : a.phase = .choosing)
    (runs : ((effect a.core).pds p).runStatus = .running) :
    (a.core.pds p).runStatus = .running ∨
      ∀ i, ((effect a.core).pds p).epoch i = none := by
  cases act with
  | @thaw q =>
      by_cases equal : p = q
      · subst equal
        exact .inr fun i => by
          simp [Core.thaw, Core.modProg, Core.modPd, Core.note, Core.noteClocks, Core.zeroEpochs]
      · exact .inl (by
          simpa [Core.thaw, Core.modProg, Core.modPd, Core.note, Core.noteClocks, Core.zeroEpochs,
            equal] using runs)
  | halt phase => exact absurd (choosing.symm.trans phase) (by decide)
  | @sample q | @sampleLast q | @charge q =>
      by_cases equal : p = q
      · subst equal
        exact .inl (by
          simpa [Core.sampleLast, Core.sample, Core.copyStats, Core.charge, Core.modPd] using runs)
      · exact .inl
          (by
            simpa [Core.sampleLast, Core.sample, Core.copyStats, Core.charge, Core.modPd,
              equal] using runs)
  | _ => exact .inl runs

end Frames

section Steps

/-- A program that was not enrolled was not charged. -/
theorem Life.Charged.uncharged (charged : a.Charged) (early : (a.place prog).enrolled = false) :
    a.core.Uncharged prog := by
  intro batches noted
  have late := charged.enrolled _ noted
  rw [early] at late
  exact absurd late (by decide)

theorem Core.charges_charge (core : Core) (prog : ProgPtr) (batches : List (Int × Nat)) :
    charges (core.charge prog batches).log = charges core.log ++ [(prog, batches)] := by
  simp [charge, BachScheduler.charges]

theorem Core.Uncharged.charge (before : core.Uncharged p) (other : p ≠ prog)
    (batches : List (Int × Nat)) : (core.charge prog batches).Uncharged p := by
  intro batches' member
  rcases List.mem_append.mp (core.charges_charge prog batches ▸ member) with old | new
  · exact before batches' old
  · exact absurd (Prod.mk.inj (List.mem_singleton.mp new)).1 other

/-- The batches of a charge were sampled. -/
theorem Core.Sampled.stamped {batches : List (Int × Nat)} (sampled : core.Sampled prog batches) :
    ∀ batch ∈ batches, ∃ i, core.cpus[i]? = some batch.1 ∧
      (core.pds prog).epoch i = some batch.2 := by
  obtain ⟨ran, rfl⟩ := sampled
  intro batch member
  obtain ⟨i, -, found⟩ := List.mem_filterMap.mp member
  simp only [Option.bind_eq_bind, Option.bind_eq_some_iff] at found
  obtain ⟨cpu, monitored, epoch, stamped, found⟩ := found
  split at found
  · obtain rfl : (cpu, epoch) = batch := Option.some.inj found
    exact ⟨i, monitored, stamped⟩
  · exact absurd found (by simp)

theorem Move.enrolled (move : Move exits a prog source target effect)
    (before : source.enrolled = true) :
    target.enrolled = true := by
  cases move with
  | finish phase allowed found runs => rfl
  | _ => first | rfl | exact absurd before (by decide)

theorem Move.from_all (move : Move exits a prog source target effect) (there : target = .sch) :
    source = .all := by
  cases move with
  | monitor => rfl
  | _ => exact absurd there (by decide)

/-- Where a program comes from whose clock ticks. -/
theorem Move.ticking (move : Move exits a prog source target effect) (ticks : target.ticks = true) :
    source.ticks = true ∨ source = .new := by
  cases move with
  | enter => exact .inr rfl
  | finish phase allowed found runs => rcases runs with rfl | rfl <;> exact .inl rfl
  | gather | monitor => exact .inl rfl
  | _ => exact absurd ticks (by decide)

theorem Life.Charged.move (charged : a.Charged) (clocked : a.Clocked) (here : a.place prog = source)
    (move : Move exits a prog source target effect) :
    ((a.transfer prog target).act effect).Charged := by
  have same := move.charges
  have stays : ∀ p, p ≠ prog → ((a.transfer prog target).act effect).place p = a.place p :=
    fun p differs => by
    simp [differs]
  have apart : ∀ p, p ≠ prog → (effect a.core).pds p = a.core.pds p := fun p differs =>
    (move.other differs).2
  have late : ∀ p, (((a.transfer prog target).act effect).place p).ticks = true →
      (a.place p).ticks = true ∨ a.core.Uncharged p := by
    intro p ticks
    by_cases equal : p = prog
    · subst equal
      rcases move.ticking (by simpa using ticks) with before | new
      · exact .inl (here ▸ before)
      · exact .inr (charged.uncharged (by rw [here, new]; rfl))
    · exact .inl (stays p equal ▸ ticks)
  constructor
  case zeroed =>
    intro p listed woken i
    by_cases equal : p = prog
    · subst equal
      have listed : target = .sch := by simpa using listed
      have choosing := move.chosen listed
      rcases woken with running | ⟨-, running⟩
      · exact absurd (choosing.symm.trans running) (by decide)
      · have all := move.from_all listed
        have stopped := (move.unclocked (p := p) fun _ => by rw [all]; decide).runStatus.trans
          (clocked.idle p (here.trans all))
        exact absurd (running.symm.trans stopped) (by decide)
    · have before := charged.zeroed p (stays p equal ▸ listed)
      simp only [Life.act_core, Life.transfer_core, Life.act_phase, Life.transfer_phase,
        apart p equal] at woken ⊢
      exact before woken i
  case sampled =>
    intro settling p listed i e stamped
    by_cases equal : p = prog
    · subst equal
      have choosing := move.chosen (by simpa using listed)
      exact absurd (choosing.symm.trans settling) (by decide)
    · simp only [Life.act_core, Life.transfer_core, apart p equal] at stamped
      have cpus : (effect a.core).inCpuset p i = a.core.inCpuset p i := by
        have cpus : (effect a.core).cpus = a.core.cpus := by cases move <;> rfl
        rw [Core.inCpuset, Core.inCpuset, (move.other equal).1, cpus]
      obtain ⟨now, covers⟩ := charged.sampled settling p (stays p equal ▸ listed) i e stamped
      exact ⟨now.trans same.epoch.symm, cpus.trans covers⟩
  case batches =>
    intro p ticks batches member batch among
    have member : (p, batches) ∈ charges a.core.log := same.charges ▸ member
    refine le_of_le_of_eq ?_ same.epoch.symm
    rcases late p ticks with before | uncharged
    · exact charged.batches p before batches member batch among
    · exact (uncharged batches member batch among).le
  case enrolled =>
    intro charge member
    have before := charged.enrolled charge (same.charges ▸ member)
    by_cases equal : charge.1 = prog
    · rw [equal] at before ⊢
      simpa using move.enrolled (here ▸ before)
    · exact (stays _ equal).symm ▸ before
  case due =>
    intro running p ticks
    refine same.uncharged ?_
    rcases late p ticks with before | uncharged
    · exact charged.due running p before
    · exact uncharged

/-- The samples of the programs on `progs_sch` when something happens without a move. -/
theorem Life.Charged.samples (charged : a.Charged) (act : Act a effect)
    (listed : a.place p = .sch) :
    (a.phase = .running ∨ a.phase = .choosing ∧ ((effect a.core).pds p).runStatus = .running →
      ∀ i, ((effect a.core).pds p).epoch i = none) ∧
    (a.phase = .settling → ∀ i e, ((effect a.core).pds p).epoch i = some e →
      e = a.core.sched.epoch ∧ (effect a.core).inCpuset p i = true) := by
  constructor
  · intro woken i
    have before : (∀ j, (a.core.pds p).epoch j = none) ∨
        ∀ j, ((effect a.core).pds p).epoch j = none := by
      rcases woken with running | ⟨choosing, running⟩
      · exact .inl (charged.zeroed p listed (.inl running))
      · exact (act.wakes choosing running).imp
          (fun runs => charged.zeroed p listed (.inr ⟨choosing, runs⟩)) id
    rcases before with before | after
    · refine Option.eq_none_iff_forall_ne_some.mpr fun e stamped => ?_
      rcases act.stamps listed stamped with old | ⟨settling, -⟩
      · exact absurd ((before i).symm.trans old) (by simp)
      · rcases woken with running | ⟨choosing, -⟩
        · exact absurd (settling.symm.trans running) (by decide)
        · exact absurd (settling.symm.trans choosing) (by decide)
    · exact after i
  · intro settling i e stamped
    rw [act.inCpuset]
    rcases act.stamps listed stamped with old | ⟨-, now⟩
    · exact charged.sampled settling p listed i e old
    · exact now

theorem Life.Charged.charge (charged : a.Charged) {batches : List (Int × Nat)}
    (act : Act a (Core.charge prog batches)) (sampled : a.core.Sampled prog batches)
    (listed : a.phase = .settling ∧ a.place prog = .sch ∨ a.place prog = .taken) :
    (a.act (Core.charge prog batches)).Charged := by
  have noted := a.core.charges_charge prog batches
  have taken : ∀ k : Place, k.ticks = true → a.place prog = k →
      a.phase = .settling ∧ a.place prog = .sch := by
    intro k ticks here
    refine listed.resolve_right fun there => ?_
    rw [← here, there] at ticks
    exact absurd ticks (by decide)
  constructor
  case zeroed => exact fun p listed => (charged.samples act listed).1
  case sampled => exact fun settling p listed => (charged.samples act listed).2 settling
  case batches =>
    intro p ticks batches' member batch among
    rcases List.mem_append.mp (noted ▸ member) with before | new
    · exact charged.batches p ticks batches' before batch among
    · obtain ⟨rfl, rfl⟩ := Prod.mk.inj (List.mem_singleton.mp new)
      obtain ⟨i, -, stamped⟩ := sampled.stamped batch among
      obtain ⟨settling, here⟩ := taken _ ticks rfl
      exact (charged.sampled settling p here i batch.2 stamped).1.le
  case enrolled =>
    intro charge member
    rcases List.mem_append.mp (noted ▸ member) with before | new
    · exact charged.enrolled charge before
    · obtain rfl := List.mem_singleton.mp new
      rcases listed with ⟨-, here⟩ | here <;> simp [here, Place.enrolled, Place.spared]
  case due =>
    intro running p ticks batches' member
    rcases List.mem_append.mp (noted ▸ member) with before | new
    · exact charged.due running p ticks batches' before
    · obtain ⟨rfl, rfl⟩ := Prod.mk.inj (List.mem_singleton.mp new)
      have settling := (taken _ ticks rfl).1
      exact absurd (settling.symm.trans running) (by decide)

theorem Life.Charged.act (charged : a.Charged) (act : Act a effect) : (a.act effect).Charged := by
  rcases act.charges with ⟨prog, batches, rfl, listed, sampled, -⟩ | same
  · exact charged.charge act sampled listed
  · constructor
    case zeroed => exact fun p listed => (charged.samples act listed).1
    case sampled =>
      intro settling p listed i e stamped
      rw [Life.act_core, same.epoch]
      exact (charged.samples act listed).2 settling i e stamped
    case batches =>
      intro p ticks batches member batch among
      rw [Life.act_core, same.epoch]
      exact charged.batches p ticks batches (same.charges ▸ member) batch among
    case enrolled => exact fun charge member => charged.enrolled charge (same.charges ▸ member)
    case due => exact fun running p ticks => same.uncharged (charged.due running p ticks)

/-- In the next counting epoch nobody that is still due was charged. -/
theorem Life.Charged.wake (charged : a.Charged) (choosing : a.phase = .choosing)
    (thawing : ∀ p, a.place p = .sch → a.Thawing p) :
    Life.Charged { a with phase := .running, core := a.core.newEpoch } where
  zeroed p listed _ := charged.zeroed p listed (.inr ⟨choosing, (thawing p listed).1.2⟩)
  sampled := nofun
  batches p ticks batches member batch among :=
    (charged.batches p ticks batches member batch among).trans (Nat.le_succ _)
  enrolled := charged.enrolled
  due _ p ticks batches member batch among :=
    Nat.lt_succ_of_le (charged.batches p ticks batches member batch among)

theorem Life.Charged.phase (charged : a.Charged) (phase : Phase)
    (frozen : ∀ p, a.place p = .sch → a.phase = .running ∧ phase = .settling)
    (idle : phase = .running → ∀ p, (a.place p).ticks = false) :
    Life.Charged { a with phase := phase } where
  zeroed p listed woken := by
    rcases woken with running | ⟨choosing, -⟩
    · exact absurd ((frozen p listed).2.symm.trans running) (by decide)
    · exact absurd ((frozen p listed).2.symm.trans choosing) (by decide)
  sampled _ p listed i e stamped :=
    absurd ((charged.zeroed p listed (.inl (frozen p listed).1) i).symm.trans stamped) (by simp)
  batches := charged.batches
  enrolled := charged.enrolled
  due running p ticks := absurd ((idle running p).symm.trans ticks) (by decide)

theorem Life.Charged.decide (charged : a.Charged) (clocked : a.Clocked)
    (choosing : a.phase = .choosing) {picked : List ProgPtr} (all : ∀ p ∈ picked, a.place p = .all)
    (idle : ∀ p, a.place p ≠ .sch) (on : Lists) (need : ProgPtr → Int) :
    Life.Charged
      { a with
        place := fun prog => if prog ∈ picked then .sch else a.place prog
        on := on
        core := a.core.assignAll need picked 0 } := by
  have same := Core.assignAll_uncharging a.core need picked 0
  have before : ∀ p (property : Place → Bool), property .sch = property .all →
      property (if p ∈ picked then .sch else a.place p) = property (a.place p) := by
    intro p property alike
    by_cases member : p ∈ picked
    · rw [if_pos member, all p member, alike]
    · rw [if_neg member]
  constructor
  case zeroed =>
    intro p listed woken
    have chosen : p ∈ picked := by
      by_contra outside
      exact idle p (by simpa [outside] using listed)
    have stopped := (Core.assignAll_unclocked a.core need picked 0 p).runStatus.trans
      (clocked.idle p (all p chosen))
    rcases woken with running | ⟨-, runs⟩
    · exact absurd (choosing.symm.trans running) (by decide)
    · exact absurd (runs.symm.trans stopped) (by decide)
  case sampled => exact fun settling => absurd (choosing.symm.trans settling) (by decide)
  case batches =>
    intro p ticks batches member batch among
    rw [same.epoch]
    exact charged.batches p (before p Place.ticks rfl ▸ ticks) batches
      (same.charges ▸ member) batch among
  case enrolled =>
    intro charge member
    exact (before charge.1 Place.enrolled rfl).trans
      (charged.enrolled charge (same.charges ▸ member))
  case due => exact fun running => absurd (choosing.symm.trans running) (by decide)

theorem Life.Charged.respawn (charged : a.Charged)
    (unborn : a.place a.core.progsAllocated = .unborn) {born : ProgCore} : Life.Charged
      { a with
        place := Function.update (Function.update a.place prog .spent)
          a.core.progsAllocated .waiting
        core := a.core.bear prog born } := by
  have noted : charges (a.core.bear prog born).log = charges a.core.log := by
    simp [Core.bear, charges]
  have earlier : ∀ p k, k ≠ .waiting → k ≠ .spent →
      Function.update (Function.update a.place prog .spent) a.core.progsAllocated .waiting p = k →
        a.place p = k ∧ p ≠ a.core.progsAllocated := by
    intro p k waits spent there
    rw [Function.update_apply, Function.update_apply] at there
    split_ifs at there with new equal
    · exact absurd there.symm waits
    · exact absurd there.symm spent
    · exact ⟨there, new⟩
  have ticking : ∀ p,
      (Function.update (Function.update a.place prog .spent) a.core.progsAllocated .waiting
        p).ticks = true →
        (a.place p).ticks = true := by
    intro p ticks
    rw [(earlier p _ (fun waits => ?_) (fun spent => ?_) rfl).1]
    · exact ticks
    · exact absurd (waits ▸ ticks) (by decide)
    · exact absurd (spent ▸ ticks) (by decide)
  constructor
  case zeroed =>
    intro p listed
    exact charged.zeroed p (earlier p .sch (by decide) (by decide) listed).1
  case sampled =>
    intro settling p listed i e stamped
    obtain ⟨before, old⟩ := earlier p .sch (by decide) (by decide) listed
    obtain ⟨now, covers⟩ := charged.sampled settling p before i e stamped
    refine ⟨now, ?_⟩
    rw [Core.inCpuset, show (a.core.bear prog born).progs p =
      a.core.progs p from Function.update_of_ne old _ _]
    exact covers
  case batches =>
    exact fun p ticks batches member => charged.batches p (ticking p ticks) batches (noted ▸ member)
  case enrolled =>
    intro charge member
    have before := charged.enrolled charge (noted ▸ member)
    dsimp only
    rw [Function.update_apply, Function.update_apply]
    split_ifs with new equal
    · rw [new, unborn] at before
      exact absurd before (by decide)
    · rfl
    · exact before
  case due =>
    exact fun running p ticks batches member =>
      charged.due running p (ticking p ticks) batches (noted ▸ member)

end Steps

end BachScheduler
