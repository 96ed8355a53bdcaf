import BachScheduler.Slots

/-!
# The monitoring phase

When all programs are there before the first quantum expires and none of them ends, they run
alone one after the other, in the order of the list, and each is sampled when its quantum is over.
`perf`, `perf_fair` and `fair_bw_cache` leave the phase then and never enter it again; `fair`
compares the window with twice the number of programs and goes on for another quantum.
-/

namespace BachScheduler

open BachScheduler.Ring Census Lineage Wp

variable {exits : ProgPtr → Place → Prop} {name : PolicyName} {start a b : Life} {prog : ProgPtr}
variable {source target : Place} {effect : Core → Core} {st st' : ExecState}
    {xs : List EvntPtr} {n e : Nat}
variable {confs : List ProgConf} {env : Env} {cpus : List Int} {targets : Int → Word64}
variable {ps done running ahead : List ProgPtr}

section Clocks

/-- Quanta and counting epochs only go on. -/
theorem Step.time_le (step : Step exits a b) :
    a.core.sched.totalTics ≤ b.core.sched.totalTics ∧ a.core.sched.epoch ≤ b.core.sched.epoch := by
  cases step with
  | move here move => cases move <;> exact ⟨le_rfl, le_rfl⟩
  | act act =>
      cases act with
      | tick => exact ⟨by simp [Core.tick, Core.modSched], le_rfl⟩
      | _ => exact ⟨le_rfl, le_rfl⟩
  | @decide picked rest =>
      have sched := Core.assignAll_sched a.core (fun p => (a.core.progs p).coresNeeded) picked 0
      exact ⟨(congrArg SchedCore.totalTics sched).ge, (congrArg SchedCore.epoch sched).ge⟩
  | wake => exact ⟨le_rfl, Nat.le_succ _⟩
  | _ => exact ⟨le_rfl, le_rfl⟩

theorem Steps.time_le (steps : Steps exits a b) :
    a.core.sched.totalTics ≤ b.core.sched.totalTics ∧ a.core.sched.epoch ≤ b.core.sched.epoch := by
  induction steps with
  | refl => exact ⟨le_rfl, le_rfl⟩
  | tail _ step ih => exact ⟨ih.1.trans step.time_le.1, ih.2.trans step.time_le.2⟩

/-- A quantum counts. -/
theorem Life.Quantum.totalTics_lt (quantum : a.Quantum name b) :
    a.core.sched.totalTics < b.core.sched.totalTics := by
  have later := quantum.1.time_le.1
  change a.core.sched.totalTics + 1 ≤ _ at later
  omega

end Clocks

section Early

/-- As long as no quantum has expired, the window has not moved and no program has run. -/
structure Life.Early (a : Life) : Prop where
  atLeast : -1 ≤ a.core.sched.totalTics
  idle : a.core.sched.totalTics = -1 → a.core.sched.stopExecution = true ∨
    a.core.sched.monitorWnd = 0 ∧ trials a.core.log = []

/-- Only a quantum has to do with the monitoring. -/
theorem Round.cases_quantum (round : Round exits name a b) :
    a.Settled ∧ a.Quantum name b ∨ a.Calm b := by
  cases round with
  | quantum phase settled quantum => exact .inl ⟨settled, quantum⟩
  | rebalance busy steps calm => exact .inr calm
  | arrive here => exact .inr (.still rfl rfl rfl)
  | exit here allowed move => exact .inr (.still (by simp [Core.recordEnd, trials]) rfl rfl)
  | wait prog => exact .inr (.still (by simp [Core.note, trials]) rfl rfl)
  | terminate => exact .inr (.still rfl rfl rfl)

theorem Life.Early.round (early : a.Early) (round : Round exits name a b) : b.Early := by
  have later := round.steps.time_le.1
  refine ⟨early.atLeast.trans later, fun first => ?_⟩
  rcases round.cases_quantum with ⟨-, quantum⟩ | calm
  · have before := early.atLeast
    have counts := quantum.totalTics_lt
    omega
  · have before := early.atLeast
    rcases early.idle (by omega) with stopped | ⟨window, none⟩
    · exact .inl (calm.stays stopped)
    · refine calm.same.imp_right fun same => ⟨same.trans window, calm.trials.trans none⟩

theorem Life.Early.rounds (early : a.Early) (rounds : Rounds exits name a b) : b.Early := by
  induction rounds with
  | refl => exact early
  | tail _ round ih => exact ih.round round

theorem Life.Boots.early (boots : a.Boots cpus confs targets) : a.Early where
  atLeast := boots.totalTics.ge
  idle _ := by
    refine .inr ⟨boots.monitorWnd, List.filterMap_eq_nil_iff.mpr fun event noted => ?_⟩
    have early := boots.parsed.early event noted
    cases event <;> first | rfl | exact absurd early (by simp [Event.early])

end Early

section Roots

/-- As long as all programs of the file are live, there are no others. -/
theorem Life.Lined.only_roots (lined : a.Lined n) (roots : ∀ p < n, (a.place p).live = true) :
    a.core.progsAllocated = n := by
  refine le_antisymm (Nat.not_lt.mp fun more => ?_) lined.ordered.roots
  obtain ⟨old, heir⟩ := lined.ordered.parent n more le_rfl
  obtain ⟨-, -, id⟩ := lined.ordered.heirs old n heir
  have born : old < a.line.born := (lined.ordered.heirs old n heir).1.trans more
  have range := lined.ordered.slot_range more
  have root : (slot idUserOffset n (a.line.id n)).toNat < n := (Int.toNat_lt range.1).mpr range.2
  have same : slot idUserOffset n (a.line.id n) =
      slot idUserOffset n (a.line.id (slot idUserOffset n (a.line.id n)).toNat) := by
    rw [lined.ordered.slot_root root, Int.toNat_of_nonneg range.1]
  have below := lined.ordered.latest _ (roots _ root) n more same
  have above := lined.ordered.base_le old born
  rw [lined.ordered.rootId _ root] at below
  omega

/-- No more programs count for `progs_nr` than there are slots. -/
theorem Life.Lined.progsNr_le (lined : a.Lined n) (sound : a.Sound) (settled : a.Settled) :
    a.core.sched.progsNr ≤ n := by
  have left := lined.progsLeft sound
  have counted := sound.counter .progsLeft
  have fewer : a.core.sched.progsNr ≤ a.core.sched.progsLeft := by
    refine (sound.counter .progsNr).trans_le (le_trans ?_ counted.ge)
    refine Finset.sum_le_sum fun p _ => ?_
    have stays := settled p
    revert stays
    cases a.place p <;> simp [Counter.weight, Place.settled]
  refine fewer.trans ?_
  rw [left]
  have within : {i : Nat | i < n ∧ ∃ p, (a.place p).live = true ∧ a.core.slotOf n p = i} ⊆
      Finset.range n := by
    intro i member
    exact Finset.mem_coe.mpr (Finset.mem_range.mpr member.1)
  have card := Set.ncard_le_ncard within (Finset.finite_toSet _)
  rw [Set.ncard_coe_finset, Finset.card_range] at card
  exact Int.ofNat_le.mpr card

end Roots

section Turn

/-- What solo quanta of these programs leave behind when they follow one another and each is
sampled, `e` counting epochs after the start. -/
def soloTrials (e : Nat) : List ProgPtr → List Trial
  | [] => []
  | prog :: later => .run prog (e + 1) :: .sampled prog :: soloTrials (e + 1) later

theorem soloTrials_append (e : Nat) (ps later : List ProgPtr) :
    soloTrials e (ps ++ later) = soloTrials e ps ++ soloTrials (e + ps.length) later := by
  induction ps generalizing e with
  | nil => rfl
  | cons prog rest ih =>
      simp only [List.cons_append, soloTrials, ih, List.length_cons, Nat.add_assoc, Nat.add_comm 1]

/-- The monitoring phase: the programs of `done` have run, one is `running` alone, the ones `ahead`
still have to run. -/
structure Life.Trying (e : Nat) (done running ahead : List ProgPtr) (a : Life) : Prop where
  all : a.on .progsAll = ahead ++ done
  sch : a.on .progsSch = running
  alone : (done = [] ∧ running = []) ∨ ∃ cur, running = [cur]
  progsNr : a.core.sched.progsNr = (done ++ running ++ ahead).length
  monitorWnd : a.core.sched.monitorWnd = (done ++ running).length
  totalTics : a.core.sched.totalTics = (done ++ running).length - 1
  epoch : a.core.sched.epoch = e + (done ++ running).length
  noted : trials a.core.log = soloTrials e done ++ running.map (Trial.run · (e + done.length + 1))

/-- The monitoring phase is over, and all that has run since then did so after counting epoch `e`
and was not sampled. -/
structure Life.Tried (n : Nat) (first : List Trial) (e : Nat) (a : Life) : Prop where
  noted : ∃ more, trials a.core.log = first ++ more ∧
    ∀ trial ∈ more, ∃ prog later, trial = .run prog later ∧ e < later
  monitorWnd : n < a.core.sched.monitorWnd
  totalTics : n ≤ a.core.sched.totalTics
  epoch : e ≤ a.core.sched.epoch

/-- The window stays where it is as long as the run goes on, so that no program is chosen by
`monitor`. -/
def Life.Shut (n : Nat) (a : Life) : Prop :=
  a.core.sched.stopExecution = true ∨ a.core.sched.monitorWnd = n + 1

/-- The window is compared with the programs once, or with twice as many under `fair`. -/
theorem PolicyName.windowFactor_cases (name : PolicyName) :
    name.policy.windowFactor = 1 ∨ name.policy.windowFactor = 2 := by
  cases name <;> decide

namespace Life.Trying

variable {frozen scheduled : Life} {next : ProgPtr} {later : List ProgPtr}

theorem monitoring (trying : a.Trying e done running ahead) :
    (a.act Core.tick).core.Monitoring := by
  change a.core.sched.monitorWnd ≤ a.core.sched.progsNr
  rw [trying.monitorWnd, trying.progsNr]
  exact Int.ofNat_le.mpr (List.sublist_append_left (done ++ running) ahead).length_le

theorem sampled (trying : a.Trying e done running ahead)
    (freezes : (a.act Core.tick).Frozen name frozen) :
    frozen.on .progsAll = ahead ++ (done ++ running) ∧
      trials frozen.core.log = soloTrials e (done ++ running) := by
  have all := freezes.all trying.monitoring
  have samples := freezes.trials trying.monitoring
  change frozen.on .progsAll = a.on .progsAll ++ a.on .progsSch at all
  change trials frozen.core.log = trials a.core.log ++ (a.on .progsSch).map Trial.sampled at samples
  rw [trying.all, trying.sch, List.append_assoc] at all
  rw [trying.noted, trying.sch] at samples
  refine ⟨all, samples.trans ?_⟩
  rcases trying.alone with ⟨rfl, rfl⟩ | ⟨cur, rfl⟩
  · rfl
  · simp [soloTrials_append, soloTrials]

/-- What `freeze_sched` does to the window. -/
theorem frozen_sched (trying : a.Trying e done running ahead)
    (freezes : (a.act Core.tick).Frozen name frozen) :
    frozen.core.sched.progsNr = a.core.sched.progsNr ∧
      frozen.core.sched.epoch = a.core.sched.epoch ∧
      frozen.core.sched.totalTics = a.core.sched.totalTics + 1 ∧
      frozen.core.sched.monitorWnd =
        if a.core.sched.monitorWnd = name.policy.windowFactor * a.core.sched.progsNr
          then a.core.sched.monitorWnd + 1 else a.core.sched.monitorWnd := by
  obtain ⟨prfEpoch, sched⟩ := freezes.sched trying.monitoring
  rw [sched]
  exact ⟨rfl, rfl, rfl, rfl⟩

/-- The phase lasts until the last program was sampled, and under `fair` for one quantum more. -/
theorem goes_on (trying : a.Trying e done running ahead)
    (freezes : (a.act Core.tick).Frozen name frozen) (some : done ++ running ++ ahead ≠ [])
    (open_ : ahead ≠ [] ∨ name.policy.windowFactor = 2) :
    frozen.core.Monitoring ∧ frozen.core.sched.monitorWnd = (done ++ running).length := by
  obtain ⟨progsNr, -, -, monitorWnd⟩ := trying.frozen_sched freezes
  rw [trying.progsNr] at progsNr monitorWnd
  rw [trying.monitorWnd] at monitorWnd
  have sum : (done ++ running ++ ahead).length = (done ++ running).length + ahead.length :=
    List.length_append
  have positive := List.length_pos_of_ne_nil some
  have differs : ((done ++ running).length : Int) ≠ name.policy.windowFactor *
      (done ++ running ++ ahead).length := by
    rcases name.windowFactor_cases with once | twice
    · have more := List.length_pos_of_ne_nil (open_.resolve_right (by simp [once]))
      rw [once]
      omega
    · rw [twice]
      omega
  rw [if_neg differs] at monitorWnd
  refine ⟨?_, monitorWnd⟩
  unfold Core.Monitoring
  omega

/-- Otherwise it ends when the last program was sampled. -/
theorem ends (trying : a.Trying e done running []) (freezes : (a.act Core.tick).Frozen name frozen)
    (once : name.policy.windowFactor = 1) :
    ¬ frozen.core.Monitoring ∧ frozen.core.sched.monitorWnd = (done ++ running).length + 1 := by
  obtain ⟨progsNr, -, -, monitorWnd⟩ := trying.frozen_sched freezes
  rw [trying.progsNr, List.append_nil] at progsNr monitorWnd
  rw [trying.monitorWnd, once, one_mul, if_pos rfl] at monitorWnd
  refine ⟨?_, monitorWnd⟩
  unfold Core.Monitoring
  omega

/-- The next program runs alone. -/
theorem turn (trying : a.Trying e done running (next :: later)) (quantum : a.Quantum name b) :
    b.Trying e (done ++ running) [next] later := by
  obtain ⟨-, frozen, scheduled, freezes, schedules, thaws⟩ := quantum
  obtain ⟨all, noted⟩ := trying.sampled freezes
  obtain ⟨progsNr, epoch, totalTics, -⟩ := trying.frozen_sched freezes
  obtain ⟨monitors, monitorWnd⟩ := trying.goes_on freezes (by simp) (.inl (by simp))
  obtain ⟨first, rest, split, left, picked, sched⟩ := schedules.monitored monitors
  rw [all, List.cons_append, List.cons.injEq] at split
  obtain ⟨rfl, rfl⟩ := split
  have length : (done ++ running ++ [next]).length = (done ++ running).length + 1 :=
    List.length_append
  constructor
  case all => rw [thaws.on, left]
  case sch => rw [thaws.on, picked]
  case alone => exact .inr ⟨next, rfl⟩
  case progsNr =>
    rw [thaws.sched, sched]
    exact (progsNr.trans trying.progsNr).trans (by simp)
  case monitorWnd =>
    rw [thaws.sched, sched, length]
    exact (congrArg (· + 1) monitorWnd).trans (Int.natCast_succ _).symm
  case totalTics =>
    rw [thaws.sched, sched, length]
    have before := trying.totalTics
    change frozen.core.sched.totalTics = _
    push_cast
    omega
  case epoch =>
    rw [thaws.sched, sched, length]
    exact congrArg (· + 1) (epoch.trans trying.epoch)
  case noted =>
    rw [thaws.trials, schedules.trials, noted, picked, sched, List.map_singleton,
      List.map_singleton]
    rw [show frozen.core.sched.epoch = _ from epoch.trans trying.epoch]

/-- Behind its last program the phase is over. -/
theorem leave (trying : a.Trying e done running []) (once : name.policy.windowFactor = 1)
    (quantum : a.Quantum name b) : b.Tried (done ++ running).length (soloTrials e (done ++ running))
      (e + (done ++ running).length) ∧
      b.Shut (done ++ running).length := by
  obtain ⟨-, frozen, scheduled, freezes, schedules, thaws⟩ := quantum
  obtain ⟨-, noted⟩ := trying.sampled freezes
  obtain ⟨progsNr, epoch, totalTics, -⟩ := trying.frozen_sched freezes
  obtain ⟨ordinary, monitorWnd⟩ := trying.ends freezes once
  have same := schedules.ordinary ordinary
  have window : b.core.sched.monitorWnd = (done ++ running).length + 1 := by
    rw [thaws.sched, same]
    exact monitorWnd
  refine ⟨?_, .inr window⟩
  constructor
  case noted =>
    refine ⟨(scheduled.on .progsSch).map (Trial.run · (scheduled.core.sched.epoch + 1)), ?_,
      fun trial ran => ?_⟩
    · rw [thaws.trials, schedules.trials, noted]
    · obtain ⟨prog, -, rfl⟩ := List.mem_map.mp ran
      refine ⟨prog, _, rfl, ?_⟩
      rw [same, epoch, trying.epoch]
      exact Nat.lt_succ_self _
  case monitorWnd =>
    rw [window]
    exact lt_add_one _
  case totalTics =>
    rw [thaws.sched, same]
    change _ ≤ frozen.core.sched.totalTics
    have before := trying.totalTics
    omega
  case epoch =>
    rw [thaws.sched, same]
    change _ ≤ frozen.core.sched.epoch + 1
    rw [epoch, trying.epoch]
    exact Nat.le_succ _

/-- Under `fair` the first program runs alone once more, and the phase is over before this quantum
could be sampled. -/
theorem again {head : ProgPtr} (trying : a.Trying e done running [])
    (starts : done ++ running = head :: later) (twice : name.policy.windowFactor = 2)
    (quantum : a.Quantum name b) :
    b.Tried (done ++ running).length
      (soloTrials e (done ++ running) ++ [.run head (e + (done ++ running).length + 1)])
      (e + (done ++ running).length + 1) := by
  obtain ⟨-, frozen, scheduled, freezes, schedules, thaws⟩ := quantum
  obtain ⟨all, noted⟩ := trying.sampled freezes
  obtain ⟨-, epoch, totalTics, -⟩ := trying.frozen_sched freezes
  obtain ⟨monitors, monitorWnd⟩ := trying.goes_on freezes (by simp [starts]) (.inr twice)
  obtain ⟨first, rest, split, left, picked, sched⟩ := schedules.monitored monitors
  rw [all, List.nil_append, starts, List.cons.injEq] at split
  obtain ⟨rfl, rfl⟩ := split
  constructor
  case noted =>
    refine ⟨[], ?_, by simp⟩
    rw [thaws.trials, schedules.trials, noted, picked, sched, List.map_singleton, List.append_nil]
    rw [show frozen.core.sched.epoch = _ from epoch.trans trying.epoch]
  case monitorWnd =>
    rw [thaws.sched, sched]
    change _ < frozen.core.sched.monitorWnd + 1
    omega
  case totalTics =>
    rw [thaws.sched, sched]
    change _ ≤ frozen.core.sched.totalTics
    have before := trying.totalTics
    omega
  case epoch =>
    rw [thaws.sched, sched]
    change _ ≤ frozen.core.sched.epoch + 1
    rw [epoch, trying.epoch]

end Life.Trying

section Tried

variable {first : List Trial}

/-- There are never as many programs again as the window is wide. -/
theorem Life.Tried.ordinary (tried : a.Tried n first e) (lined : a.Lined n) (sound : a.Sound)
    (settled : a.Settled) : ¬ (a.act Core.tick).core.Monitoring := by
  have few := lined.progsNr_le sound settled
  have wide := tried.monitorWnd
  change ¬ a.core.sched.monitorWnd ≤ a.core.sched.progsNr
  omega

/-- The decision of a quantum after the monitoring. -/
theorem Life.Tried.decision (tried : a.Tried n first e) (lined : a.Lined n) (sound : a.Sound)
    (settled : a.Settled) {frozen : Life} (freezes : (a.act Core.tick).Frozen name frozen) :
    ¬ frozen.core.Monitoring := by
  have ordinary := tried.ordinary lined sound settled
  obtain ⟨-, -, fewer, -⟩ := freezes.ordinary ordinary
  have wider := freezes.window
  unfold Core.Monitoring at ordinary ⊢
  omega

/-- Nothing brings the monitoring back. -/
theorem Life.Tried.round (tried : a.Tried n first e) (lined : a.Lined n) (sound : a.Sound)
    (round : Round exits name a b) : b.Tried n first e := by
  have later := round.steps.time_le
  obtain ⟨more, noted, runs⟩ := tried.noted
  have totalTics := tried.totalTics.trans later.1
  have epoch := tried.epoch.trans later.2
  rcases round.cases_quantum with ⟨settled, -, frozen, scheduled, freezes, schedules, thaws⟩ | calm
  · obtain ⟨same, -, -, still⟩ := freezes.ordinary (tried.ordinary lined sound settled)
    have sched := schedules.ordinary (tried.decision lined sound settled freezes)
    refine ⟨⟨more ++ (scheduled.on .progsSch).map (Trial.run · (scheduled.core.sched.epoch + 1)),
      ?_,
      fun trial ran => ?_⟩, ?_, totalTics, epoch⟩
    · rw [thaws.trials, schedules.trials, same, ← List.append_assoc]
      exact congrArg (· ++ _) noted
    · rcases List.mem_append.mp ran with before | now
      · exact runs trial before
      · obtain ⟨prog, -, rfl⟩ := List.mem_map.mp now
        refine ⟨prog, _, rfl, ?_⟩
        rw [sched, still]
        exact Nat.lt_succ_of_le tried.epoch
    · rw [thaws.sched, sched]
      exact tried.monitorWnd.trans_le freezes.window
  · exact ⟨⟨more, calm.trials.trans noted, runs⟩, tried.monitorWnd.trans_le calm.window,
      totalTics, epoch⟩

theorem Life.Shut.round (shut : a.Shut n) (tried : a.Tried n first e) (lined : a.Lined n)
    (sound : a.Sound) (once : name.policy.windowFactor = 1) (round : Round exits name a b) :
    b.Shut n := by
  rcases shut with stopped | width
  · exact .inl (round.steps.stays_stopped stopped)
  rcases round.cases_quantum with ⟨settled, -, frozen, scheduled, freezes, schedules, thaws⟩ | calm
  · have ordinary := tried.ordinary lined sound settled
    obtain ⟨-, window, fewer, -⟩ := freezes.ordinary ordinary
    have differs : (a.act Core.tick).core.sched.monitorWnd ≠ name.policy.windowFactor *
        frozen.core.sched.progsNr := by
      unfold Core.Monitoring at ordinary
      rw [once]
      omega
    refine .inr ?_
    rw [thaws.sched, schedules.ordinary (tried.decision lined sound settled freezes)]
    exact (window.trans (if_neg differs)).trans width
  · exact calm.same.imp_right fun same => same.trans width

end Tried

end Turn

section Standing

/-- Who runs alone a second time: under `fair` the first program. -/
def PolicyName.twice (name : PolicyName) (ps : List ProgPtr) : List ProgPtr :=
  if name = .fair then ps.take 1 else []

/-- The solo quanta of a run of a policy. -/
def PolicyName.solo (name : PolicyName) (e : Nat) (ps : List ProgPtr) : List Trial :=
  soloTrials e ps ++ (name.twice ps).map (Trial.run · (e + ps.length + 1))

/-- Where the monitoring of the programs `ps` stands. -/
def Life.Monitors (name : PolicyName) (e : Nat) (ps : List ProgPtr) (a : Life) : Prop :=
  (∃ done running ahead, ps = done ++ running ++ ahead ∧ a.Trying e done running ahead) ∨
    a.Tried ps.length (name.solo e ps) (e + ps.length + (name.twice ps).length) ∧
      (name ≠ .fair → a.Shut ps.length)

theorem PolicyName.windowFactor_eq (name : PolicyName) :
    name.policy.windowFactor = if name = .fair then 2 else 1 := by
  cases name <;> rfl

/-- The programs that are monitored are all programs, and they run or rest. -/
theorem Life.Trying.places (trying : a.Trying e done running ahead) (sound : a.Sound)
    (lined : a.Lined n) (roots : ∀ p < n, p ∈ done ++ running ++ ahead) (p : ProgPtr) :
    a.place p = .all ∨ a.place p = .sch ∨ a.place p = .unborn := by
  have there : ∀ p < n, a.place p = .all ∨ a.place p = .sch := fun p root => by
    have listed := roots p root
    simp only [List.mem_append] at listed
    have home : p ∈ a.on .progsAll ∨ p ∈ a.on .progsSch := by
      rw [trying.all, trying.sch, List.mem_append]
      tauto
    rw [sound.listed.mem .progsAll (by simp [lifeHeads]),
      sound.listed.mem .progsSch (by simp [lifeHeads])] at home
    revert home
    cases a.place p <;> simp [Place.home]
  have allocated := lined.only_roots fun p root => by
    rcases there p root with here | here <;> simp [here, Place.live]
  by_cases root : p < n
  · exact (there p root).imp_right .inl
  · exact .inr (.inr ((sound.unborn p).mpr (allocated.trans_le (Nat.not_lt.mp root))))

/-- As long as no exit comes in, only the quanta change how far the monitoring has come. -/
theorem Life.Trying.round (trying : a.Trying e done running ahead) (sound : a.Sound)
    (lined : a.Lined n) (roots : ∀ p < n, p ∈ done ++ running ++ ahead)
    (round : Round unheard name a b) :
    a.Quantum name b ∨ b.Trying e done running ahead := by
  have places := trying.places sound lined roots
  cases round with
  | quantum phase settled quantum => exact .inl quantum
  | @arrive prog here =>
      have place := places prog
      rw [here] at place
      exact absurd place (by decide)
  | exit here allowed move => exact allowed.elim
  | rebalance busy steps calm =>
      obtain ⟨prog, leaves⟩ := busy
      rcases places prog with here | here | here <;>
      · rw [here] at leaves
        exact absurd leaves (by decide)
  | wait prog =>
      refine .inr { trying with noted := ?_ }
      refine Eq.trans ?_ trying.noted
      simp [Core.note, trials]
  | terminate => exact .inr { trying with }

/-- Behind the monitoring any round may come. -/
theorem Life.Monitors.finished {first : List Trial}
    (ended : a.Tried n first e ∧ (name ≠ .fair → a.Shut n)) (sound : a.Sound) (lined : a.Lined n)
    (round : Round exits name a b) : b.Tried n first e ∧ (name ≠ .fair → b.Shut n) := by
  obtain ⟨tried, shut⟩ := ended
  refine ⟨tried.round lined sound round, fun other => (shut other).round tried lined sound ?_ round⟩
  rw [name.windowFactor_eq, if_neg other]

theorem Life.Monitors.finished_rounds {first : List Trial}
    (ended : a.Tried n first e ∧ (name ≠ .fair → a.Shut n)) (sound : a.Sound) (lined : a.Lined n)
    (rounds : Rounds exits name a b) :
    b.Tried n first e ∧ (name ≠ .fair → b.Shut n) := by
  induction rounds with
  | refl => exact ended
  | tail before round ih =>
      have steps := Rounds.steps before
      exact Life.Monitors.finished ih (sound.steps steps) (lined.steps sound steps) round

/-- A round without exits leads on in the monitoring. -/
theorem Life.Monitors.round (monitors : a.Monitors name e ps) (sound : a.Sound)
    (lined : a.Lined ps.length) (roots : ∀ p < ps.length, p ∈ ps) (some : ps ≠ [])
    (round : Round unheard name a b) : b.Monitors name e ps := by
  rcases monitors with ⟨done, running, ahead, split, trying⟩ | tried
  · rcases trying.round sound lined (split ▸ roots) round with quantum | same
    · cases ahead with
      | cons next later =>
          exact .inl ⟨done ++ running, [next], later, by simpa using split, trying.turn quantum⟩
      | nil =>
          rw [List.append_nil] at split
          subst split
          refine .inr ?_
          unfold PolicyName.solo PolicyName.twice
          by_cases fair : name = .fair
          · obtain ⟨head, later, starts⟩ := List.exists_cons_of_ne_nil some
            have twice : name.policy.windowFactor = 2 := by rw [name.windowFactor_eq, if_pos fair]
            have again := trying.again starts twice quantum
            rw [if_pos fair]
            rw [starts] at again ⊢
            exact ⟨again, fun other => absurd fair other⟩
          · have once : name.policy.windowFactor = 1 := by rw [name.windowFactor_eq, if_neg fair]
            simpa [fair] using trying.leave once quantum
    · exact .inl ⟨done, running, ahead, split, same⟩
  · exact .inr (Life.Monitors.finished tried sound lined round)

theorem Life.Monitors.rounds (monitors : a.Monitors name e ps) (sound : a.Sound)
    (lined : a.Lined ps.length) (roots : ∀ p < ps.length, p ∈ ps) (some : ps ≠ [])
    (rounds : Rounds unheard name a b) : b.Monitors name e ps := by
  induction rounds with
  | refl => exact monitors
  | tail before round ih =>
      have steps := Rounds.steps before
      exact ih.round (sound.steps steps) (lined.steps sound steps) roots some round

end Standing

section Runs

/-- How a quantum begins, and whether its decision is made in the monitoring phase. -/
def quantumMonitors (policy : Policy) : Exec Bool := do
  modifySched fun sched => { sched with totalTics := sched.totalTics + 1 }
  modify fun st => { st with totalQuantums := st.totalQuantums + 1 }
  freezeSched policy
  monitoringPhase

theorem qexpired_eq (policy : Policy) (now : Timeval) : qexpired policy now = (do
    let _ ← quantumMonitors policy
    policy.schedule
    thawSched
    rearm now) := by
  simp only [qexpired, quantumMonitors, bind_assoc]
  rfl

/-- The decision of the quantum that expires between two handlers. -/
theorem Between.quantumMonitors_spec (between : Between exits name start st a) :
    wp (quantumMonitors name.policy)
      (fun monitors _ => ∃ frozen, (a.act Core.tick).Frozen name frozen ∧
      monitors = decide frozen.core.Monitoring) Astray st := by
  obtain ⟨xs, shows_, settled⟩ := between
  refine Acts.before (modifySched_acts (g := fun sched =>
    { sched with totalTics := sched.totalTics + 1 }) fun _ => rfl) fun _ st₁ ticked => ?_
  have counted : Acts view
      (modify fun st => { st with totalQuantums := st.totalQuantums + 1 } : Exec Unit) id :=
    Acts.modify fun _ => rfl
  refine counted.before fun _ st₂ same => ?_
  have tracks := shows_.tracks.reroot.act .tick ticked
  refine Wp.bind ((tracks.quiet same).freezeSched_spec shows_.phase settled.none)
    fun _ st₃ freezes => ?_
  obtain ⟨frozen, tracks', freezes⟩ := freezes
  exact (of_ok tracks'.monitoringPhase_run).mpr ⟨frozen, freezes, rfl⟩

/-- The state shows how far the monitoring of the programs has come. -/
def Stands (name : PolicyName) (e : Nat) (ps : List ProgPtr) (st : ExecState) : Prop :=
  ∃ a, Between anywhere name a st a ∧ a.Lined ps.length ∧ a.Monitors name e ps

/-- One handler, in which nothing ends before the monitoring is over. -/
theorem Stands.handle (stands : Stands name e ps st) (roots : ∀ p < ps.length, p ∈ ps)
    (some : ps ≠ [])
    (input : Input)
    (quiet : ∀ reports, input = .sigchld reports → st.sched.totalTics < (ps.length : Int) →
      recordedExits reports st.runningNr = [])
    (run : handle name.policy input st = .ok () st') : Stands name e ps st' := by
  obtain ⟨a, between, lined, monitors⟩ := stands
  have sound : a.Sound := by
    obtain ⟨xs, shows_, -⟩ := between
    exact shows_.tracks.sound
  have core : (view st).core = a.core := by
    obtain ⟨xs, shows_, -⟩ := between
    exact shows_.tracks.core
  have goes : ∀ exits, a.Hears exits input → ∃ b, Between anywhere name b st' b ∧
      Rounds exits name a b := by
    intro exits hears
    obtain ⟨b, xs, shows_, settled⟩ :=
      (Wp.of_ok run).mp ((between.reroot exits).handle_spec input hears)
    exact ⟨b, Between.reroot ⟨xs, shows_, settled⟩ anywhere, shows_.rounds⟩
  rcases monitors with ⟨done, running, ahead, split, trying⟩ | tried
  · have early : st.sched.totalTics < (ps.length : Int) := by
      have totalTics := trying.totalTics
      have same : st.sched.totalTics = a.core.sched.totalTics :=
        congrArg (fun core => core.sched.totalTics) core
      have fewer : (done ++ running).length ≤ ps.length := by
        rw [split]
        exact (List.sublist_append_left _ ahead).length_le
      omega
    have hears : a.Hears unheard input := by
      cases input with
      | sigchld reports =>
          have silent := quiet reports rfl early
          have same : st.runningNr = a.core.runningNr := congrArg Core.runningNr core
          intro shell reported
          rw [← same, silent] at reported
          exact absurd reported List.not_mem_nil
      | _ => trivial
    obtain ⟨b, between', rounds⟩ := goes unheard hears
    exact ⟨b, between', lined.steps sound rounds.steps,
      Life.Monitors.rounds (.inl ⟨done, running, ahead, split, trying⟩) sound lined
        roots some rounds⟩
  · have hears : a.Hears anywhere input := by
      cases input with
      | sigchld reports => exact fun _ _ _ _ => trivial
      | _ => trivial
    obtain ⟨b, between', rounds⟩ := goes anywhere hears
    exact ⟨b, between', lined.steps sound rounds.steps,
      .inr (Life.Monitors.finished_rounds tried sound lined rounds)⟩

/-- All programs rest on `progs_all` in the order of `ps` before the first quantum, and none ends
before the quantum behind theirs. -/
structure Undisturbed (name : PolicyName) (confs : List ProgConf) (targets : Int → Word64)
    (env : Env) (cpus : List Int) (early later : List Input) (ps : List ProgPtr) (mid : ExecState) :
    Prop where
  run : runExecutor name.policy confs targets early (ExecState.start env cpus) = .ok () mid
  first : mid.sched.totalTics = -1
  listed : IsRing mid.links .progsAll (ps.map Node.plNode)
  present : ∀ p < confs.length, p ∈ ps
  some : confs ≠ []
  quiet : ∀ before reports after here, later = before ++ .sigchld reports :: after →
    before.forM (handle name.policy) mid = .ok () here →
      here.sched.totalTics < (confs.length : Int) →
    recordedExits reports here.runningNr = []

variable {early later : List Input} {mid : ExecState}

/-- Before the first quantum all programs are still ahead. -/
theorem Undisturbed.starts
    (undisturbed : Undisturbed name confs targets env cpus early later ps mid) :
    ps.Perm (List.range confs.length) ∧ Stands name mid.sched.cntrs.epoch ps mid := by
  obtain ⟨a, b, boots, xs, shows_, settled⟩ :=
    runExecutor_between (heard_anywhere name confs targets env cpus early) undisturbed.run
  have tracks := shows_.tracks
  have sound := tracks.sound
  have lined := boots.lined.steps boots.sound tracks.steps
  have member : Node.progsAll ∈ lifeHeads := by simp [lifeHeads]
  have all : b.on .progsAll = ps :=
    List.map_injective_iff.mpr (fun _ _ => Node.plNode.inj)
      ((tracks.ring member).unique undisturbed.listed)
  have here : ∀ p < confs.length, b.place p = .all := fun p root =>
    tracks.place_all (all ▸ undisturbed.present p root)
  have allocated : b.core.progsAllocated = confs.length := lined.only_roots fun p root => by
    rw [here p root]
    rfl
  have perm : ps.Perm (List.range confs.length) := by
    refine (List.perm_ext_iff_of_nodup (all ▸ sound.listed.nodup .progsAll member)
      List.nodup_range).mpr fun p => ?_
    rw [List.mem_range]
    refine ⟨fun listed => ?_, undisturbed.present p⟩
    exact allocated ▸ sound.allocated (by simp [tracks.place_all (all.symm ▸ listed)])
  have length : ps.length = confs.length := perm.length_eq.trans List.length_range
  have core (f : Core → Int) : f (view mid).core = f b.core := congrArg f tracks.core
  have totalTics : b.core.sched.totalTics = -1 :=
    (core fun core => core.sched.totalTics).symm.trans undisturbed.first
  have idle : b.core.sched.monitorWnd = 0 ∧ trials b.core.log = [] := by
    refine ((boots.early.rounds shows_.rounds).idle totalTics).resolve_left fun stopped => ?_
    have root : 0 < confs.length := List.length_pos_of_ne_nil undisturbed.some
    have live := sound.stopped stopped 0
    rw [here 0 root] at live
    exact absurd live (by decide)
  refine ⟨perm, b, ⟨xs, ⟨⟨.refl, sound, tracks.models⟩, .refl, shows_.phase⟩, settled⟩,
    length ▸ lined,
    .inl ⟨[], [], ps, rfl, ?_⟩⟩
  constructor
  case all => rw [all, List.append_nil]
  case sch =>
    refine List.eq_nil_iff_forall_not_mem.mpr fun p listed => ?_
    have there := tracks.place_sch listed
    have root : p < confs.length := allocated ▸ sound.allocated (by simp [there])
    rw [here p root] at there
    exact absurd there (by decide)
  case alone => exact .inl ⟨rfl, rfl⟩
  case progsNr =>
    have counts : ∀ p ∈ Finset.range confs.length,
        Counter.weight .progsNr (b.place p) = 1 := fun p root => by
      rw [here p (Finset.mem_range.mp root)]
      rfl
    refine (sound.counter .progsNr).trans ?_
    rw [tally, allocated, Finset.sum_congr rfl counts, Finset.sum_const, Finset.card_range,
      nsmul_eq_mul, mul_one]
    exact congrArg Nat.cast length.symm
  case monitorWnd => exact idle.1
  case totalTics => exact totalTics
  case epoch => exact (congrArg (fun core => core.sched.epoch) tracks.core).symm
  case noted => exact idle.2

/-- The state at the end of a run shows how far the monitoring has come. -/
theorem Undisturbed.stands
    (undisturbed : Undisturbed name confs targets env cpus early later ps mid)
    (run : later.forM (handle name.policy) mid = .ok () st) :
    Stands name mid.sched.cntrs.epoch ps st := by
  obtain ⟨perm, starts⟩ := undisturbed.starts
  have length : ps.length = confs.length := perm.length_eq.trans List.length_range
  have roots : ∀ p < ps.length, p ∈ ps := length ▸ undisturbed.present
  have some : ps ≠ [] := by
    refine List.ne_nil_of_length_pos ?_
    rw [length]
    exact List.length_pos_of_ne_nil undisturbed.some
  have quiet := undisturbed.quiet
  rw [← length] at quiet
  generalize mid.sched.cntrs.epoch = e at starts ⊢
  clear undisturbed perm
  induction later generalizing mid with
  | nil =>
      cases run
      exact starts
  | cons input later ih =>
      change (handle name.policy input >>= fun _ => later.forM (handle name.policy)) mid = _ at run
      simp only [Bind.bind, EStateM.bind] at run
      cases handled : handle name.policy input mid with
      | error stop here => simp [handled] at run
      | ok _ here =>
          rw [handled] at run
          refine ih run (fun before reports after there split ran => ?_)
            (starts.handle roots some input (fun reports same early => ?_) handled)
          · refine quiet (input :: before) reports after there (by rw [split]; rfl) ?_
            change (handle name.policy input >>= fun _ => before.forM (handle name.policy)) mid = _
            simp only [Bind.bind, EStateM.bind, handled]
            exact ran
          · exact quiet [] reports later mid (by rw [same]; rfl) rfl early

/-- How far the monitoring has come is told by the quanta that have expired. -/
theorem Life.Trying.position {cur : ProgPtr} (trying : a.Trying e done running ahead)
    {before after : List ProgPtr} (split : done ++ running ++ ahead = before ++ cur :: after)
    (expired : a.core.sched.totalTics = before.length) :
    done = before ∧ running = [cur] ∧ ahead = after := by
  have totalTics := trying.totalTics
  have length : (done ++ running).length = (before ++ [cur]).length := by
    rw [@List.length_append _ before, List.length_singleton]
    omega
  have split : (done ++ running) ++ ahead = (before ++ [cur]) ++ after := by simpa using split
  obtain ⟨first, rfl⟩ := List.append_inj split length
  rcases trying.alone with ⟨rfl, rfl⟩ | ⟨now, rfl⟩
  · exact absurd first (by simp)
  · obtain ⟨rfl, last⟩ := List.append_inj' first rfl
    exact ⟨rfl, last, rfl⟩

/-- The decision of a quantum, as long as the monitoring goes on. -/
theorem Life.Trying.decision (trying : a.Trying e done running ahead)
    (some : done ++ running ++ ahead ≠ []) {frozen : Life}
    (freezes : (a.act Core.tick).Frozen name frozen) :
    frozen.core.Monitoring ↔ ahead ≠ [] ∨ name = .fair := by
  have factor := name.windowFactor_eq
  constructor
  · intro monitors
    by_contra ended
    obtain ⟨last, other⟩ := not_or.mp ended
    obtain rfl := not_not.mp last
    exact (trying.ends freezes (factor.trans (if_neg other))).1 monitors
  · intro open_
    refine (trying.goes_on freezes some (open_.imp_right fun fair => ?_)).1
    exact factor.trans (if_pos fair)

/-- What the state tells about the monitoring, and about the decision of the quantum that expires
now. -/
theorem Stands.reads (stands : Stands name e ps st) (some : ps ≠ []) :
    (∃ done running ahead, ps = done ++ running ++ ahead ∧
      st.sched.totalTics = (done ++ running).length - 1 ∧
      (∀ before cur after, ps = before ++ cur :: after → st.sched.totalTics = before.length →
        done = before ∧ running = [cur] ∧ ahead = after) ∧
      trials st.log = soloTrials e done ++ running.map (Trial.run · (e + done.length + 1)) ∧
      ∀ monitors st', quantumMonitors name.policy st = .ok monitors st' →
        (monitors = true ↔ ahead ≠ [] ∨ name = .fair)) ∨
    ((∃ more, trials st.log = name.solo e ps ++ more ∧
        ∀ trial ∈ more, ∃ prog later, trial = .run prog later ∧
          e + ps.length + (name.twice ps).length < later) ∧
      ps.length ≤ st.sched.totalTics ∧ st.sched.progsNr < st.sched.monitorWnd ∧
      (name ≠ .fair → st.sched.stopExecution = true ∨ st.sched.monitorWnd = ps.length + 1) ∧
      ∀ monitors st', quantumMonitors name.policy st = .ok monitors st' → monitors = false) := by
  obtain ⟨a, between, lined, monitors⟩ := stands
  have decides := between.quantumMonitors_spec
  obtain ⟨xs, shows_, settled⟩ := between
  have core := shows_.tracks.core
  have sound := shows_.tracks.sound
  have log : st.log = a.core.log := congrArg Core.log core
  have totalTics : st.sched.totalTics = a.core.sched.totalTics :=
    congrArg (fun core => core.sched.totalTics) core
  have monitorWnd : st.sched.monitorWnd = a.core.sched.monitorWnd :=
    congrArg (fun core => core.sched.monitorWnd) core
  have progsNr : st.sched.progsNr = a.core.sched.progsNr :=
    congrArg (fun core => core.sched.progsNr) core
  have stopExecution : st.sched.stopExecution = a.core.sched.stopExecution :=
    congrArg (fun core => core.sched.stopExecution) core
  rw [log, totalTics, monitorWnd, progsNr, stopExecution]
  rcases monitors with ⟨done, running, ahead, split, trying⟩ | ⟨tried, shut⟩
  · refine .inl ⟨done, running, ahead, split, trying.totalTics, fun before cur after same expired =>
      ?_, trying.noted,
      fun monitors st' run => ?_⟩
    · exact trying.position (split.symm.trans same) expired
    · obtain ⟨frozen, freezes, rfl⟩ := (Wp.of_ok run).mp decides
      rw [decide_eq_true_iff]
      exact trying.decision (split ▸ some) freezes
  · refine .inr ⟨tried.noted, tried.totalTics, ?_, shut, fun monitors st' run => ?_⟩
    · exact not_le.mp (tried.ordinary lined sound settled)
    · obtain ⟨frozen, freezes, rfl⟩ := (Wp.of_ok run).mp decides
      exact decide_eq_false (tried.decision lined sound settled freezes)

/-- The monitoring of `perf`, `perf_fair` and `fair_bw_cache`: each program runs alone once and is
sampled, in the order of the list; the decision behind the last of them is an ordinary one, and so
is every later one. -/
theorem monitors_each_once (name : PolicyName) (other : name ≠ .fair) (confs : List ProgConf)
    (targets : Int → Word64) (env : Env) (cpus : List Int) (early later : List Input)
    (ps : List ProgPtr) (mid st : ExecState)
    (undisturbed : Undisturbed name confs targets env cpus early later ps mid)
    (run : later.forM (handle name.policy) mid = .ok () st) :
    ps.Perm (List.range confs.length) ∧
      (st.sched.totalTics = -1 → trials st.log = [] ∧
        ∀ monitors st', quantumMonitors name.policy st = .ok monitors st' → monitors = true) ∧
      (∀ done cur ahead, ps = done ++ cur :: ahead → st.sched.totalTics = done.length →
        trials st.log = soloTrials mid.sched.cntrs.epoch done ++
          [.run cur (mid.sched.cntrs.epoch + done.length + 1)] ∧
        ∀ monitors st', quantumMonitors name.policy st = .ok monitors st' →
          (monitors = true ↔ ahead ≠ [])) ∧
      (confs.length ≤ st.sched.totalTics →
        (∃ more, trials st.log = soloTrials mid.sched.cntrs.epoch ps ++ more ∧ ∀ trial ∈ more,
          ∃ prog epoch, trial = .run prog epoch ∧ mid.sched.cntrs.epoch + confs.length < epoch) ∧
        st.sched.progsNr < st.sched.monitorWnd ∧
        (st.sched.stopExecution = true ∨ st.sched.monitorWnd = confs.length + 1) ∧
        ∀ monitors st', quantumMonitors name.policy st = .ok monitors st' → monitors = false) := by
  obtain ⟨perm, -⟩ := undisturbed.starts
  have length : ps.length = confs.length := perm.length_eq.trans List.length_range
  have some : 0 < ps.length := length ▸ List.length_pos_of_ne_nil undisturbed.some
  refine ⟨perm, ?_⟩
  rcases (undisturbed.stands run).reads (List.ne_nil_of_length_pos some) with
    ⟨done, running, ahead, split, totalTics, position, noted, decides⟩ | ⟨noted, late, fewer,
      shut, decides⟩
  · have sum : ps.length = (done ++ running).length + ahead.length :=
      (congrArg List.length split).trans List.length_append
    have first : st.sched.totalTics = -1 → done = [] ∧ running = [] := fun first =>
      List.append_eq_nil_iff.mp (List.length_eq_zero_iff.mp (by omega))
    refine ⟨fun none => ?_, fun before cur after same expired => ?_, fun late =>
      absurd late (by omega)⟩
    · obtain ⟨rfl, rfl⟩ := first none
      have left : ahead ≠ [] := fun nil => by
        rw [nil, List.append_nil, List.length_nil] at sum
        omega
      exact ⟨noted, fun monitors st' decided => (decides monitors st' decided).mpr (.inl left)⟩
    · obtain ⟨rfl, rfl, rfl⟩ := position before cur after same expired
      exact ⟨noted, fun monitors st' decided =>
        (decides monitors st' decided).trans (or_iff_left other)⟩
  · have once : name.twice ps = [] := if_neg other
    rw [PolicyName.solo, once] at noted
    rw [length] at shut
    refine ⟨fun none => absurd late (by omega), fun before cur after same expired => ?_, fun _ =>
      ?_⟩
    · have sum : ps.length = before.length + (after.length + 1) :=
        (congrArg List.length same).trans List.length_append
      exact absurd late (by omega)
    · exact ⟨by simpa [length] using noted, fewer, shut other, decides⟩

/-- No exit comes in where no `SIGCHLD` does. -/
theorem quiet_of_events {policy : Policy} {bound : Int}
    (none : ∀ reports, Input.sigchld reports ∉ later) (before : List Input)
    (reports : List WaitStatus) (after : List Input) (here : ExecState)
    (split : later = before ++ .sigchld reports :: after)
    (_ : before.forM (handle policy) mid = .ok () here) (_ : here.sched.totalTics < bound) :
    recordedExits reports here.runningNr = [] :=
  absurd (split ▸ List.mem_append_right before List.mem_cons_self) (none reports)

/-- Two programs under `perf_fair`: both run together in the third quantum. -/
theorem monitors_each_once_two : ∃ mid st,
    Undisturbed .perfFair [.single, .single] (fun _ => 2000000000) .slow
      [0, 1, 2, 3, 4, 5] [.events] [.events, .events, .events, .events] [0, 1] mid ∧
    [.events, .events, .events, .events].forM (handle PolicyName.perfFair.policy) mid = .ok () st ∧
    (∃ more, trials st.log = [.run 0 2, .sampled 0, .run 1 3, .sampled 1] ++ more) ∧
    st.sched.progsNr < st.sched.monitorWnd := by
  obtain ⟨mid, first, begins⟩ := exists_of_returnsWith (by decide +kernel :
    returnsWith
      (runExecutor PolicyName.perfFair.policy [.single, .single] (fun _ => 2000000000) [.events])
      (ExecState.start .slow [0, 1, 2, 3, 4, 5])
      (fun mid => mid.sched.totalTics = -1 ∧ IsRing mid.links .progsAll ([0, 1].map Node.plNode) ∧
        mid.sched.cntrs.epoch = 1 ∧
        returnsWith ([.events, .events, .events, .events].forM (handle PolicyName.perfFair.policy))
          mid
          (fun st => st.sched.totalTics = 2) = true) = true)
  obtain ⟨totalTics, listed, epoch, goes⟩ := of_decide_eq_true begins
  obtain ⟨st, run, expired⟩ := exists_of_returnsWith goes
  have undisturbed : Undisturbed .perfFair [.single, .single] (fun _ => 2000000000) .slow
      [0, 1, 2, 3, 4, 5]
      [.events] [.events, .events, .events, .events] [0, 1] mid :=
    ⟨first, totalTics, listed, by decide, by decide, quiet_of_events (by simp)⟩
  obtain ⟨-, -, -, ended⟩ := monitors_each_once .perfFair (by decide) _ _ _ _ _ _ _ mid st
    undisturbed run
  obtain ⟨⟨more, noted, -⟩, fewer, -⟩ := ended (of_decide_eq_true expired).ge
  rw [epoch] at noted
  exact ⟨mid, st, undisturbed, run, ⟨more, noted⟩, fewer⟩

/-- `fair` follows the others up to the decision behind the last program, which it still makes in
the monitoring phase: the first program runs alone once more, and this quantum is never sampled. -/
theorem fair_monitors_once_more (name : PolicyName) (confs : List ProgConf) (targets : Int → Word64)
    (env : Env) (cpus : List Int) (early later : List Input) (ps : List ProgPtr)
    (mid st : ExecState) (undisturbed : Undisturbed name confs targets env cpus early later ps mid)
    (run : later.forM (handle name.policy) mid = .ok () st) :
    (st.sched.totalTics = confs.length - 1 →
      ∀ monitors st', quantumMonitors name.policy st = .ok monitors st' →
        (monitors = true ↔ name = .fair)) ∧
      (name = .fair → confs.length ≤ st.sched.totalTics →
        (∃ head others more, ps = head :: others ∧
          trials st.log = soloTrials mid.sched.cntrs.epoch ps ++
            .run head (mid.sched.cntrs.epoch + confs.length + 1) :: more ∧
          ∀ trial ∈ more, ∃ prog epoch, trial = .run prog epoch ∧
            mid.sched.cntrs.epoch + confs.length + 1 < epoch) ∧
        ∀ monitors st', quantumMonitors name.policy st = .ok monitors st' → monitors = false) := by
  obtain ⟨perm, -⟩ := undisturbed.starts
  have length : ps.length = confs.length := perm.length_eq.trans List.length_range
  have some : 0 < ps.length := length ▸ List.length_pos_of_ne_nil undisturbed.some
  rcases (undisturbed.stands run).reads (List.ne_nil_of_length_pos some) with
    ⟨done, running, ahead, split, totalTics, position, noted, decides⟩ | ⟨noted, late,
      fewer, -, decides⟩
  · have sum : ps.length = (done ++ running).length + ahead.length :=
      (congrArg List.length split).trans List.length_append
    refine ⟨fun expired monitors st' decided => ?_, fun _ late => absurd late (by omega)⟩
    have last : ahead = [] := List.length_eq_zero_iff.mp (by omega)
    exact (decides monitors st' decided).trans (or_iff_right (not_not.mpr last))
  · refine ⟨fun expired => absurd late (by omega), fun fair _ => ⟨?_, decides⟩⟩
    obtain ⟨head, others, rfl⟩ := List.exists_cons_of_ne_nil (List.ne_nil_of_length_pos some)
    have again : name.twice (head :: others) = [head] := if_pos fair
    obtain ⟨more, noted, runs⟩ := noted
    rw [PolicyName.solo, again, length] at noted
    rw [again, length] at runs
    exact ⟨head, others, more, rfl, by simpa using noted, runs⟩

/-- Under `fair` the first of two programs runs alone in the third quantum. -/
theorem fair_monitors_once_more_two :
    ∃ mid st, Undisturbed .fair [.single, .single] (fun _ => 2000000000) .slow
      [0, 1, 2, 3, 4, 5] [.events] [.events, .events, .events, .events, .events] [0, 1] mid ∧
    [.events, .events, .events, .events, .events].forM
    (handle PolicyName.fair.policy) mid = .ok () st ∧
    ∃ head more, trials st.log = [.run 0 2, .sampled 0, .run 1 3, .sampled 1] ++
      .run head 4 :: more ∧
      ∀ trial ∈ more, ∃ prog epoch, trial = .run prog epoch ∧ 4 < epoch := by
  obtain ⟨mid, first, begins⟩ := exists_of_returnsWith (by decide +kernel :
    returnsWith
      (runExecutor PolicyName.fair.policy [.single, .single] (fun _ => 2000000000) [.events])
      (ExecState.start .slow [0, 1, 2, 3, 4, 5])
      (fun mid => mid.sched.totalTics = -1 ∧ IsRing mid.links .progsAll ([0, 1].map Node.plNode) ∧
        mid.sched.cntrs.epoch = 1 ∧
        returnsWith
          ([.events, .events, .events, .events, .events].forM (handle PolicyName.fair.policy)) mid
          (fun st => st.sched.totalTics = 3) = true) = true)
  obtain ⟨totalTics, listed, epoch, goes⟩ := of_decide_eq_true begins
  obtain ⟨st, run, expired⟩ := exists_of_returnsWith goes
  have undisturbed : Undisturbed .fair [.single, .single] (fun _ => 2000000000) .slow
      [0, 1, 2, 3, 4, 5]
      [.events] [.events, .events, .events, .events, .events] [0, 1] mid :=
    ⟨first, totalTics, listed, by decide, by decide, quiet_of_events (by simp)⟩
  have late : ([.single, .single] : List ProgConf).length ≤ st.sched.totalTics := by
    rw [of_decide_eq_true expired]
    decide
  obtain ⟨-, ended⟩ := fair_monitors_once_more .fair _ _ _ _ _ _ _ mid st undisturbed run
  obtain ⟨⟨head, others, more, -, noted, runs⟩, -⟩ := ended rfl late
  rw [epoch] at noted runs
  exact ⟨mid, st, undisturbed, run, head, more, noted, runs⟩

/-- Two programs are there before the first quantum and none ends.  In the third quantum `perf_fair`
lets both run, but `fair` the first one alone, and does not sample it when this quantum is over. -/
theorem fair_monitors_third_quantum :
    (∃ st, runExecutor PolicyName.perfFair.policy [.single, .single] (fun _ => 2000000000)
        (List.replicate 5 .events) (ExecState.start .slow [0, 1, 2, 3, 4, 5]) = .ok () st ∧
      trials st.log = [.run 0 2, .sampled 0, .run 1 3, .sampled 1, .run 1 4, .run 0 4]) ∧
    (∃ st, runExecutor PolicyName.fair.policy [.single, .single] (fun _ => 2000000000)
        (List.replicate 5 .events) (ExecState.start .slow [0, 1, 2, 3, 4, 5]) = .ok () st ∧
      trials st.log = [.run 0 2, .sampled 0, .run 1 3, .sampled 1, .run 0 4]) ∧
    ∃ st, runExecutor PolicyName.fair.policy [.single, .single] (fun _ => 2000000000)
        (List.replicate 6 .events) (ExecState.start .slow [0, 1, 2, 3, 4, 5]) = .ok () st ∧
      trials st.log =
        [.run 0 2, .sampled 0, .run 1 3, .sampled 1, .run 0 4, .run 1 5, .run 0 5] := by
  refine ⟨?_, ?_, ?_⟩
  · obtain ⟨st, run, noted⟩ := exists_of_returnsWith (by decide +kernel :
      returnsWith (runExecutor PolicyName.perfFair.policy [.single, .single] (fun _ => 2000000000)
        (List.replicate 5 .events)) (ExecState.start .slow [0, 1, 2, 3, 4, 5])
        (fun st => trials st.log =
          [.run 0 2, .sampled 0, .run 1 3, .sampled 1, .run 1 4, .run 0 4]) = true)
    exact ⟨st, run, of_decide_eq_true noted⟩
  · obtain ⟨st, run, noted⟩ := exists_of_returnsWith (by decide +kernel :
      returnsWith (runExecutor PolicyName.fair.policy [.single, .single] (fun _ => 2000000000)
        (List.replicate 5 .events)) (ExecState.start .slow [0, 1, 2, 3, 4, 5])
        (fun st => trials st.log = [.run 0 2, .sampled 0, .run 1 3, .sampled 1, .run 0 4]) = true)
    exact ⟨st, run, of_decide_eq_true noted⟩
  · obtain ⟨st, run, noted⟩ := exists_of_returnsWith (by decide +kernel :
      returnsWith (runExecutor PolicyName.fair.policy [.single, .single] (fun _ => 2000000000)
        (List.replicate 6 .events)) (ExecState.start .slow [0, 1, 2, 3, 4, 5])
        (fun st => trials st.log =
          [.run 0 2, .sampled 0, .run 1 3, .sampled 1, .run 0 4, .run 1 5, .run 0 5]) = true)
    exact ⟨st, run, of_decide_eq_true noted⟩

end Runs

end BachScheduler
