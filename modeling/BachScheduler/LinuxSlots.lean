import BachScheduler.LinuxRuns

/-!
# Instances and slots under the `linux` policy

The instances of a slot come one after the other, as under the other policies.  A slot is retired
when its program has met its target in a quantum, or has ended in time for the last time; it is
retired once if the exit of a killed program comes in before the next quantum expires.
-/

namespace BachScheduler

open BachScheduler.Ring Census Lineage Wp

variable {strict : Prop} {heard : ProgPtr → Prop} {rules : LinuxRules} {start a b : LinuxLife}
    {st st' : ExecState} {xs : List EvntPtr}
variable {prog : ProgPtr} {source target : Place} {effect : LinuxCore → LinuxCore} {n : Nat}
variable {confs : List ProgConf} {env : Env} {cpus : List Int} {targets : Int → Rat}
    {inputs : List Input}

section Instances

/-- A program that waits, is new or is on the list of the scheduler holds its slot. -/
theorem LinuxTracks.holds_of_present (tracks : LinuxTracks rules start st xs a) {p : ProgPtr}
    (present : st.Present xs a.on [.linuxProgs] p) : (a.place p).holds = true := by
  have mem : ∀ head ∈ linuxHeads, p ∈ a.on head ↔
      (a.place p).linuxHome = some head := fun head member =>
    tracks.fits.listed.mem head member p
  rw [ExecState.Present, waits_iff_waiting tracks.queue, mem _ (by simp [linuxHeads])] at present
  simp only [List.mem_singleton, exists_eq_left, mem .linuxProgs (by simp [linuxHeads])] at present
  revert present
  cases a.place p <;> simp [Place.linuxHome, Place.holds, Place.live]

/-- The instances in a run under the `linux` policy. -/
theorem LinuxLife.Boots.instances (boots : a.Boots cpus confs)
    (tracks : LinuxTracks rules a st xs b) :
    st.Holds linuxHeads xs b.on ∧
      st.Instances confs.length (st.Present xs b.on [.linuxProgs]) fun p =>
        (st.linuxData p).initId := by
  have lined := boots.lined.steps boots.fits tracks.steps
  have core : st.core = b.core.core := congrArg LinuxCore.core tracks.core
  have log : st.log = b.core.core.log := congrArg Core.log core
  have ids : ∀ p, (st.progs p).id = (b.core.core.progs p).id := fun p =>
    congrArg (fun core => (core.progs p).id) core
  refine ⟨⟨tracks.queue.valid, fun _ member => tracks.ring member⟩,
    instances_of_ordered lined.ordered tracks.progsAllocated.symm (fun p => (ids p).symm)
      (fun p q => by rw [log]; rfl)
      (fun p present => tracks.holds_of_present present) (fun p enrolled => ?_) ?_⟩
  · rw [ids p, ← lined.initId p (lined.enrolled p (log ▸ enrolled)), ← tracks.core]
    rfl
  · rw [core, log]
    exact lined.always

/-- The instances of the programs of a file keep to their slots, under each policy. -/
theorem instances_keep_slots (confs : List ProgConf) (some : confs ≠ []) (inputs : List Input)
    (env : Env) (cpus : List Int) (st : ExecState) :
    (∀ name targets,
      (runExecutor (PolicyName.policy name) confs targets inputs
        (ExecState.start env cpus) = .ok () st ∨
        ∃ status, runExecutor name.policy confs targets inputs (ExecState.start env cpus) =
          .error (.exit status) st) →
      ∃ queue on, st.Holds lifeHeads queue on ∧
        st.Instances confs.length (st.Present queue on [.progsAll, .progsSch]) fun p =>
          (st.pds p).initId) ∧
    ∀ targets,
      (runLinux confs targets inputs (ExecState.start env cpus) = .ok () st ∨
        ∃ status, runLinux confs targets inputs (ExecState.start env cpus) =
          .error (.exit status) st) →
      ∃ queue on, st.Holds linuxHeads queue on ∧
        st.Instances confs.length (st.Present queue on [.linuxProgs]) fun p =>
          (st.linuxData p).initId := by
  constructor
  · intro name targets reached
    have reaches : Reaches name confs targets env cpus inputs st := reached
    obtain ⟨a, b, boots, between⟩ := reaches.between
    exact boots.instances between
  · intro targets reached
    have reaches : LinuxReaches confs targets env cpus inputs st := by
      rcases reached with run | ⟨status, run⟩
      · exact .inl run
      · exact .inr ⟨.exit status, run, by simp [Astray]⟩
    obtain ⟨a, b, xs, boots, tracks⟩ := reaches.tracks False some fun never => never.elim
    exact ⟨xs, b.on, boots.instances tracks⟩

/-- The second instance of the first of two programs has its slot, under `perf` and under
`linux`. -/
theorem instances_keep_slots_two :
    (∃ st, runExecutor PolicyName.perf.policy [.single, .single] (fun _ => 2000000000)
        [.events, .sigchld [.exited 0], .events]
        (ExecState.start (Env.counting 5) [0, 1, 2]) = .ok () st ∧
      .respawned 0 2 ∈ st.log ∧ ((st.progs 2).id - idUserOffset).tmod 2 = 0) ∧
    ∃ st, runLinux [.single, .single] (fun _ => 2) [.events, .sigchld [.exited 0], .events]
        (ExecState.start (Env.counting 5) [0, 1, 2]) = .ok () st ∧
      .respawned 0 2 ∈ st.log ∧ ((st.progs 2).id - idUserOffset).tmod 2 = 0 := by
  constructor
  · obtain ⟨st, run, respawned⟩ := exists_of_returnsWith (by decide +kernel :
      returnsWith (runExecutor PolicyName.perf.policy [.single, .single] (fun _ => 2000000000)
          [.events, .sigchld [.exited 0], .events])
        (ExecState.start (Env.counting 5) [0, 1, 2])
        (fun st => .respawned 0 2 ∈ st.log ∧ 2 < st.progsAllocated) = true)
    obtain ⟨heir, born⟩ := of_decide_eq_true respawned
    obtain ⟨queue, on, -, instances⟩ :=
      (instances_keep_slots [.single, .single] (by decide) _ _ _ st).1 .perf _ (.inl run)
    exact ⟨st, run, heir, instances.slot 2 born 0 (by decide) (.single heir)⟩
  · obtain ⟨st, run, respawned⟩ := exists_of_returnsWith (by decide +kernel :
      returnsWith
        (runLinux [.single, .single] (fun _ => 2) [.events, .sigchld [.exited 0], .events])
        (ExecState.start (Env.counting 5) [0, 1, 2])
        (fun st => .respawned 0 2 ∈ st.log ∧ 2 < st.progsAllocated) = true)
    obtain ⟨heir, born⟩ := of_decide_eq_true respawned
    obtain ⟨queue, on, -, instances⟩ :=
      (instances_keep_slots [.single, .single] (by decide) _ _ _ st).2 _ (.inl run)
    exact ⟨st, run, heir, instances.slot 2 born 0 (by decide) (.single heir)⟩

end Instances

section Retirement

/-- The instances of a run, of which those are live that have not been killed. -/
def LinuxLife.users (a : LinuxLife) : Line :=
  { a.line with live := fun p => (a.place p).live = true }

/-- Each slot is retired once, and `progs_left` counts those that are left. -/
structure LinuxLife.Counted (n : Nat) (a : LinuxLife) : Prop where
  ordered : a.users.Ordered idUserOffset n
  retired : a.users.Retired idUserOffset n (retirees a.core.core.log)
  left : a.core.progsLeft + (retirees a.core.core.log).length = n

theorem LinuxLife.Lined.users (lined : a.Lined n) : a.users.Ordered idUserOffset n := by
  refine lined.ordered.fade rfl (fun _ _ => rfl) (fun p live => ?_) fun _ _ => Iff.rfl
  have live : (a.place p).live = true := live
  change (a.place p).holds = true
  revert live
  cases a.place p <;> simp [Place.holds, Place.live]

/-- Whether an event changes which instances use their slots, or is the end of the run. -/
def Event.settles (event : Event) : Bool :=
  event.births || event.retires || event.closes

theorem LinuxLife.Counted.fade (counted : a.Counted n) {events : List Event}
    (follows : a.core.Follows b.core events) (plain : ∀ event ∈ events, event.births = false)
    (fewer : ∀ p, (b.place p).live = true → (a.place p).live = true) :
    b.users.Ordered idUserOffset n := by
  refine counted.ordered.fade follows.progsAllocated (fun p _ => follows.id p) fewer fun p q => ?_
  change Event.respawned p q ∈ b.core.core.log ↔ Event.respawned p q ∈ a.core.core.log
  rw [follows.log, List.mem_append]
  exact or_iff_left fun noted => absurd (plain _ noted) (by simp [Event.births])

theorem LinuxLife.Counted.keep (counted : a.Counted n) {events : List Event}
    (follows : a.core.Follows b.core events)
    (plain : ∀ event ∈ events, event.births = false ∧ event.retires = false)
    (left : b.core.progsLeft = a.core.progsLeft)
    (fewer : ∀ p, (b.place p).live = true → (a.place p).live = true) : b.Counted n := by
  have same : retirees b.core.core.log = retirees a.core.core.log := by
    rw [follows.log, retirees_append, retirees_nil_of_plain fun event noted =>
      (plain event noted).2, List.append_nil]
  refine ⟨counted.fade follows (fun event noted => (plain event noted).1) fewer, ?_, ?_⟩
  · rw [same]
    exact counted.retired.fade follows.progsAllocated follows.id fewer
  · rw [same, left]
    exact counted.left

theorem LinuxLife.Counted.retire (counted : a.Counted n)
    (follows : a.core.Follows b.core [.retired prog]) (live : (a.place prog).live = true)
    (left : b.core.progsLeft = a.core.progsLeft - 1)
    (fewer : ∀ p, (b.place p).live = true → (a.place p).live = true ∧ p ≠ prog) : b.Counted n := by
  have more : retirees b.core.core.log = retirees a.core.core.log ++ [prog] := by
    rw [follows.log, retirees_append]
    rfl
  refine ⟨counted.fade follows (by simp [Event.births]) fun p isLive => (fewer p isLive).1, ?_, ?_⟩
  · rw [more]
    exact counted.retired.retire counted.ordered live follows.progsAllocated follows.id fewer
  · have before := counted.left
    rw [more, List.length_append, List.length_singleton, left]
    omega

theorem LinuxLife.Counted.kill (counted : a.Counted n) (live : (a.place prog).live = true) :
    (a.kill prog).Counted n := by
  refine counted.retire (.kill a.core prog) live rfl fun p isLive => ?_
  by_cases equal : p = prog
  · simp [equal, Place.live] at isLive
  · exact ⟨by simpa [equal] using isLive, equal⟩

/-- Each of the programs killed in a quantum retires its slot. -/
theorem LinuxLife.Counted.kills {doomed : List ProgPtr} (counted : a.Counted n)
    (nodup : doomed.Nodup) (live : ∀ p ∈ doomed, (a.place p).live = true) :
    (doomed.foldl LinuxLife.kill a).Counted n := by
  induction doomed generalizing a with
  | nil => exact counted
  | cons prog later ih =>
      obtain ⟨fresh, nodup⟩ := List.nodup_cons.mp nodup
      refine ih (counted.kill (live prog List.mem_cons_self)) nodup fun p member => ?_
      have differs : p ≠ prog := fun equal => fresh (equal ▸ member)
      simpa [differs] using live p (List.mem_cons_of_mem _ member)

/-- As long as a program is live, a slot is left. -/
theorem LinuxLife.Counted.progsLeft_pos (counted : a.Counted n)
    (live : (a.place prog).live = true) :
    0 < a.core.progsLeft := by
  have fewer := counted.retired.length_lt counted.ordered live
  have left := counted.left
  omega

/-- Each slot is retired once, and the totals are printed when the last one is. -/
structure LinuxLife.Exact (n : Nat) (a : LinuxLife) : Prop where
  counted : a.Counted n
  printed : a.core.core.log.count .printTotals = if a.core.progsLeft ≤ 0 then 1 else 0

theorem LinuxLife.Exact.keep (exact_ : a.Exact n) {events : List Event}
    (follows : a.core.Follows b.core events) (plain : ∀ event ∈ events, event.settles = false)
    (left : b.core.progsLeft = a.core.progsLeft)
    (fewer : ∀ p, (b.place p).live = true → (a.place p).live = true) : b.Exact n where
  counted := by
    refine exact_.counted.keep follows (fun event noted => ?_) left fewer
    have quiet := plain event noted
    simp only [Event.settles, Bool.or_eq_false_iff] at quiet
    exact quiet.1
  printed := by
    have none : events.count .printTotals = 0 := List.count_eq_zero.mpr fun noted =>
      absurd (plain _ noted) (by simp [Event.settles, Event.closes])
    rw [follows.log, List.count_append, none, left]
    exact exact_.printed

/-- Both hooks settle the accounts after slots have been retired. -/
theorem LinuxLife.Counted.settle (counted : a.Counted n)
    (unprinted : a.core.core.log.count .printTotals = 0) :
    (a.act LinuxCore.settle).Exact n := by
  have follows := LinuxCore.Follows.settle a.core
  have left := a.core.settle_same.2.2.1
  refine ⟨counted.keep follows (fun event noted => ?_) left fun _ live => live, ?_⟩
  · split at noted
    · rw [List.mem_singleton.mp noted]
      exact ⟨rfl, rfl⟩
    · exact absurd noted (by simp)
  · rw [LinuxLife.act_core, follows.log, List.count_append, unprinted, left]
    by_cases none : a.core.progsLeft ≤ 0 <;> simp [none]

/-- As long as a program is live, the totals have not been printed. -/
theorem LinuxLife.Exact.unprinted (exact_ : a.Exact n) (live : (a.place prog).live = true) :
    a.core.core.log.count .printTotals = 0 := by
  have some := exact_.counted.progsLeft_pos live
  rw [exact_.printed, if_neg (by omega)]

/-- A program that has ended retires its slot. -/
theorem LinuxLife.Exact.conclude (exact_ : a.Exact n) (here : a.place prog = .finished) :
    ((a.transfer prog .gone).act (LinuxCore.conclude prog)).Exact n := by
  have live : (a.place prog).live = true := by
    rw [here]
    rfl
  have retired : ((a.transfer prog .gone).act (LinuxCore.retire prog)).Counted n := by
    refine exact_.counted.retire (.retire a.core prog) live rfl fun p isLive => ?_
    by_cases equal : p = prog
    · simp [equal, Place.live] at isLive
    · exact ⟨by simpa [equal] using isLive, equal⟩
  have unprinted : ((a.transfer prog .gone).act (LinuxCore.retire prog)).core.core.log.count
      .printTotals = 0 := by
    have before := exact_.unprinted live
    simp [LinuxCore.retire, Core.note, before]
  have settled := retired.settle unprinted
  have freed := settled.keep (.note _ (.deallocated prog))
    (b := (a.transfer prog .gone).act (LinuxCore.conclude prog))
    (by simp [Event.settles, Event.births, Event.retires, Event.closes]) rfl fun _ live => live
  exact freed

theorem LinuxLife.Exact.move (exact_ : a.Exact n) (here : a.place prog = source)
    (move : LinuxMove a prog source target effect) :
    ((a.transfer prog target).act effect).Exact n := by
  have fewer : (target.live = true → source.live = true) → ∀ p,
      (((a.transfer prog target).act effect).place p).live = true → (a.place p).live = true := by
    intro keeps p live
    by_cases equal : p = prog
    · subst equal
      exact here ▸ keeps (by simpa using live)
    · simpa [equal] using live
  have follows := move.follows
  cases move with
  | conclude => exact exact_.conclude here
  | _ =>
      exact exact_.keep follows
        (by simp [LinuxMove.notes, Event.settles, Event.births, Event.retires, Event.closes])
        rfl (fewer (by decide))

/-- A quantum that finds no killed program on the list retires each slot at most once. -/
theorem LinuxLife.Exact.quantum (exact_ : a.Exact n) (fits : a.Fits)
    (clear : ∀ p, a.place p ≠ .killed) (busy : a.Busy) {doomed : List ProgPtr}
    (listed : doomed.Sublist (a.on .linuxProgs)) :
    ((doomed.foldl LinuxLife.kill a).act LinuxCore.settle).Exact n := by
  have member : Node.linuxProgs ∈ linuxHeads := by simp [linuxHeads]
  have live : ∀ p ∈ doomed, (a.place p).live = true := by
    intro p doomed
    have here := (fits.runs (listed.subset doomed)).resolve_right (clear p)
    rw [here]
    rfl
  obtain ⟨p, present⟩ := busy
  have some : (a.place p).live = true := by
    have spared := clear p
    revert present spared
    cases a.place p <;> simp [Place.present, Place.live]
  have counted := exact_.counted.kills ((fits.listed.nodup _ member).sublist listed) live
  refine counted.settle ?_
  exact LinuxLife.kills (P := fun b => b.core.core.log.count .printTotals = 0)
    (fun b before q _ => by simp [LinuxCore.kill, LinuxCore.retire, Core.note, before])
      listed.subset
    (exact_.unprinted some)

theorem LinuxLife.Exact.respawn (exact_ : a.Exact n) (lined : a.Lined n)
    (here : a.place prog = .finished) {born : ProgCore}
    (next : born.id = a.core.progsInit + (a.core.core.progs prog).id) :
    (a.respawn prog born).Exact n := by
  have live : (a.place prog).live = true := by
    rw [here]
    rfl
  have some := exact_.counted.progsLeft_pos live
  obtain ⟨ids, id⟩ := LinuxLife.begin_id lined next
  have place : ∀ p, (a.begin prog born).place p = _ := a.respawn_place prog born
  have fewer : ∀ p, ((a.begin prog born).place p).live = true →
      p = a.core.core.progsAllocated ∨ (a.place p).live = true ∧ p ≠ prog := by
    intro p isLive
    rw [place p] at isLive
    by_cases new : p = a.core.core.progsAllocated
    · exact .inl new
    · rw [if_neg new] at isLive
      by_cases equal : p = prog
      · rw [if_pos equal] at isLive
        exact absurd isLive (by decide)
      · rw [if_neg equal] at isLive
        exact .inr ⟨isLive, equal⟩
  have log : (a.begin prog born).core.core.log =
      a.core.core.log ++ [.respawned prog a.core.core.progsAllocated,
        .setCpuRange a.core.core.progsAllocated 0 a.core.core.cpus.length] := rfl
  have same : retirees (a.begin prog born).core.core.log = retirees a.core.core.log := by
    rw [log, retirees_append]
    exact List.append_nil _
  have begun : (a.begin prog born).Exact n := by
    refine ⟨⟨?_, ?_, ?_⟩, ?_⟩
    · refine exact_.counted.ordered.succeed live rfl ids id fewer fun x y => ?_
      change Event.respawned x y ∈ (a.begin prog born).core.core.log ↔
        Event.respawned x y ∈ a.core.core.log ∨ x = prog ∧ y = a.core.core.progsAllocated
      simp [log]
    · rw [same]
      exact exact_.counted.retired.succeed exact_.counted.ordered live rfl ids id fun q isLive =>
        (fewer q isLive).imp_right And.left
    · rw [same]
      exact exact_.counted.left
    · have before := exact_.printed
      rw [log, List.count_append]
      change _ = if a.core.progsLeft ≤ 0 then 1 else 0
      simpa using before
  have follows : (a.begin prog born).core.Follows (a.respawn prog born).core _ :=
    a.core.succeed_follows prog born
  refine begun.keep follows (fun event noted => ?_) (a.core.succeed_same prog born).2.2.1
    fun _ isLive => isLive
  rw [if_neg (by omega), List.nil_append, List.mem_singleton] at noted
  rw [noted]
  rfl

theorem LinuxLife.Exact.step (exact_ : a.Exact n) (lined : a.Lined n) (fits : a.Fits)
    (step : LinuxStep ⟨Clear True, heard⟩ a b) : b.Exact n := by
  cases step with
  | move here move allowed => exact exact_.move here move
  | quantum expires busy listed => exact exact_.quantum fits (expires trivial) busy listed
  | respawn here next => exact exact_.respawn lined here next
  | wait prog =>
      exact exact_.keep (.note _ _)
        (by simp [Event.settles, Event.births, Event.retires, Event.closes]) rfl
        fun _ live => live
  | terminate =>
      have same : a.core.Follows (a.core.lift fun core => { core with massacre := true }) [] :=
        .same rfl rfl rfl rfl (List.append_nil _).symm
      exact exact_.keep same (by simp) rfl fun _ live => live

theorem LinuxLife.Exact.steps (exact_ : a.Exact n) (lined : a.Lined n) (fits : a.Fits)
    (steps : LinuxSteps ⟨Clear True, heard⟩ a b) : b.Exact n := by
  induction steps with
  | refl => exact exact_
  | tail before step ih => exact ih.step (lined.steps fits before) (fits.steps before) step

theorem LinuxLife.Boots.exact (boots : a.Boots cpus confs) (some : confs ≠ []) :
    a.Exact confs.length := by
  have silent : ∀ event, event.early = false → event ∉ a.core.core.log := fun event late noted =>
    absurd (boots.parsed.early event noted) (by simp [late])
  have none : retirees a.core.core.log = [] :=
    List.eq_nil_iff_forall_not_mem.mpr fun p member => silent _ rfl (mem_retirees.mp member)
  have length := List.length_pos_iff.mpr some
  refine ⟨⟨boots.lined.users, ?_, ?_⟩, ?_⟩
  · rw [none]
    exact .none _ _ _
  · rw [none, boots.progsLeft]
    simp
  · rw [List.count_eq_zero.mpr (silent _ rfl), boots.progsLeft, if_neg (by omega)]

end Retirement

section Runs

/-- In a run in which no quantum expires while a killed program is still on the list of the
scheduler, each slot is retired at most once, `progs_left` counts those that are left, and the
totals are printed at most once. -/
theorem linux_retires_once (confs : List ProgConf) (targets : Int → Rat) (env : Env)
    (cpus : List Int) (inputs : List Input) (st : ExecState)
    (reaches : LinuxReaches confs targets env cpus inputs st) (some : confs ≠ [])
    (reaped : KilledReaped confs targets env cpus inputs) :
    (∀ p, st.log.count (.retired p) ≤ 1) ∧
      (∀ p q, .retired p ∈ st.log → .retired q ∈ st.log →
        st.core.slotOf confs.length p = st.core.slotOf confs.length q → p = q) ∧
      st.linux.progsLeft = Set.ncard {i : Nat | i < confs.length ∧
        ¬ ∃ p, .retired p ∈ st.log ∧ st.core.slotOf confs.length p = i} ∧
      0 ≤ st.linux.progsLeft ∧ st.log.count .printTotals ≤ 1 := by
  obtain ⟨a, b, xs, boots, tracks⟩ := reaches.tracks True some fun _ => reaped
  obtain ⟨counted, printed⟩ := (boots.exact some).steps boots.lined boots.fits tracks.steps
  have core : st.core = b.core.core := congrArg LinuxCore.core tracks.core
  have log : st.log = b.core.core.log := congrArg Core.log core
  have progsLeft : st.linux.progsLeft = b.core.progsLeft := congrArg LinuxCore.progsLeft tracks.core
  have left : b.core.progsLeft = Set.ncard {i : Nat | i < confs.length ∧
      ¬ ∃ p ∈ retirees b.core.core.log, b.core.core.slotOf confs.length p = i} := by
    have total := counted.retired.ncard_left counted.ordered
    have retired := counted.left
    change (_ + (Set.ncard {i : Nat | i < confs.length ∧
        ¬ ∃ p ∈ retirees b.core.core.log, b.core.core.slotOf confs.length p = i} : Int) : Int) = _
      at total
    omega
  simp only [mem_retirees] at left
  rw [progsLeft, core, log]
  refine ⟨fun p => ?_, fun p q first second same => ?_, left, ?_, ?_⟩
  · rw [← count_retirees]
    exact List.nodup_iff_count_le_one.mp counted.retired.nodup p
  · exact counted.retired.unique counted.ordered (mem_retirees.mpr first)
      (mem_retirees.mpr second) same
  · rw [left]
    exact Int.natCast_nonneg _
  · rw [printed]
    split <;> decide

/-- A program on the list of the scheduler has been allocated. -/
theorem LinuxReaches.bounded (reaches : LinuxReaches confs targets env cpus inputs st)
    (some : confs ≠ []) {running : List ProgPtr}
    (ring : IsRing st.links .linuxProgs (running.map Node.plNode)) :
    ∀ p ∈ running, p < st.progsAllocated := by
  obtain ⟨a, b, xs, boots, tracks⟩ := reaches.tracks False some fun never => never.elim
  have member : Node.linuxProgs ∈ linuxHeads := by simp [linuxHeads]
  have same : running.map Node.plNode = (b.on .linuxProgs).map Node.plNode :=
    ring.unique (tracks.ring member)
  have injective : Function.Injective Node.plNode := fun _ _ equal => Node.plNode.inj equal
  rw [List.map_injective_iff.mpr injective same, tracks.progsAllocated]
  exact tracks.rings.bounded _ member

/-- The targets of a run in which the first program is killed in its first quantum. -/
def halfTarget (i : Int) : Rat :=
  if i = 0 then 1 / 2 else 5

/-- The first of two programs is killed, and its slot is retired. -/
theorem linux_retires_once_two :
    ∃ st, runLinux [.single, .single] halfTarget [.events, .timeout, .events]
        (ExecState.start (Env.counting 5) [0, 1, 2]) = .ok () st ∧
      .retired 0 ∈ st.log ∧ st.log.count (.retired 0) ≤ 1 ∧ 0 ≤ st.linux.progsLeft := by
  obtain ⟨st, run, retired⟩ := exists_of_returnsWith (by decide +kernel :
    returnsWith (runLinux [.single, .single] halfTarget [.events, .timeout, .events])
      (ExecState.start (Env.counting 5) [0, 1, 2]) (fun st => .retired 0 ∈ st.log) = true)
  have reaped : KilledReaped [.single, .single] halfTarget (Env.counting 5) [0, 1, 2]
      [.events, .timeout, .events] := by
    intro before after mid split run due running ring p member
    have inside := LinuxReaches.bounded (.inl run) (by decide) ring p member
    have early : before = [] ∨ before = [.events, .timeout] := by
      rcases before with _ | ⟨first, _ | ⟨second, _ | ⟨third, more⟩⟩⟩ <;> simp_all
    have spared : ∀ q < mid.progsAllocated, (mid.linuxData q).killed = false := by
      rcases early with rfl | rfl
      · obtain ⟨other, run', spared⟩ := exists_of_returnsWith (by decide +kernel :
          returnsWith (runLinux [.single, .single] halfTarget [])
            (ExecState.start (Env.counting 5) [0, 1, 2])
            (fun st => ∀ q < st.progsAllocated, (st.linuxData q).killed = false) = true)
        cases run.symm.trans run'
        exact of_decide_eq_true spared
      · obtain ⟨other, run', spared⟩ := exists_of_returnsWith (by decide +kernel :
          returnsWith (runLinux [.single, .single] halfTarget [.events, .timeout])
            (ExecState.start (Env.counting 5) [0, 1, 2])
            (fun st => ∀ q < st.progsAllocated, (st.linuxData q).killed = false) = true)
        cases run.symm.trans run'
        exact of_decide_eq_true spared
    exact spared p inside
  obtain ⟨once, -, -, nonneg, -⟩ := linux_retires_once _ _ _ _ _ st (.inl run) (by decide) reaped
  exact ⟨st, run, of_decide_eq_true retired, once 0, nonneg⟩

/-- A killed program whose exit has not come in by the next quantum is killed again: its slot is
retired twice, `progs_left` becomes negative and the totals are printed twice. -/
theorem linux_retires_twice :
    ∃ st, runLinux [.single] halfTarget [.events, .timeout, .events, .timeout, .events]
        (ExecState.start (Env.counting 5) [0, 1, 2]) = .ok () st ∧
      st.log.count (.retired 0) = 2 ∧ st.linux.progsLeft = -1 ∧ st.log.count .printTotals = 2 := by
  obtain ⟨st, run, twice⟩ := exists_of_returnsWith (by decide +kernel :
    returnsWith (runLinux [.single] halfTarget [.events, .timeout, .events, .timeout, .events])
      (ExecState.start (Env.counting 5) [0, 1, 2])
      (fun st => st.log.count (.retired 0) = 2 ∧ st.linux.progsLeft = -1 ∧
        st.log.count .printTotals = 2) = true)
  exact ⟨st, run, of_decide_eq_true twice⟩

end Runs

end BachScheduler
