import BachScheduler.Slots
import BachScheduler.Totals

/-!
# Where the lengths of the slots come from

`sched_update_totals` takes the instructions of the first instance that is reported for a
slot as the length of the slot, `instr_progs`, whether the instance has ended by itself or
was killed, and `sched_print_totals` divides by it.  In a run in which no instance is
killed before its slot has a length, every length is that of an instance that ran to its
end.
-/

namespace BachScheduler

open Wp

variable {exits : ProgPtr → Place → Prop} {name : PolicyName} {a b c : Life} {prog : ProgPtr}
variable {source target : Place} {effect : Core → Core} {st st' : ExecState}
variable {confs : List ProgConf} {env : Env} {cpus : List Int} {targets : Int → Word64}

section Sources

/-- Whether an event is a report to `sched_update_totals`. -/
def Event.reports : Event → Bool
  | .updateTotals _ => true
  | _ => false

namespace Core

/-- The program that an event reports for a slot, if it has counted instructions. -/
def counted (core : Core) (i : Int) : Event → Option ProgPtr
  | .updateTotals p => if (core.pds p).initId = i ∧ core.instructions p ≠ 0 then some p else none
  | _ => none

/-- The instance that the length of a slot was taken from: the first one that was reported
with instructions. -/
def measured (core : Core) (i : Int) : Option ProgPtr :=
  (core.log.filterMap (core.counted i)).head?

theorem counted_eq_some {core : Core} {i : Int} {event : Event} {p : ProgPtr}
    (counts : core.counted i event = some p) :
    event = .updateTotals p ∧ (core.pds p).initId = i ∧ core.instructions p ≠ 0 := by
  cases event with
  | updateTotals q =>
      by_cases here : (core.pds q).initId = i ∧ core.instructions q ≠ 0
      · rw [counted, if_pos here] at counts
        cases counts
        exact ⟨rfl, here⟩
      · rw [counted, if_neg here] at counts
        exact absurd counts (by simp)
  | _ => exact absurd counts (by simp [counted])

theorem counted_eq_none (core : Core) (i : Int) {event : Event} (plain : event.reports = false) :
    core.counted i event = none := by
  cases event with
  | updateTotals p => simp [Event.reports] at plain
  | _ => rfl

theorem measured_eq_some {core : Core} {i : Int} {p : ProgPtr} (source : core.measured i = some p) :
    .updateTotals p ∈ core.log ∧ (core.pds p).initId = i ∧ core.instructions p ≠ 0 := by
  obtain ⟨event, noted, counts⟩ := List.mem_filterMap.mp (List.mem_of_head? source)
  obtain ⟨rfl, here⟩ := counted_eq_some counts
  exact ⟨noted, here⟩

/-- The lengths are those of the instances that they were taken from. -/
def Lengths (core : Core) : Prop :=
  ∀ i, core.sched.instrProgs i = (core.measured i).elim 0 core.instructions

/-- A slot has a length when there is an instance that it was taken from. -/
theorem Lengths.known {core : Core} (lengths : core.Lengths) (i : Int) :
    core.sched.instrProgs i ≠ 0 ↔ ∃ p, core.measured i = some p := by
  rw [lengths i]
  cases source : core.measured i with
  | none => simp
  | some p => simpa using (measured_eq_some source).2.2

/-- A program is reported to `sched_update_totals`, and no other one. -/
structure Reports (prog : ProgPtr) (core other : Core) : Prop where
  log : ∃ events, other.log = core.log ++ .updateTotals prog :: events ∧
    ∀ event ∈ events, event.reports = false
  instrProgs : other.sched.instrProgs =
    if core.sched.instrProgs (other.pds prog).initId = 0 then
      Function.update core.sched.instrProgs (other.pds prog).initId (other.instructions prog)
    else core.sched.instrProgs

end Core

theorem Act.reports (act : Act a effect) : a.core.Extends Event.reports (effect a.core) ∧
    (effect a.core).sched.instrProgs = a.core.sched.instrProgs := by
  cases act with
  | close => exact ⟨⟨_, a.core.close_notes, by simp [Event.reports]⟩, rfl⟩
  | _ => first | exact ⟨.same rfl, rfl⟩ | exact ⟨.noted rfl rfl, rfl⟩

/-- A move reports its program when it is killed or when its totals are due. -/
theorem Move.reports (move : Move exits a prog source target effect) :
    a.core.Extends Event.reports (effect a.core) ∧
        (effect a.core).sched.instrProgs = a.core.sched.instrProgs ∨
      a.core.Reports prog (effect a.core) := by
  cases move with
  | monitor =>
      exact .inl ⟨(a.core.assign_extends (fun _ _ _ => rfl) prog _).trans (.same rfl), rfl⟩
  | kill =>
      refine .inr ⟨⟨_, a.core.kill_notes prog, by simp [Event.reports]⟩, ?_⟩
      simp [Core.kill, Core.clear, Core.report, Core.modPd, Core.instructions]
  | report =>
      exact .inr ⟨⟨[], rfl, by simp⟩, rfl⟩
  | _ => first | exact .inl ⟨.same rfl, rfl⟩ | exact .inl ⟨.noted rfl rfl, rfl⟩

theorem Act.printed (act : Act a effect) (i : Int)
    (shown : (effect a.core).sched.printed i = true) :
    a.core.sched.printed i = true ∨ a.core.sched.instrProgs i ≠ 0 := by
  cases act with
  | close => exact .inr (by simpa [Core.close, Core.print, Core.note] using shown)
  | _ => exact .inl shown

theorem Move.printed (move : Move exits a prog source target effect) :
    (effect a.core).sched.printed = a.core.sched.printed := by
  cases move <;> rfl

end Sources

section Steps

/-- The lengths are those of the instances that they were taken from, and totals were printed
for slots with a length only. -/
structure Life.Measured (a : Life) : Prop where
  lengths : a.core.Lengths
  printed : ∀ i, a.core.sched.printed i = true → a.core.sched.instrProgs i ≠ 0

/-- A length stays that of the same instance. -/
def Life.Remembers (a b : Life) : Prop :=
  ∀ i p, a.core.measured i = some p → b.core.measured i = some p

/-- What the reports of earlier programs say does not change. -/
theorem Life.Marked.measured_append (marked : a.Marked)
    (accounts : ∀ p, (a.place p).totalled = true → a.SameAccount b p)
    (cpus : b.core.cpus = a.core.cpus) {events : List Event}
    (log : b.core.log = a.core.log ++ events) (i : Int) :
    b.core.measured i = (a.core.measured i).or (events.filterMap (b.core.counted i)).head? := by
  have same : ∀ event ∈ a.core.log, b.core.counted i event = a.core.counted i event :=
    fun event noted => by
    cases event with
    | updateTotals p =>
        have totalled : (a.place p).totalled = true := (marked.mem_iff .totalled p).mp noted
        have account := accounts p totalled
        simp only [Core.counted, account.initId totalled,
          Core.instructions_congr cpus (account.accumulated totalled)]
    | _ => rfl
  rw [Core.measured, log, List.filterMap_append, List.head?_append, List.filterMap_congr same,
    Core.measured]

/-- The instance that a length was taken from keeps its instructions. -/
theorem Life.Marked.measured_instructions (marked : a.Marked)
    (accounts : ∀ p, (a.place p).totalled = true → a.SameAccount b p)
    (cpus : b.core.cpus = a.core.cpus) (i : Int) :
    (a.core.measured i).elim 0 b.core.instructions =
    (a.core.measured i).elim 0 a.core.instructions := by
  cases source : a.core.measured i with
  | none => rfl
  | some p =>
      have totalled : (a.place p).totalled = true :=
        (marked.mem_iff .totalled p).mp (Core.measured_eq_some source).1
      exact Core.instructions_congr cpus ((accounts p totalled).accumulated totalled)

theorem Life.Measured.unreported (measured : a.Measured) (marked : a.Marked)
    (accounts : ∀ p, (a.place p).totalled = true → a.SameAccount b p)
    (cpus : b.core.cpus = a.core.cpus) (extends_ : a.core.Extends Event.reports b.core)
    (instrProgs : b.core.sched.instrProgs = a.core.sched.instrProgs)
    (printed : ∀ i, b.core.sched.printed i = true → a.core.sched.instrProgs i ≠ 0) :
    b.Measured ∧ a.Remembers b := by
  obtain ⟨events, log, plain⟩ := extends_
  have same : ∀ i, b.core.measured i = a.core.measured i := fun i => by
    rw [marked.measured_append accounts cpus log i,
      List.filterMap_eq_nil_iff.mpr fun event noted => b.core.counted_eq_none i (plain event noted),
      List.head?_nil, Option.or_none]
  refine ⟨⟨fun i => ?_, fun i shown => ?_⟩, fun i p source => (same i).trans source⟩
  · rw [instrProgs, same i, marked.measured_instructions accounts cpus, measured.lengths i]
  · rw [instrProgs]
    exact printed i shown

/-- A report gives its slot a length if the slot has none. -/
theorem Core.Reports.lengths {core other : Core} (reports : core.Reports prog other)
    (before : ∀ i, core.sched.instrProgs i = (core.measured i).elim 0 other.instructions)
    (known : ∀ i p, core.measured i = some p → other.instructions p ≠ 0)
    (sources : ∀ i, other.measured i = (core.measured i).or
      (other.counted i (.updateTotals prog))) :
    other.Lengths := by
  intro i
  have old := before i
  rw [sources i, reports.instrProgs]
  cases source : core.measured i with
  | some p =>
      rw [source] at old
      split
      · next none =>
          have differs : i ≠ (other.pds prog).initId := fun slot => by
            subst slot
            exact known _ p source (old.symm.trans none)
          rw [Function.update_of_ne differs]
          exact old
      · exact old
  | none =>
      rw [source] at old
      by_cases slot : (other.pds prog).initId = i
      · subst slot
        have unknown : core.sched.instrProgs (other.pds prog).initId = 0 := old
        rw [if_pos unknown, Function.update_self, Option.none_or]
        by_cases counts : other.instructions prog = 0
        · rw [Core.counted, if_neg fun here => here.2 counts]
          exact counts
        · rw [Core.counted, if_pos ⟨rfl, counts⟩]
          rfl
      · have silent : other.counted i (.updateTotals prog) = none := if_neg fun here => slot here.1
        rw [silent]
        split
        · rw [Function.update_of_ne (Ne.symm slot)]
          exact old
        · exact old

theorem Life.Measured.reported (measured : a.Measured) (marked : a.Marked)
    (accounts : ∀ p, (a.place p).totalled = true → a.SameAccount b p)
    (cpus : b.core.cpus = a.core.cpus) (reports : a.core.Reports prog b.core)
    (printed : b.core.sched.printed = a.core.sched.printed) :
    b.Measured ∧ a.Remembers b := by
  obtain ⟨events, log, plain⟩ := reports.log
  have sources : ∀ i, b.core.measured i = (a.core.measured i).or
      (b.core.counted i (.updateTotals prog)) :=
    fun i => by
      rw [marked.measured_append accounts cpus log i, List.filterMap_cons,
        List.filterMap_eq_nil_iff.mpr fun event noted =>
          b.core.counted_eq_none i (plain event noted)]
      cases b.core.counted i (.updateTotals prog) <;> rfl
  have lengths : b.core.Lengths := by
    refine reports.lengths (fun i => ?_) (fun i p source zero => ?_) sources
    · rw [marked.measured_instructions accounts cpus, measured.lengths i]
    · have kept := marked.measured_instructions accounts cpus i
      rw [source] at kept
      exact (Core.measured_eq_some source).2.2 (kept.symm.trans zero)
  have remembers : a.Remembers b := fun i p source => by
    rw [sources i, source]
    rfl
  refine ⟨⟨lengths, fun i shown => ?_⟩, remembers⟩
  rw [printed] at shown
  obtain ⟨p, source⟩ := (measured.lengths.known i).mp (measured.printed i shown)
  exact (lengths.known i).mpr ⟨p, remembers i p source⟩

/-- A step keeps the instances that lengths were taken from. -/
theorem Life.Measured.step (measured : a.Measured) (marked : a.Marked) (sound : a.Sound)
    (step : Step exits a b) : b.Measured ∧ a.Remembers b := by
  have accounts : ∀ p, (a.place p).totalled = true →
      a.SameAccount b p := fun _ => step.account sound
  have cpus := step.keeps_cpus
  have quiet : a.core.Extends Event.reports b.core →
      b.core.sched.instrProgs = a.core.sched.instrProgs →
      (∀ i, b.core.sched.printed i = true → a.core.sched.instrProgs i ≠ 0) →
        b.Measured ∧ a.Remembers b :=
    fun extends_ instrProgs printed =>
        measured.unreported marked accounts cpus extends_ instrProgs printed
  cases step with
  | @move prog source target effect here move =>
      rcases move.reports with ⟨extends_, instrProgs⟩ | reports
      · exact quiet extends_ instrProgs fun i shown => measured.printed i (move.printed ▸ shown)
      · exact measured.reported marked accounts cpus reports move.printed
  | act act =>
      exact quiet act.reports.1 act.reports.2 fun i shown =>
        (act.printed i shown).elim (measured.printed i) id
  | @decide picked =>
      have sched := Core.assignAll_sched a.core (fun p => (a.core.progs p).coresNeeded) picked 0
      refine quiet (Core.assignAll_extends (fun _ _ _ => rfl) _ _ _ _)
        (congrArg SchedCore.instrProgs sched)
        fun i shown => measured.printed i ?_
      rwa [← congrArg SchedCore.printed sched]
  | respawn => exact quiet ⟨[_, _], rfl, by simp [Event.reports]⟩ rfl measured.printed
  | _ => exact quiet (.same rfl) rfl measured.printed

theorem Life.Measured.steps (measured : a.Measured) (marked : a.Marked) (sound : a.Sound)
    (steps : Steps exits a b) : b.Measured ∧ a.Remembers b := by
  induction steps with
  | refl => exact ⟨measured, fun _ _ source => source⟩
  | tail before step ih =>
      have later := ih.1.step (marked.steps sound before) (sound.steps before) step
      exact ⟨later.1, fun i p source => later.2 i p (ih.2 i p source)⟩

theorem Life.Boots.unmeasured (boots : a.Boots cpus confs targets) (i : Int) :
    a.core.measured i = none := by
  cases source : a.core.measured i with
  | none => rfl
  | some p =>
      have early := boots.parsed.early _ (Core.measured_eq_some source).1
      simp [Event.early] at early

theorem Life.Boots.measured (boots : a.Boots cpus confs targets) : a.Measured := by
  constructor
  case lengths =>
    intro i
    rw [boots.instrProgs, boots.unmeasured i]
    rfl
  case printed =>
    intro i shown
    simp [boots.printed] at shown

theorem Place.totalled_of_dead {k : Place} (dead : k.dead = true) : k.totalled = true := by
  revert dead
  cases k <;> decide

/-- Every length was taken from an instance that was not killed. -/
def Life.Whole (a : Life) : Prop :=
  ∀ i p, a.core.measured i = some p → (a.place p).dead = false

/-- On the way from one state to another, no program with instructions is killed whose slot has
no length. -/
def Life.Spares (a b : Life) : Prop :=
  ∀ p, (b.place p).dead = true → (a.place p).dead = true ∨
    a.core.sched.instrProgs (b.core.pds p).initId ≠ 0 ∨ b.core.instructions p = 0

/-- Where no program is killed too early, the lengths stay those of whole instances. -/
theorem Life.Whole.steps (whole : a.Whole) (measured : a.Measured) (marked : a.Marked)
    (sound : a.Sound) (steps : Steps exits a b) (spares : a.Spares b) : b.Whole := by
  intro i p source
  by_contra dead
  have dead : (b.place p).dead = true := by simpa using dead
  obtain ⟨noted, slot, counts⟩ := Core.measured_eq_some source
  have remembers := (measured.steps marked sound steps).2
  -- An instance that the slot had its length from before is the same one, and was not killed.
  have early : ∀ q, a.core.measured i = some q → False := fun q before => by
    have same : q = p := Option.some.inj ((remembers i q before).symm.trans source)
    subst same
    have totalled := (marked.mem_iff .totalled q).mp (Core.measured_eq_some before).1
    have stays := (steps.account sound totalled).1.dead totalled
    rw [stays, whole i q before] at dead
    exact absurd dead (by decide)
  rcases spares p dead with before | known | none
  · have totalled : (a.place p).totalled = true := Place.totalled_of_dead before
    obtain ⟨account, cpus⟩ := steps.account sound totalled
    have instructions := Core.instructions_congr cpus (account.accumulated totalled)
    have reports : p ∈ a.core.log.filterMap (a.core.counted i) :=
      List.mem_filterMap.mpr ⟨.updateTotals p, (marked.mem_iff .totalled p).mpr totalled,
        if_pos ⟨(account.initId totalled).symm.trans slot, instructions ▸ counts⟩⟩
    obtain ⟨q, first⟩ := Option.ne_none_iff_exists'.mp
      (mt List.head?_eq_none_iff.mp (List.ne_nil_of_mem reports))
    exact early q first
  · rw [slot] at known
    obtain ⟨q, before⟩ := (measured.lengths.known i).mp known
    exact early q before
  · exact counts none

end Steps

section Runs

/-- The programs that were killed. -/
def ExecState.killed (st : ExecState) : List ProgPtr :=
  st.log.filterMap fun event =>
    match event with
    | .clearProg prog => some prog
    | _ => none

theorem ExecState.mem_killed {p : ProgPtr} : p ∈ st.killed ↔ .clearProg p ∈ st.log := by
  rw [ExecState.killed, List.mem_filterMap]
  constructor
  · rintro ⟨event, noted, cleared⟩
    cases event <;> simp at cleared
    exact cleared ▸ noted
  · exact fun noted => ⟨_, noted, rfl⟩

/-- A program has ended by itself. -/
def ExecState.Completed (st : ExecState) (p : ProgPtr) : Prop :=
  st.Ended p ∧ .clearProg p ∉ st.log

instance (st : ExecState) (p : ProgPtr) : Decidable (st.Completed p) :=
  inferInstanceAs (Decidable (_ ∧ _))

/-- From one state to the next, no program with instructions is killed whose slot has no length. -/
def ExecState.SparesLengths (st st' : ExecState) : Prop :=
  ∀ p ∈ st'.killed, p ∈ st.killed ∨ st.sched.instrProgs (st'.pds p).initId ≠ 0 ∨
    st'.core.instructions p = 0

instance : DecidableRel ExecState.SparesLengths := fun _ st' =>
  inferInstanceAs (Decidable (∀ p ∈ st'.killed, _ ∨ _ ∨ _))

/-- Every length is the count of the instance of the slot that it was taken from, and that one
has ended by itself; no times are printed for a slot without such an instance. -/
structure ExecState.MeasuresWhole (st : ExecState) : Prop where
  lengths : ∀ i, st.sched.instrProgs i ≠ 0 → ∃ p ∈ st.instances i, st.core.measured i = some p ∧
    st.sched.instrProgs i = st.core.instructions p ∧ st.Completed p
  times : ∀ i, (∀ p ∈ st.instances i, ¬ st.Completed p) →
    st.sched.times i = none ∧ st.sched.printedTimes i = none

/-- What is known of the lengths between two handlers. -/
def ExecState.KnowsLengths (name : PolicyName) (st : ExecState) : Prop :=
  ∃ a, Between anywhere name a st a ∧ a.Marked ∧ a.Measured ∧ a.Whole

theorem ExecState.KnowsLengths.handle (knows : st.KnowsLengths name) (input : Input)
    (came : Comes (handle name.policy input) st st') (spares : st.SparesLengths st') :
    st'.KnowsLengths name := by
  obtain ⟨a, between, marked, measured, whole⟩ := knows
  obtain ⟨b, xs, shows_, settled⟩ := between.comes came
  obtain ⟨ys, before, -⟩ := between
  have steps := shows_.tracks.steps
  have sound := before.tracks.sound
  have marked' := marked.steps sound steps
  have measured' := (measured.steps marked sound steps).1
  refine ⟨b, ⟨xs, ⟨⟨.refl, shows_.tracks.sound, shows_.tracks.models⟩, .refl, shows_.phase⟩,
    settled⟩, marked',
    measured', whole.steps measured marked sound steps fun p dead => ?_⟩
  have killed : p ∈ st'.killed := by
    rw [ExecState.mem_killed, show st'.log = b.core.log from congrArg Core.log shows_.tracks.core]
    exact (marked'.mem_iff .cleared p).mpr dead
  have spared := spares p killed
  rw [ExecState.mem_killed, show st.log = a.core.log from congrArg Core.log
    before.tracks.core] at spared
  have cleared : Event.clearProg p ∈ a.core.log ↔
      (a.place p).dead = true := marked.mem_iff .cleared p
  rw [cleared] at spared
  have initId : (st'.pds p).initId = (b.core.pds p).initId :=
    congrArg (fun core => (core.pds p).initId) shows_.tracks.core
  have length : st.sched.instrProgs = a.core.sched.instrProgs :=
    congrArg (fun core => core.sched.instrProgs) before.tracks.core
  rwa [initId, length, shows_.tracks.core] at spared

theorem ExecState.KnowsLengths.measuresWhole (knows : st.KnowsLengths name) : st.MeasuresWhole := by
  obtain ⟨a, ⟨xs, shows_, settled⟩, marked, measured, whole⟩ := knows
  have core := shows_.tracks.core
  have length : ∀ i, st.sched.instrProgs i = a.core.sched.instrProgs i := fun i =>
    congrArg (fun core => core.sched.instrProgs i) core
  have lengths : ∀ i, st.sched.instrProgs i ≠ 0 →
      ∃ p ∈ st.instances i, st.core.measured i = some p ∧
      st.sched.instrProgs i = st.core.instructions p ∧ st.Completed p := fun i some => by
    rw [length i] at some ⊢
    obtain ⟨p, source⟩ := (measured.lengths.known i).mp some
    obtain ⟨noted, slot, -⟩ := Core.measured_eq_some source
    have totalled : (a.place p).totalled = true := (marked.mem_iff .totalled p).mp noted
    have born : p < a.core.progsAllocated := shows_.tracks.sound.allocated fun unborn => by
      rw [unborn] at totalled
      exact absurd totalled (by decide)
    refine ⟨p, ?_, core ▸ source, ?_,
      (marked.unkilled_iff settled core p).mpr ⟨totalled, whole i p source⟩⟩
    · rw [ExecState.instances, Finset.mem_filter, Finset.mem_range, shows_.tracks.progsAllocated]
      exact ⟨born, (congrArg (fun core => (core.pds p).initId) core).trans slot⟩
    · rw [core, measured.lengths i, source]
      rfl
  refine ⟨lengths, fun i unfinished => ?_⟩
  have none : st.sched.instrProgs i = 0 := by
    by_contra some
    obtain ⟨p, instance_, -, -, completed⟩ := lengths i some
    exact unfinished p instance_ completed
  refine ⟨if_pos none, ?_⟩
  have shown : (st.sched.printedTimes i).isSome = a.core.sched.printed i :=
    congrArg (fun core => core.sched.printed i) core
  by_contra printed
  refine measured.printed i (shown.symm.trans (Option.isSome_iff_ne_none.mpr printed)) ?_
  rw [← length i]
  exact none

/-- In a run in which no program with instructions is killed while its slot has no length, every
length comes from an instance that has ended by itself, also where the run exits. -/
theorem lengths_of_whole_instances (name : PolicyName) (confs : List ProgConf)
    (targets : Int → Word64) (inputs : List Input) (env : Env) (cpus : List Int) (st : ExecState)
    (reaches : Reaches name confs targets env cpus inputs st)
    (spares : ∀ first, boot confs targets (ExecState.start env cpus) = .ok () first →
      Throughout ExecState.SparesLengths name.policy inputs first) : st.MeasuresWhole := by
  obtain ⟨first, boots, came⟩ := reaches.boots
  obtain ⟨a, booted, between⟩ := (Wp.of_ok boots).mp
    (boot_spec anywhere name confs targets env cpus)
  have whole : a.Whole := fun i p source => by simp [booted.unmeasured i] at source
  have knows : first.KnowsLengths name := ⟨a, between, booted.marked, booted.measured, whole⟩
  have later := (spares first boots).keeps
    (fun input _ _ knows came spares => knows.handle input came spares) knows came
  exact later.measuresWhole

/-- The targets of a run in which only the first slot is retired soon. -/
def twoTargets (i : Int) : Word64 :=
  if i = 0 then 4000000000 else 40000000000

/-- The first instance of the first slot exits by itself, the second one is killed by the target;
and a single program ends by itself, where the totals are printed and the run exits. -/
theorem lengths_of_whole_instances_two :
    (∃ st, runExecutor PolicyName.perf.policy [.single, .single] twoTargets
        [.events, .events, .sigchld [.exited 0], .events, .events, .events]
        (ExecState.start (Env.counting 2000000000) [0, 1]) = .ok () st ∧
      st.killed = [2] ∧ st.sched.instrProgs 0 = 2000000000 ∧ st.MeasuresWhole) ∧
    ∃ st, runExecutor PolicyName.perf.policy [.single] (fun _ => 7)
      [.events, .events, .sigchld [.exited 0]]
        (ExecState.start (Env.counting 5) [0]) = .error (.exit 42) st ∧
      st.sched.printedTimes 0 = some 1 ∧ st.MeasuresWhole := by
  constructor
  · obtain ⟨st, run, seen⟩ := exists_of_returnsWith (by decide +kernel :
      returnsWith (runExecutor PolicyName.perf.policy [.single, .single] twoTargets
          [.events, .events, .sigchld [.exited 0], .events, .events, .events])
        (ExecState.start (Env.counting 2000000000) [0, 1])
        (fun st => st.killed = [2] ∧ st.sched.instrProgs 0 = 2000000000) = true)
    obtain ⟨first, boots, spares⟩ := exists_of_returnsWith (by decide +kernel :
      returnsWith (boot [.single, .single] twoTargets)
        (ExecState.start (Env.counting 2000000000) [0, 1])
        (fun first => Throughout ExecState.SparesLengths PolicyName.perf.policy
          [.events, .events, .sigchld [.exited 0], .events, .events, .events] first) = true)
    have seen : st.killed = [2] ∧ st.sched.instrProgs 0 = 2000000000 := of_decide_eq_true seen
    refine ⟨st, run, seen.1, seen.2,
      lengths_of_whole_instances .perf _ _ _ _ _ st (.inl run) fun other booted => ?_⟩
    cases boots.symm.trans booted
    exact of_decide_eq_true spares
  · obtain ⟨st, run, seen⟩ := exists_of_stopsWith (by decide +kernel :
      stopsWith (runExecutor PolicyName.perf.policy [.single] (fun _ => 7)
        [.events, .events, .sigchld [.exited 0]])
        (ExecState.start (Env.counting 5) [0]) (.exit 42)
          (fun st => st.sched.printedTimes 0 = some 1) = true)
    obtain ⟨first, boots, spares⟩ := exists_of_returnsWith (by decide +kernel :
      returnsWith (boot [.single] fun _ => 7) (ExecState.start (Env.counting 5) [0])
        (fun first => Throughout ExecState.SparesLengths PolicyName.perf.policy
          [.events, .events, .sigchld [.exited 0]] first) = true)
    refine ⟨st, run, of_decide_eq_true seen,
      lengths_of_whole_instances .perf _ _ _ _ _ st (.inr ⟨42, run⟩) fun other booted => ?_⟩
    cases boots.symm.trans booted
    exact of_decide_eq_true spares

/-- A single program is killed by its target: the totals at the end are printed with its count
as the length of the slot, though no instance has ended by itself. -/
theorem length_of_killed_instance :
    ∃ st, runExecutor PolicyName.fair.policy [.single] (fun _ => 3) [.events, .events, .events]
        (ExecState.start (Env.counting 5) [0]) = .ok () st ∧
      st.sched.instrProgs 0 = 5 ∧ st.sched.printedTimes 0 = some 1 ∧ ¬ st.MeasuresWhole := by
  obtain ⟨st, run, seen⟩ := exists_of_returnsWith (by decide +kernel :
    returnsWith
      (runExecutor PolicyName.fair.policy [.single] (fun _ => 3) [.events, .events, .events])
      (ExecState.start (Env.counting 5) [0])
      (fun st => st.sched.instrProgs 0 = 5 ∧ st.sched.printedTimes 0 = some 1 ∧
        ∀ p ∈ st.instances 0, ¬ st.Completed p) = true)
  have seen : st.sched.instrProgs 0 = 5 ∧ st.sched.printedTimes 0 = some 1 ∧
      ∀ p ∈ st.instances 0, ¬ st.Completed p := of_decide_eq_true seen
  refine ⟨st, run, seen.1, seen.2.1, fun whole => ?_⟩
  have unprinted := (whole.times 0 seen.2.2).2
  rw [seen.2.1] at unprinted
  exact absurd unprinted (by simp)

end Runs

end BachScheduler
