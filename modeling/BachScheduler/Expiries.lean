import BachScheduler.ClockAccounts
import BachScheduler.Lib.Seniority
import BachScheduler.Preferences

/-!
# Expiries of the quantum under `perf`

An expiry freezes what runs, which waits from then on, lets the program run that has waited
longest, and whatever else `perf_schedule` takes.  As long as the clock stands still in it,
this is a round of service by seniority.
-/

namespace BachScheduler

open BachScheduler.Ring Wp

section Readings

/-- The time that was read. -/
def ClockEvent.reading : ClockEvent → Option Word32
  | .init _ now => some now
  | .read _ now => some now
  | .waited _ now => some now
  | .updated .. => none
  | .thawed _ => none

/-- Every reading shows the same time. -/
def StandsStill (now : Word32) (events : List ClockEvent) : Prop :=
  ∀ event ∈ events, event.reading.getD now = now

instance (now : Word32) (events : List ClockEvent) : Decidable (StandsStill now events) :=
  inferInstanceAs (Decidable (∀ _ ∈ events, _ = _))

variable {now : Word32} {base clocks events more : List ClockEvent} {P Q : Prop}

theorem standsStill_append : StandsStill now (events ++ more) ↔
    StandsStill now events ∧ StandsStill now more := by
  simp only [StandsStill, List.mem_append, or_imp, forall_and]

/-- Something holds if the clock has stood still since a point. -/
def IfStill (now : Word32) (base clocks : List ClockEvent) (P : Prop) : Prop :=
  ∃ events, clocks = base ++ events ∧ (StandsStill now events → P)

theorem IfStill.and (first : IfStill now base clocks P) (second : IfStill now base clocks Q) :
    IfStill now base clocks (P ∧ Q) := by
  obtain ⟨events, rfl, holds⟩ := first
  obtain ⟨others, same, holds'⟩ := second
  obtain rfl := List.append_cancel_left same
  exact ⟨events, rfl, fun still => ⟨holds still, holds' still⟩⟩

theorem IfStill.snoc (holds : IfStill now base clocks P) (step : StandsStill now more → P → Q) :
    IfStill now base (clocks ++ more) Q := by
  obtain ⟨events, rfl, holds⟩ := holds
  refine ⟨events ++ more, List.append_assoc .., fun still => ?_⟩
  have both := standsStill_append.mp still
  exact step both.2 (holds both.1)

theorem IfStill.imp (holds : IfStill now base clocks P) (step : P → Q) :
    IfStill now base clocks Q := by
  obtain ⟨events, rfl, holds⟩ := holds
  exact ⟨events, rfl, fun still => step (holds still)⟩

theorem IfStill.still (holds : IfStill now base clocks P) (grown : clocks = base ++ events)
    (still : StandsStill now events) : P := by
  obtain ⟨others, same, holds⟩ := holds
  obtain rfl := List.append_cancel_left (grown.symm.trans same)
  exact holds still

end Readings

section Overwrite

variable {β : Type} {progs : List ProgPtr} {prog : ProgPtr} {value : β} {f : ProgPtr → β}

/-- Some programs get a value, and the others keep theirs. -/
def overwrite (progs : List ProgPtr) (value : β) (f : ProgPtr → β) (prog : ProgPtr) : β :=
  if prog ∈ progs then value else f prog

@[simp] theorem overwrite_nil : overwrite [] value f = f := by
  funext p
  simp [overwrite]

theorem overwrite_concat (progs : List ProgPtr) (prog : ProgPtr) :
    overwrite (progs ++ [prog]) value f = Function.update (overwrite progs value f) prog value := by
  funext p
  by_cases equal : p = prog <;> simp [overwrite, equal]

end Overwrite

section Pace

variable {now : Word32} {base : List ClockEvent} {status status' : ProgPtr → RunStatus}
variable {stamp stamp' : ProgPtr → Word32} {core core' : Core} {prog : ProgPtr}

/-- How far an expiry has come: which programs run, and since when each one waits if the clock
has stood still. -/
structure Core.Paced (now : Word32) (base : List ClockEvent) (status : ProgPtr → RunStatus)
    (stamp : ProgPtr → Word32) (core : Core) : Prop where
  ordinary : core.sched.progsNr < core.sched.monitorWnd
  runStatus : ∀ p, (core.pds p).runStatus = status p
  wstart : IfStill now base core.clocks (∀ p, (core.pds p).clock.wstart = stamp p)

namespace Core.Paced

theorem congr (paced : core.Paced now base status stamp)
    (ordinary : core'.sched.progsNr < core'.sched.monitorWnd)
    (same : ∀ p, (core'.pds p).runStatus = (core.pds p).runStatus ∧
      (core'.pds p).clock = (core.pds p).clock)
    (clocks : core'.clocks = core.clocks) : core'.Paced now base status stamp where
  ordinary := ordinary
  runStatus p := (same p).1.trans (paced.runStatus p)
  wstart := by
    rw [clocks]
    apply paced.wstart.imp
    intro stamps p
    rw [(same p).2]
    exact stamps p

theorem modPd (paced : core.Paced now base status stamp) {g : PdCore → PdCore}
    (same : ∀ pd, (g pd).runStatus = pd.runStatus ∧ (g pd).clock = pd.clock) :
    (core.modPd prog g).Paced now base status stamp := by
  apply paced.congr
  · exact paced.ordinary
  · intro p
    by_cases equal : p = prog
    · subst equal
      simpa [Core.modPd] using same (core.pds p)
    · simp [Core.modPd, equal]
  · rfl

theorem readEpochs (paced : core.Paced now base status stamp) (among : List Int → Nat → Bool) :
    (core.readEpochs among).Paced now base status stamp :=
  paced.congr paced.ordinary (fun _ => ⟨rfl, rfl⟩) rfl

theorem sample (paced : core.Paced now base status stamp) (instrRetd : Word64)
    (accumulated : Nat → Word64) :
    (core.sample prog instrRetd accumulated).Paced now base status stamp := by
  have copied : (core.copyStats prog accumulated).Paced now base status stamp :=
    paced.modPd (g := fun pd =>
      { pd with
        epoch := fun i => if core.inCpuset prog i then some (core.sched.prfEpoch i) else pd.epoch i
        accumulated := accumulated }) fun _ => ⟨rfl, rfl⟩
  exact copied.modPd (g := fun pd => { pd with instrRetd := instrRetd }) fun _ => ⟨rfl, rfl⟩

theorem charge (paced : core.Paced now base status stamp) (batches : List (Int × Nat)) :
    ((core.addRetired prog batches).chargeTarget prog).Paced now base status stamp := by
  have noted : (core.note (.charged prog (core.pds prog).instrRetd batches)).Paced now base
      status stamp :=
    paced.congr paced.ordinary (fun _ => ⟨rfl, rfl⟩) rfl
  have added : (core.addRetired prog batches).Paced now base status stamp :=
    noted.modPd (g := fun pd => { pd with instrRetdSum := pd.instrRetdSum + pd.instrRetd }) fun _ =>
      ⟨rfl, rfl⟩
  exact added.congr paced.ordinary (fun _ => ⟨rfl, rfl⟩) rfl

theorem kill (paced : core.Paced now base status stamp) :
    (core.kill prog).Paced now base status stamp := by
  have marked : (core.modPd prog fun pd => { pd with killed := true }).Paced now base
      status stamp :=
    paced.modPd (g := fun pd => { pd with killed := true }) fun _ => ⟨rfl, rfl⟩
  refine marked.congr ?_ (fun _ => ⟨rfl, rfl⟩) rfl
  have less := paced.ordinary
  change core.sched.progsNr - 1 < core.sched.monitorWnd
  omega

theorem waited (paced : core.Paced now base status stamp) (read : Word32) :
    (core.noteClocks [.waited prog read]).Paced now base status stamp where
  ordinary := paced.ordinary
  runStatus := paced.runStatus
  wstart := paced.wstart.snoc fun _ stamps => stamps

theorem halt (paced : core.Paced now base status stamp) (runs : status prog = .running)
    (read : Word32) : (core.halt prog read).Paced now base (Function.update status prog .stoped)
    (Function.update stamp prog now) where
  ordinary := paced.ordinary
  runStatus p := by
    by_cases equal : p = prog
    · subst equal
      simp [Core.halt, Core.modPd, Core.modProg]
    · simpa [Core.halt, Core.modPd, Core.modProg, equal] using paced.runStatus p
  wstart := by
    have here : (core.pds prog).runStatus = .running := (paced.runStatus prog).trans runs
    have noted : (core.halt prog read).clocks = core.clocks ++ ([.read prog read] ++
        [.updated prog ((core.halt prog read).pds prog).clock.running
          ((core.halt prog read).pds prog).clock.waiting]) := by
      simp [Core.halt, Core.updateClock, Core.readClock, Core.noteUpdate,
        Core.noteClocks, Core.modPd, Core.modProg]
    rw [noted]
    apply paced.wstart.snoc
    intro still stamps p
    have same : read = now := (standsStill_append.mp still).1 (.read prog read) List.mem_cons_self
    by_cases equal : p = prog
    · subst equal
      simp [Core.halt, Core.modPd, Core.modProg, Clock.update, here, same]
    · simpa [Core.halt, Core.modPd, Core.modProg, equal] using stamps p

theorem thaw (paced : core.Paced now base status stamp) (waits : status prog = .stoped)
    (read : Word32) :
    (core.thaw prog read).Paced now base (Function.update status prog .running) stamp where
  ordinary := paced.ordinary
  runStatus p := by
    by_cases equal : p = prog
    · subst equal
      simp [Core.thaw, Core.zeroEpochs, Core.modPd, Core.modProg, Core.note, Core.noteClocks]
    · simpa [Core.thaw, Core.zeroEpochs, Core.modPd, Core.modProg, Core.note,
        Core.noteClocks, equal]
        using paced.runStatus p
  wstart := by
    have here : (core.pds prog).runStatus = .stoped := (paced.runStatus prog).trans waits
    obtain ⟨more, noted⟩ : ∃ more, (core.thaw prog read).clocks = core.clocks ++ more := by
      simp only [Core.thaw, Core.updateClock, Core.readClock, Core.noteUpdate,
        Core.noteClocks, Core.modPd, Core.modProg, Core.zeroEpochs, Core.note, List.append_assoc]
      exact ⟨_, rfl⟩
    rw [noted]
    apply paced.wstart.snoc
    intro _ stamps p
    by_cases equal : p = prog
    · subst equal
      simpa [Core.thaw, Core.zeroEpochs, Core.modPd, Core.modProg, Core.note, Core.noteClocks,
        Clock.update, here]
        using stamps p
    · simpa [Core.thaw, Core.zeroEpochs, Core.modPd, Core.modProg, Core.note,
        Core.noteClocks, equal]
        using stamps p

end Core.Paced

end Pace

section Lists

variable {all sch before ahead : List ProgPtr} {prog : ProgPtr} {st st' : ExecState}

namespace Waiting

theorem congr (waiting : Waiting all sch st) (links : st'.links = st.links)
    (progsAllocated : st'.progsAllocated = st.progsAllocated) : Waiting all sch st' where
  all := by rw [links]; exact waiting.all
  sch := by rw [links]; exact waiting.sch
  apart := waiting.apart
  allocated := by rw [progsAllocated]; exact waiting.allocated

theorem of_core (waiting : Waiting all sch st) {effect : Core → Core}
    (acts : view st' = (view st).modCore effect)
    (progsAllocated : ∀ core, (effect core).progsAllocated = core.progsAllocated) :
    Waiting all sch st' :=
  waiting.congr (congrArg View.links acts)
    ((congrArg (fun v => v.core.progsAllocated) acts).trans (progsAllocated _))

theorem nodup (waiting : Waiting all sch st) : (all ++ sch).Nodup :=
  List.nodup_append'.mpr ⟨(List.nodup_cons.mp waiting.all.nodup).2.of_map _,
    (List.nodup_cons.mp waiting.sch.nodup).2.of_map _, waiting.apart⟩

theorem short (waiting : Waiting all sch st) :
    all.length ≤ st.progsAllocated ∧ sch.length ≤ st.progsAllocated :=
  ⟨waiting.has.short Decision.progsAll_mem, waiting.has.short Decision.progsSch_mem⟩

theorem kill (waiting : Waiting all (before ++ prog :: ahead) st)
    (links : st'.links = unlinkNode prog st.links)
    (progsAllocated : st'.progsAllocated = st.progsAllocated) :
    Waiting all (before ++ ahead) st' := by
  have has := waiting.has
  have listed : prog ∈ st.decision.lists (before ++ prog :: ahead) all .progsSch := by simp
  obtain ⟨dropped, off⟩ := has.rings.del Decision.progsSch_mem listed
  have rings := dropped.init off
  have erased : (before ++ prog :: ahead).erase prog = before ++ ahead :=
    erase_middle (List.nodup_append.mp waiting.nodup).2.1
  have fewer : (before ++ ahead).Sublist (before ++ prog :: ahead) :=
    List.Sublist.append_left (List.sublist_cons_self prog ahead) before
  refine ⟨?_, ?_, ?_, fun p member => ?_⟩
  · have ring := rings.ring _ Decision.progsAll_mem
    rw [links, unlinkNode]
    simpa [Lists.drop] using ring
  · have ring := rings.ring _ Decision.progsSch_mem
    rw [links, unlinkNode]
    simpa [Lists.drop, erased] using ring
  · intro p listed there
    exact waiting.apart listed (fewer.subset there)
  · rw [progsAllocated]
    exact waiting.allocated p ((fewer.append_left all).subset member)

theorem gather (waiting : Waiting all (prog :: ahead) st) :
    Waiting (all ++ [prog]) ahead (st.moved prog .progsAll) := by
  have moved := waiting.has.move Decision.progsSch_mem Decision.progsAll_mem List.mem_cons_self
  refine Waiting.of_has (moved.congr (List.Subset.refl _) fun head _ => ?_)
  cases head <;> simp [Decision.lists, Lists.move, Lists.push, Lists.drop]

end Waiting

end Lists

section Freeze

variable {all sch before ahead : List ProgPtr} {prog : ProgPtr} {st : ExecState} {now : Word32}
variable {base : List ClockEvent} {status : ProgPtr → RunStatus} {stamp : ProgPtr → Word32}

/-- Where an expiry stands: the programs on the two lists, and how far their clocks have come. -/
structure Expiring (now : Word32) (base : List ClockEvent) (status : ProgPtr → RunStatus)
    (stamp : ProgPtr → Word32) (all sch : List ProgPtr) (st : ExecState) : Prop where
  waiting : Waiting all sch st
  paced : st.core.Paced now base status stamp

namespace Expiring

theorem act (expiring : Expiring now base status stamp all sch st) {st' : ExecState}
    {g : Core → Core} (acts : view st' = (view st).modCore g)
    (progsAllocated : ∀ core, (g core).progsAllocated = core.progsAllocated)
    {status' : ProgPtr → RunStatus} {stamp' : ProgPtr → Word32}
    (paced : (g st.core).Paced now base status' stamp') :
    Expiring now base status' stamp' all sch st' where
  waiting := expiring.waiting.of_core acts progsAllocated
  paced := by
    rw [show st'.core = g st.core from congrArg View.core acts]
    exact paced

theorem quiet (expiring : Expiring now base status stamp all sch st) {st' : ExecState}
    (same : view st' = view st) : Expiring now base status stamp all sch st' :=
  expiring.act (g := id) same (fun _ => rfl) expiring.paced

theorem rebase (expiring : Expiring now base status stamp all sch st) :
    Expiring now st.clocks status (fun p => (st.pds p).tmWstart) all sch st where
  waiting := expiring.waiting
  paced := ⟨expiring.paced.ordinary, expiring.paced.runStatus, [], (List.append_nil _).symm,
    fun _ _ => rfl⟩

theorem stopLoop_spec (expiring : Expiring now base status stamp all sch st)
    (runs : ∀ p ∈ sch, status p = .running) :
    wp (cdsListForEachEntrySafe .progsSch () fun prog _ => do
        stopProg prog
        return .yield ())
      (fun _ st' => Expiring now base (overwrite sch .stoped status)
        (overwrite sch now stamp) all sch st')
      Astray st := by
  refine forEachEntrySafe_spec (fun ahead _ st => ∃ before, sch = before ++ ahead ∧
      Expiring now base (overwrite before .stoped status) (overwrite before now stamp) all sch st)
    expiring.waiting.sch expiring.waiting.short.2 ?_ ?_ ?_ ⟨[], rfl, by simpa using expiring⟩
  · intro ahead _ st inv
    obtain ⟨before, rfl, expiring⟩ := inv
    exact ⟨before, expiring.waiting.sch⟩
  · intro prog ahead _ st inv
    obtain ⟨before, split, expiring⟩ := inv
    refine Wp.bind (stopProg_halts prog) fun _ st' halts =>
      Wp.pure ⟨before ++ [prog], by simpa using split, ?_⟩
    obtain ⟨read, halted⟩ := halts
    have alone : prog ∉ before := by
      have nodup := (List.nodup_append.mp expiring.waiting.nodup).2.1
      rw [split] at nodup
      exact fun listed => (List.nodup_append.mp nodup).2.2 prog listed prog List.mem_cons_self rfl
    have here : overwrite before .stoped status prog = .running := by
      rw [overwrite, if_neg alone]
      exact runs prog (by simp [split])
    rw [overwrite_concat, overwrite_concat]
    exact expiring.act halted (fun _ => rfl) (expiring.paced.halt here read)
  · intro _ st inv
    obtain ⟨before, split, expiring⟩ := inv
    rw [List.append_nil] at split
    subst split
    exact expiring

theorem killApp_spec (expiring : Expiring now base status stamp all (before ++ prog :: ahead) st) :
    wp (killApp prog) (fun _ st' => Expiring now base status stamp all (before ++ ahead) st')
      Astray st := by
  refine BachScheduler.killApp_spec fun st' killed => ?_
  have left : Expiring now base status stamp all (before ++ ahead) st' :=
    { waiting := expiring.waiting.kill (congrArg View.links killed)
        (congrArg (fun v => v.core.progsAllocated) killed)
      paced := by
        rw [show st'.core = Core.kill prog st.core from congrArg View.core killed]
        exact expiring.paced.kill }
  refine Wp.ite (fun _ => ?_) fun _ => Wp.pure left
  refine closeResults_acts.last fun _ st'' closed => ?_
  exact left.act closed (fun _ => rfl)
    (left.paced.congr left.paced.ordinary (fun _ => ⟨rfl, rfl⟩) rfl)

/-- One round of the second loop of `freeze_sched`. -/
theorem settleProg_spec (expiring : Expiring now base status stamp all (before ++ prog :: ahead) st)
    (unhCycles : Word64) :
    wp (settleProg perf prog unhCycles) (fun step st' => ∃ unhCycles', step = .yield unhCycles' ∧
      ∃ before', before'.Sublist (before ++ [prog]) ∧
        Expiring now base status stamp all (before' ++ ahead) st') Astray st := by
  refine Wp.bind (sampleProg_samples prog) fun _ st₁ samples => ?_
  obtain ⟨instrRetd, accumulated, sampled⟩ := samples
  have expiring₁ := expiring.act sampled (fun _ => rfl)
    (expiring.paced.sample instrRetd accumulated)
  refine Wp.bind_ok (readPd_run prog st₁) ?_
  refine Wp.bind (R := fun _ st' => ∃ before', before'.Sublist (before ++ [prog]) ∧
    Expiring now base status stamp all (before' ++ ahead) st') ?_ fun _ st' settled =>
      Wp.pure ⟨_, rfl, settled⟩
  have ordinary : monitoringPhase st₁ = .ok false st₁ := by
    have less : st₁.sched.progsNr < st₁.sched.monitorWnd := expiring₁.paced.ordinary
    change EStateM.Result.ok (!decide (st₁.sched.monitorWnd > st₁.sched.progsNr)) st₁ = _
    simp [less]
  refine Wp.bind_ok ordinary (Wp.bind (addRetired_spec prog) fun _ st₂ adds => ?_)
  obtain ⟨batches, -, added⟩ := adds
  refine (chargeTarget_acts prog).before fun _ st₃ charged =>
    Wp.bind_ok (readTarget_run prog st₃) ?_
  rw [added] at charged
  have expiring₃ := expiring₁.act
    (g := fun core => (core.addRetired prog batches).chargeTarget prog)
    charged (fun _ => rfl) (expiring₁.paced.charge batches)
  refine Wp.ite (fun met => ?_) fun unmet =>
    Wp.pure ⟨before ++ [prog], List.Sublist.refl _, by simpa using expiring₃⟩
  exact Wp.imp expiring₃.killApp_spec fun _ st' killed =>
    ⟨before, List.sublist_append_left .., killed⟩

theorem settleLoop_spec (expiring : Expiring now base status stamp all sch st) :
    wp (cdsListForEachEntrySafe .progsSch 0 (settleProg perf))
      (fun _ st' => ∃ kept, kept.Sublist sch ∧
      Expiring now base status stamp all kept st') Astray st := by
  refine forEachEntrySafe_spec (fun ahead _ st => ∃ before, (before ++ ahead).Sublist sch ∧
      Expiring now base status stamp all (before ++ ahead) st)
    expiring.waiting.sch expiring.waiting.short.2 ?_ ?_ ?_ ⟨[], List.Sublist.refl _, expiring⟩
  · intro ahead _ st inv
    obtain ⟨before, -, expiring⟩ := inv
    exact ⟨before, expiring.waiting.sch⟩
  · intro prog ahead acc st inv
    obtain ⟨before, fewer, expiring⟩ := inv
    refine Wp.imp (expiring.settleProg_spec acc) fun step st' settled => ?_
    obtain ⟨acc', rfl, before', fewer', expiring'⟩ := settled
    refine ⟨before', List.Sublist.trans ?_ fewer, expiring'⟩
    simpa using fewer'.append_right ahead
  · intro _ st inv
    obtain ⟨before, fewer, expiring⟩ := inv
    rw [List.append_nil] at fewer expiring
    exact ⟨before, fewer, expiring⟩

theorem moveProgsToAll_spec (expiring : Expiring now base status stamp all sch st) :
    wp moveProgsToAll (fun _ st' => Expiring now base status stamp (all ++ sch) [] st')
      Astray st := by
  refine Wp.bind_ok (listEmpty_run _ st) (Wp.ite (fun several => ?_) fun none => Wp.pure ?_)
  · refine forEachEntrySafe_spec (fun ahead _ st => ∃ before, sch = before ++ ahead ∧
        Expiring now base status stamp (all ++ before) ahead st)
      expiring.waiting.sch expiring.waiting.short.2 ?_ ?_ ?_ ⟨[], rfl, by simpa using expiring⟩
    · intro ahead _ st inv
      obtain ⟨before, -, expiring⟩ := inv
      exact ⟨[], expiring.waiting.sch⟩
    · intro prog ahead _ st inv
      obtain ⟨before, split, expiring⟩ := inv
      refine (of_ok (gather_run prog st)).mpr ⟨before ++ [prog], by simpa using split, ?_⟩
      have gathered := expiring.waiting.gather
      rw [List.append_assoc] at gathered
      exact ⟨gathered, expiring.paced⟩
    · intro _ st inv
      obtain ⟨before, split, expiring⟩ := inv
      rw [List.append_nil] at split
      rwa [split]
  · have empty : sch = [] := by
      have has := expiring.waiting.has
      rw [Bool.not_eq_true', Bool.not_eq_false,
        has.rings.cdsListEmpty_iff Decision.progsSch_mem] at none
      exact none
    subst empty
    simpa using expiring

/-- The programs that know how long they have waited. -/
def Measured (now : Word32) (base : List ClockEvent) (stamp : ProgPtr → Word32)
    (progs : List ProgPtr) (st : ExecState) : Prop :=
  IfStill now base st.clocks (∀ p ∈ progs, (st.pds p).waitingTime = now - stamp p)

/-- The progress of a program is the time it has waited. -/
theorem progressProg_measures (unhCycles : Word64) (prog : ProgPtr) :
    wp (progressProg perf unhCycles prog) (fun _ st' => ∃ read,
      view st' = (view st).modCore (Core.noteClocks [.waited prog read]) ∧
        (st'.pds prog).waitingTime = read - (st.pds prog).tmWstart ∧
        ∀ p, p ≠ prog → (st'.pds p).waitingTime = (st.pds p).waitingTime) Astray st := by
  have runs : wp (progressProg perf unhCycles prog) (fun _ st' => ∃ read,
      st'.clocks = st.clocks ++ [.waited prog read] ∧
        (st'.pds prog).waitingTime = read - (st.pds prog).tmWstart ∧
        ∀ p, p ≠ prog → (st'.pds p).waitingTime = (st.pds p).waitingTime) Astray st := by
    refine Wp.bind_ok (show schedUpdateWaiting prog st = .ok () _ from rfl) ?_
    refine Wp.bind_ok (show perfProgress prog unhCycles _ = .ok () _ from rfl) ?_
    refine (of_ok (writeResults_run _)).mpr
      ⟨clockMillis (st.env.timeOfDay st.reads), rfl, ?_, fun p differs => ?_⟩
    · simp
    · simp [differs]
  have waits : wp (progressProg PolicyName.perf.policy unhCycles prog) _ Astray st :=
    progressProg_waits unhCycles prog
  refine Wp.mono (Wp.and waits runs) (fun _ st' both => ?_) fun _ _ astray => astray.1
  obtain ⟨⟨read, waited⟩, read', noted, measured, others⟩ := both
  have same : st.clocks ++ [.waited prog read] = st.clocks ++ [.waited prog read'] :=
    (congrArg (fun v => v.core.clocks) waited).symm.trans noted
  obtain rfl : read = read' := by simpa using same
  exact ⟨read, waited, measured, others⟩

theorem progressLoop_spec (expiring : Expiring now base status stamp all sch st)
    (unhCycles : Word64) :
    wp (cdsListForEachEntry .progsAll (progressProg perf unhCycles)) (fun _ st' =>
      Expiring now base status stamp all sch st' ∧ Measured now base stamp all st') Astray st := by
  have start : Measured now base stamp [] st := expiring.paced.wstart.imp fun _ p listed => by
    simp at listed
  refine Wp.imp (forEachEntry_spec (fun before ahead st => all = before ++ ahead ∧
      Expiring now base status stamp all sch st ∧ Measured now base stamp before st)
    expiring.waiting.all expiring.waiting.short.1 ?_ ?_ ⟨rfl, expiring, start⟩) ?_
  · intro before ahead st inv
    obtain ⟨rfl, expiring, -⟩ := inv
    exact expiring.waiting.all
  · intro before prog ahead st inv
    obtain ⟨split, expiring, measured⟩ := inv
    refine Wp.imp (progressProg_measures unhCycles prog) fun _ st' measures => ?_
    obtain ⟨read, waited, here, others⟩ := measures
    refine ⟨by
      simpa using split, expiring.act waited (fun _ => rfl) (expiring.paced.waited read), ?_⟩
    have noted : st'.clocks = st.clocks ++ [.waited prog read] :=
      congrArg (fun v => v.core.clocks) waited
    unfold Measured
    rw [noted]
    apply (measured.and expiring.paced.wstart).snoc
    intro still known p listed
    obtain ⟨known, stamps⟩ := known
    by_cases equal : p = prog
    · subst equal
      have same : read = now := still (.waited p read) List.mem_cons_self
      have stamped : (st.pds p).tmWstart = stamp p := stamps p
      rw [here, same, stamped]
    · rw [others p equal]
      exact known p (by simpa [equal] using listed)
  · intro _ st' ended
    exact ended.2

/-- `freeze_sched`: what ran waits from now on, and every program knows how long it has waited. -/
theorem freezeSched_spec (expiring : Expiring now base status stamp all sch st)
    (runs : ∀ p ∈ sch, status p = .running) :
    wp (freezeSched perf) (fun _ st' => ∃ kept, kept.Sublist sch ∧
      Expiring now base (overwrite sch .stoped status) (overwrite sch now stamp)
        (all ++ kept) [] st' ∧
        Measured now base (overwrite sch now stamp) (all ++ kept) st') Astray st := by
  refine freezeCounters_acts.before fun _ st₁ reads => ?_
  have expiring₁ := expiring.act reads (fun _ => rfl) (expiring.paced.readEpochs _)
  refine Wp.bind (expiring₁.stopLoop_spec runs) fun _ st₂ expiring₂ => ?_
  refine Wp.bind expiring₂.settleLoop_spec fun unhCycles st₃ settled => ?_
  obtain ⟨kept, fewer, expiring₃⟩ := settled
  refine Wp.bind expiring₃.moveProgsToAll_spec fun _ st₄ expiring₄ => ?_
  refine writeResults_quiet.before fun _ st₅ same => ?_
  refine Wp.bind ((expiring₄.quiet same).progressLoop_spec unhCycles) fun _ st₆ measures => ?_
  obtain ⟨expiring₆, measured⟩ := measures
  refine Wp.bind_ok (readSched_run st₆)
    (Wp.ite (fun reached => ?_) fun _ => Wp.pure ⟨kept, fewer, expiring₆, measured⟩)
  have less : st₆.sched.progsNr < st₆.sched.monitorWnd := expiring₆.paced.ordinary
  have factor : perf.windowFactor = 1 := rfl
  rw [factor, one_mul] at reached
  exact absurd reached less.ne'

end Expiring

end Freeze

section Round

variable {all sch progs : List ProgPtr} {prog : ProgPtr} {st : ExecState} {now : Word32}
variable {base : List ClockEvent} {status : ProgPtr → RunStatus} {stamp : ProgPtr → Word32}

namespace Expiring

/-- The programs that `perf_schedule` has taken so far. -/
structure Taken (progs : List ProgPtr) (st : ExecState) (picked : List ProgPtr) : Prop where
  listed : ∀ p ∈ picked, p ∈ progs
  longest : ∀ first, progs.argmax (fun p => (st.pds p).waitingTime.toInt) = some first →
    picked = [] ∨ first ∈ picked

/-- `perf_schedule` takes the first of the programs that have waited longest. -/
theorem perfSchedule_spec (expiring : Expiring now base status stamp progs [] st) :
    wp perfSchedule (fun _ st' => st'.clocks = st.clocks ∧ ∃ picked,
      Expiring now base status stamp (unpicked progs picked) picked st' ∧
        (∀ p ∈ picked, p ∈ progs) ∧
        ∀ first, progs.argmax (fun p => (st.pds p).waitingTime.toInt) = some first → first ∈ picked)
          Astray st := by
  have waiting := expiring.waiting
  have population : Population progs st := ⟨waiting.all, waiting.sch, fun prog listed =>
    waiting.allocated prog (by simpa using listed)⟩
  have here : st.decision.At [] (unpicked progs []) st := by
    simpa [unpicked] using population.at
  refine Wp.bind_ok (Decision.Has.monitoringPhase_run here expiring.paced.ordinary) ?_
  refine Wp.bind_ok (writeResults_run st) (Wp.bind_ok (walkFuel_run _) ?_)
  have step : ∀ picked bw prog, Taken progs st picked →
      st.decision.PerfChooses (st.decision.cores picked) bw (unpicked progs picked) prog →
      Taken progs st (picked ++ [prog]) := by
    intro picked bw prog taken chooses
    have listed : prog ∈ progs := List.mem_of_mem_filter chooses.listed
    refine ⟨fun p member => ?_, fun first longest => .inr ?_⟩
    · rcases List.mem_append.mp member with before | here
      · exact taken.listed p before
      · rwa [List.mem_singleton.mp here]
    · rcases taken.longest first longest with none | before
      · subst none
        have everything : unpicked progs [] = progs := by simp [unpicked]
        rw [Decision.PerfChooses, Decision.cores_nil, if_pos rfl, everything] at chooses
        have chosen : progs.argmax (fun p => (st.pds p).waitingTime.toInt) = some prog := chooses
        obtain rfl : first = prog := Option.some.inj (longest.symm.trans chosen)
        simp
      · exact List.mem_append_left _ before
  refine Wp.imp
    (Decision.perfLoop_induction (fun picked _ => Taken progs st picked) step population.at.nodup _
    here.written ⟨by simp, fun _ _ => .inl rfl⟩ (Nat.lt_succ_of_le here.short)) fun _ st' ended =>
      ?_
  obtain ⟨picked, bw, here, taken, full⟩ := ended
  have core : st'.core = st.core.assignAll st.decision.need picked 0 := here.core
  have clocks : st'.core.clocks = st.core.clocks := by rw [core, Core.assignAll_clocks]
  have paced : st'.core.Paced now base status stamp := by
    refine expiring.paced.congr ?_ (fun p => ?_) clocks
    · rw [core, Core.assignAll_sched]
      exact expiring.paced.ordinary
    · have alone := Core.assignAll_unclocked st.core st.decision.need picked 0 p
      rw [core]
      exact ⟨alone.runStatus, alone.clock⟩
  refine ⟨clocks, picked, ⟨.of_has here, paced⟩, taken.listed, fun first longest => ?_⟩
  refine (taken.longest first longest).resolve_left fun none => ?_
  subst none
  have empty : progs = [] := by simpa [unpicked, maxCores] using full
  simp [empty] at longest

theorem thawSched_spec (expiring : Expiring now base status stamp all sch st)
    (waits : ∀ p ∈ sch, status p = .stoped) :
    wp thawSched (fun _ st' => Expiring now base (overwrite sch .running status) stamp all sch st')
      Astray st := by
  have loop : wp (cdsListForEachEntry .progsSch thawProg) (fun _ st' =>
      Expiring now base (overwrite sch .running status) stamp all sch st') Astray st := by
    refine Wp.imp (forEachEntry_spec (fun before ahead st => sch = before ++ ahead ∧
        Expiring now base (overwrite before .running status) stamp all sch st)
      expiring.waiting.sch expiring.waiting.short.2 ?_ ?_ ⟨rfl, by simpa using expiring⟩)
        fun _ _ ended => ended.2
    · intro before ahead st inv
      obtain ⟨rfl, expiring⟩ := inv
      exact expiring.waiting.sch
    · intro before prog ahead st inv
      obtain ⟨split, expiring⟩ := inv
      refine Wp.imp (thawProg_thaws prog) fun _ st' thaws => ⟨by simpa using split, ?_⟩
      obtain ⟨read, thawed⟩ := thaws
      have alone : prog ∉ before := by
        have nodup := (List.nodup_append.mp expiring.waiting.nodup).2.1
        rw [split] at nodup
        exact fun listed => (List.nodup_append.mp nodup).2.2 prog listed prog List.mem_cons_self rfl
      have here : overwrite before .running status prog = .stoped := by
        rw [overwrite, if_neg alone]
        exact waits prog (by simp [split])
      rw [overwrite_concat]
      exact expiring.act thawed (fun _ => rfl) (expiring.paced.thaw here read)
  refine Wp.bind loop fun _ st₁ expiring₁ => restartCounters_acts.last fun _ st₂ restarted => ?_
  exact expiring₁.act restarted (fun _ => rfl)
    (expiring₁.paced.congr expiring₁.paced.ordinary (fun _ => ⟨rfl, rfl⟩) rfl)

theorem rearm_leads (time : Timeval) : Leads (Expiring now base status stamp all sch)
    (Expiring now base status stamp all sch) (rearm time) := by
  have same : ∀ {st st' : ExecState}, st'.links = st.links → st'.core = st.core →
      Expiring now base status stamp all sch st → Expiring now base status stamp all sch st' := by
    intro st st' links core expiring
    refine ⟨expiring.waiting.congr links (congrArg Core.progsAllocated core), ?_⟩
    rw [core]
    exact expiring.paced
  refine Leads.keep (Leads.modify fun st => same rfl rfl) fun _ => Leads.get.bind fun _ => ?_
  exact (orElseStop_leads _ _).bind fun _ => Leads.modify fun st => same rfl rfl

/-- `qexpired` lets the first of the programs run that have waited longest. -/
theorem qexpired_spec (expiring : Expiring now base status stamp all sch st)
    (runs : ∀ p ∈ sch, status p = .running) (waits : ∀ p ∈ all, status p = .stoped)
    (time : Timeval) :
    wp (perfQexpired time)
      (fun _ st' => ∃ kept picked, kept.Sublist sch ∧ (∀ p ∈ picked, p ∈ all ++ kept) ∧
      Expiring now base (overwrite picked .running (overwrite sch .stoped status))
        (overwrite sch now stamp)
        (unpicked (all ++ kept) picked) picked st' ∧
      IfStill now base st'.clocks (∀ first,
        (all ++ kept).argmax (fun p => (now - overwrite sch now stamp p).toInt) = some first →
        first ∈ picked))
      (fun _ _ => True) st := by
  have ticks : Acts view (modifySched fun sched => { sched with totalTics := sched.totalTics + 1 })
      (View.modCore Core.tick) := modifySched_acts fun _ => rfl
  refine ticks.before fun _ st₁ ticked => ?_
  have expiring₁ := expiring.act ticked (fun _ => rfl)
    (expiring.paced.congr expiring.paced.ordinary (fun _ => ⟨rfl, rfl⟩) rfl)
  have counted : Acts view
      (modify fun st => { st with totalQuantums := st.totalQuantums + 1 } : Exec Unit) id :=
    Acts.modify fun _ => rfl
  refine counted.before fun _ st₂ same => ?_
  have frozen := (expiring₁.quiet same).freezeSched_spec runs
  refine Wp.bind (Wp.mono frozen (fun _ _ holds => holds) fun _ _ _ => trivial) fun _ st₃ freezes =>
    ?_
  obtain ⟨kept, fewer, expiring₃, measured⟩ := freezes
  refine Wp.bind (Wp.mono expiring₃.perfSchedule_spec (fun _ _ holds => holds) fun _ _ _ => trivial)
    fun _ st₄ schedules => ?_
  obtain ⟨clocks, picked, expiring₄, listed, longest⟩ := schedules
  have rest : ∀ p ∈ picked, overwrite sch .stoped status p = .stoped := by
    intro p member
    rcases List.mem_append.mp (listed p member) with inAll | inKept
    · by_cases inSch : p ∈ sch <;> simp [overwrite, inSch, waits p inAll]
    · simp [overwrite, fewer.subset inKept]
  have chosen : IfStill now base st₄.clocks (∀ first,
      (all ++ kept).argmax (fun p => (now - overwrite sch now stamp p).toInt) = some first →
        first ∈ picked) := by
    rw [clocks]
    apply measured.imp
    intro known first longest'
    apply longest
    rw [← longest']
    apply argmax_congr
    intro one oneListed two twoListed
    rw [known one oneListed, known two twoListed]
  have thawed := expiring₄.rebase.thawSched_spec rest
  refine Wp.bind (Wp.mono thawed (fun _ _ holds => holds) fun _ _ _ => trivial)
    fun _ st₅ expiring₅ => ?_
  refine Wp.imp (rearm_leads time st₅ expiring₅) fun _ st₆ expiring₆ => ?_
  obtain ⟨more, grown, stays⟩ := expiring₆.paced.wstart
  have holds := (expiring₄.paced.wstart.and chosen).snoc
    (Q := (∀ p, (st₆.core.pds p).clock.wstart = overwrite sch now stamp p) ∧ _) fun still both =>
      ⟨fun p => (stays still p).trans (both.1 p), both.2⟩
  rw [← show st₆.core.clocks = st₄.core.clocks ++ more from grown] at holds
  exact ⟨kept, picked, fewer, listed,
    ⟨expiring₆.waiting, expiring₆.paced.ordinary, expiring₆.paced.runStatus, holds.imp And.left⟩,
      holds.imp And.right⟩

end Expiring

end Round

end BachScheduler
