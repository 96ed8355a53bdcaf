import BachScheduler.LinuxInvariants

/-!
# The hooks of the `linux` policy as steps

`linux_rebalance` and `linux_qexpired` do nothing to the programs but the steps of their life
under the policy.
-/

namespace BachScheduler

open BachScheduler.Ring Wp

variable {rules : LinuxRules} {start a b : LinuxLife} {st st' : ExecState} {xs : List EvntPtr}
variable {prog : ProgPtr} {source target : Place} {effect : LinuxCore → LinuxCore}
    {head dest : Node}

section View

/-- What `linux.c` knows of the programs and their slots. -/
def ExecState.linuxCore (st : ExecState) : LinuxCore where
  core := st.core
  progsInit := st.linux.progsInit
  progsLeft := st.linux.progsLeft
  initId := fun prog => (st.linuxData prog).initId
  killed := fun prog => (st.linuxData prog).killed

/-- The list nodes and the event heap, with the core for the `linux` policy. -/
structure LinuxView where
  links : Links Node
  eventsHeap : Heap EvntPtr
  events : EvntPtr → AffEvent
  eventsAllocated : Nat
  core : LinuxCore

def linuxView (st : ExecState) : LinuxView where
  links := st.links
  eventsHeap := st.eventsHeap
  events := st.events
  eventsAllocated := st.eventsAllocated
  core := st.linuxCore

namespace LinuxView

def modCore (change : LinuxCore → LinuxCore) (v : LinuxView) : LinuxView :=
  { v with core := change v.core }

def modLinks (change : Links Node → Links Node) (v : LinuxView) : LinuxView :=
  { v with links := change v.links }

/-- What the executor sees of it. -/
def view (v : LinuxView) : View :=
  ⟨v.links, v.eventsHeap, v.events, v.eventsAllocated, v.core.core⟩

end LinuxView

/-- The part of the state that only `linux.c` uses. -/
def linuxPart (st : ExecState) : Int × Int × (ProgPtr → Int) × (ProgPtr → Bool) :=
  (st.linux.progsInit, st.linux.progsLeft, fun prog => (st.linuxData prog).initId,
    fun prog => (st.linuxData prog).killed)

/-- What the executor sees, and what only `linux.c` uses, is everything. -/
theorem linuxView_eq {v : View} (shown : view st' = v) (same : linuxPart st' = linuxPart st) :
    linuxView st' =
      ⟨v.links, v.eventsHeap, v.events, v.eventsAllocated,
        { st.linuxCore with core := v.core }⟩ := by
  subst shown
  simp only [linuxPart, Prod.mk.injEq] at same
  simp only [linuxView, ExecState.linuxCore, LinuxView.mk.injEq, LinuxCore.mk.injEq]
  exact ⟨rfl, rfl, rfl, rfl, rfl, same⟩

/-- What a program does to the core of the executor. -/
theorem lift_acts {m : Exec Unit} {g : Core → Core} (acts : Acts view m (View.modCore g))
    (same : ∀ st, wp m (fun _ st' => linuxPart st' = linuxPart st) (fun _ _ => True) st) :
    Acts linuxView m (LinuxView.modCore (LinuxCore.lift g)) := by
  intro st
  refine Wp.mono (Wp.and (acts st) (same st)) (fun _ st' both => ?_) fun _ _ never => never.1
  rw [linuxView_eq both.1 both.2]
  rfl

theorem modifyLinux_quiet {change : LinuxSched → LinuxSched}
    (same : ∀ sched, (change sched).progsInit = sched.progsInit ∧
      (change sched).progsLeft = sched.progsLeft) :
    Acts linuxView (modifyLinux change) id := by
  refine Acts.modify fun st => ?_
  obtain ⟨progsInit, progsLeft⟩ := same st.linux
  simp only [linuxView, ExecState.linuxCore, ExecState.core, progsInit, progsLeft, id]

theorem modifyLinuxData_acts (change : LinuxData → LinuxData) (setId : Int → Int)
    (setKilled : Bool → Bool)
    (changes : ∀ pd, (change pd).initId = setId pd.initId ∧
      (change pd).killed = setKilled pd.killed) :
    Acts linuxView (modifyLinuxData prog change) (LinuxView.modCore fun c =>
      { c with
        initId := Function.update c.initId prog (setId (c.initId prog))
        killed := Function.update c.killed prog (setKilled (c.killed prog)) }) := by
  refine Acts.modify fun st => ?_
  have each : ∀ p, (Function.update st.linuxData prog (change (st.linuxData prog)) p).initId =
        Function.update (fun q => (st.linuxData q).initId) prog
          (setId (st.linuxData prog).initId) p ∧
      (Function.update st.linuxData prog (change (st.linuxData prog)) p).killed =
        Function.update (fun q => (st.linuxData q).killed) prog
          (setKilled (st.linuxData prog).killed) p := by
    intro p
    by_cases equal : p = prog
    · subst equal
      simpa using changes (st.linuxData p)
    · simp [equal]
  simp only [linuxView, LinuxView.modCore, ExecState.linuxCore, ExecState.core, LinuxView.mk.injEq,
    LinuxCore.mk.injEq, true_and]
  exact ⟨funext fun p => (each p).1, funext fun p => (each p).2⟩

theorem modifyLinuxData_quiet {change : LinuxData → LinuxData}
    (same : ∀ pd, (change pd).initId = pd.initId ∧ (change pd).killed = pd.killed) :
    Acts linuxView (modifyLinuxData prog change) id := by
  intro st
  refine (modifyLinuxData_acts change id id same).last fun _ st' changed => ?_
  rw [changed]
  simp [LinuxView.modCore]

theorem linuxReadClock_quiet (prog : ProgPtr) : Acts linuxView (linuxReadClock prog) id := by
  have read : Acts linuxView (readEnv Env.cpuTime) id := fun _ => rfl
  exact read.skip fun _ => modifyLinuxData_quiet fun _ => ⟨rfl, rfl⟩

theorem linuxProgramFinished_quiet (prog : ProgPtr) :
    Acts linuxView (linuxProgramFinished prog) id := by
  have read : Acts linuxView (readEnv Env.timeOfDay) id := fun _ => rfl
  have known : Acts linuxView readLinux id := fun _ => rfl
  have data : Acts linuxView (readLinuxData prog) id := fun _ => rfl
  unfold linuxProgramFinished
  refine read.skip fun _ => known.skip fun _ => (linuxReadClock_quiet prog).skip fun _ =>
    data.skip fun _ => ?_
  exact modifyLinux_quiet fun _ => ⟨rfl, rfl⟩

theorem linuxRetire_acts (prog : ProgPtr) :
    Acts linuxView (linuxRetire prog) (LinuxView.modCore (LinuxCore.retire prog)) := fun _ => rfl

/-- Both hooks end with a look at the slots that are left. -/
theorem linuxTerminate_settles (st : ExecState) :
    wp (when (st.linux.progsLeft ≤ 0) linuxTerminate)
      (fun _ st' => linuxView st' = (linuxView st).modCore LinuxCore.settle) Astray st := by
  refine Wp.ite (fun none => ?_) fun some => Wp.pure ?_
  · have printed : Acts linuxView linuxTerminate (LinuxView.modCore
        (LinuxCore.lift fun core => { core.note .printTotals with massacre := true })) := fun _ =>
          rfl
    refine printed.last fun _ st' shown => ?_
    have left : (linuxView st).core.progsLeft ≤ 0 := none
    rw [shown, LinuxView.modCore, LinuxView.modCore, LinuxCore.settle, if_pos left]
  · have left : ¬ (linuxView st).core.progsLeft ≤ 0 := some
    rw [LinuxView.modCore, LinuxCore.settle, if_neg left]

theorem linuxKill_acts (prog : ProgPtr) (current : Int) :
    Acts linuxView (linuxKill prog current) (LinuxView.modCore (LinuxCore.kill prog)) := by
  intro st
  refine Wp.bind_ok rfl ((linuxRetire_acts prog).before fun _ st₁ retired => ?_)
  refine Acts.before (modifyLinux_quiet fun _ => ⟨rfl, rfl⟩) fun _ st₂ same => ?_
  refine (modifyLinuxData_acts (fun pd => { pd with killed := true }) id (fun _ => true) fun _ =>
    ⟨rfl, rfl⟩).last fun _ st₃ marked => ?_
  rw [marked, same, id_eq, retired]
  simp [LinuxView.modCore, LinuxCore.kill, LinuxCore.retire]

end View

section Tracks

/-- The state shows a life of the programs that came about by steps. -/
structure LinuxTracks (rules : LinuxRules) (start : LinuxLife) (st : ExecState) (xs : List EvntPtr)
    (a : LinuxLife) : Prop where
  steps : LinuxSteps rules start a
  fits : a.Fits
  core : st.linuxCore = a.core
  rings : PlRings linuxHeads a.core.core.progsAllocated st.links a.on []
  queue : Queue (view st) xs a.place

namespace LinuxTracks

theorem ring (tracks : LinuxTracks rules start st xs a) (member : head ∈ linuxHeads) :
    IsRing st.links head ((a.on head).map Node.plNode) :=
  tracks.rings.ring head member

theorem progsAllocated (tracks : LinuxTracks rules start st xs a) :
    st.progsAllocated = a.core.core.progsAllocated :=
  congrArg (fun c => c.core.progsAllocated) tracks.core

theorem short (tracks : LinuxTracks rules start st xs a) (member : head ∈ linuxHeads) :
    (a.on head).length ≤ st.progsAllocated :=
  (tracks.rings.length_le member).trans tracks.progsAllocated.ge

theorem quiet (tracks : LinuxTracks rules start st xs a) (same : linuxView st' = linuxView st) :
    LinuxTracks rules start st' xs a where
  steps := tracks.steps
  fits := tracks.fits
  core := (congrArg LinuxView.core same).trans tracks.core
  rings := by
    rw [show st'.links = st.links from congrArg LinuxView.links same]
    exact tracks.rings
  queue := tracks.queue.view (congrArg LinuxView.eventsHeap same) (congrArg LinuxView.events same)
    (congrArg LinuxView.eventsAllocated same)

theorem act (tracks : LinuxTracks rules start st xs a) (step : LinuxStep rules a (a.act effect))
    (allocated : (effect a.core).core.progsAllocated = a.core.core.progsAllocated)
    (same : linuxView st' = (linuxView st).modCore effect) :
    LinuxTracks rules start st' xs (a.act effect) where
  steps := tracks.steps.tail step
  fits := tracks.fits.step step
  core := (congrArg LinuxView.core same).trans (congrArg effect tracks.core)
  rings := by
    rw [LinuxLife.act_core, allocated, show st'.links = st.links from congrArg LinuxView.links same]
    exact tracks.rings
  queue := tracks.queue.view (congrArg LinuxView.eventsHeap same) (congrArg LinuxView.events same)
    (congrArg LinuxView.eventsAllocated same)

/-- A program moves, and its links are changed as its places ask for. -/
theorem move (tracks : LinuxTracks rules start st xs a) (here : a.place prog = source)
    (move : LinuxMove a prog source target effect) {links : Links Node → Links Node}
    (same : linuxView st' = ((linuxView st).modLinks links).modCore effect)
    (rings : PlRings linuxHeads a.core.core.progsAllocated (links st.links)
      (a.transfer prog target).on [])
    (notWaiting : source ≠ .waiting) (notLater : target ≠ .waiting)
    (allowed : target = .finished ∨ target = .reaped → rules.exits prog) :
    LinuxTracks rules start st' xs ((a.transfer prog target).act effect) where
  steps := tracks.steps.tail (.move here move allowed)
  fits := tracks.fits.move here move
  core := (congrArg LinuxView.core same).trans (congrArg effect tracks.core)
  rings := by
    rw [LinuxLife.act_core, LinuxLife.transfer_core, move.follows.progsAllocated,
      show st'.links = links st.links from congrArg LinuxView.links same]
    exact rings
  queue := (tracks.queue.update (here ▸ notWaiting) notLater).view
    (congrArg LinuxView.eventsHeap same)
    (congrArg LinuxView.events same) (congrArg LinuxView.eventsAllocated same)

theorem listed (tracks : LinuxTracks rules start st xs a) (member : head ∈ linuxHeads)
    (home : (a.place prog).linuxHome = some head) : prog ∈ a.on head :=
  (tracks.fits.listed.mem head member prog).mpr home

/-- A program goes to the end of another list. -/
theorem relocate (tracks : LinuxTracks rules start st xs a) (here : a.place prog = source)
    (step : LinuxMove a prog source target effect) (fromMember : head ∈ linuxHeads)
    (toMember : dest ∈ linuxHeads) (fromHome : source.linuxHome = some head)
    (toHome : target.linuxHome = some dest)
    (allowed : target = .finished ∨ target = .reaped → rules.exits prog)
    (same : linuxView st' = ((linuxView st).modLinks fun links =>
      cdsListAddTail (.plNode prog) dest (cdsListDel (.plNode prog) links)).modCore effect) :
    LinuxTracks rules start st' xs ((a.transfer prog target).act effect) := by
  refine tracks.move here step same ?_ ?_ ?_ allowed
  · obtain ⟨dropped, off⟩ := tracks.rings.del fromMember
      (tracks.listed fromMember (here ▸ fromHome))
    have small := tracks.fits.allocated (here ▸ step.born.1)
    have moved := dropped.addTail toMember off small
    simpa [LinuxLife.transfer, here, fromHome, toHome, Life.leave, Life.join] using moved
  · rintro rfl
    exact absurd fromHome (by simp [Place.linuxHome])
  · rintro rfl
    exact absurd toHome (by simp [Place.linuxHome])

end LinuxTracks

end Tracks

section Rebalance

/-- The body of the loop over the new programs. -/
theorem linuxRebalanceNew_enters (prog : ProgPtr) :
    wp (linuxRebalanceNew prog) (fun _ st' => st.linuxCore.progsInit ≠ 0 ∧
      linuxView st' = ((linuxView st).modLinks fun links =>
        cdsListAddTail (.plNode prog) .linuxProgs (cdsListDel (.plNode prog) links)).modCore
          (LinuxCore.enter prog))
      Astray st := by
  have links : ∀ change, Acts linuxView (modifyLinks change) (LinuxView.modLinks change) :=
    fun _ _ => rfl
  have fresh : Acts linuxView (readEnv Env.freshLinuxData) id := fun _ => rfl
  have enrolls : Acts linuxView (affProgNewRunning prog)
      (LinuxView.modCore (LinuxCore.lift (Core.enroll prog))) :=
    fun _ => rfl
  refine (links _).before fun _ st₁ dropped => ?_
  refine Wp.bind (R := fun _ st' => st.linuxCore.progsInit ≠ 0 ∧
    linuxView st' = ((linuxView st).modLinks fun links =>
      cdsListAddTail (.plNode prog) .linuxProgs (cdsListDel (.plNode prog) links)).modCore fun c =>
        { c with
          initId := Function.update c.initId prog
            (((c.core.progs prog).id - idUserOffset).tmod c.progsInit)
          killed := Function.update c.killed prog false }) ?_ fun _ st₂ added => ?_
  · unfold linuxAddProg
    refine fresh.before fun blank st₂ same => Wp.bind_ok rfl (Wp.bind_ok rfl ?_)
    have here : linuxView st₂ = (linuxView st).modLinks (cdsListDel (.plNode prog)) :=
      same.trans dropped
    have core : st₂.linuxCore = st.linuxCore := congrArg LinuxView.core here
    have progsInit : st₂.linux.progsInit = st.linuxCore.progsInit :=
      congrArg LinuxCore.progsInit core
    have id : (st₂.progs prog).id = (st.linuxCore.core.progs prog).id :=
      congrArg (fun c => (c.core.progs prog).id) core
    by_cases none : st₂.linux.progsInit = 0
    · rw [when_pos none]
      exact Wp.bind (R := fun _ _ => False) (Wp.throw (.inl rfl)) fun _ _ never => never.elim
    · rw [when_neg none]
      refine Wp.bind_ok rfl (Acts.before (modifyLinuxData_acts _
        (fun _ => ((st₂.progs prog).id - idUserOffset).tmod st₂.linux.progsInit) (fun _ => false)
        fun _ => ⟨rfl, rfl⟩) fun _ st₃ marked => (links _).before fun _ st₄ queued => ?_)
      refine Acts.last (modifyLinux_quiet fun _ => ⟨rfl, rfl⟩) fun _ st₅ counted =>
        ⟨progsInit ▸ none, ?_⟩
      rw [counted, id_eq, queued, marked, here, id, progsInit]
      rfl
  · refine enrolls.before fun _ st₃ enrolled => ?_
    obtain ⟨some, added⟩ := added
    have thaws : Acts view (frzrSetstate prog .thawed)
        (View.modCore (Core.modProg prog fun p => { p with freezer := .thawed })) :=
          modifyProg_acts fun _ => rfl
    refine (lift_acts thaws fun _ => rfl).last fun _ st₄ thawed => ⟨some, ?_⟩
    rw [thawed, enrolled, added]
    rfl

/-- A program waits, is new or is on the list of the scheduler. -/
def LinuxLife.Busy (a : LinuxLife) : Prop :=
  ∃ prog, (a.place prog).present = true

/-- Only the exit of a program takes it from the list of the scheduler. -/
theorem LinuxLife.Busy.transfer (busy : a.Busy) (here : a.place prog = source)
    (stays : source.present = true → target.present = true) :
    ((a.transfer prog target).act effect).Busy := by
  obtain ⟨p, present⟩ := busy
  refine ⟨p, ?_⟩
  by_cases equal : p = prog
  · subst equal
    simpa using stays (here ▸ present)
  · simpa [equal] using present

theorem LinuxTracks.rebalanceNew_spec (tracks : LinuxTracks rules start st xs a)
    (new : prog ∈ a.on .pnewL) :
    wp (linuxRebalanceNew prog)
      (fun _ st' => ∃ b, LinuxTracks rules start st' xs b ∧ (a.Busy → b.Busy) ∧
      b.on .pnewL = (a.on .pnewL).erase prog) Astray st := by
  have member : Node.pnewL ∈ linuxHeads := by simp [linuxHeads]
  have home := (tracks.fits.listed.mem .pnewL member prog).mp new
  have here : a.place prog = .new := by
    revert home
    cases a.place prog <;> simp [Place.linuxHome]
  refine Wp.imp (linuxRebalanceNew_enters prog) fun _ st' enters => ?_
  obtain ⟨some, entered⟩ := enters
  have move : LinuxMove a prog .new .all (LinuxCore.enter prog) := .enter (tracks.core ▸ some)
  refine ⟨_, tracks.relocate here move member (by simp [linuxHeads] : Node.linuxProgs ∈ linuxHeads)
    rfl rfl (by simp) entered,
    fun busy => busy.transfer here fun _ => rfl, ?_⟩
  simp [LinuxLife.transfer, here, Place.linuxHome, Life.leave, Life.join, Lists.drop, Lists.push]

/-- The start of a program does not concern what only `linux.c` uses. -/
theorem launch_apart {part : Int × Int × (ProgPtr → Int) × (ProgPtr → Bool)} (prog : ProgPtr) :
    Leads (fun st => linuxPart st = part) (fun st => linuxPart st = part) (launch prog) := by
  have reads : ∀ value : Env → Nat → Nat,
      Leads (fun st => linuxPart st = part) (fun st => linuxPart st = part) (readEnv value) :=
        fun _ _ same => same
  have changes : ∀ change, Leads (fun st => linuxPart st = part) (fun st => linuxPart st = part)
      (modifyProg prog change) := fun _ _ same => same
  unfold launch doExecute
  refine Leads.keep ?_ fun _ => (readProg_leads prog).bind fun _ =>
    Leads.keep (fun _ same => same) fun evnt => ?_
  · refine (reads _).bind fun _ => (changes _).bind fun _ => (changes _).bind fun _ =>
      (reads _).bind fun _ => ?_
    exact (changes _).bind fun _ => Leads.get.bind fun _ => fun _ same => same
  · refine Leads.keep ?_ fun _ => fun _ same => same
    exact Leads.get.bind fun _ => (orElseStop_leads _ _).bind fun _ => fun _ same => same

theorem progRespawn_apart {part : Int × Int × (ProgPtr → Int) × (ProgPtr → Bool)} (prog : ProgPtr)
    (id : Int) : Leads (fun st => linuxPart st = part) (fun st => linuxPart st = part)
      (progRespawn prog id) := by
  have now : Leads (fun st => linuxPart st = part) (fun st => linuxPart st = part) getNow :=
    fun _ same => same
  have allocates : Leads (fun st => linuxPart st = part) (fun st => linuxPart st = part)
      (affProgAlloc id) :=
    fun _ same => same
  unfold progRespawn
  refine now.bind fun _ => allocates.bind fun _ => (readProg_leads prog).bind fun _ => ?_
  exact Leads.keep (fun _ same => same) fun _ => Leads.keep (fun _ same => same) fun _ =>
    launch_apart _

theorem linuxRespawn_begins (prog : ProgPtr) {place : ProgPtr → Place}
    (queue : Queue (view st) xs place) (here : place prog = .finished)
    (old : prog < st.progsAllocated) (unborn : place st.progsAllocated = .unborn) :
    wp (linuxRespawn prog) (fun _ st' => st'.links = st.links ∧ ∃ ys born,
      born.id = st.linuxCore.progsInit + (st.linuxCore.core.progs prog).id ∧
      st'.linuxCore = st.linuxCore.lift (Core.bear prog born) ∧
      Queue (view st') ys (Function.update (Function.update place prog .gone) st.progsAllocated
        .waiting)) Astray st := by
  refine Wp.bind_ok rfl (Wp.bind_ok (readProg_run prog st) ?_)
  dsimp only
  by_cases large : st.linux.progsInit + (st.progs prog).id > intMax
  · rw [when_pos large]
    exact Wp.bind (R := fun _ _ => False) (Wp.throw (.inl rfl)) fun _ _ never => never.elim
  rw [when_neg large]
  have starts := Wp.and (progRespawn_starts prog (st.linux.progsInit + (st.progs prog).id) old
    queue.valid queue.allocated)
    (progRespawn_apart prog (st.linux.progsInit + (st.progs prog).id) st rfl)
  refine Wp.bind_ok rfl (Wp.mono starts (fun _ st' both => ?_) fun _ _ stopped => stopped.1)
  obtain ⟨⟨ys, v, links, heap, events, evnts, launched, fresh, shellPid, pid, core⟩, apart⟩ := both
  refine ⟨launched.links.trans links, ys, ?_⟩
  refine ⟨ProgCore.next fresh (st.linux.progsInit + (st.progs prog).id) st.core prog shellPid pid,
    rfl, ?_, ?_⟩
  · have whole := congrArg LinuxView.core (linuxView_eq (rfl : view st' = view st') apart)
    refine (whole : st'.linuxCore = _).trans ?_
    rw [show (view st').core = st'.core from rfl, core]
    rfl
  · have waiting : Queue v xs (Function.update place prog .gone) :=
      (queue.update (by simp [here]) (by decide)).view heap events evnts
    refine waiting.insert launched ?_
    rw [Function.update_of_ne old.ne', unborn]
    decide

/-- `linux_program_finished`, the end of the slot or of the instance, and the look at the slots. -/
theorem linuxFinishProg_eq (prog : ProgPtr) : linuxFinishProg prog = (do
    let pd ← readLinuxData prog
    linuxProgramFinished prog
    let sched ← readLinux
    (if sched.timesTarget pd.initId = 0 then linuxRetire prog else linuxRespawn prog :
      Exec Unit) >>= fun _ => do
      when ((← readLinux).progsLeft ≤ 0) linuxTerminate) := by
  unfold linuxFinishProg
  refine bind_congr fun pd => bind_congr fun _ => bind_congr fun sched => ?_
  split <;> rfl

/-- What becomes of the slot of a program that was not killed. -/
theorem linuxFinishProg_ends (prog : ProgPtr) {place : ProgPtr → Place}
    (queue : Queue (view st) xs place) (here : place prog = .finished)
    (old : prog < st.progsAllocated) (unborn : place st.progsAllocated = .unborn) :
    wp (linuxFinishProg prog) (fun _ st' => st'.links = st.links ∧
      ((st'.linuxCore = (st.linuxCore.retire prog).settle ∧ Queue (view st') xs place) ∨
        ∃ ys born, born.id = st.linuxCore.progsInit + (st.linuxCore.core.progs prog).id ∧
          st'.linuxCore = (st.linuxCore.lift (Core.bear prog born)).settle ∧
          Queue (view st') ys
            (Function.update (Function.update place prog .gone) st.progsAllocated .waiting)))
      Astray st := by
  have data : Acts linuxView (readLinuxData prog) id := fun _ => rfl
  have known : Acts linuxView readLinux id := fun _ => rfl
  rw [linuxFinishProg_eq]
  refine data.before fun pd st₁ same₁ => (linuxProgramFinished_quiet prog).before fun _ st₂ same₂ =>
    ?_
  refine known.before fun sched st₃ same₃ => ?_
  have same : linuxView st₃ = linuxView st := same₃.trans (same₂.trans same₁)
  have core : st₃.linuxCore = st.linuxCore := congrArg LinuxView.core same
  have links : st₃.links = st.links := congrArg LinuxView.links same
  have number : st₃.progsAllocated = st.progsAllocated :=
    congrArg (fun c => c.core.progsAllocated) core
  have queue₃ : Queue (view st₃) xs place := queue.view (congrArg LinuxView.eventsHeap same)
    (congrArg LinuxView.events same) (congrArg LinuxView.eventsAllocated same)
  have settles : ∀ {w v : LinuxView} {ys : List EvntPtr} {other : ProgPtr → Place},
      w = v.modCore LinuxCore.settle → Queue v.view ys other → Queue w.view ys other := by
    rintro w v ys other rfl queue
    exact queue.view rfl rfl rfl
  refine Wp.bind (R := fun _ st' => st'.links = st.links ∧
      ((st'.linuxCore = st.linuxCore.retire prog ∧ Queue (view st') xs place) ∨
        ∃ ys born, born.id = st.linuxCore.progsInit + (st.linuxCore.core.progs prog).id ∧
          st'.linuxCore = st.linuxCore.lift (Core.bear prog born) ∧
          Queue (view st') ys
            (Function.update (Function.update place prog .gone) st.progsAllocated .waiting)))
    (Wp.ite (fun met => ?_) fun more => ?_) fun _ st₄ ends => ?_
  · refine (linuxRetire_acts prog).last fun _ st₄ retired =>
      ⟨(congrArg LinuxView.links retired).trans links, .inl ⟨?_, ?_⟩⟩
    · exact (congrArg LinuxView.core retired).trans (congrArg (LinuxCore.retire prog) core)
    · exact queue₃.view (congrArg LinuxView.eventsHeap retired) (congrArg LinuxView.events retired)
        (congrArg LinuxView.eventsAllocated retired)
  · refine Wp.imp (linuxRespawn_begins prog queue₃ here (number ▸ old) (number ▸ unborn))
      fun _ st₄ begins => ?_
    rw [core, number] at begins
    exact ⟨begins.1.trans links, .inr begins.2⟩
  · refine Wp.bind_ok rfl (Wp.imp (linuxTerminate_settles st₄) fun _ st₅ settled => ?_)
    refine ⟨(congrArg LinuxView.links settled).trans ends.1, ?_⟩
    have core₅ : st₅.linuxCore = st₄.linuxCore.settle := congrArg LinuxView.core settled
    rcases ends.2 with ⟨core₄, queue₄⟩ | ⟨ys, born, id, core₄, queue₄⟩
    · exact .inl ⟨core₅.trans (congrArg LinuxCore.settle core₄), settles settled queue₄⟩
    · exact .inr ⟨ys, born, id, core₅.trans (congrArg LinuxCore.settle core₄),
        settles settled queue₄⟩

/-- A program that is freed was on the list of the finished programs, killed or not. -/
theorem LinuxLife.Fits.ended (fits : a.Fits) (listed : prog ∈ a.on .pfinishedL) :
    a.place prog = .finished ∧ a.core.killed prog = false ∨ a.place prog = .reaped ∧
      a.core.killed prog = true := by
  have home := (fits.listed.mem .pfinishedL (by simp [linuxHeads]) prog).mp listed
  have spared := fits.spared prog
  have dead := fits.dead prog
  revert home spared dead
  cases a.place prog <;> simp [Place.linuxHome, Place.spared, Place.dead]

theorem LinuxTracks.rebalanceFinished_spec (tracks : LinuxTracks rules start st xs a)
    (listed : prog ∈ a.on .pfinishedL) :
    wp (linuxRebalanceFinished prog)
      (fun _ st' => ∃ b ys, LinuxTracks rules start st' ys b ∧ (a.Busy → b.Busy) ∧
      b.on .pfinishedL = (a.on .pfinishedL).erase prog) Astray st := by
  have member : Node.pfinishedL ∈ linuxHeads := by simp [linuxHeads]
  have links : Acts linuxView (modifyLinks (cdsListDel (.plNode prog)))
      (LinuxView.modLinks (cdsListDel (.plNode prog))) :=
    fun _ => rfl
  have frees : Acts linuxView (affProgDealloc prog)
      (LinuxView.modCore (LinuxCore.lift (Core.note (.deallocated prog)))) :=
    fun _ => rfl
  obtain ⟨dropped, off⟩ := tracks.rings.del member listed
  unfold linuxRebalanceFinished
  refine links.before fun _ st₁ unlinked => Wp.bind_ok rfl ?_
  refine Acts.before (modifyLinux_quiet fun _ => ⟨rfl, rfl⟩) fun _ st₂ counted => ?_
  have same : linuxView st₂ = (linuxView st).modLinks (cdsListDel (.plNode prog)) := by
    rw [counted, id_eq, unlinked]
  have core₁ : st₁.linuxCore = a.core := (congrArg LinuxView.core unlinked).trans tracks.core
  have core₂ : st₂.linuxCore = a.core := (congrArg LinuxView.core same).trans tracks.core
  have killed : (st₁.linuxData prog).killed = a.core.killed prog :=
    congrArg (fun c => c.killed prog) core₁
  rw [killed]
  rcases tracks.fits.ended listed with ⟨here, spared⟩ | ⟨here, dead⟩
  · have small : prog < a.core.core.progsAllocated := tracks.fits.allocated (by simp [here])
    have number : st₂.progsAllocated = a.core.core.progsAllocated :=
      congrArg (fun c => c.core.progsAllocated) core₂
    have queue₂ : Queue (view st₂) xs a.place :=
      tracks.queue.view (congrArg LinuxView.eventsHeap same)
      (congrArg LinuxView.events same) (congrArg LinuxView.eventsAllocated same)
    have unborn : a.place st₂.progsAllocated = .unborn := (tracks.fits.unborn _).mpr number.ge
    have ends := linuxFinishProg_ends prog queue₂ here (number ▸ small) unborn
    rw [core₂, number] at ends
    rw [spared, when_pos (by decide)]
    refine Wp.bind ends fun _ st₃ ended => frees.last fun _ st₄ freed => ?_
    have links₄ : st₄.links = cdsListDel (.plNode prog) st.links :=
      (congrArg LinuxView.links freed).trans (ended.1.trans (congrArg LinuxView.links same))
    have core₄ : st₄.linuxCore = st₃.linuxCore.lift (Core.note (.deallocated prog)) :=
      congrArg LinuxView.core freed
    have heap : (view st₄).eventsHeap = (view st₃).eventsHeap := congrArg LinuxView.eventsHeap freed
    have events : (view st₄).events = (view st₃).events := congrArg LinuxView.events freed
    have evnts : (view st₄).eventsAllocated = (view st₃).eventsAllocated :=
      congrArg LinuxView.eventsAllocated freed
    rcases ended.2 with ⟨core₃, queue₃⟩ | ⟨ys, born, next, core₃, queue₃⟩
    · have move : LinuxMove a prog .finished .gone (LinuxCore.conclude prog) := .conclude
      refine ⟨(a.transfer prog .gone).act (LinuxCore.conclude prog), xs,
        ⟨tracks.steps.tail (.move here move (by simp)), tracks.fits.move here move, ?_, ?_, ?_⟩,
        fun busy => busy.transfer here (by decide), ?_⟩
      · rw [core₄, core₃]
        rfl
      · rw [links₄, LinuxLife.act_core, LinuxLife.transfer_core, move.follows.progsAllocated]
        simpa [LinuxLife.transfer, here, Place.linuxHome, Life.leave, Life.join] using dropped
      · exact (queue₃.update (by simp [here]) (by decide)).view heap events evnts
      · simp [LinuxLife.transfer, here, Place.linuxHome, Life.leave, Life.join, Lists.drop]
    · refine ⟨a.respawn prog born, ys,
        ⟨tracks.steps.tail (.respawn here next), tracks.fits.respawn here born, ?_, ?_, ?_⟩,
        fun _ => ⟨a.core.core.progsAllocated, ?_⟩, ?_⟩
      · rw [core₄, core₃]
        rfl
      · rw [links₄, LinuxLife.respawn_core, (a.core.succeed_follows prog born).progsAllocated]
        exact dropped.grow (Nat.le_succ _)
      · exact queue₃.view heap events evnts
      · simp [LinuxLife.respawn_place, Place.present]
      · simp [Life.leave, Lists.drop]
  · have move : LinuxMove a prog .reaped .buried (LinuxCore.lift (Core.note (.deallocated prog))) :=
      .bury
    rw [dead, when_neg (by decide)]
    refine Wp.bind (Wp.pure rfl : wp _ (fun _ st' => st' = st₂) _ st₂) fun _ st₃ unchanged => ?_
    subst unchanged
    refine frees.last fun _ st₄ freed => ?_
    have buried : linuxView st₄ = ((linuxView st).modLinks (cdsListDel (.plNode prog))).modCore
        (LinuxCore.lift (Core.note (.deallocated prog))) := by rw [freed, same]
    refine ⟨_, xs, tracks.move here move buried ?_ (by decide) (by decide) (by simp),
      fun busy => busy.transfer here (by decide), ?_⟩
    · simpa [LinuxLife.transfer, here, Place.linuxHome, Life.leave, Life.join] using dropped
    · simp [LinuxLife.transfer, here, Place.linuxHome, Life.leave, Life.join, Lists.drop]

theorem LinuxTracks.rebalance_spec (tracks : LinuxTracks rules start st xs a) :
    wp linuxRebalance (fun _ st' => ∃ b ys, LinuxTracks rules start st' ys b ∧ (a.Busy → b.Busy))
      Astray st := by
  have new : Node.pnewL ∈ linuxHeads := by simp [linuxHeads]
  have finished : Node.pfinishedL ∈ linuxHeads := by simp [linuxHeads]
  have first : wp (cdsListForEachEntrySafe .pnewL () fun prog _ => do
      linuxRebalanceNew prog
      return .yield ()) (fun _ st' => ∃ b, LinuxTracks rules start st' xs b ∧ (a.Busy → b.Busy))
        Astray st := by
    refine forEachEntrySafe_spec
      (fun ahead _ st => ∃ b, LinuxTracks rules start st xs b ∧ (a.Busy → b.Busy) ∧
      b.on .pnewL = ahead) (tracks.ring new) (tracks.short new) ?_ ?_ ?_ ⟨a, tracks, id, rfl⟩
    · intro ahead _ st inv
      obtain ⟨b, tracks, -, left⟩ := inv
      exact ⟨[], left ▸ tracks.ring new⟩
    · intro prog ahead _ st inv
      obtain ⟨b, tracks, busy, left⟩ := inv
      refine Wp.bind (tracks.rebalanceNew_spec (by simp [left])) fun _ st' enters => Wp.pure ?_
      obtain ⟨c, tracks', busy', on⟩ := enters
      refine ⟨c, tracks', fun some => busy' (busy some), ?_⟩
      rw [on, left, List.erase_cons_head]
    · intro _ st inv
      obtain ⟨b, tracks, busy, -⟩ := inv
      exact ⟨b, tracks, busy⟩
  refine Wp.bind first fun _ st₁ entered => ?_
  obtain ⟨b, tracks₁, busy₁⟩ := entered
  refine forEachEntrySafe_spec
    (fun ahead _ st => ∃ c ys, LinuxTracks rules start st ys c ∧ (a.Busy → c.Busy) ∧
    c.on .pfinishedL = ahead) (tracks₁.ring finished) (tracks₁.short finished) ?_ ?_ ?_
      ⟨b, xs, tracks₁, busy₁, rfl⟩
  · intro ahead _ st inv
    obtain ⟨c, ys, tracks, -, left⟩ := inv
    exact ⟨[], left ▸ tracks.ring finished⟩
  · intro prog ahead _ st inv
    obtain ⟨c, ys, tracks, busy, left⟩ := inv
    refine Wp.bind (tracks.rebalanceFinished_spec (by simp [left])) fun _ st' disposes => Wp.pure ?_
    obtain ⟨d, zs, tracks', busy', on⟩ := disposes
    refine ⟨d, zs, tracks', fun some => busy' (busy some), ?_⟩
    rw [on, left, List.erase_cons_head]
  · intro _ st inv
    obtain ⟨c, ys, tracks, busy, -⟩ := inv
    exact ⟨c, ys, tracks, busy⟩

end Rebalance

section Quantum

theorem linuxQuantum_kills (current : Int) (prog : ProgPtr) :
    wp (linuxQuantum current prog) (fun _ st' => linuxView st' = linuxView st ∨
      linuxView st' = (linuxView st).modCore (LinuxCore.kill prog)) Astray st := by
  have data : Acts linuxView (readLinuxData prog) id := fun _ => rfl
  have known : Acts linuxView readLinux id := fun _ => rfl
  unfold linuxQuantum
  refine data.before fun pd st₁ same₁ => (linuxReadClock_quiet prog).before fun _ st₂ same₂ => ?_
  refine data.before fun pd' st₃ same₃ =>
    Acts.before (modifyLinux_quiet fun _ => ⟨rfl, rfl⟩) fun _ st₄ same₄ => ?_
  refine known.before fun sched st₅ same₅ => ?_
  have same : linuxView st₅ = linuxView st := by
    rw [same₅, id_eq, same₄, id_eq, same₃, id_eq, same₂, id_eq, same₁, id_eq]
  refine Wp.ite (fun met => ?_) fun unmet => Wp.pure (.inl same)
  refine (linuxKill_acts prog current).last fun _ st₆ killed => .inr ?_
  rw [killed, same]

/-- The kills of a quantum, one after the other. -/
theorem linuxQuantum_walk (tracks : LinuxTracks rules start st xs a) (current : Int) :
    wp (cdsListForEachEntry .linuxProgs (linuxQuantum current)) (fun _ st' => ∃ doomed,
      List.Sublist doomed (a.on .linuxProgs) ∧
      linuxView st' = (linuxView st).modCore fun _ => (doomed.foldl LinuxLife.kill a).core)
        Astray st := by
  have member : Node.linuxProgs ∈ linuxHeads := by simp [linuxHeads]
  refine Wp.imp (forEachEntry_spec (fun before ahead st' => before ++ ahead = a.on .linuxProgs ∧
    ∃ doomed, List.Sublist doomed before ∧
      linuxView st' = (linuxView st).modCore fun _ => (doomed.foldl LinuxLife.kill a).core)
    (tracks.ring member) (tracks.short member) ?_ ?_ ?_) fun _ st' walked => ?_
  · intro before ahead st' inv
    obtain ⟨split, doomed, -, shown⟩ := inv
    rw [split, show st'.links = st.links from congrArg LinuxView.links shown]
    exact tracks.ring member
  · intro before prog ahead st' inv
    obtain ⟨split, doomed, sub, shown⟩ := inv
    refine Wp.imp (linuxQuantum_kills current prog) fun _ st'' kills => ⟨by simpa using split, ?_⟩
    rcases kills with same | killed
    · exact ⟨doomed, sub.trans (List.sublist_append_left before [prog]), same.trans shown⟩
    · refine ⟨doomed ++ [prog], sub.append (List.Sublist.refl [prog]), ?_⟩
      rw [killed, shown, List.foldl_append]
      rfl
  · refine ⟨rfl, [], List.nil_sublist _, ?_⟩
    rw [List.foldl_nil, ← tracks.core]
    rfl
  · obtain ⟨-, doomed, sub, shown⟩ := walked
    exact ⟨doomed, sub, shown⟩

/-- The kills of a quantum change nothing about the programs that come in. -/
theorem LinuxLife.quantum_counts {doomed : List ProgPtr} (listed : doomed ⊆ a.on .linuxProgs) :
    (doomed.foldl LinuxLife.kill a).core.settle.core.waitingNr = a.core.core.waitingNr ∧
      (doomed.foldl LinuxLife.kill a).core.settle.core.newNr = a.core.core.newNr := by
  have settles : ∀ c : LinuxCore, c.settle.core.waitingNr = c.core.waitingNr ∧
      c.settle.core.newNr = c.core.newNr := by
    intro c
    unfold LinuxCore.settle
    split <;> exact ⟨rfl, rfl⟩
  have kills : (doomed.foldl LinuxLife.kill a).core.core.waitingNr = a.core.core.waitingNr ∧
      (doomed.foldl LinuxLife.kill a).core.core.newNr = a.core.core.newNr :=
    LinuxLife.kills (P := fun b => b.core.core.waitingNr = a.core.core.waitingNr ∧
      b.core.core.newNr = a.core.core.newNr) (fun _ same _ _ => same) listed ⟨rfl, rfl⟩
  exact ⟨(settles _).1.trans kills.1, (settles _).2.trans kills.2⟩

theorem LinuxTracks.qexpired_spec (tracks : LinuxTracks rules start st xs a) (outside : 0 ∉ xs)
    (expires : rules.quanta a) (busy : a.Busy) (now : Timeval) :
    wp (linuxQexpired now) (fun _ st' => ∃ b ys, LinuxTracks rules start st' ys b ∧ b.Busy ∧
      st.qt = ⟨0, 200000⟩ ∧ Retimed now st xs st') Astray st := by
  have read : Acts linuxView (readEnv Env.timeOfDay) id := fun _ => rfl
  have known : Acts linuxView readLinux id := fun _ => rfl
  unfold linuxQexpired
  refine read.before fun tms st₁ same₁ => known.before fun sched st₂ same₂ => ?_
  refine Acts.before (modifyLinux_quiet fun _ => ⟨rfl, rfl⟩) fun _ st₃ same₃ => ?_
  have same : linuxView st₃ = linuxView st := by
    rw [same₃, id_eq, same₂, id_eq, same₁, id_eq]
  refine Wp.bind (linuxQuantum_walk (tracks.quiet same) _) fun _ st₄ walked => Wp.bind_ok rfl ?_
  obtain ⟨doomed, sub, killed⟩ := walked
  refine Wp.bind (linuxTerminate_settles st₄) fun _ st₅ settled => ?_
  have shown : linuxView st₅ = (linuxView st).modCore fun _ =>
      (doomed.foldl LinuxLife.kill a).core.settle := by
    rw [settled, killed, same]
    rfl
  have expired : LinuxStep rules a ((doomed.foldl LinuxLife.kill a).act LinuxCore.settle) :=
    .quantum expires busy sub
  have core : st₅.linuxCore = (doomed.foldl LinuxLife.kill a).core.settle :=
    congrArg LinuxView.core shown
  have fits := tracks.fits.step expired
  have place : ∀ p, ((doomed.foldl LinuxLife.kill a).act LinuxCore.settle).place p =
      if p ∈ doomed then .killed else a.place p := a.kills_place doomed
  have number : (doomed.foldl LinuxLife.kill a).core.settle.core.progsAllocated =
      a.core.core.progsAllocated := by
    refine (LinuxCore.Follows.settle _).progsAllocated.trans ?_
    exact LinuxLife.kills (P := fun b => b.core.core.progsAllocated = a.core.core.progsAllocated)
      (fun _ same _ _ => same) sub.subset rfl
  have waits : ∀ p, ((doomed.foldl LinuxLife.kill a).act LinuxCore.settle).place p = .waiting ↔
      a.place p = .waiting := by
    intro p
    rw [place p]
    split
    · next member =>
        rcases tracks.fits.runs (sub.subset member) with here | here <;> simp [here]
    · exact Iff.rfl
  have queue₅ : Queue (view st₅) xs a.place :=
    tracks.queue.view (congrArg LinuxView.eventsHeap shown)
    (congrArg LinuxView.events shown) (congrArg LinuxView.eventsAllocated shown)
  have events₅ : st₅.events = st.events := congrArg LinuxView.events shown
  have qt : st.qt = ⟨0, 200000⟩ := (congrArg (fun c => c.core.qt) tracks.core).trans tracks.fits.qt
  have qt₅ : st₅.qt = st.qt := ((congrArg (fun c => c.core.qt) core).trans fits.qt).trans qt.symm
  have links₅ : st₅.links = st.links := congrArg LinuxView.links shown
  refine BachScheduler.rearm_spec queue₅.valid outside fun events heap ys rearmed valid perm => ?_
  refine ⟨_, ys, ⟨tracks.steps.tail expired, fits, core, ?_, ?_⟩, ?_, qt, ?_⟩
  · dsimp only
    rw [LinuxLife.act_core, number, LinuxLife.act_on, LinuxLife.kills_on, links₅]
    exact tracks.rings
  · refine (queue₅.congr waits).requeue outside (fun evnt differs => ?_) ?_ rfl valid perm
    · exact (congrFun rearmed evnt).trans (Function.update_of_ne differs _ _)
    · change (events 0).type = _
      rw [rearmed, Function.update_self]
      exact queue₅.quantum
  · obtain ⟨p, present⟩ := busy
    refine ⟨p, ?_⟩
    rw [place p]
    split
    · rfl
    · exact present
  · refine ⟨?_, ⟨ys, valid, perm⟩, qt₅, ?_, ?_, fun nodes ring => ?_⟩
    · change events = _
      rw [rearmed, events₅, qt₅]
    · have numbers := LinuxLife.quantum_counts sub.subset
      exact (congrArg (fun c => c.core.waitingNr) (core.trans rfl)).trans
        (numbers.1.trans (congrArg (fun c => c.core.waitingNr) tracks.core).symm)
    · have numbers := LinuxLife.quantum_counts sub.subset
      exact (congrArg (fun c => c.core.newNr) (core.trans rfl)).trans
        (numbers.2.trans (congrArg (fun c => c.core.newNr) tracks.core).symm)
    · change IsRing st₅.links .pnewL nodes
      rwa [links₅]

end Quantum

end BachScheduler
