import BachScheduler.HashStore
import BachScheduler.LinuxHooks

/-!
# Runs under the `linux` policy

Every state between the handlers of a run shows a life of the programs that came about by steps
from the start, and some program waits, is new or is on the list of the scheduler.
-/

namespace BachScheduler

open BachScheduler.Ring BinHeap Census Wp

variable {strict : Prop} {heard : ProgPtr → Prop} {start a b : LinuxLife} {st st' : ExecState}
    {xs ys : List EvntPtr} {evnt : EvntPtr}
variable {prog : ProgPtr} {confs : List ProgConf} {env : Env} {cpus : List Int}
    {targets : Int → Rat}

/-- No killed program is still on the list of the scheduler, if that is asked for. -/
def Clear (strict : Prop) (a : LinuxLife) : Prop :=
  strict → ∀ p, a.place p ≠ .killed

/-- How a handler ends the run: in code gone astray, or with the programs where they are. -/
def LinuxEnds (strict : Prop) (heard : ProgPtr → Prop) (start : LinuxLife) (stop : Stop)
    (st : ExecState) : Prop :=
  Astray stop st ∨ ∃ a xs, LinuxTracks ⟨Clear strict, heard⟩ start st xs a

/-- Whether `qt_event` is ready when the events are handled next. -/
def ExecState.QuantumDue (st : ExecState) : Prop :=
  timercmpGt (st.events 0).tv (timersub (st.env.timeOfDay st.reads) st.tv0) = false

section Events

/-- `qt_event` comes back in the future. -/
theorem timercmpGt_quantum (now : Timeval) : timercmpGt (timeradd ⟨0, 200000⟩ now) now = true := by
  unfold timercmpGt timeradd
  by_cases carries : 200000 + now.usec ≥ 1000000
  · simp [carries]
  · simp [carries]

/-- The start of a program leaves the heap, and the program is new. -/
theorem LinuxTracks.arrive (tracks : LinuxTracks ⟨Clear strict, heard⟩ start st xs a)
    (perm : (evnt :: ys).Perm xs) (arrival : evnt ≠ 0) {heap : Heap EvntPtr}
    (valid : heap.Valid (affEventLeqUl st.events) ys)
    (here : a.place (st.events evnt).prog = .waiting)
    (same : linuxView st' = ((linuxView { st with eventsHeap := heap }).modLinks
      (cdsListAddTail (.plNode (st.events evnt).prog) .pnewL)).modCore
        (LinuxCore.lift Core.arrive)) :
    LinuxTracks ⟨Clear strict, heard⟩ start st' ys
      ((a.transfer (st.events evnt).prog .new).act (LinuxCore.lift Core.arrive)) where
  steps := tracks.steps.tail (.move here .arrive (by simp))
  fits := tracks.fits.move here .arrive
  core := (congrArg LinuxView.core same).trans (congrArg (LinuxCore.lift Core.arrive) tracks.core)
  rings := by
    have off : a.on.Off linuxHeads (st.events evnt).prog := fun head member listed => by
      have home := (tracks.fits.listed.mem head member _).mp listed
      simp [here, Place.linuxHome] at home
    have small := tracks.fits.allocated (by simp [here] : a.place (st.events evnt).prog ≠ .unborn)
    have pushed := tracks.rings.addTail (by simp [linuxHeads] : Node.pnewL ∈ linuxHeads) off small
    have links : st'.links = cdsListAddTail (.plNode (st.events evnt).prog) .pnewL st.links :=
      congrArg LinuxView.links same
    change PlRings linuxHeads a.core.core.progsAllocated _ _ []
    rw [links]
    simpa [LinuxLife.transfer, here, Place.linuxHome, Life.leave, Life.join] using pushed
  queue := by
    have popped : Queue { view st with eventsHeap := heap } ys
        (Function.update a.place (st.events evnt).prog .new) := by
      refine tracks.queue.pop perm valid fun p => ?_
      have announced : ((view st).events evnt).prog = (st.events evnt).prog := rfl
      by_cases equal : p = (st.events evnt).prog
      · subst equal
        simp [announced, arrival]
      · simp [equal, announced, Ne.symm equal]
    exact popped.view (congrArg LinuxView.eventsHeap same) (congrArg LinuxView.events same)
      (congrArg LinuxView.eventsAllocated same)

theorem LinuxTracks.quantum_spec (tracks : LinuxTracks ⟨Clear strict, heard⟩ start st xs a)
    (busy : a.Busy) (clear : Clear strict a) (now : Timeval) (perm : (0 :: ys).Perm xs)
    {heap : Heap EvntPtr} (valid : heap.Valid (affEventLeqUl st.events) ys) :
    wp (linuxQexpired now)
      (fun _ st' => ∃ b zs, LinuxTracks ⟨Clear strict, heard⟩ start st' zs b ∧ b.Busy ∧
      st.qt = ⟨0, 200000⟩ ∧ Retimed now { st with eventsHeap := heap } ys st') Astray
      { st with eventsHeap := heap } := by
  have outside := (List.nodup_cons.mp (perm.nodup_iff.mpr tracks.queue.nodup)).1
  have popped : LinuxTracks ⟨Clear strict, heard⟩ start { st with eventsHeap := heap } ys a :=
    ⟨tracks.steps, tracks.fits, tracks.core, tracks.rings, tracks.queue.pop perm valid fun p => by
      simp⟩
  exact popped.qexpired_spec outside clear busy now

theorem LinuxTracks.arrival_spec {E : Stop → ExecState → Prop}
    (tracks : LinuxTracks ⟨Clear strict, heard⟩ start st xs a) (busy : a.Busy)
    (perm : (evnt :: ys).Perm xs) (arrival : evnt ≠ 0) {heap : Heap EvntPtr}
    (valid : heap.Valid (affEventLeqUl st.events) ys) :
    wp (affProgWaitingNew (st.events evnt).prog)
      (fun _ st' => ∃ b, LinuxTracks ⟨Clear strict, heard⟩ start st' ys b ∧
      b.Busy ∧ b.place = Function.update a.place (st.events evnt).prog .new ∧
        st'.events = st.events) E
      { st with eventsHeap := heap } := by
  have here : a.place (st.events evnt).prog = .waiting :=
    (tracks.queue.waits _).mpr ⟨evnt, perm.subset List.mem_cons_self, arrival, rfl⟩
  have arrives : Acts linuxView (affProgWaitingNew (st.events evnt).prog) fun v =>
    (v.modLinks (cdsListAddTail (.plNode (st.events evnt).prog) .pnewL)).modCore
      (LinuxCore.lift Core.arrive) :=
    fun _ => rfl
  refine arrives.last fun _ st' arrived => ⟨_, tracks.arrive perm arrival valid here arrived,
    busy.transfer here fun _ => rfl, rfl, congrArg LinuxView.events arrived⟩

/-- The loop over the events has come to a state in which a quantum may expire. -/
structure LinuxReady (strict : Prop) (heard : ProgPtr → Prop) (start : LinuxLife) (now : Timeval)
    (xs : List EvntPtr) (st : ExecState) (a : LinuxLife) : Prop where
  tracks : LinuxTracks ⟨Clear strict, heard⟩ start st xs a
  busy : a.Busy
  clear : timercmpGt (st.events 0).tv now = false → Clear strict a

theorem LinuxReady.handleEvent_spec {now : Timeval}
    (ready : LinuxReady strict heard start now xs st a) (perm : (evnt :: ys).Perm xs)
    {heap : Heap EvntPtr} (valid : heap.Valid (affEventLeqUl st.events) ys)
    (due : timercmpGt (st.events evnt).tv now = false) :
    wp (handleEvent linuxQexpired evnt now)
      (fun _ st' => ∃ zs b, LinuxReady strict heard start now zs st' b) Astray
      { st with eventsHeap := heap } := by
  have queue := ready.tracks.queue
  refine Wp.bind_ok rfl ?_
  by_cases quantum : evnt = 0
  · subst quantum
    have type : (st.events 0).type = .qexpired := queue.quantum
    simp only [type]
    have expires := ready.tracks.quantum_spec ready.busy (ready.clear due) now perm valid
    refine Wp.imp expires fun _ st' expired => ?_
    obtain ⟨b, zs, tracks, busy, qt, retimed⟩ := expired
    refine ⟨zs, b, tracks, busy, fun again => ?_⟩
    rw [retimed.events, Function.update_self, qt, timercmpGt_quantum now] at again
    exact absurd again (by decide)
  · have type : (st.events evnt).type = .newprog :=
      queue.newprog evnt (perm.subset List.mem_cons_self) quantum
    simp only [type]
    refine Wp.imp (ready.tracks.arrival_spec ready.busy perm quantum valid) fun _ st' arrives => ?_
    obtain ⟨b, tracks, busy, place, events⟩ := arrives
    refine ⟨ys, b, tracks, busy, fun again wanted p => ?_⟩
    rw [events] at again
    rw [place]
    by_cases equal : p = (st.events evnt).prog
    · simp [equal]
    · simpa [equal] using ready.clear again wanted p

theorem LinuxTracks.handleEvents_spec (tracks : LinuxTracks ⟨Clear strict, heard⟩ start st xs a)
    (busy : a.Busy) (clear : st.QuantumDue → Clear strict a) (nextWakeup : Option Timeval) :
    wp (handleEvents linuxRebalance linuxQexpired nextWakeup) (fun _ st' => ∃ b ys,
      LinuxTracks ⟨Clear strict, heard⟩ start st' ys b ∧ b.Busy) Astray st := by
  refine Wp.bind_ok rfl (Wp.bind_ok rfl ?_)
  refine Wp.bind (selectReadyEvents_keeps (fun xs st' => ∃ b, LinuxReady strict heard start
      (timersub (st.env.timeOfDay st.reads) st.tv0) xs st' b) (fun xs st' inv => ?_)
    (fun xs st' evnt ys heap inv perm valid due => ?_) (fun _ => .inr (.inr rfl)) nextWakeup _ xs _
    ⟨a, tracks.quiet rfl, busy, clear⟩) fun wakeup st₁ selected => ?_
  · obtain ⟨b, ready⟩ := inv
    exact ready.tracks.queue.valid
  · obtain ⟨b, ready⟩ := inv
    exact ready.handleEvent_spec perm valid due
  obtain ⟨ys, b, ready⟩ := selected
  refine Wp.bind_ok rfl ?_
  refine Wp.bind (R := fun _ st' => ∃ c zs,
    LinuxTracks ⟨Clear strict, heard⟩ start st' zs c ∧ c.Busy)
    (Wp.ite (fun _ => ?_) fun _ => Wp.pure ⟨b, ys, ready.tracks, ready.busy⟩) fun _ _ between =>
      Wp.pure between
  refine Wp.imp ready.tracks.rebalance_spec fun _ st' rebalanced => ?_
  obtain ⟨c, zs, tracks', busy'⟩ := rebalanced
  exact ⟨c, zs, tracks', busy' ready.busy⟩

end Events

section Exits

/-- `aff_prog_running_finished` of a process that the hash table knows. -/
theorem affProgRunningFinished_records {pid : Nat}
    (found : hashLookup st.progPidHash pid = some prog) {Q : Unit → ExecState → Prop}
    {E : Stop → ExecState → Prop}
    (recorded : ∀ st', linuxView st' = ((linuxView st).modLinks fun links =>
      cdsListAddTail (.plNode prog) .pfinishedL (cdsListDel (.plNode prog) links)).modCore
        (LinuxCore.lift (Core.recordEnd prog pid)) → Q () st') :
          wp (affProgRunningFinished pid) Q E st := by
  refine Wp.bind_ok rfl (Wp.bind_ok rfl ?_)
  rw [hashDelete_fst, found]
  exact recorded _ rfl

/-- `aff_prog_running_finished` of a process that the hash table does not know. -/
theorem affProgRunningFinished_fails {pid : Nat} (unknown : hashLookup st.progPidHash pid = none)
    {Q : Unit → ExecState → Prop} {E : Stop → ExecState → Prop} (failed : E .assertFailed st) :
    wp (affProgRunningFinished pid) Q E st := by
  refine Wp.bind_ok rfl (Wp.bind_ok rfl ?_)
  rw [hashDelete_fst, unknown]
  rw [hashDelete_absent unknown]
  exact failed

theorem LinuxTracks.exit (tracks : LinuxTracks ⟨Clear strict, heard⟩ start st xs a) {pid : Nat}
    (found : hashLookup a.core.core.progPidHash pid = some prog) (allowed : heard prog)
    (same : linuxView st' = ((linuxView st).modLinks fun links =>
      cdsListAddTail (.plNode prog) .pfinishedL (cdsListDel (.plNode prog) links)).modCore
        (LinuxCore.lift (Core.recordEnd prog pid))) : ∃ b,
          LinuxTracks ⟨Clear strict, heard⟩ start st' xs b ∧
      b.core = a.core.lift (Core.recordEnd prog pid) := by
  have fromMember : Node.linuxProgs ∈ linuxHeads := by simp [linuxHeads]
  have toMember : Node.pfinishedL ∈ linuxHeads := by simp [linuxHeads]
  rcases (tracks.fits.hashed pid prog found).2 with here | here
  · exact ⟨_, tracks.relocate here (.finish found) fromMember toMember
      rfl rfl (fun _ => allowed) same, rfl⟩
  · exact ⟨_, tracks.relocate here (.reap found) fromMember toMember
      rfl rfl (fun _ => allowed) same, rfl⟩

/-- The exits that `sigchld_handler` records are among those that are heard of. -/
def LinuxLife.Hears (heard : ProgPtr → Prop) (a : LinuxLife) (reports : List WaitStatus) : Prop :=
  ∀ shell ∈ recordedExits reports a.core.core.runningNr, ∀ p,
    hashLookup a.core.core.progPidHash (a.core.core.progs shell).shellPid = some p → heard p

/-- The exits that are still to come are heard of after an exit was recorded. -/
theorem LinuxLife.Hears.exit {reports : List WaitStatus} {other : ProgPtr} {pid : Nat}
    (hears : a.Hears heard (.exited other :: reports)) (runs : a.core.core.runningNr ≠ 0)
    (recorded : b.core = a.core.lift (Core.recordEnd prog pid)) : b.Hears heard reports := by
  intro shell reported p later
  rw [recorded] at reported later
  have told : shell ∈ recordedExits (.exited other :: reports) a.core.core.runningNr := by
    rw [recordedExits, if_neg runs]
    exact List.mem_cons_of_mem _ reported
  refine hears shell told p ?_
  simp only [LinuxCore.lift, Core.recordEnd, hashLookup_delete] at later
  split at later
  · exact absurd later (by simp)
  · exact later

theorem LinuxTracks.sigchldLoop_spec (tracks : LinuxTracks ⟨Clear strict, heard⟩ start st xs a)
    (reports : List WaitStatus) (hears : a.Hears heard reports) :
    wp (sigchldLoop reports 0) (fun _ st' => ∃ b, LinuxTracks ⟨Clear strict, heard⟩ start st' xs b)
      (LinuxEnds strict heard start) st := by
  refine Wp.imp
    (sigchldLoop_rule (fun reports _ st => ∃ b, LinuxTracks ⟨Clear strict, heard⟩ start st xs b ∧
    b.Hears heard reports) ?_ ?_ ?_ reports ⟨a, tracks, hears⟩) fun _ _ reaped => ?_
  · intro status later deaths st inv
    obtain ⟨b, tracks, hears⟩ := inv
    cases status with
    | stopped => exact Wp.pure ⟨b, tracks, hears⟩
    | exited prog =>
        have noted : Acts linuxView (emit (.reaped prog))
            (LinuxView.modCore (LinuxCore.lift (Core.note (.reaped prog)))) :=
          fun _ => rfl
        exact noted.last fun _ st' shown => ⟨_, tracks.act (.wait prog) rfl shown, hears⟩
  · intro later deaths st inv runs
    obtain ⟨b, tracks, hears⟩ := inv
    have runs : b.core.core.runningNr ≠ 0 := by rwa [← tracks.core]
    refine ⟨b, tracks, fun shell reported => hears shell ?_⟩
    rwa [recordedExits, if_neg runs]
  · intro prog later deaths st inv runs _
    obtain ⟨b, tracks, hears⟩ := inv
    have runs : b.core.core.runningNr ≠ 0 := by rwa [← tracks.core]
    have hash : st.progPidHash = b.core.core.progPidHash :=
      congrArg (fun c => c.core.progPidHash) tracks.core
    have shell : (st.progs prog).shellPid = (b.core.core.progs prog).shellPid :=
      congrArg (fun c => (c.core.progs prog).shellPid) tracks.core
    have told : prog ∈ recordedExits (.exited prog :: later) b.core.core.runningNr := by
      rw [recordedExits, if_neg runs]
      exact List.mem_cons_self
    cases known : hashLookup st.progPidHash (st.progs prog).shellPid with
    | none => exact affProgRunningFinished_fails known (.inr ⟨b, xs, tracks⟩)
    | some p =>
        have found : hashLookup b.core.core.progPidHash (st.progs prog).shellPid = some p :=
          hash ▸ known
        refine affProgRunningFinished_records known fun st' recorded => ?_
        obtain ⟨c, tracks', core⟩ := tracks.exit found (hears prog told p (shell ▸ found)) recorded
        exact ⟨c, tracks', hears.exit runs core⟩
  · obtain ⟨later, b, tracks', -⟩ := reaped
    exact ⟨b, tracks'⟩

/-- When nothing runs, waits or is new, `check_shutdown` ends the run. -/
theorem LinuxTracks.checkShutdown_spec (tracks : LinuxTracks ⟨Clear strict, heard⟩ start st xs a) :
    wp checkShutdown (fun _ st' => LinuxTracks ⟨Clear strict, heard⟩ start st' xs a ∧ a.Busy)
      (LinuxEnds strict heard start) st := by
  refine Wp.bind_ok rfl (Wp.ite (fun _ => .inr ⟨a, xs, tracks⟩) fun runs => Wp.pure ⟨tracks, ?_⟩)
  by_contra idle
  have none : ∀ p, (a.place p).present = false := fun p => by
    by_contra present
    exact idle ⟨p, by simpa using present⟩
  have zero : ∀ c : LinuxCounter, st.linuxCore.counter c = 0 := by
    intro c
    rw [tracks.core, tracks.fits.counter c]
    refine Finset.sum_eq_zero fun p _ => ?_
    have absent := none p
    revert absent
    cases a.place p <;> cases c <;> simp [Place.present, LinuxCounter.weight]
  exact runs ⟨zero .runningNr, zero .waitingNr, zero .newNr⟩

theorem LinuxTracks.sigchldHandler_spec (tracks : LinuxTracks ⟨Clear strict, heard⟩ start st xs a)
    (reports : List WaitStatus) (hears : a.Hears heard reports) :
    wp (sigchldHandler linuxRebalance reports)
      (fun _ st' => ∃ b ys, LinuxTracks ⟨Clear strict, heard⟩ start st' ys b ∧ b.Busy)
      (LinuxEnds strict heard start) st := by
  refine Wp.bind (tracks.sigchldLoop_spec reports hears) fun deaths st₁ reaped => ?_
  obtain ⟨b, tracks₁⟩ := reaped
  refine Wp.bind (R := fun _ st' => ∃ c ys, LinuxTracks ⟨Clear strict, heard⟩ start st' ys c)
    (Wp.ite (fun _ => ?_) fun _ =>
    Wp.pure ⟨b, xs, tracks₁⟩) fun _ st₂ between => ?_
  · refine Wp.mono tracks₁.rebalance_spec (fun _ st' rebalanced => ?_) fun _ _ astray => .inl astray
    obtain ⟨c, ys, tracks₂, -⟩ := rebalanced
    exact ⟨c, ys, tracks₂⟩
  · obtain ⟨c, ys, tracks₂⟩ := between
    exact Wp.imp tracks₂.checkShutdown_spec fun _ _ shown => ⟨c, ys, shown⟩

end Exits

section Handlers

/-- Where an input lets a quantum expire, no killed program is still on the list of the scheduler,
and the exits that it records are heard of. -/
def LinuxLife.Allows (strict : Prop) (heard : ProgPtr → Prop) (a : LinuxLife) (st : ExecState) :
    Input → Prop
  | .events => st.QuantumDue → Clear strict a
  | .sigchld reports => a.Hears heard reports
  | _ => True

theorem LinuxTracks.handle_spec (tracks : LinuxTracks ⟨Clear strict, heard⟩ start st xs a)
    (busy : a.Busy) (input : Input) (allows : a.Allows strict heard st input) :
    wp (handleWith linuxRebalance linuxQexpired input) (fun _ st' => ∃ b ys,
      LinuxTracks ⟨Clear strict, heard⟩ start st' ys b ∧ b.Busy)
        (LinuxEnds strict heard start) st := by
  cases input with
  | events =>
      refine Wp.mono (Wp.bind (tracks.handleEvents_spec busy allows _) fun _ _ shown =>
        Wp.pure shown)
        (fun _ _ shown => shown) fun _ _ astray => .inl astray
  | sigchld reports => exact tracks.sigchldHandler_spec reports allows
  | timeout => exact Wp.imp tracks.checkShutdown_spec fun _ _ shown => ⟨a, xs, shown⟩
  | sigterm =>
      have told : Acts linuxView sigtermHandler (LinuxView.modCore
          (LinuxCore.lift fun core => { core with massacre := true })) := fun _ => rfl
      exact told.last fun _ st' shown => ⟨_, xs, tracks.act .terminate rfl shown, busy⟩

theorem LinuxTracks.forM_spec (inputs : List Input)
    (tracks : LinuxTracks ⟨Clear strict, heard⟩ start st xs a) (busy : a.Busy)
    (allowed : ∀ before input after mid b ys, inputs = before ++ input :: after →
      before.forM (handleWith linuxRebalance linuxQexpired) st = .ok () mid →
      LinuxTracks ⟨Clear strict, heard⟩ start mid ys b → b.Allows strict heard mid input) :
    wp (inputs.forM (handleWith linuxRebalance linuxQexpired)) (fun _ st' => ∃ b ys,
      LinuxTracks ⟨Clear strict, heard⟩ start st' ys b ∧ b.Busy)
        (LinuxEnds strict heard start) st := by
  induction inputs generalizing st a xs with
  | nil => exact Wp.pure ⟨a, xs, tracks, busy⟩
  | cons input later ih =>
      have first := tracks.handle_spec busy input (allowed [] input later st a xs rfl rfl tracks)
      refine Wp.bind (Wp.returned first) fun _ st₁ handled => ?_
      obtain ⟨run, b, ys, tracks₁, busy₁⟩ := handled
      refine ih tracks₁ busy₁ fun before other after mid c zs split ran => ?_
      refine allowed (input :: before) other after mid c zs (by rw [split]; rfl) ?_
      change (handleWith linuxRebalance linuxQexpired input >>= fun _ =>
        before.forM (handleWith linuxRebalance linuxQexpired)) st = _
      simp only [Bind.bind, EStateM.bind, run]
      exact ran

end Handlers

section Start

/-- The life of the programs when `main` enters its loop. -/
structure LinuxLife.Boots (cpus : List Int) (confs : List ProgConf) (a : LinuxLife) : Prop where
  place : a.place = Place.atStart confs.length
  on : a.on = fun _ => []
  parsed : a.core.core.Parsed cpus confs
  qt : a.core.core.qt = ⟨0, 200000⟩
  progsInit : a.core.progsInit = confs.length
  progsLeft : a.core.progsLeft = confs.length

namespace LinuxLife.Boots

theorem waits (boots : a.Boots cpus confs) (p : ProgPtr) :
    a.place p = .waiting ∨ a.place p = .unborn := by
  rw [boots.place, Place.atStart]
  split
  · exact .inl rfl
  · exact .inr rfl

/-- A program that waits counts for a counter as the counter says. -/
theorem tally_start (c : LinuxCounter) (n : Nat) :
    tally c.weight n (Place.atStart n) = n * c.weight .waiting := by
  have waits : ∀ p ∈ Finset.range n, c.weight (Place.atStart n p) = c.weight .waiting :=
    fun p member => by
    rw [Place.atStart, if_pos (Finset.mem_range.mp member)]
  rw [tally, Finset.sum_congr rfl waits, Finset.sum_const, Finset.card_range, nsmul_eq_mul]

theorem fits (boots : a.Boots cpus confs) : a.Fits := by
  constructor
  case unborn =>
    intro p
    rw [boots.place, boots.parsed.progsAllocated, Place.atStart]
    split
    · next inside => simpa using Nat.not_le.mpr inside
    · next outside => simpa using Nat.not_lt.mp outside
  case listed =>
    constructor
    · intro head _ p
      rw [boots.on]
      rcases boots.waits p with here | here <;> simp [here, Place.linuxHome]
    · intro head _
      rw [boots.on]
      exact List.nodup_nil
  case known =>
    intro p
    rcases boots.waits p with here | here <;> simp [here, Place.underLinux]
  case spared =>
    intro p spared
    rcases boots.waits p with here | here <;> simp [here, Place.spared] at spared
  case dead =>
    intro p dead
    rcases boots.waits p with here | here <;> simp [here, Place.dead] at dead
  case hashed =>
    intro pid p found
    rw [boots.parsed.progPidHash, hashLookup_init] at found
    exact absurd found (by simp)
  case counter =>
    intro c
    rw [boots.parsed.progsAllocated, boots.place, tally_start]
    cases c with
    | waitingNr => simpa [LinuxCore.counter, LinuxCounter.weight] using boots.parsed.waitingNr
    | newNr => simpa [LinuxCore.counter, LinuxCounter.weight] using boots.parsed.newNr
    | runningNr => simpa [LinuxCore.counter, LinuxCounter.weight] using boots.parsed.runningNr
  case qt => exact boots.qt

theorem busy (boots : a.Boots cpus confs) (some : confs ≠ []) : a.Busy := by
  refine ⟨0, ?_⟩
  rw [boots.place, Place.atStart, if_pos (List.length_pos_iff.mpr some)]
  rfl

theorem lined (boots : a.Boots cpus confs) : a.Lined confs.length := by
  have silent : ∀ event, event.early = false → event ∉ a.core.core.log := fun event late noted =>
    absurd (boots.parsed.early event noted) (by simp [late])
  have id : ∀ p < confs.length, (a.core.core.progs p).id = 1000 + p := fun p inside =>
    (boots.parsed.configured p confs[p] (List.getElem?_eq_getElem inside)).id
  have ordered : a.line.Ordered idUserOffset confs.length := by
    refine .start boots.parsed.progsAllocated id (fun p live => ?_) fun p q noted =>
      silent _ rfl noted
    by_contra outside
    have live : (a.place p).holds = true := live
    rw [boots.place, Place.atStart, if_neg outside] at live
    exact absurd live (by decide)
  constructor
  case ordered => exact ordered
  case progsInit => exact boots.progsInit
  case initId =>
    intro p enrolled
    rcases boots.waits p with here | here <;> exact absurd (here ▸ enrolled) (by decide)
  case enrolled => exact fun p noted => absurd noted (silent _ rfl)
  case recorded =>
    intro p recorded
    rcases boots.waits p with here | here <;> exact absurd (here ▸ recorded) (by decide)
  case always =>
    have root : ∀ past, past <+: a.core.core.log → ∀ p, Underway confs.length past p →
        p < confs.length := by
      intro past before p underway
      apply underway.1.resolve_right
      rintro ⟨old, noted⟩
      exact silent _ rfl (before.subset noted)
    intro past before p q first second same
    have atP : a.core.core.slotOf confs.length p = p := ordered.slot_root (root past before p first)
    have atQ : a.core.core.slotOf confs.length q = q :=
      ordered.slot_root (root past before q second)
    rw [atP, atQ] at same
    exact Int.ofNat_inj.mp same

end LinuxLife.Boots

/-- The life that a state shows before the loop. -/
def ExecState.firstLinuxLife (st : ExecState) (n : Nat) : LinuxLife where
  place := Place.atStart n
  on := fun _ => []
  core := st.linuxCore

/-- The core, when `linux_init` is done. -/
def LinuxCore.initSched (c : LinuxCore) : LinuxCore :=
  { c with
    core := { c.core with qt := ⟨0, 200000⟩ }
    progsInit := c.core.waitingNr
    progsLeft := c.core.waitingNr }

theorem linuxInit_begins (valid : st.eventsHeap.Valid (affEventLeqUl st.events) xs)
    (outside : 0 ∉ xs) : wp (linuxInit targets) (fun _ st' => ∃ heap ys,
      heap.Valid
        (affEventLeqUl (Function.update st.events 0 { st.events 0 with tv := ⟨0, 200000⟩ })) ys ∧
      ys.Perm (0 :: xs) ∧ linuxView st' = { linuxView st with
        links := cdsInitListHead .linuxProgs st.links
        eventsHeap := heap
        events := Function.update st.events 0 { st.events 0 with tv := ⟨0, 200000⟩ }
        core := st.linuxCore.initSched }) Astray st := by
  have read : Acts linuxView (readEnv Env.timeOfDay) id := fun _ => rfl
  have valid' : st.eventsHeap.Valid (affEventLeqUl (Function.update st.events 0
      { st.events 0 with tv := ⟨0, 200000⟩ })) xs :=
    valid.congr fun evnt member =>
      Function.update_of_ne (fun equal : evnt = 0 => outside (equal ▸ member)) _ _
  refine Wp.bind_ok rfl (Wp.bind_ok rfl (Wp.bind_ok rfl (Wp.bind_ok rfl ?_)))
  refine Wp.bind (R := fun _ st' => ∃ heap ys,
      heap.Valid
        (affEventLeqUl (Function.update st.events 0 { st.events 0 with tv := ⟨0, 200000⟩ })) ys ∧
      ys.Perm (0 :: xs) ∧ linuxView st' = { linuxView st with
        links := cdsInitListHead .linuxProgs st.links
        eventsHeap := heap
        events := Function.update st.events 0 { st.events 0 with tv := ⟨0, 200000⟩ }
        core := st.linuxCore.initSched })
    (eventsHeapPush_spec _ valid' fun heap ys valid perm => ⟨heap, ys, valid, perm, rfl⟩)
      fun _ st₁ pushed => ?_
  obtain ⟨heap, ys, valid, perm, shown⟩ := pushed
  refine read.before fun tms st₂ same₂ =>
    Acts.last (modifyLinux_quiet fun _ => ⟨rfl, rfl⟩) fun _ st₃ same₃ => ?_
  refine ⟨heap, ys, valid, perm, ?_⟩
  rw [same₃, id_eq, same₂, id_eq, shown]

/-- `linux_init` empties the list of the scheduler. -/
theorem linuxInit_rings {links : Links Node} (n : Nat) (news : IsRing links .pnewL [])
    (finished : IsRing links .pfinishedL []) :
    PlRings linuxHeads n (cdsInitListHead .linuxProgs links) (fun _ => []) [] := by
  refine .empty (fun head member => ?_) fun head member p equal => ?_
  · have cases : head = .linuxProgs ∨ head = .pnewL ∨ head = .pfinishedL := by
      simpa [linuxHeads] using member
    rcases cases with rfl | rfl | rfl
    · exact cdsInitListHead_ring
    · exact empty_initOther news (by decide)
    · exact empty_initOther finished (by decide)
  · subst equal
    simp [linuxHeads] at member

/-- When `linux_init` is done the programs of the file wait. -/
theorem ExecState.Parsed.linuxInit_spec (strict : Prop) (heard : ProgPtr → Prop)
    (parsed : st.Parsed cpus confs xs) :
    wp (linuxInit targets) (fun _ st' => ∃ a ys, 0 ∈ ys ∧ a.Boots cpus confs ∧
      LinuxTracks ⟨Clear strict, heard⟩ a st' ys a) Astray st := by
  refine Wp.imp (linuxInit_begins parsed.queue.valid parsed.outside) fun _ st' begins => ?_
  obtain ⟨heap, ys, valid, perm, shown⟩ := begins
  have core : st'.linuxCore = st.linuxCore.initSched := congrArg LinuxView.core shown
  have events : st'.events = Function.update st.events 0 { st.events 0 with tv := ⟨0, 200000⟩ } :=
    congrArg LinuxView.events shown
  have links : st'.links = cdsInitListHead .linuxProgs st.links := congrArg LinuxView.links shown
  have boots : (st'.firstLinuxLife confs.length).Boots cpus confs := by
    have initial := parsed.core
    constructor
    case place => rfl
    case on => rfl
    case parsed =>
      rw [ExecState.firstLinuxLife, core]
      exact ⟨initial.progsAllocated, initial.waitingNr, initial.newNr, initial.runningNr,
        initial.finishedNr,
        initial.massacre, initial.cpus, initial.progPidHash, initial.clocks, initial.configured,
          initial.early⟩
    all_goals
      rw [ExecState.firstLinuxLife, core]
      first | rfl | exact initial.waitingNr
  refine ⟨st'.firstLinuxLife confs.length, ys, perm.symm.subset List.mem_cons_self, boots,
    ⟨.refl, boots.fits, rfl, ?_, ?_⟩⟩
  · rw [links]
    exact linuxInit_rings _ parsed.news parsed.finished
  · refine parsed.queue.requeue parsed.outside (fun evnt differs => ?_) ?_ ?_ ?_ perm
    · exact (congrFun events evnt).trans (Function.update_of_ne differs _ _)
    · change (st'.events 0).type = _
      rw [events, Function.update_self]
      exact parsed.queue.quantum
    · exact congrArg LinuxView.eventsAllocated shown
    · change st'.eventsHeap.Valid (affEventLeqUl st'.events) ys
      rw [events, show st'.eventsHeap = heap from congrArg LinuxView.eventsHeap shown]
      exact valid

theorem bootWith_spec (strict : Prop) (heard : ProgPtr → Prop) (confs : List ProgConf)
    (targets : Int → Rat) (env : Env) (cpus : List Int) :
    wp (bootWith (linuxInit targets) confs) (fun _ st => ∃ a xs, a.Boots cpus confs ∧
      LinuxTracks ⟨Clear strict, heard⟩ a st xs a) Astray (ExecState.start env cpus) := by
  refine Wp.bind (R := fun _ st => ∃ xs, st.Parsed cpus confs xs) ?_ fun _ st₁ parses => ?_
  · refine Wp.bind_ok rfl (Wp.bind_ok rfl (Wp.bind_ok rfl (Wp.bind_ok rfl ?_)))
    exact ExecState.Parsed.parseFile_spec confs (start_parsed env cpus)
  obtain ⟨xs, parsed⟩ := parses
  refine Wp.bind (parsed.linuxInit_spec strict heard) fun _ st₂ inits => ?_
  obtain ⟨a, ys, queued, boots, tracks⟩ := inits
  have peeked : heapPeek st₂.eventsHeap = some ys.head? := heapPeek_eq tracks.queue.valid
  refine Wp.bind_ok rfl ?_
  rw [peeked]
  cases queue : ys with
  | nil => simp [queue] at queued
  | cons evnt rest =>
      have read : Acts linuxView (readEnv Env.timeOfDay) id := fun _ => rfl
      refine Wp.bind_ok rfl (read.before fun tv0 st₃ same => Wp.modify ?_)
      exact ⟨a, ys, boots, tracks.quiet same⟩

end Start

section Runs

/-- No quantum of the run expires while a killed program is on the list of the scheduler. -/
def KilledReaped (confs : List ProgConf) (targets : Int → Rat) (env : Env) (cpus : List Int)
    (inputs : List Input) : Prop :=
  ∀ before after mid, inputs = before ++ .events :: after →
    runLinux confs targets before (ExecState.start env cpus) = .ok () mid → mid.QuantumDue →
    ∀ running : List ProgPtr, IsRing mid.links .linuxProgs (running.map Node.plNode) →
      ∀ p ∈ running, (mid.linuxData p).killed = false

/-- A program of the list of the scheduler is killed when it is marked so. -/
theorem LinuxTracks.clear (tracks : LinuxTracks ⟨Clear strict, fun _ => True⟩ start st xs a)
    (reaped : strict → ∀ running : List ProgPtr,
      IsRing st.links .linuxProgs (running.map Node.plNode) →
      ∀ p ∈ running, (st.linuxData p).killed = false) : Clear strict a := by
  intro wanted p here
  have member : Node.linuxProgs ∈ linuxHeads := by simp [linuxHeads]
  have spared := reaped wanted _ (tracks.ring member) p (tracks.listed member (by rw [here]; rfl))
  have dead : (st.linuxData p).killed = true := by
    refine (congrArg (fun c => c.killed p) tracks.core).trans (tracks.fits.dead p ?_)
    rw [here]
    rfl
  exact absurd (dead.symm.trans spared) (by decide)

theorem runLinux_spec (strict : Prop) (some : confs ≠ []) (inputs : List Input)
    (reaped : strict → KilledReaped confs targets env cpus inputs) :
    wp (runLinux confs targets inputs) (fun _ st => ∃ a b xs, a.Boots cpus confs ∧
        LinuxTracks ⟨Clear strict, fun _ => True⟩ a st xs b)
      (fun stop st => Astray stop st ∨ ∃ a b xs, a.Boots cpus confs ∧
        LinuxTracks ⟨Clear strict, fun _ => True⟩ a st xs b)
      (ExecState.start env cpus) := by
  refine Wp.bind
    (Wp.mono (Wp.returned (bootWith_spec strict (fun _ => True) confs targets env cpus))
      (fun _ _ boots => boots)
    fun _ _ astray => .inl astray) fun _ st₁ booted => ?_
  obtain ⟨run, a, xs, boots, tracks⟩ := booted
  refine Wp.mono (tracks.forM_spec inputs (boots.busy some)
    fun before input after mid b ys split ran shown => ?_)
    (fun _ st' shown => ?_) fun stop _ ends => ?_
  · have whole : runLinux confs targets before (ExecState.start env cpus) = .ok () mid := by
      change (bootWith (linuxInit targets) confs >>= fun _ =>
        before.forM (handleWith linuxRebalance linuxQexpired)) (ExecState.start env cpus) = _
      simp only [Bind.bind, EStateM.bind, run]
      exact ran
    cases input with
    | events =>
        exact fun due => shown.clear fun wanted => reaped wanted before after mid split whole due
    | sigchld reports => exact fun _ _ _ _ => trivial
    | _ => trivial
  · obtain ⟨b, ys, shown, -⟩ := shown
    exact ⟨a, b, ys, boots, shown⟩
  · exact ends.imp_right fun ⟨b, ys, shown⟩ => ⟨a, b, ys, boots, shown⟩

/-- A run has come to a state, or has ended there as the code says. -/
def LinuxReaches (confs : List ProgConf) (targets : Int → Rat) (env : Env) (cpus : List Int)
    (inputs : List Input) (st : ExecState) : Prop :=
  runLinux confs targets inputs (ExecState.start env cpus) = .ok () st ∨
    ∃ stop, runLinux confs targets inputs (ExecState.start env cpus) = .error stop st ∧
      ¬ Astray stop st

theorem LinuxReaches.tracks {inputs : List Input}
    (reaches : LinuxReaches confs targets env cpus inputs st) (strict : Prop) (some : confs ≠ [])
    (reaped : strict → KilledReaped confs targets env cpus inputs) :
    ∃ a b xs, a.Boots cpus confs ∧ LinuxTracks ⟨Clear strict, fun _ => True⟩ a st xs b := by
  rcases reaches with run | ⟨stop, run, sane⟩
  · exact (Wp.of_ok run).mp (runLinux_spec strict some inputs reaped)
  · exact ((Wp.of_error run).mp (runLinux_spec strict some inputs reaped)).resolve_left sane

end Runs

end BachScheduler
