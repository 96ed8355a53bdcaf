import BachScheduler.Rebalance

/-!
# The handlers as rounds in the life of the programs

Each handler of the main loop is a sequence of arrivals, quanta and recorded exits, with
at most one `rebalance` behind them.  Between the handlers all programs that have not
ended run or rest, and none is on its way out.
-/

namespace BachScheduler

open BachScheduler.Ring BinHeap Wp

variable {exits : ProgPtr → Place → Prop} {name : PolicyName} {start a b c : Life}
    {st st' : ExecState}
variable {xs ys : List EvntPtr} {evnt : EvntPtr} {prog : ProgPtr}

/-- What the handlers consist of. -/
inductive Round (exits : ProgPtr → Place → Prop) (name : PolicyName) (a : Life) : Life → Prop
  | arrive {prog : ProgPtr} (here : a.place prog = .waiting) :
      Round exits name a ((a.transfer prog .new).act Core.arrive)
  | quantum {b : Life} (phase : a.phase = .running) (settled : a.Settled)
      (quantum : a.Quantum name b) :
      Round exits name a b
  | exit {prog : ProgPtr} {source target : Place} {pid : Nat} (here : a.place prog = source)
      (allowed : exits prog source)
      (move : Move exits a prog source target (Core.recordEnd prog pid)) :
      Round exits name a ((a.transfer prog target).act (Core.recordEnd prog pid))
  | rebalance {b : Life}
      (busy : ∃ prog, a.place prog = .new ∨ a.place prog = .finished ∨ a.place prog = .reaped)
      (steps : Steps unheard a b) (calm : a.Calm b) : Round exits name a b
  | wait (prog : ProgPtr) : Round exits name a (a.act (Core.note (.reaped prog)))
  | terminate : Round exits name a (a.act fun core => { core with massacre := true })

/-- Any number of rounds. -/
abbrev Rounds (exits : ProgPtr → Place → Prop) (name : PolicyName) : Life → Life → Prop :=
  Relation.ReflTransGen (Round exits name)

theorem Round.steps (round : Round exits name a b) : Steps exits a b := by
  cases round with
  | arrive here => exact .single (.move here .arrive)
  | quantum phase settled quantum => exact .head (.act .tick) quantum.1.heard
  | exit here allowed move => exact .single (.move here move)
  | rebalance busy steps calm => exact steps.heard
  | wait prog => exact .single (.act (.wait prog))
  | terminate => exact .single (.act .terminate)

theorem Rounds.steps (rounds : Rounds exits name a b) : Steps exits a b := by
  induction rounds with
  | refl => exact .refl
  | tail _ round ih => exact ih.trans round.steps

/-- The state shows a life of the programs that came about by rounds, and the programs run. -/
structure Shows (exits : ProgPtr → Place → Prop) (name : PolicyName) (start : Life) (st : ExecState)
    (xs : List EvntPtr) (a : Life) : Prop where
  tracks : Tracks exits start st xs a
  rounds : Rounds exits name start a
  phase : a.phase = .running

/-- What is true between two handlers. -/
def Between (exits : ProgPtr → Place → Prop) (name : PolicyName) (start : Life) (st : ExecState)
    (a : Life) : Prop :=
  ∃ xs, Shows exits name start st xs a ∧ a.Settled

/-- The shells whose exits `sigchld_handler` records, of those it is told of, when `runningNr`
programs run: it stops at a report that comes when no program runs. -/
def recordedExits : List WaitStatus → Int → List ProgPtr
  | [], _ => []
  | status :: later, runningNr =>
      if runningNr = 0 then []
      else
        match status with
        | .stopped => recordedExits later runningNr
        | .exited prog => prog :: recordedExits later (runningNr - 1)

/-- The exits that a handler records are among `exits`. -/
def Life.Hears (exits : ProgPtr → Place → Prop) (a : Life) : Input → Prop
  | .sigchld reports => ∀ prog ∈ recordedExits reports a.core.runningNr, ∀ p,
      hashLookup a.core.progPidHash (a.core.progs prog).shellPid = some p → exits p (a.place p)
  | _ => True

/-- How a handler ends the run: in code gone astray, at an exit of a program that the hash
table does not know, or when no program is left. -/
inductive Ends (exits : ProgPtr → Place → Prop) (name : PolicyName) (start : Life) :
    Stop → ExecState → Prop
  | astray {stop : Stop} {st : ExecState} (astray : Astray stop st) : Ends exits name start stop st
  | failed {st : ExecState} {a : Life} {prog : ProgPtr} {before : List Event} {hash : Hash ProgPtr}
      (sound : a.Sound)
      (rounds : Rounds exits name start a) (phase : a.phase = .running)
      (runs : a.core.runningNr ≠ 0)
      (unknown : hashLookup a.core.progPidHash (a.core.progs prog).shellPid = none)
      (told : a.core.log = before ++ [.reaped prog])
      (same : st.core = { a.core with progPidHash := hash }) :
      Ends exits name start .assertFailed st
  | done {st : ExecState} {a : Life} {status : Int} (between : Between exits name start st a)
      (runningNr : a.core.runningNr = 0) (waitingNr : a.core.waitingNr = 0)
      (newNr : a.core.newNr = 0) :
      Ends exits name start (.exit status) st

/-- A positive counter counts a program at some place. -/
theorem Life.Sound.exists_of_counter (sound : a.Sound) (c : Counter) (some : a.core.counter c ≠ 0) :
    ∃ p, c.weight (a.place p) ≠ 0 := by
  by_contra none
  have zero : ∀ p < a.core.progsAllocated, c.weight (a.place p) = 0 := fun p _ => by
    by_contra counts
    exact none ⟨p, counts⟩
  exact some ((sound.counter c).trans
    (Finset.sum_eq_zero fun p member => zero p (Finset.mem_range.mp member)))

theorem Shows.rebalance_spec (shows_ : Shows exits name start st xs a) (tidy : a.Tidy)
    (busy : ∃ p, a.place p = .new ∨ a.place p = .finished ∨ a.place p = .reaped) :
    wp (rebalance name.policy) (fun _ st' => ∃ b, Between exits name start st' b) Astray st := by
  refine Wp.imp (shows_.tracks.reroot.rebalance_spec shows_.phase tidy) fun _ st' rebalanced => ?_
  obtain ⟨b, ys, tracks, phase, settled, calm⟩ := rebalanced
  exact ⟨b, ys, ⟨tracks.since shows_.tracks.steps,
    shows_.rounds.tail (.rebalance busy tracks.steps calm), phase⟩,
    settled⟩

section Events

theorem Queue.pop {v : View} {place other : ProgPtr → Place} {heap : Heap EvntPtr}
    (queue : Queue v xs place) (perm : (evnt :: ys).Perm xs)
    (valid : heap.Valid (affEventLeqUl v.events) ys)
    (waits : ∀ p, other p = .waiting ↔
      place p = .waiting ∧ ¬ (evnt ≠ 0 ∧ (v.events evnt).prog = p)) :
    Queue { v with eventsHeap := heap } ys other := by
  have nodup := List.nodup_cons.mp (perm.nodup_iff.mpr queue.nodup)
  have member : ∀ e ∈ ys, e ∈ xs := fun e there => perm.subset (List.mem_cons_of_mem _ there)
  constructor
  case valid => exact valid
  case nodup => exact nodup.2
  case allocated => exact fun e there => queue.allocated e (member e there)
  case some => exact queue.some
  case quantum => exact queue.quantum
  case newprog => exact fun e there => queue.newprog e (member e there)
  case once => exact fun e there f thereToo => queue.once e (member e there) f (member f thereToo)
  case waits =>
    intro p
    rw [waits p, queue.waits p]
    constructor
    · rintro ⟨⟨e, there, differs, same⟩, notFirst⟩
      refine ⟨e, (List.mem_cons.mp (perm.symm.subset there)).resolve_left fun first => ?_,
        differs, same⟩
      exact notFirst (first ▸ ⟨differs, same⟩)
    · rintro ⟨e, there, differs, same⟩
      refine ⟨⟨e, member e there, differs, same⟩, fun first => nodup.1 ?_⟩
      have equal : e = evnt := queue.once e (member e there) evnt (perm.subset List.mem_cons_self)
        differs first.1 (same.trans first.2.symm)
      exact equal ▸ there

theorem Tracks.popQuantum (tracks : Tracks exits start st xs a) (perm : (0 :: ys).Perm xs)
    {heap : Heap EvntPtr} (valid : heap.Valid (affEventLeqUl st.events) ys) :
    Tracks exits start { st with eventsHeap := heap } ys a where
  steps := tracks.steps
  sound := tracks.sound
  models := by
    have models := tracks.models
    refine ⟨models.core, models.rings, models.queue.pop perm valid fun p => ?_⟩
    simp

/-- The start of a program leaves the heap, and the program is new. -/
theorem Tracks.arrive (tracks : Tracks exits start st xs a) (perm : (evnt :: ys).Perm xs)
    (arrival : evnt ≠ 0) {heap : Heap EvntPtr} (valid : heap.Valid (affEventLeqUl st.events) ys)
    (here : a.place prog = .waiting) (announced : (st.events evnt).prog = prog)
    (same : view st' = ((view { st with eventsHeap := heap }).modLinks
      (cdsListAddTail (.plNode prog) .pnewL)).modCore Core.arrive) :
    Tracks exits start st' ys ((a.transfer prog .new).act Core.arrive) where
  steps := tracks.steps.tail (.move here .arrive)
  sound := tracks.sound.move here (.arrive : Move exits a prog _ _ _)
  models := by
    obtain ⟨idle, rings, killed⟩ := tracks.models.rings
    have off : a.on.Off lifeHeads prog := fun head member listed => by
      have home := (tracks.sound.listed.mem head member prog).mp listed
      simp [here, Place.home] at home
    have small : prog < a.core.progsAllocated := tracks.sound.allocated (by simp [here])
    have pushed := rings.addTail (by simp [lifeHeads] : Node.pnewL ∈ lifeHeads) off small
    have onList : (a.transfer prog .new).on = a.on.push .pnewL prog := by
      simp [Life.transfer, here, Place.home, Life.leave, Life.join]
    rw [same]
    refine ⟨congrArg Core.arrive tracks.models.core,
      ⟨idle.filter (· ≠ prog), ?_, fun p there => ?_⟩, ?_⟩
    · rw [Life.act_on, onList]
      exact pushed
    · have differs : p ≠ prog := fun equal => by simp [equal] at there
      rw [Life.act_place, Life.transfer_place, Function.update_of_ne differs] at there
      exact List.mem_filter.mpr ⟨killed p there, by simpa using differs⟩
    · refine (tracks.models.queue.pop perm valid fun p => ?_).view rfl rfl rfl
      have announced : ((view st).events evnt).prog = prog := announced
      by_cases equal : p = prog
      · subst equal
        simp [announced, arrival]
      · simp [equal, announced, Ne.symm equal]

theorem Shows.quantum_spec (shows_ : Shows exits name start st xs a) (settled : a.Settled)
    (now : Timeval) (perm : (0 :: ys).Perm xs) {heap : Heap EvntPtr}
    (valid : heap.Valid (affEventLeqUl st.events) ys) :
    wp (qexpired name.policy now)
      (fun _ st' => (∃ zs b, Shows exits name start st' zs b ∧ b.Settled) ∧
      Retimed now { st with eventsHeap := heap } ys st') Astray { st with eventsHeap := heap } := by
  have queue := shows_.tracks.models.queue
  have outside := (List.nodup_cons.mp (perm.nodup_iff.mpr queue.nodup)).1
  have tracks := (shows_.tracks.popQuantum perm valid).reroot
  refine Wp.imp (tracks.qexpired_spec outside shows_.phase settled.none now) fun _ st' expired => ?_
  obtain ⟨b, zs, tracks', -, phase, quantum, retimed⟩ := expired
  have same : (a.act Core.tick).Settled := settled
  exact ⟨⟨zs, b,
    ⟨tracks'.since shows_.tracks.steps, shows_.rounds.tail (.quantum shows_.phase settled quantum),
    phase⟩, same.steps quantum.1⟩, retimed⟩

theorem Shows.arrival_spec {E : Stop → ExecState → Prop} (shows_ : Shows exits name start st xs a)
    (settled : a.Settled) (perm : (evnt :: ys).Perm xs) (arrival : evnt ≠ 0) {heap : Heap EvntPtr}
    (valid : heap.Valid (affEventLeqUl st.events) ys) :
    wp (affProgWaitingNew (st.events evnt).prog)
      (fun _ st' => ∃ zs b, Shows exits name start st' zs b ∧
      b.Settled) E { st with eventsHeap := heap } := by
  have queue := shows_.tracks.models.queue
  have member : evnt ∈ xs := perm.subset List.mem_cons_self
  have here : a.place (st.events evnt).prog = .waiting :=
    (queue.waits _).mpr ⟨evnt, member, arrival, rfl⟩
  refine (affProgWaitingNew_acts _).last fun _ st' arrived => ?_
  refine ⟨ys, _, ⟨shows_.tracks.arrive perm arrival valid here rfl arrived,
    shows_.rounds.tail (.arrive here), shows_.phase⟩, fun p => ?_⟩
  by_cases equal : p = (st.events evnt).prog
  · subst equal
    simp [Place.settled]
  · simpa [equal] using settled p

theorem Shows.handleEvent_spec (shows_ : Shows exits name start st xs a) (settled : a.Settled)
    (now : Timeval) (perm : (evnt :: ys).Perm xs) {heap : Heap EvntPtr}
    (valid : heap.Valid (affEventLeqUl st.events) ys) :
    wp (handleEvent (qexpired name.policy) evnt now)
      (fun _ st' => ∃ zs b, Shows exits name start st' zs b ∧
      b.Settled) Astray { st with eventsHeap := heap } := by
  have queue := shows_.tracks.models.queue
  refine Wp.bind_ok rfl ?_
  by_cases quantum : evnt = 0
  · subst quantum
    have type : (st.events 0).type = .qexpired := queue.quantum
    simp only [type]
    exact Wp.imp (shows_.quantum_spec settled now perm valid) fun _ _ expired => expired.1
  · have type : (st.events evnt).type = .newprog :=
      queue.newprog evnt (perm.subset List.mem_cons_self) quantum
    simp only [type]
    exact shows_.arrival_spec settled perm quantum valid

theorem Shows.handleEvents_spec (shows_ : Shows exits name start st xs a) (settled : a.Settled)
    (nextWakeup : Option Timeval) :
    wp (handleEvents (rebalance name.policy) (qexpired name.policy) nextWakeup) (fun _ st' =>
      ∃ b, Between exits name start st' b) Astray st := by
  refine getNow_quiet.before fun now st₁ same => Wp.bind_ok rfl ?_
  refine Wp.bind
    (selectReadyEvents_keeps (fun xs st => ∃ b, Shows exits name start st xs b ∧ b.Settled)
    (fun xs st inv => ?_) (fun xs st evnt ys heap inv perm valid _ => ?_)
      (fun _ => .inr (.inr rfl)) nextWakeup _
    xs st₁ ⟨a, ⟨shows_.tracks.quiet same, shows_.rounds, shows_.phase⟩, settled⟩)
      fun wakeup st₂ selected => ?_
  · obtain ⟨b, shows_, -⟩ := inv
    exact shows_.tracks.models.queue.valid
  · obtain ⟨b, shows_, settled⟩ := inv
    exact shows_.handleEvent_spec settled now perm valid
  obtain ⟨ys, b, shows₂, settled₂⟩ := selected
  refine Wp.bind_ok rfl ?_
  refine Wp.bind (R := fun _ st' => ∃ b, Between exits name start st' b)
    (Wp.ite (fun some => ?_) fun _ =>
    Wp.pure ⟨b, ys, shows₂, settled₂⟩) fun _ _ between => Wp.pure between
  have newNr : st₂.newNr = b.core.newNr := congrArg Core.newNr shows₂.tracks.core
  have counted : b.core.counter .newNr ≠ 0 := by
    change b.core.newNr ≠ 0
    omega
  obtain ⟨p, counts⟩ := shows₂.tracks.sound.exists_of_counter .newNr counted
  have new : b.place p = .new := by
    revert counts
    cases b.place p <;> simp [Counter.weight]
  exact shows₂.rebalance_spec settled₂.tidy ⟨p, .inl new⟩

end Events

section Exits

/-- `aff_prog_running_finished` of a process that the hash table knows. -/
theorem affProgRunningFinished_known {pid : Nat} (found : hashLookup st.progPidHash pid = some prog)
    {Q : Unit → ExecState → Prop} {E : Stop → ExecState → Prop}
    (recorded : ∀ st', view st' = ((view st).modLinks fun links =>
      cdsListAddTail (.plNode prog) .pfinishedL (cdsListDel (.plNode prog) links)).modCore
        (Core.recordEnd prog pid) → Q () st') : wp (affProgRunningFinished pid) Q E st := by
  refine Wp.bind_ok rfl (Wp.bind_ok rfl ?_)
  rw [hashDelete_fst, found]
  exact recorded _ rfl

theorem affProgRunningFinished_unknown {pid : Nat} (unknown : hashLookup st.progPidHash pid = none)
    {Q : Unit → ExecState → Prop} {E : Stop → ExecState → Prop}
    (failed : ∀ hash st', st'.core = { st.core with progPidHash := hash } → E .assertFailed st') :
    wp (affProgRunningFinished pid) Q E st := by
  refine Wp.bind_ok rfl (Wp.bind_ok rfl ?_)
  rw [hashDelete_fst, unknown]
  exact failed _ _ rfl

/-- The rule for the loop of `sigchld_handler`: `I later deaths` speaks about a state in which
the reports `later` are still to come. -/
theorem sigchldLoop_rule (I : List WaitStatus → Int → ExecState → Prop)
    {E : Stop → ExecState → Prop}
    (note : ∀ status later deaths st, I (status :: later) deaths st →
      wp (noteReport status) (fun _ st' => I (status :: later) deaths st') E st)
    (stopped : ∀ later deaths st, I (.stopped :: later) deaths st → st.runningNr ≠ 0 →
      I later deaths st)
    (exit : ∀ prog later deaths st, I (.exited prog :: later) deaths st → st.runningNr ≠ 0 →
      (∃ before, st.log = before ++ [.reaped prog]) →
        wp (affProgRunningFinished (st.progs prog).shellPid)
          (fun _ st' => I later (deaths + 1) st') E st)
    (reports : List WaitStatus) {deaths : Int} {st : ExecState} (start : I reports deaths st) :
    wp (sigchldLoop reports deaths) (fun deaths' st' => ∃ later, I later deaths' st') E st := by
  induction reports generalizing deaths st with
  | nil => exact Wp.pure ⟨[], start⟩
  | cons status later ih =>
      refine Wp.bind (Wp.returned (note status later deaths st start)) fun _ st₁ noted =>
        Wp.bind_ok rfl ?_
      refine Wp.ite (fun _ => Wp.pure ⟨_, noted.2⟩) fun runs => ?_
      cases status with
      | stopped => exact ih (stopped later deaths st₁ noted.2 runs)
      | exited prog =>
          have told : ∃ before, st₁.log = before ++ [.reaped prog] := by
            cases noted.1
            exact ⟨st.log, rfl⟩
          exact Wp.bind_ok (readProg_run prog st₁)
            (Wp.bind (exit prog later deaths st₁ noted.2 runs told) fun _ _ next => ih next)

/-- The node of a program that has left its list goes to the finished programs. -/
theorem Life.join_finished {source target : Place} {bound : Nat} {links : Links Node}
    {idle : List ProgPtr} (here : a.place prog = source) (toHome : target.home = some .pfinishedL)
    (left : PlRings lifeHeads bound links (Life.leave a.on prog source.home) idle)
    (off : (Life.leave a.on prog source.home).Off lifeHeads prog) (small : prog < bound)
    (killed : ∀ p, a.place p = .killed → p ∈ idle) :
    ∃ idle, PlRings lifeHeads bound (cdsListAddTail (.plNode prog) .pfinishedL links)
        (a.transfer prog target).on idle ∧
      ∀ p, Function.update a.place prog target p = .killed → p ∈ idle := by
  refine ⟨idle.filter (· ≠ prog), ?_, fun p there => ?_⟩
  · have joined := left.addTail (by simp [lifeHeads] : Node.pfinishedL ∈ lifeHeads) off small
    simpa [Life.transfer, here, toHome, Life.join] using joined
  · by_cases equal : p = prog
    · subst equal
      rw [Function.update_self] at there
      rw [there] at toHome
      exact absurd toHome (by simp [Place.home])
    · rw [Function.update_of_ne equal] at there
      exact List.mem_filter.mpr ⟨killed p there, by simpa using equal⟩

theorem Tracks.finish (tracks : Tracks exits start st xs a) {source : Place} {head : Node}
    {pid : Nat} (here : a.place prog = source)
    (move : Move exits a prog source .finished (Core.recordEnd prog pid))
    (member : head ∈ lifeHeads) (home : source.home = some head)
    (small : prog < a.core.progsAllocated)
    (same : view st' = ((view st).modLinks fun links =>
      cdsListAddTail (.plNode prog) .pfinishedL (cdsListDel (.plNode prog) links)).modCore
        (Core.recordEnd prog pid)) :
    Tracks exits start st' xs ((a.transfer prog .finished).act (Core.recordEnd prog pid)) := by
  refine tracks.move here move same (fun idle rings killed => ?_) ?_ (by decide)
  · obtain ⟨dropped, off⟩ := rings.del member (tracks.listed member (here ▸ home))
    refine Life.join_finished here rfl ?_ ?_ small killed
    · rw [home]
      exact dropped
    · rw [home]
      exact off
  · rintro rfl
    exact absurd home (by simp [Place.home])

theorem Tracks.reap (tracks : Tracks exits start st xs a) {pid : Nat}
    (here : a.place prog = .killed)
    (move : Move exits a prog .killed .reaped (Core.recordEnd prog pid))
    (small : prog < a.core.progsAllocated)
    (same : view st' = ((view st).modLinks fun links =>
      cdsListAddTail (.plNode prog) .pfinishedL (cdsListDel (.plNode prog) links)).modCore
        (Core.recordEnd prog pid)) :
    Tracks exits start st' xs ((a.transfer prog .reaped).act (Core.recordEnd prog pid)) := by
  refine tracks.move here move same (fun idle rings killed => ?_) (by decide) (by decide)
  obtain ⟨unchanged, off⟩ := rings.del_idle (killed prog here)
  rw [unchanged]
  exact Life.join_finished here rfl rings off small killed

theorem Tracks.exit (tracks : Tracks exits start st xs a) (phase : a.phase = .running) {pid : Nat}
    (found : hashLookup a.core.progPidHash pid = some prog) (allowed : exits prog (a.place prog))
    (told : a.core.Told pid) (same : view st' = ((view st).modLinks fun links =>
      cdsListAddTail (.plNode prog) .pfinishedL (cdsListDel (.plNode prog) links)).modCore
        (Core.recordEnd prog pid)) :
    ∃ source target, a.place prog = source ∧
      Move exits a prog source target (Core.recordEnd prog pid) ∧
      (target = .finished ∨ target = .reaped) ∧
      Tracks exits start st' xs ((a.transfer prog target).act (Core.recordEnd prog pid)) := by
  have expected := (tracks.sound.hashed pid prog found).2
  have small : prog < a.core.progsAllocated :=
    tracks.sound.allocated fun unborn => by simp [unborn, Place.expected] at expected
  cases here : a.place prog with
  | all =>
      have move : Move exits a prog .all .finished (Core.recordEnd prog pid) :=
        .finish phase (here ▸ allowed) found (.inl rfl) told
      exact ⟨.all, .finished, rfl, move, .inl rfl,
        tracks.finish here move (by simp [lifeHeads] : Node.progsAll ∈ lifeHeads) rfl small same⟩
  | sch =>
      have move : Move exits a prog .sch .finished (Core.recordEnd prog pid) :=
        .finish phase (here ▸ allowed) found (.inr rfl) told
      exact ⟨.sch, .finished, rfl, move, .inl rfl,
        tracks.finish here move (by simp [lifeHeads] : Node.progsSch ∈ lifeHeads) rfl small same⟩
  | killed =>
      have move : Move exits a prog .killed .reaped (Core.recordEnd prog pid) :=
        .reap phase (here ▸ allowed) found told
      exact ⟨.killed, .reaped, rfl, move, .inr rfl, tracks.reap here move small same⟩
  | _ => simp [here, Place.expected] at expected

/-- How far the loop over the reports has come: the programs whose exits it has recorded wait
on `pfinished_l`. -/
structure Life.Reaping (deaths : Int) (a : Life) : Prop where
  tidy : a.Tidy
  none : ¬ deaths > 0 → a.Settled
  some : deaths > 0 → ∃ p, a.place p = .new ∨ a.place p = .finished ∨ a.place p = .reaped
  nonneg : 0 ≤ deaths

/-- The programs on their way out are on `pfinished_l` by their place. -/
theorem Life.Sound.tidy_iff (sound : a.Sound) :
    a.Tidy ↔ ∀ p, (a.place p).settled = false → (a.place p).home = some .pfinishedL :=
  forall_congr' fun p => imp_congr_right fun _ =>
    sound.listed.mem .pfinishedL (by simp [lifeHeads]) p

theorem Life.Reaping.exit {deaths : Int} {target : Place} {pid : Nat} (reaping : a.Reaping deaths)
    (sound : a.Sound) (sound' : ((a.transfer prog target).act (Core.recordEnd prog pid)).Sound)
    (ends : target = .finished ∨ target = .reaped) :
    ((a.transfer prog target).act (Core.recordEnd prog pid)).Reaping (deaths + 1) where
  tidy := by
    refine sound'.tidy_iff.mpr fun p leaves => ?_
    by_cases equal : p = prog
    · subst equal
      rcases ends with rfl | rfl <;> simp [Place.home]
    · simp only [Life.act_place, Life.transfer_place, Function.update_of_ne equal] at leaves ⊢
      exact sound.tidy_iff.mp reaping.tidy p leaves
  none := fun none => absurd (reaping.nonneg) (by omega)
  some := fun _ => ⟨prog, by simpa using .inr ends⟩
  nonneg := by
    have nonneg := reaping.nonneg
    omega

/-- The exits that are still to come are heard of after an exit was recorded. -/
theorem Life.Hears.exit {reports : List WaitStatus} {other : ProgPtr} {target : Place} {known : Nat}
    (hears : a.Hears exits (.sigchld (.exited other :: reports))) (sound : a.Sound)
    (runs : a.core.runningNr ≠ 0) (found : hashLookup a.core.progPidHash known = some prog) :
    Life.Hears exits ((a.transfer prog target).act (Core.recordEnd prog known))
      (.sigchld reports) := by
  intro shell reported p later
  obtain ⟨before, differs⟩ := sound.hashed.recordEnd found later
  have told : shell ∈ recordedExits (.exited other :: reports) a.core.runningNr := by
    rw [recordedExits, if_neg runs]
    exact List.mem_cons_of_mem _ reported
  simpa [differs] using hears shell told p before

theorem Shows.sigchldLoop_spec (reports : List WaitStatus) {deaths : Int}
    (shows_ : Shows exits name start st xs a) (reaping : a.Reaping deaths)
    (hears : a.Hears exits (.sigchld reports)) :
    wp (sigchldLoop reports deaths)
      (fun deaths' st' => ∃ b, Shows exits name start st' xs b ∧ b.Reaping deaths')
      (Ends exits name start) st := by
  refine Wp.imp (sigchldLoop_rule (fun reports deaths st => ∃ b, Shows exits name start st xs b ∧
    b.Reaping deaths ∧ b.Hears exits (.sigchld reports)) ?_ ?_ ?_ reports
      ⟨a, shows_, reaping, hears⟩)
    fun deaths' st' reaped => ?_
  · intro status later deaths st inv
    obtain ⟨b, shows_, reaping, hears⟩ := inv
    cases status with
    | stopped => exact Wp.pure ⟨b, shows_, reaping, hears⟩
    | exited prog =>
        refine (emit_acts _).last fun _ st' noted => ⟨_, ⟨shows_.tracks.act (.wait prog) noted,
          shows_.rounds.tail (.wait prog), shows_.phase⟩, ?_, hears⟩
        exact ⟨reaping.tidy, reaping.none, reaping.some, reaping.nonneg⟩
  · intro later deaths st inv runs
    obtain ⟨b, shows_, reaping, hears⟩ := inv
    have runs : b.core.runningNr ≠ 0 := by rwa [← shows_.tracks.core]
    refine ⟨b, shows_, reaping, fun shell reported => hears shell ?_⟩
    rwa [recordedExits, if_neg runs]
  · intro prog later deaths st inv runs waited
    obtain ⟨b, shows_, reaping, hears⟩ := inv
    obtain ⟨before, waited⟩ := waited
    have core := shows_.tracks.core
    have log : b.core.log = before ++ [.reaped prog] := (congrArg Core.log core).symm.trans waited
    have runs : b.core.runningNr ≠ 0 := by rwa [← core]
    have hash : st.progPidHash = b.core.progPidHash := congrArg Core.progPidHash core
    have shell : (st.progs prog).shellPid = (b.core.progs prog).shellPid :=
      congrArg (fun core => (core.progs prog).shellPid) core
    cases known : hashLookup st.progPidHash (st.progs prog).shellPid with
    | none =>
        refine affProgRunningFinished_unknown known fun hash' st' same => ?_
        have unknown : hashLookup b.core.progPidHash (b.core.progs prog).shellPid = none := by
          rwa [← hash, ← shell]
        exact .failed shows_.tracks.sound shows_.rounds shows_.phase runs unknown log
          (same.trans (by rw [core]))
    | some p =>
        have found : hashLookup b.core.progPidHash (st.progs prog).shellPid = some p := hash ▸ known
        have told : prog ∈ recordedExits (.exited prog :: later) b.core.runningNr := by
          rw [recordedExits, if_neg runs]
          exact List.mem_cons_self
        refine affProgRunningFinished_known known fun st' recorded => ?_
        have allowed : exits p (b.place p) := hears prog told p (shell ▸ found)
        obtain ⟨source, target, here, move, ends, tracks'⟩ :=
          shows_.tracks.exit shows_.phase found allowed
          ⟨before, prog, log, shell.symm⟩ recorded
        exact ⟨_, ⟨tracks', shows_.rounds.tail (.exit here (here ▸ allowed) move), shows_.phase⟩,
          reaping.exit shows_.tracks.sound tracks'.sound ends,
            hears.exit shows_.tracks.sound runs found⟩
  · obtain ⟨later, b, shows', reaping', -⟩ := reaped
    exact ⟨b, shows', reaping'⟩

theorem Shows.checkShutdown_spec (shows_ : Shows exits name start st xs a) (settled : a.Settled) :
    wp checkShutdown (fun _ st' => ∃ b, Between exits name start st' b)
      (Ends exits name start) st := by
  have core := shows_.tracks.core
  refine Wp.bind_ok rfl (Wp.ite (fun idle => ?_) fun _ => Wp.pure ⟨a, xs, shows_, settled⟩)
  refine .done ⟨xs, shows_, settled⟩ ?_ ?_ ?_
  · rw [← core]
    exact idle.1
  · rw [← core]
    exact idle.2.1
  · rw [← core]
    exact idle.2.2

theorem Shows.sigchldHandler_spec (reports : List WaitStatus)
    (shows_ : Shows exits name start st xs a) (settled : a.Settled)
    (hears : a.Hears exits (.sigchld reports)) :
    wp (sigchldHandler (rebalance name.policy) reports)
      (fun _ st' => ∃ b, Between exits name start st' b)
      (Ends exits name start) st := by
  have reaping : a.Reaping 0 :=
    ⟨settled.tidy, fun _ => settled, fun some => absurd some (by decide), le_refl 0⟩
  refine Wp.bind (shows_.sigchldLoop_spec reports reaping hears) fun deaths st₁ reaped => ?_
  obtain ⟨b, shows₁, reaping₁⟩ := reaped
  refine Wp.bind (R := fun _ st' => ∃ b, Between exits name start st' b)
    (Wp.ite (fun some => ?_) fun none =>
    Wp.pure ⟨b, xs, shows₁, reaping₁.none none⟩) fun _ st₂ between => ?_
  · exact Wp.mono (shows₁.rebalance_spec reaping₁.tidy (reaping₁.some some))
      (fun _ _ between => between)
      fun _ _ astray => .astray astray
  · obtain ⟨c, ys, shows₂, settled₂⟩ := between
    exact shows₂.checkShutdown_spec settled₂

end Exits

theorem Between.reroot (between : Between exits name start st a) (heard : ProgPtr → Place → Prop) :
    Between heard name a st a := by
  obtain ⟨xs, shows_, settled⟩ := between
  exact ⟨xs, ⟨⟨.refl, shows_.tracks.sound, shows_.tracks.models⟩, .refl, shows_.phase⟩, settled⟩

theorem Between.handle_spec (between : Between exits name start st a) (input : Input)
    (hears : a.Hears exits input) :
    wp (handle name.policy input) (fun _ st' => ∃ b, Between exits name start st' b)
      (Ends exits name start) st := by
  obtain ⟨xs, shows_, settled⟩ := between
  cases input with
  | events =>
      refine Wp.mono (Wp.bind (shows_.handleEvents_spec settled _) fun _ _ between =>
        Wp.pure between)
        (fun _ _ between => between) fun _ _ astray => .astray astray
  | sigchld reports => exact shows_.sigchldHandler_spec reports settled hears
  | timeout => exact shows_.checkShutdown_spec settled
  | sigterm =>
      refine ⟨a.act fun core => { core with massacre := true }, xs,
        ⟨shows_.tracks.act .terminate rfl,
        shows_.rounds.tail .terminate, shows_.phase⟩, settled⟩

end BachScheduler
