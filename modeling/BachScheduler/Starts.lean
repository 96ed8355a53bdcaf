import BachScheduler.Tracking

/-!
# The start of a program

A program is executed and its start is put into the event heap: at first for the lines of
the configuration file, later for the next instance of a program that has ended.
-/

namespace BachScheduler

open BachScheduler.Ring Wp

variable {exits : ProgPtr → Place → Prop} {start a : Life} {st : ExecState} {xs : List EvntPtr}
variable {prog : ProgPtr}

/-- A program gets a range of cpus. -/
def Core.setCpuset (prog : ProgPtr) (rstart rend : Int) (core : Core) : Core :=
  (core.note (.setCpuRange prog rstart rend)).modProg prog fun p =>
    { p with cpuset := core.cpusIn rstart rend }

/-- A program is executed, and waits for its start. -/
def Core.launch (prog : ProgPtr) (shellPid pid : Nat) (core : Core) : Core :=
  let executed := (core.modProg prog fun p =>
    { p with shellPid := shellPid, freezer := .frozen, pid := pid }).setCpuset prog 0
      core.cpus.length
  { executed with waitingNr := executed.waitingNr + 1 }

theorem scheduleSetcpurange_acts (prog : ProgPtr) (rstart rend : Int) :
    Acts view (scheduleSetcpurange prog rstart rend)
      (View.modCore (Core.setCpuset prog rstart rend)) := by
  unfold scheduleSetcpurange
  intro st
  refine (emit_acts _).before fun _ st₁ noted => Wp.bind_ok rfl ?_
  have cpus : (List.range (rend - rstart).toNat).map
      (fun k : Nat => st₁.cpuAt (rstart + (k : Int))) =
      st.core.cpusIn rstart rend :=
    congrArg (fun v => v.core.cpusIn rstart rend) noted
  rw [cpus]
  refine Acts.last (modifyProg_acts (g := fun p => { p with cpuset := st.core.cpusIn rstart rend })
    fun _ => rfl) fun _ st₂ stored => ?_
  rw [stored, noted]
  rfl

theorem doExecute_executes (prog : ProgPtr) :
    wp (doExecute prog) (fun _ st' => ∃ shellPid pid, view st' = (view st).modCore fun core =>
      (core.modProg prog fun p =>
        { p with shellPid := shellPid, freezer := .frozen, pid := pid }).setCpuset prog 0
          core.cpus.length)
      Astray st := by
  unfold doExecute
  refine (readEnv_quiet _).before fun shellPid st₁ same₁ => ?_
  refine Acts.before (modifyProg_acts (g := fun p => { p with shellPid := shellPid }) fun _ => rfl)
    fun _ st₂ forked => ?_
  refine Acts.before (modifyProg_acts (g := fun p => { p with freezer := .frozen }) fun _ => rfl)
    fun _ st₃ frozen => (readEnv_quiet _).before fun pid st₄ same₄ => ?_
  refine Acts.before (modifyProg_acts (g := fun p => { p with pid := pid }) fun _ => rfl)
    fun _ st₅ known => Wp.bind_ok rfl ?_
  refine (scheduleSetcpurange_acts prog _ _).last fun _ st₆ set => ⟨shellPid, pid, ?_⟩
  have cpus : st₅.cpus = st.core.cpus := by
    have here : view st₅ = _ := known
    rw [same₄, id_eq, frozen, forked, same₁] at here
    exact congrArg (fun v => v.core.cpus) here
  rw [set, known, same₄, id_eq, frozen, forked, same₁, cpus]
  simp only [View.modCore, Core.modProg, Function.update_self, Function.update_idem, id_eq]
  rfl

/-- The state in which the event for the start of a program has been allocated. -/
def ExecState.startQueued (st : ExecState) (prog : ProgPtr) : ExecState :=
  { st with
    events := Function.update st.events st.eventsAllocated
      ⟨.newprog, ⟨(st.progs prog).startTime, 0⟩, prog⟩
    eventsAllocated := st.eventsAllocated + 1 }

/-- The state after a start was put into the heap. -/
structure Launched (v : View) (xs : List EvntPtr) (prog : ProgPtr) (w : View) (ys : List EvntPtr) :
    Prop where
  links : w.links = v.links
  events : ∃ tv, w.events = Function.update v.events v.eventsAllocated ⟨.newprog, tv, prog⟩
  eventsAllocated : w.eventsAllocated = v.eventsAllocated + 1
  valid : w.eventsHeap.Valid (affEventLeqUl w.events) ys
  perm : ys.Perm (v.eventsAllocated :: xs)
  core : ∃ shellPid pid, w.core = v.core.launch prog shellPid pid

theorem launch_spec (prog : ProgPtr) (valid : st.eventsHeap.Valid (affEventLeqUl st.events) xs)
    (allocated : ∀ evnt ∈ xs, evnt < st.eventsAllocated) :
    wp (launch prog) (fun _ st' => ∃ ys, Launched (view st) xs prog (view st') ys) Astray st := by
  refine Wp.bind (doExecute_executes prog) fun _ st₁ executes => ?_
  obtain ⟨shellPid, pid, executed⟩ := executes
  refine Wp.bind_ok (readProg_run prog st₁) (Wp.bind_ok rfl ?_)
  have heap : st₁.eventsHeap = st.eventsHeap := congrArg View.eventsHeap executed
  have events : st₁.events = st.events := congrArg View.events executed
  have number : st₁.eventsAllocated = st.eventsAllocated := congrArg View.eventsAllocated executed
  have kept : st.eventsHeap.Valid (affEventLeqUl (Function.update st.events st.eventsAllocated
      ⟨.newprog, ⟨(st₁.progs prog).startTime, 0⟩, prog⟩)) xs :=
    valid.congr fun evnt member => Function.update_of_ne (allocated evnt member).ne _ _
  rw [← events, ← number, ← heap] at kept
  refine Wp.bind (R := fun _ st₂ => ∃ heap ys,
    heap.Valid (affEventLeqUl (st₁.startQueued prog).events) ys ∧
    ys.Perm (st₁.eventsAllocated :: xs) ∧ st₂ = { st₁.startQueued prog with eventsHeap := heap })
    (eventsHeapPush_spec _ kept fun heap' ys valid' perm =>
      ⟨heap', ys, valid', perm, rfl⟩) fun _ st₂ pushes => ?_
  obtain ⟨heap', ys, valid', perm, pushed⟩ := pushes
  subst pushed
  have links : st₁.links = st.links := congrArg View.links executed
  have core := congrArg View.core executed
  have queued : (st₁.startQueued prog).events = Function.update st.events st.eventsAllocated
      ⟨.newprog, ⟨(st₁.progs prog).startTime, 0⟩, prog⟩ := by
    simp only [ExecState.startQueued, events, number]
  refine Wp.modify ⟨ys, links, ⟨⟨(st₁.progs prog).startTime, 0⟩, queued⟩, ?_, valid', ?_,
    shellPid, pid, ?_⟩
  · exact congrArg (· + 1) number
  · rw [number] at perm
    exact perm
  · exact congrArg (fun core : Core => { core with waitingNr := core.waitingNr + 1 }) core

/-- A program is allocated. -/
def Core.alloc (born : ProgCore) (core : Core) : Core :=
  { core with
    progs := Function.update core.progs core.progsAllocated born
    progsAllocated := core.progsAllocated + 1 }

theorem getNow_quiet : Acts view getNow id :=
  (readEnv_quiet _).skip fun _ => Acts.get.skip fun _ => Acts.pure _

theorem affProgAlloc_allocates (id : Int) :
    wp (affProgAlloc id) (fun new st' => new = st.progsAllocated ∧ ∃ fresh : ProgCore,
      view st' = (view st).modCore (Core.alloc { fresh with id := id, cpuset := [] }))
        Astray st := by
  refine (readEnv_quiet _).before fun fresh st₁ same => Wp.bind_ok rfl (Wp.bind_ok rfl (Wp.pure ?_))
  have number : st₁.progsAllocated = st.progsAllocated :=
    congrArg (fun v => v.core.progsAllocated) same
  refine ⟨number, fresh.core, ?_⟩
  rw [← show view st₁ = view st from same]
  simp only [view, View.modCore, Core.alloc, ExecState.core, View.mk.injEq, Core.mk.injEq,
    true_and, and_true]
  funext other
  by_cases equal : other = st₁.progsAllocated
  · subst equal
    simp [AffProg.core]
  · simp [equal]

/-- The heap holds the start of one more program. -/
theorem Queue.insert {v w : View} {ys : List EvntPtr} {place : ProgPtr → Place}
    (queue : Queue v xs place) (launched : Launched v xs prog w ys)
    (fresh : place prog ≠ .waiting) :
    Queue w ys (Function.update place prog .waiting) := by
  obtain ⟨tv, events⟩ := launched.events
  have known : ∀ evnt < v.eventsAllocated, w.events evnt = v.events evnt := fun evnt inside => by
    rw [events, Function.update_of_ne inside.ne]
  have new : w.events v.eventsAllocated = ⟨.newprog, tv, prog⟩ := by
    rw [events, Function.update_self]
  have mem : ∀ evnt, evnt ∈ ys ↔ evnt = v.eventsAllocated ∨ evnt ∈ xs := fun evnt => by
    rw [launched.perm.mem_iff, List.mem_cons]
  have nonzero : v.eventsAllocated ≠ 0 := queue.some.ne'
  have others : ∀ evnt ∈ xs, evnt ≠ 0 →
      (v.events evnt).prog ≠ prog := fun evnt member differs same =>
    fresh ((queue.waits prog).mpr ⟨evnt, member, differs, same⟩)
  constructor
  case valid => exact launched.valid
  case nodup =>
    refine launched.perm.nodup_iff.mpr (List.nodup_cons.mpr ⟨fun there => ?_, queue.nodup⟩)
    exact (queue.allocated _ there).ne rfl
  case allocated =>
    intro evnt member
    rw [launched.eventsAllocated]
    rcases (mem evnt).mp member with rfl | member
    · exact Nat.lt_succ_self _
    · exact (queue.allocated evnt member).trans (Nat.lt_succ_self _)
  case some =>
    rw [launched.eventsAllocated]
    exact Nat.succ_pos _
  case quantum => rw [known 0 queue.some, queue.quantum]
  case newprog =>
    intro evnt member differs
    rcases (mem evnt).mp member with rfl | member
    · rw [new]
    · rw [known evnt (queue.allocated evnt member), queue.newprog evnt member differs]
  case waits =>
    intro p
    by_cases equal : p = prog
    · subst equal
      rw [Function.update_self]
      exact ⟨fun _ => ⟨_, (mem _).mpr (.inl rfl), nonzero, by rw [new]⟩, fun _ => rfl⟩
    · rw [Function.update_of_ne equal, queue.waits p]
      constructor
      · rintro ⟨evnt, member, differs, same⟩
        exact ⟨evnt, (mem evnt).mpr (.inr member), differs, by
          rw [known evnt (queue.allocated evnt member), same]⟩
      · rintro ⟨evnt, member, differs, same⟩
        rcases (mem evnt).mp member with rfl | member
        · rw [new] at same
          exact absurd same.symm equal
        · rw [known evnt (queue.allocated evnt member)] at same
          exact ⟨evnt, member, differs, same⟩
  case once =>
    intro evnt member other otherMember differs otherDiffers same
    rcases (mem evnt).mp member with rfl | member
    · rcases (mem other).mp otherMember with rfl | otherMember
      · rfl
      · rw [new, known other (queue.allocated other otherMember)] at same
        exact absurd same.symm (others other otherMember otherDiffers)
    · rcases (mem other).mp otherMember with rfl | otherMember
      · rw [new, known evnt (queue.allocated evnt member)] at same
        exact absurd same (others evnt member differs)
      · rw [known evnt (queue.allocated evnt member),
          known other (queue.allocated other otherMember)] at same
        exact queue.once evnt member other otherMember differs otherDiffers same

/-- The `aff_prog` of the next instance of a program. -/
def ProgCore.next (fresh : ProgCore) (id : Int) (core : Core) (old : ProgPtr) (shellPid pid : Nat) :
    ProgCore :=
  { fresh with
    id := id
    cpuset := core.cpusIn 0 core.cpus.length
    freezer := .frozen
    shellPid := shellPid
    pid := pid
    coresNeeded := (core.progs old).coresNeeded
    instrRetdSum := (core.progs old).instrRetdSum }

theorem Core.launch_bears (core : Core) (fresh : ProgCore) (id : Int) (old : ProgPtr)
    (shellPid pid : Nat) : ((((core.alloc { fresh with id := id, cpuset := [] }).modProg
        core.progsAllocated fun p =>
          { p with
            pid := 0
            coresNeeded := (core.progs old).coresNeeded
            instrRetdSum := (core.progs old).instrRetdSum }).note
        (.respawned old core.progsAllocated)).launch core.progsAllocated shellPid pid) =
      core.bear old (ProgCore.next fresh id core old shellPid pid) := by
  simp only [launch, setCpuset, modProg, note, alloc, bear, ProgCore.next, Function.update_idem,
    Function.update_self, List.append_assoc, List.cons_append, List.nil_append]
  rfl

/-- `prog_respawn` copies the fields of a program to its next instance and starts that. -/
theorem progRespawn_starts (prog : ProgPtr) (id : Int) (old : prog < st.progsAllocated)
    (valid : st.eventsHeap.Valid (affEventLeqUl st.events) xs)
    (allocated : ∀ evnt ∈ xs, evnt < st.eventsAllocated) :
    wp (progRespawn prog id) (fun _ st' => ∃ ys v, v.links = st.links ∧
      v.eventsHeap = st.eventsHeap ∧ v.events = st.events ∧ v.eventsAllocated = st.eventsAllocated ∧
      Launched v xs st.progsAllocated (view st') ys ∧
      ∃ fresh shellPid pid, st'.core =
        st.core.bear prog (ProgCore.next fresh id st.core prog shellPid pid)) Astray st := by
  refine getNow_quiet.before fun now st₁ same₁ => ?_
  refine Wp.bind (affProgAlloc_allocates _) fun new st₂ allocates => ?_
  obtain ⟨rfl, fresh, alloc⟩ := allocates
  have number : st₁.progsAllocated = st.progsAllocated :=
    congrArg (fun v => v.core.progsAllocated) same₁
  rw [number]
  refine Wp.bind_ok (readProg_run prog st₂) ?_
  have core₂ : st₂.core = st.core.alloc { fresh with id := id, cpuset := [] } := by
    have core := congrArg View.core alloc
    rw [same₁] at core
    exact core
  have same : (st₂.progs prog).core = st.core.progs prog := by
    have progs := congrArg (fun core => core.progs prog) core₂
    have old : prog ≠ st.core.progsAllocated := old.ne
    exact progs.trans (Function.update_of_ne old _ _)
  refine Acts.before (modifyProg_acts (g := fun p =>
    { p with
      pid := 0
      coresNeeded := (st.core.progs prog).coresNeeded
      instrRetdSum := (st.core.progs prog).instrRetdSum }) fun p => ?_) fun _ st₃ copied => ?_
  · rw [← same]
    rfl
  refine (emit_acts _).before fun _ st₄ noted => ?_
  have view₄ : view st₄ = (((view st).modCore fun core => ((core.alloc
      { fresh with id := id, cpuset := [] }).modProg
        st.progsAllocated fun p =>
          { p with
            pid := 0
            coresNeeded := (st.core.progs prog).coresNeeded
            instrRetdSum := (st.core.progs prog).instrRetdSum }).note
      (.respawned prog st.progsAllocated))) := by
    rw [noted, copied, alloc, same₁]
    rfl
  have heap : st₄.eventsHeap = st.eventsHeap := congrArg View.eventsHeap view₄
  have events : st₄.events = st.events := congrArg View.events view₄
  have evnts : st₄.eventsAllocated = st.eventsAllocated := congrArg View.eventsAllocated view₄
  have links : st₄.links = st.links := congrArg View.links view₄
  have valid₄ : st₄.eventsHeap.Valid (affEventLeqUl st₄.events) xs := by
    rw [heap, events]
    exact valid
  refine Wp.imp (launch_spec st.progsAllocated valid₄ (evnts ▸ allocated)) fun _ st₅ launches => ?_
  obtain ⟨ys, launched⟩ := launches
  refine ⟨ys, view st₄, links, heap, events, evnts, launched, fresh, ?_⟩
  obtain ⟨shellPid, pid, core⟩ := launched.core
  refine ⟨shellPid, pid, core.trans ?_⟩
  rw [view₄]
  exact Core.launch_bears st.core fresh id prog shellPid pid

theorem Tracks.progRespawn_spec (tracks : Tracks exits start st xs a)
    (here : a.place prog = .reported)
    (carried : (a.core.progs prog).instrRetdSum = (a.core.pds prog).instrRetdSum)
    (running : a.core.sched.stopExecution = false) :
    wp (progRespawn prog (a.core.sched.progsInit + (a.core.progs prog).id)) (fun _ st' => ∃ b ys,
      Tracks exits start st' ys b ∧ b.on = a.on ∧ b.phase = a.phase ∧ b.place =
        Function.update (Function.update a.place prog .spent) a.core.progsAllocated .waiting ∧
      b.core.sched = a.core.sched ∧ b.core.log = a.core.log ++
        [.respawned prog a.core.progsAllocated,
        .setCpuRange a.core.progsAllocated 0 a.core.cpus.length]) Astray st := by
  have old : prog < a.core.progsAllocated := tracks.sound.allocated (by simp [here])
  have number : st.progsAllocated = a.core.progsAllocated := tracks.progsAllocated
  have queue := tracks.models.queue
  have spec := progRespawn_starts prog (a.core.sched.progsInit + (a.core.progs prog).id)
    (number ▸ old)
    queue.valid queue.allocated
  rw [tracks.core] at spec
  refine Wp.imp spec fun _ st' respawns => ?_
  obtain ⟨ys, v, links, heap, events, evnts, launched, fresh, shellPid, pid, core⟩ := respawns
  have next : (ProgCore.next fresh (a.core.sched.progsInit + (a.core.progs prog).id) a.core prog
      shellPid pid).Next
      a.core prog := ⟨rfl, rfl, rfl, rfl, rfl⟩
  refine ⟨_, ys,
    ⟨tracks.steps.tail (.respawn here carried running next), tracks.sound.respawn here, ?_⟩,
    rfl, rfl, rfl, rfl, rfl⟩
  rw [number] at launched
  obtain ⟨idle, rings, killed⟩ := tracks.models.rings
  have unborn : a.place a.core.progsAllocated = .unborn := (tracks.sound.unborn _).mpr le_rfl
  refine ⟨core, ⟨idle, ?_, fun p there => killed p ?_⟩, ?_⟩
  · rw [launched.links, links]
    exact rings.grow (Nat.le_succ _)
  · by_cases new : p = a.core.progsAllocated
    · simp [new] at there
    · by_cases equal : p = prog
      · simp [equal, old.ne] at there
      · simpa [new, equal] using there
  · have waiting : Queue v xs (Function.update a.place prog .spent) :=
      (queue.update (by simp [here]) (by decide)).view heap events evnts
    refine waiting.insert launched ?_
    rw [Function.update_of_ne old.ne', unborn]
    decide

end BachScheduler
