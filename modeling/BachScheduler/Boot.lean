import BachScheduler.Handlers

/-!
# The start of the life of the programs

`main` reads the configuration file and starts the scheduler.  When it enters its loop the
programs of the file wait for their start and no list holds a program.  Every state that
the loop reaches shows a life that came about from there.
-/

namespace BachScheduler

open BachScheduler.Ring BinHeap Census Wp

variable {exits : ProgPtr → Place → Prop} {name : PolicyName} {start a b : Life}
    {st st' : ExecState}
variable {xs : List EvntPtr} {confs : List ProgConf} {env : Env} {cpus : List Int}
    {targets : Int → Word64}

/-- What is known of a program when the line `conf` of the file has been executed. -/
structure ProgCore.Configured (born : ProgCore) (prog : ProgPtr) (conf : ProgConf) : Prop where
  id : born.id = 1000 + prog
  coresNeeded : born.coresNeeded = conf.coresNeeded
  instrRetdSum : born.instrRetdSum = 0
  freezer : born.freezer = .frozen

/-- The place of a program before the loop: the first `n` programs wait. -/
def Place.atStart (n : Nat) (prog : ProgPtr) : Place :=
  if prog < n then .waiting else .unborn

/-- The events that are noted before the loop. -/
def Event.early : Event → Bool
  | .setCpuRange .. => true
  | _ => false

/-- The core, when some lines of the file have been executed. -/
structure Core.Parsed (cpus : List Int) (confs : List ProgConf) (core : Core) : Prop where
  progsAllocated : core.progsAllocated = confs.length
  waitingNr : core.waitingNr = confs.length
  newNr : core.newNr = 0
  runningNr : core.runningNr = 0
  finishedNr : core.finishedNr = 0
  massacre : core.massacre = false
  cpus : core.cpus = cpus
  progPidHash : core.progPidHash = hashInit maxProgs
  clocks : core.clocks = []
  configured : ∀ prog conf, confs[prog]? = some conf → (core.progs prog).Configured prog conf
  early : ∀ event ∈ core.log, event.early = true

/-- The state, when some lines of the file have been executed. -/
structure ExecState.Parsed (cpus : List Int) (confs : List ProgConf) (st : ExecState)
    (xs : List EvntPtr) : Prop where
  core : st.core.Parsed cpus confs
  queue : Queue (view st) xs (Place.atStart confs.length)
  outside : 0 ∉ xs
  news : IsRing st.links .pnewL []
  finished : IsRing st.links .pfinishedL []

section Parse

theorem Core.launch_progs (core : Core) (prog : ProgPtr) (shellPid pid : Nat) :
    (core.launch prog shellPid pid).progs = Function.update core.progs prog
      { core.progs prog with
        shellPid := shellPid
        freezer := .frozen
        pid := pid
        cpuset := core.cpusIn 0 core.cpus.length } := by
  simp only [launch, setCpuset, note, modProg, Function.update_idem, Function.update_self]
  rfl

/-- What a line of the file does to the core. -/
def Core.parse (conf : ProgConf) (fresh : ProgCore) (id : Int) (shellPid pid : Nat) (core : Core) :
    Core :=
  ((core.alloc { fresh with id := id, cpuset := [] }).modProg core.progsAllocated fun p =>
    { p with pid := 0, instrRetdSum := 0, coresNeeded := conf.coresNeeded }).launch
      core.progsAllocated
      shellPid pid

theorem Core.Parsed.parse {core : Core} (parsed : core.Parsed cpus confs) (conf : ProgConf)
    (fresh : ProgCore) (shellPid pid : Nat) :
    (core.parse conf fresh (1000 + confs.length) shellPid pid).Parsed cpus (confs ++ [conf]) where
  progsAllocated := by
    have before := parsed.progsAllocated
    simp [Core.parse, Core.launch, Core.setCpuset, Core.note, Core.modProg, Core.alloc, before]
  waitingNr := by
    have before := parsed.waitingNr
    simp [Core.parse, Core.launch, Core.setCpuset, Core.note, Core.modProg, Core.alloc, before]
  newNr := parsed.newNr
  runningNr := parsed.runningNr
  finishedNr := parsed.finishedNr
  massacre := parsed.massacre
  cpus := parsed.cpus
  progPidHash := parsed.progPidHash
  clocks := parsed.clocks
  configured := by
    intro prog other line
    rw [Core.parse, Core.launch_progs]
    by_cases new : prog = confs.length
    · subst new
      rw [List.getElem?_concat_length] at line
      cases line
      rw [← parsed.progsAllocated, Function.update_self]
      simp only [Core.modProg, Core.alloc, Function.update_self]
      exact ⟨by rw [parsed.progsAllocated], rfl, rfl, rfl⟩
    · have bound : prog < confs.length + 1 := by
        simpa using (List.getElem?_eq_some_iff.mp line).1
      have inside : prog < confs.length := (Nat.lt_succ_iff_lt_or_eq.mp bound).resolve_right new
      have old : confs[prog]? = some other := by
        rwa [List.getElem?_append_left inside] at line
      have differs : prog ≠ core.progsAllocated := parsed.progsAllocated ▸ new
      rw [Function.update_of_ne differs]
      simp only [Core.modProg, Core.alloc, Function.update_of_ne differs]
      exact parsed.configured prog other old
  early := by
    intro event noted
    have cases : event ∈ core.log ∨
        event = .setCpuRange core.progsAllocated 0 core.cpus.length := by
      simpa [Core.parse, Core.launch, Core.setCpuset, Core.note, Core.modProg,
        Core.alloc] using noted
    rcases cases with before | rfl
    · exact parsed.early event before
    · rfl

theorem ExecState.Parsed.parseFileLine_spec (parsed : st.Parsed cpus confs xs) (conf : ProgConf) :
    wp (parseFileLine (conf, confs.length))
      (fun _ st' => ∃ ys, st'.Parsed cpus (confs ++ [conf]) ys)
      Astray st := by
  refine Wp.bind (affProgAlloc_allocates _) fun new st₁ allocates => ?_
  obtain ⟨rfl, fresh, allocated⟩ := allocates
  refine Acts.before (modifyProg_acts (g := fun p =>
    { p with pid := 0, instrRetdSum := 0, coresNeeded := conf.coresNeeded }) fun _ => rfl)
      fun _ st₂ parses => ?_
  have heap : st₂.eventsHeap = st.eventsHeap := by
    exact (congrArg View.eventsHeap parses).trans (congrArg View.eventsHeap allocated)
  have events : st₂.events = st.events :=
    (congrArg View.events parses).trans (congrArg View.events allocated)
  have number : st₂.eventsAllocated = st.eventsAllocated :=
    (congrArg View.eventsAllocated parses).trans (congrArg View.eventsAllocated allocated)
  have links : st₂.links = st.links :=
    (congrArg View.links parses).trans (congrArg View.links allocated)
  have queue : Queue (view st₂) xs (Place.atStart confs.length) :=
    parsed.queue.view heap events number
  refine Wp.imp (launch_spec st.progsAllocated queue.valid queue.allocated) fun _ st₃ launches => ?_
  obtain ⟨ys, launched⟩ := launches
  have known : st.progsAllocated = confs.length := parsed.core.progsAllocated
  have links₃ : st₃.links = st.links := launched.links.trans links
  refine ⟨ys, ?_, ?_, ?_, links₃ ▸ parsed.news, links₃ ▸ parsed.finished⟩
  · obtain ⟨shellPid, pid, core⟩ := launched.core
    have parse : st₃.core = st.core.parse conf fresh (1000 + confs.length) shellPid pid := by
      rw [show st₃.core = (view st₃).core from rfl, core, parses, allocated]
      rfl
    rw [parse]
    exact parsed.core.parse conf fresh shellPid pid
  · have inserted := queue.insert launched (by simp [Place.atStart, known])
    refine inserted.congr fun p => ?_
    rw [known]
    by_cases new : p = confs.length
    · subst new
      simp [Place.atStart]
    · rw [Function.update_of_ne new]
      have same : p < (confs ++ [conf]).length ↔ p < confs.length := by
        rw [List.length_append, List.length_singleton, Nat.lt_succ_iff_lt_or_eq]
        exact or_iff_left new
      simp only [Place.atStart, same]
  · intro there
    rcases List.mem_cons.mp (launched.perm.subset there) with first | there
    · exact absurd first.symm queue.some.ne'
    · exact parsed.outside there

theorem ExecState.Parsed.parseFile_spec (rest : List ProgConf) (parsed : st.Parsed cpus confs xs) :
    wp ((rest.zipIdx confs.length).forM parseFileLine)
      (fun _ st' => ∃ ys, st'.Parsed cpus (confs ++ rest) ys)
      Astray st := by
  induction rest generalizing confs st xs with
  | nil => exact Wp.pure ⟨xs, by simpa using parsed⟩
  | cons conf rest ih =>
      refine Wp.bind (parsed.parseFileLine_spec conf) fun _ st₁ parses => ?_
      obtain ⟨ys, parsed₁⟩ := parses
      have later := ih parsed₁
      simpa using later

end Parse

section Start

/-- The life of the programs when `main` enters its loop. -/
structure Life.Boots (cpus : List Int) (confs : List ProgConf) (targets : Int → Word64) (a : Life) :
    Prop where
  place : a.place = Place.atStart confs.length
  on : a.on = fun _ => []
  phase : a.phase = .running
  parsed : a.core.Parsed cpus confs
  totalTics : a.core.sched.totalTics = -1
  monitorWnd : a.core.sched.monitorWnd = 0
  progsNr : a.core.sched.progsNr = 0
  progsInit : a.core.sched.progsInit = confs.length
  progsLeft : a.core.sched.progsLeft = confs.length
  progsFnsh : a.core.sched.progsFnsh = 0
  stopExecution : a.core.sched.stopExecution = false
  targetInstr : a.core.sched.targetInstr = targets
  totalInstr : a.core.sched.totalInstr = fun _ => 0
  progTimesFinished : a.core.sched.progTimesFinished = fun _ => 0
  instrProgs : a.core.sched.instrProgs = fun _ => 0
  printed : a.core.sched.printed = fun _ => false

theorem tally_atStart (c : Counter) (n : Nat) :
    tally c.weight n (Place.atStart n) = n * c.weight .waiting := by
  have waits : ∀ p ∈ Finset.range n, c.weight (Place.atStart n p) = c.weight .waiting :=
    fun p member => by
    rw [Place.atStart, if_pos (Finset.mem_range.mp member)]
  rw [tally, Finset.sum_congr rfl waits, Finset.sum_const, Finset.card_range, nsmul_eq_mul]

theorem Life.Boots.sound (boots : a.Boots cpus confs targets) : a.Sound := by
  have places : ∀ p, a.place p = .waiting ∨ a.place p = .unborn := fun p => by
    rw [boots.place, Place.atStart]
    split
    · exact .inl rfl
    · exact .inr rfl
  constructor
  case unborn =>
    intro p
    rw [boots.place, boots.parsed.progsAllocated, Place.atStart]
    split
    · next inside => simpa using Nat.not_le.mpr inside
    · next outside => simpa using Nat.not_lt.mp outside
  case listed =>
    constructor
    · intro head _ p
      rw [boots.on]
      rcases places p with here | here <;> simp [here, Place.home]
    · intro head _
      rw [boots.on]
      exact List.nodup_nil
  case spared =>
    intro p spared
    rcases places p with here | here <;> simp [here, Place.spared] at spared
  case dead =>
    intro p dead
    rcases places p with here | here <;> simp [here, Place.dead] at dead
  case hashed =>
    intro pid p found
    rw [boots.parsed.progPidHash, hashLookup_init] at found
    exact absurd found (by simp)
  case counter =>
    intro c
    rw [boots.parsed.progsAllocated, boots.place, tally_atStart]
    cases c with
    | waitingNr => simpa [Core.counter, Counter.weight] using boots.parsed.waitingNr
    | newNr => simpa [Core.counter, Counter.weight] using boots.parsed.newNr
    | runningNr => simpa [Core.counter, Counter.weight] using boots.parsed.runningNr
    | finishedNr => simpa [Core.counter, Counter.weight] using boots.parsed.finishedNr
    | progsNr => simpa [Core.counter, Counter.weight] using boots.progsNr
    | progsFnsh => simpa [Core.counter, Counter.weight] using boots.progsFnsh
    | progsLeft => simpa [Core.counter, Counter.weight] using boots.progsLeft
  case stopped =>
    intro stopped
    rw [boots.stopExecution] at stopped
    exact absurd stopped (by decide)
  case closed =>
    intro closed
    exact absurd (boots.parsed.early _ closed) (by decide)
  case clocked =>
    constructor
    · intro p ticks
      rcases places p with here | here <;> exact absurd (here ▸ ticks) (by decide)
    · intro p here
      rcases places p with other | other <;> exact absurd (here.symm.trans other) (by decide)
    · intro _ p here
      rcases places p with other | other <;> exact absurd (here.symm.trans other) (by decide)
  case charged =>
    have none : charges a.core.log = [] := by
      refine List.filterMap_eq_nil_iff.mpr fun event noted => ?_
      have early := boots.parsed.early event noted
      cases event with
      | charged => exact absurd early Bool.false_ne_true
      | _ => rfl
    constructor
    case zeroed =>
      intro p here
      rcases places p with other | other <;> exact absurd (here.symm.trans other) (by decide)
    case sampled =>
      intro _ p here
      rcases places p with other | other <;> exact absurd (here.symm.trans other) (by decide)
    case batches => exact fun _ _ _ noted => absurd noted (by simp [none])
    case enrolled => exact fun _ noted => absurd noted (by simp [none])
    case due => exact fun _ _ _ _ noted => absurd noted (by simp [none])

/-- The life that a state shows before the loop. -/
def ExecState.firstLife (st : ExecState) (n : Nat) : Life where
  place := Place.atStart n
  on := fun _ => []
  core := st.core
  phase := .running

/-- The scheduler, when `init` is done. -/
def Core.initSched (env : Env) (targets : Int → Word64) (core : Core) : Core :=
  { core with
    sched := { (Sched.start env core.waitingNr targets).core with epoch := 1 } }

/-- A list that is empty stays so when another head is initialized. -/
theorem empty_initOther {links : Links Node} {head other : Node} (ring : IsRing links head [])
    (differs : head ≠ other) : IsRing (cdsInitListHead other links) head [] := by
  refine ring.congr fun x place => ?_
  rw [List.mem_singleton.mp place]
  exact cdsInitListHead_other differs

theorem init_rings {links : Links Node} (n : Nat) (news : IsRing links .pnewL [])
    (finished : IsRing links .pfinishedL []) :
    PlRings lifeHeads n (cdsInitListHead .progsSch (cdsInitListHead .progsAll links))
      (fun _ => []) [] := by
  refine .empty (fun head member => ?_) fun head member p equal => ?_
  · have cases : head = .progsAll ∨ head = .progsSch ∨ head = .pnewL ∨ head = .pfinishedL := by
      simpa [lifeHeads] using member
    rcases cases with rfl | rfl | rfl | rfl
    · exact empty_initOther cdsInitListHead_ring (by decide)
    · exact cdsInitListHead_ring
    · exact empty_initOther (empty_initOther news (by decide)) (by decide)
    · exact empty_initOther (empty_initOther finished (by decide)) (by decide)
  · subst equal
    simp [lifeHeads] at member

/-- The view of the state when `init` has put its structure in place. -/
def View.initSched (env : Env) (targets : Int → Word64) (v : View) : View :=
  { v with
    links := cdsInitListHead .progsSch (cdsInitListHead .progsAll v.links)
    core := v.core.initSched env targets }

theorem schedInitCountersOutput_quiet : Acts view schedInitCountersOutput id :=
  writeResults_quiet.skip fun _ => useCntrs_quiet.skip fun _ => writeResults_quiet

/-- The life that a parsed file leads to. -/
theorem Core.Parsed.boots {core : Core} (parsed : core.Parsed cpus confs)
    (same : st.core = core.initSched env targets) :
    (st.firstLife confs.length).Boots cpus confs targets := by
  have waitingNr : core.waitingNr = confs.length := parsed.waitingNr
  constructor
  case place => rfl
  case on => rfl
  case phase => rfl
  case parsed =>
    rw [ExecState.firstLife, same]
    exact ⟨parsed.progsAllocated, parsed.waitingNr, parsed.newNr, parsed.runningNr,
      parsed.finishedNr,
      parsed.massacre, parsed.cpus, parsed.progPidHash, parsed.clocks,
        parsed.configured, parsed.early⟩
  all_goals
    simp only [ExecState.firstLife, same]
    first | rfl | exact waitingNr

theorem ExecState.Parsed.initPolicy_spec (parsed : st.Parsed cpus confs xs) :
    wp (initPolicy targets) (fun _ st' => ∃ ys, 0 ∈ ys ∧
      (st'.firstLife confs.length).Boots cpus confs targets ∧
      Models (view st') ys (st'.firstLife confs.length)) Astray st := by
  refine Wp.bind_ok rfl (Wp.bind_ok rfl (Wp.bind_ok rfl ?_))
  refine useCntrs_quiet.before fun _ st₁ same₁ => startMCCounters_quiet.before fun _ st₂ same₂ => ?_
  refine useCntrs_quiet.before fun _ st₃ same₃ => ssAffZeroCntrs_acts.before fun _ st₄ zeroed => ?_
  refine schedInitCountersOutput_quiet.before fun _ st₅ same₅ => ?_
  have begun : view st₅ = (view st).initSched st.env targets := by
    rw [same₅, id_eq, zeroed, same₃, id_eq, same₂, id_eq, same₁, id_eq]
    rfl
  have heap : st₅.eventsHeap = st.eventsHeap := congrArg View.eventsHeap begun
  have events : st₅.events = st.events := congrArg View.events begun
  have number : st₅.eventsAllocated = st.eventsAllocated := congrArg View.eventsAllocated begun
  have links : st₅.links = cdsInitListHead .progsSch (cdsInitListHead .progsAll st.links) :=
    congrArg View.links begun
  have queue : Queue (view st₅) xs (Place.atStart confs.length) :=
    parsed.queue.view heap events number
  refine Wp.bind_ok rfl ?_
  have valid : st₅.eventsHeap.Valid (affEventLeqUl (Function.update st₅.events 0
      { st₅.events 0 with tv := st₅.qt })) xs :=
    queue.valid.congr fun evnt member =>
      Function.update_of_ne (fun equal : evnt = 0 => parsed.outside (equal ▸ member)) _ _
  refine Wp.bind (R := fun _ st₆ => ∃ heap ys, heap.Valid (affEventLeqUl st₆.events) ys ∧
    ys.Perm (0 :: xs) ∧
      st₆ = { st₅ with
        events := Function.update st₅.events 0 { st₅.events 0 with tv := st₅.qt }
        eventsHeap := heap })
    (eventsHeapPush_spec _ valid fun heap ys valid perm => ⟨heap, ys, valid, perm, rfl⟩)
    fun _ st₆ pushes => ?_
  obtain ⟨heap₆, ys, valid₆, perm, rfl⟩ := pushes
  refine (readEnv_quiet _).before fun tms st₇ same₇ => ?_
  refine Acts.last (modifySched_quiet fun _ => rfl) fun _ st₈ same₈ => ?_
  have shown : view st₈ = { view st₅ with
      events := Function.update st₅.events 0 { st₅.events 0 with tv := st₅.qt }
      eventsHeap := heap₆ } := by
    rw [same₈, id_eq, same₇]
    rfl
  have core : st₈.core = st.core.initSched st.env targets := by
    rw [show st₈.core = (view st₈).core from rfl, shown, begun]
    rfl
  have links₈ : st₈.links = cdsInitListHead .progsSch (cdsInitListHead .progsAll st.links) :=
    (congrArg View.links shown).trans links
  have events₈ : st₈.events = Function.update st₅.events 0 { st₅.events 0 with tv := st₅.qt } :=
    congrArg View.events shown
  refine ⟨ys, perm.symm.subset List.mem_cons_self, parsed.core.boots core, rfl,
    ⟨[], ?_, fun p killed => ?_⟩, ?_⟩
  · change PlRings _ _ st₈.links _ _
    rw [links₈]
    exact init_rings _ parsed.news parsed.finished
  · change Place.atStart confs.length p = .killed at killed
    unfold Place.atStart at killed
    split at killed <;> simp at killed
  · refine queue.requeue parsed.outside (fun evnt differs => ?_) ?_ ?_ ?_ perm
    · exact (congrFun events₈ evnt).trans (Function.update_of_ne differs _ _)
    · change (st₈.events 0).type = _
      rw [events₈, Function.update_self]
      exact queue.quantum
    · rw [shown]
    · rw [shown]
      exact valid₆

theorem start_parsed (env : Env) (cpus : List Int) :
    ExecState.Parsed cpus []
      { ExecState.start env cpus with
        links := cdsInitListHead .pfinishedL (cdsInitListHead .pnewL env.freshLinks)
        progPidHash := hashInit maxProgs
        eventsHeap := heapInit } [] where
  core := by
    refine ⟨rfl, rfl, rfl, rfl, rfl, rfl, rfl, rfl, rfl, fun prog conf line => ?_,
      fun event noted => ?_⟩
    · exact absurd line (by simp)
    · exact absurd noted (by simp [ExecState.core, ExecState.start])
  queue := by
    constructor
    case valid => exact heapInit_valid _
    case nodup => exact List.nodup_nil
    case some => exact Nat.one_pos
    case quantum => rfl
    case waits =>
      intro p
      simp [Place.atStart]
    all_goals exact fun evnt there => absurd there (by simp)
  outside := by simp
  news := empty_initOther cdsInitListHead_ring (by decide)
  finished := cdsInitListHead_ring

theorem boot_spec (exits : ProgPtr → Place → Prop) (name : PolicyName) (confs : List ProgConf)
    (targets : Int → Word64) (env : Env) (cpus : List Int) :
    wp (boot confs targets)
      (fun _ st => ∃ a, a.Boots cpus confs targets ∧ Between exits name a st a) Astray
      (ExecState.start env cpus) := by
  refine Wp.bind (R := fun _ st => ∃ xs, st.Parsed cpus confs xs) ?_ fun _ st₁ parses => ?_
  · refine Wp.bind_ok rfl (Wp.bind_ok rfl (Wp.bind_ok rfl (Wp.bind_ok rfl ?_)))
    exact ExecState.Parsed.parseFile_spec confs (start_parsed env cpus)
  obtain ⟨xs, parsed⟩ := parses
  refine Wp.bind parsed.initPolicy_spec fun _ st₂ inits => ?_
  obtain ⟨ys, queued, boots, models⟩ := inits
  have peeked : heapPeek st₂.eventsHeap = some ys.head? := heapPeek_eq models.queue.valid
  refine Wp.bind_ok rfl ?_
  rw [peeked]
  cases queue : ys with
  | nil => simp [queue] at queued
  | cons evnt rest =>
      refine Wp.bind_ok
        rfl ((readEnv_quiet _).before fun tv0 st₃ same => Wp.modify ⟨_, boots, ys, ?_⟩)
      refine ⟨⟨⟨.refl, boots.sound, ?_⟩, .refl, boots.phase⟩, fun p => ?_⟩
      · have shown : view { st₃ with tv0 := tv0 } = view st₂ := same
        rw [shown]
        exact models
      · rw [boots.place, Place.atStart]
        split <;> rfl

end Start

section Runs

theorem Between.forM_spec (inputs : List Input) (between : Between exits name start st a)
    (hears : ∀ before input after mid b, inputs = before ++ input :: after →
      before.forM (handle name.policy) st = .ok () mid → Between exits name start mid b →
        b.Hears exits input) :
    wp (inputs.forM (handle name.policy)) (fun _ st' => ∃ b, Between exits name start st' b)
      (Ends exits name start) st := by
  induction inputs generalizing st a with
  | nil => exact Wp.pure ⟨a, between⟩
  | cons input later ih =>
      have first := between.handle_spec input (hears [] input later st a rfl rfl between)
      refine Wp.bind (Wp.returned first) fun _ st₁ handled => ?_
      obtain ⟨run, b, between₁⟩ := handled
      refine ih between₁ fun before other after mid c split ran => ?_
      refine hears (input :: before) other after mid c (by rw [split]; rfl) ?_
      change (handle name.policy input >>= fun _ => before.forM (handle name.policy)) st = _
      simp only [Bind.bind, EStateM.bind, run]
      exact ran

/-- The inputs of a run are heard of, each in the state in which it comes. -/
def Heard (exits : ProgPtr → Place → Prop) (name : PolicyName) (confs : List ProgConf)
    (targets : Int → Word64) (env : Env) (cpus : List Int) (inputs : List Input) : Prop :=
  ∀ before input after mid, inputs = before ++ input :: after →
    runExecutor name.policy confs targets before (ExecState.start env cpus) = .ok () mid →
    ∀ a b, a.Boots cpus confs targets → Between exits name a mid b → b.Hears exits input

theorem runExecutor_spec (inputs : List Input)
    (heard : Heard exits name confs targets env cpus inputs) :
    wp (runExecutor name.policy confs targets inputs)
      (fun _ st => ∃ a b, a.Boots cpus confs targets ∧ Between exits name a st b)
      (fun stop st => Astray stop st ∨ ∃ a, a.Boots cpus confs targets ∧ Ends exits name a stop st)
      (ExecState.start env cpus) := by
  refine Wp.bind
    (Wp.mono (Wp.returned (boot_spec exits name confs targets env cpus)) (fun _ _ boots => boots)
    fun _ _ astray => .inl astray) fun _ st₁ booted => ?_
  obtain ⟨run, a, boots, between⟩ := booted
  refine Wp.mono (between.forM_spec inputs fun before input after mid b split ran shown => ?_)
    (fun _ st' shown => ?_) fun stop _ ends => .inr ⟨a, boots, ends⟩
  · refine heard before input after mid split ?_ a b boots shown
    change (boot confs targets >>= fun _ => before.forM (handle name.policy))
      (ExecState.start env cpus) = _
    simp only [Bind.bind, EStateM.bind, run]
    exact ran
  · obtain ⟨b, shown⟩ := shown
    exact ⟨a, b, boots, shown⟩

/-- The states between the handlers of a run show a life of the programs. -/
theorem runExecutor_between {inputs : List Input}
    (heard : Heard exits name confs targets env cpus inputs)
    (run : runExecutor name.policy confs targets inputs (ExecState.start env cpus) = .ok () st) :
    ∃ a b, a.Boots cpus confs targets ∧ Between exits name a st b :=
  (Wp.of_ok run).mp (runExecutor_spec inputs heard)

theorem runExecutor_ends {inputs : List Input}
    (heard : Heard exits name confs targets env cpus inputs) {stop : Stop}
    (run : runExecutor name.policy confs targets inputs (ExecState.start env cpus) =
      .error stop st) :
    Astray stop st ∨ ∃ a, a.Boots cpus confs targets ∧ Ends exits name a stop st :=
  (Wp.of_error run).mp (runExecutor_spec inputs heard)

/-- The program comes to a state: it returns there, or it exits there. -/
def Comes (m : Exec Unit) (st st' : ExecState) : Prop :=
  m st = .ok () st' ∨ ∃ status, m st = .error (.exit status) st'

/-- Every handler of a run leads from the state before it to one that is related to it, also the
handler that exits. -/
def Throughout (rel : ExecState → ExecState → Prop) (policy : Policy) :
    List Input → ExecState → Prop
  | [], _ => True
  | input :: later, st =>
      match handle policy input st with
      | .ok _ st' => rel st st' ∧ Throughout rel policy later st'
      | .error (.exit _) st' => rel st st'
      | .error _ _ => True

instance decidableThroughout (rel : ExecState → ExecState → Prop) [DecidableRel rel]
    (policy : Policy) : ∀ inputs st, Decidable (Throughout rel policy inputs st)
  | [], _ => .isTrue trivial
  | input :: later, st =>
      match run : handle policy input st with
      | .ok _ st' =>
          have := decidableThroughout rel policy later st'
          decidable_of_iff (rel st st' ∧ Throughout rel policy later st')
            (by simp [Throughout, run])
      | .error (.exit _) st' => decidable_of_iff (rel st st') (by simp [Throughout, run])
      | .error .assertFailed _ | .error .undefined _ | .error .misuse _ | .error .noFuel _ =>
          .isTrue (by simp [Throughout, run])

/-- What every handler keeps that meets a condition holds where a run comes to whose handlers
all meet it. -/
theorem Throughout.keeps {rel : ExecState → ExecState → Prop} {policy : Policy}
    {inv : ExecState → Prop}
    (step : ∀ input st st', inv st → Comes (handle policy input) st st' → rel st st' → inv st')
    {inputs : List Input} (throughout : Throughout rel policy inputs st) (first : inv st)
    (run : Comes (inputs.forM (handle policy)) st st') : inv st' := by
  induction inputs generalizing st with
  | nil =>
      rcases run with run | ⟨status, run⟩
      · cases run
        exact first
      · cases run
  | cons input later ih =>
      have unfolds : (input :: later).forM (handle policy) =
          (handle policy input >>= fun _ => later.forM (handle policy)) := rfl
      simp only [Comes, unfolds, Bind.bind, EStateM.bind] at run
      cases handled : handle policy input st with
      | ok _ st₁ =>
          simp only [handled] at run
          simp only [Throughout, handled] at throughout
          exact ih throughout.2 (step input st st₁ first (.inl handled) throughout.1) run
      | error stop st₁ =>
          simp only [handled] at run
          rcases run with run | ⟨status, run⟩
          · cases run
          · cases run
            simp only [Throughout, handled] at throughout
            exact step input st st' first (.inr ⟨status, handled⟩) throughout

/-- Every exit is heard of. -/
def anywhere : ProgPtr → Place → Prop := fun _ _ => True

theorem heard_anywhere (name : PolicyName) (confs : List ProgConf) (targets : Int → Word64)
    (env : Env) (cpus : List Int) (inputs : List Input) :
    Heard anywhere name confs targets env cpus inputs := by
  intro before input after mid split run a b boots between
  cases input with
  | sigchld reports => exact fun prog reported p found => trivial
  | _ => trivial

/-- A run has come to a state between its handlers, or a handler has ended it there by `exit`. -/
def Reaches (name : PolicyName) (confs : List ProgConf) (targets : Int → Word64) (env : Env)
    (cpus : List Int) (inputs : List Input) (st : ExecState) : Prop :=
  runExecutor name.policy confs targets inputs (ExecState.start env cpus) = .ok () st ∨
    ∃ status, runExecutor name.policy confs targets inputs (ExecState.start env cpus) =
      .error (.exit status) st

theorem Reaches.between {inputs : List Input}
    (reaches : Reaches name confs targets env cpus inputs st) :
    ∃ a b, a.Boots cpus confs targets ∧ Between anywhere name a st b := by
  have heard := heard_anywhere name confs targets env cpus inputs
  rcases reaches with run | ⟨status, run⟩
  · exact runExecutor_between heard run
  · rcases runExecutor_ends heard run with astray | ⟨a, boots, ends⟩
    · simp [Astray] at astray
    · cases ends with
      | astray astray => simp [Astray] at astray
      | done between => exact ⟨a, _, boots, between⟩

theorem Reaches.boots {inputs : List Input}
    (reaches : Reaches name confs targets env cpus inputs st) :
    ∃ first, boot confs targets (ExecState.start env cpus) = .ok () first ∧
      Comes (inputs.forM (handle name.policy)) first st := by
  simp only [Reaches, runExecutor, Bind.bind, EStateM.bind] at reaches
  cases booted : boot confs targets (ExecState.start env cpus) with
  | ok _ first =>
      simp only [booted] at reaches
      exact ⟨first, rfl, reaches⟩
  | error stop first =>
      simp only [booted] at reaches
      have astray : Astray stop first :=
        (Wp.of_error booted).mp (boot_spec anywhere name confs targets env cpus)
      rcases reaches with run | ⟨status, run⟩
      · cases run
      · cases run
        simp [Astray] at astray

/-- Where a handler comes to, the state shows a life of the programs again. -/
theorem Between.comes {start a : Life} {input : Input} (between : Between anywhere name start st a)
    (came : Comes (handle name.policy input) st st') : ∃ b, Between anywhere name start st' b := by
  have hears : a.Hears anywhere input := by
    cases input with
    | sigchld reports => exact fun _ _ _ _ => trivial
    | _ => trivial
  have spec := between.handle_spec input hears
  rcases came with run | ⟨status, run⟩
  · exact (Wp.of_ok run).mp spec
  · cases (Wp.of_error run).mp spec with
    | astray astray => simp [Astray] at astray
    | done between => exact ⟨_, between⟩

/-- In the run, every exit that `sigchld_handler` records is that of a program that is
`allowed` in the state in which the handler is called. -/
def RecordsOnly (allowed : ExecState → ProgPtr → Prop) (name : PolicyName) (confs : List ProgConf)
    (targets : Int → Word64) (env : Env) (cpus : List Int) (inputs : List Input) : Prop :=
  ∀ before reports after mid, inputs = before ++ .sigchld reports :: after →
    runExecutor name.policy confs targets before (ExecState.start env cpus) = .ok () mid →
    ∀ prog ∈ recordedExits reports mid.runningNr, ∀ p,
      hashLookup mid.progPidHash (mid.progs prog).shellPid = some p → allowed mid p

/-- A condition on the exits that are recorded, read off the life of the programs. -/
theorem RecordsOnly.heard {allowed : ExecState → ProgPtr → Prop} {inputs : List Input}
    (records : RecordsOnly allowed name confs targets env cpus inputs)
    (places : ∀ mid a b, a.Boots cpus confs targets → Between exits name a mid b → ∀ p,
      (b.place p).expected = true → allowed mid p → exits p (b.place p)) :
    Heard exits name confs targets env cpus inputs := by
  intro before input after mid split run a b boots between
  cases input with
  | sigchld reports =>
      intro prog reported p found
      obtain ⟨xs, shows_, settled⟩ := between
      have core := shows_.tracks.core
      refine places mid a b boots ⟨xs, shows_, settled⟩ p
        (shows_.tracks.sound.hashed _ _ found).2 ?_
      rw [← core] at reported found
      exact records before reports after mid split run prog reported p found
  | _ => trivial

/-- The exits of a run whose last input is its only `SIGCHLD`. -/
theorem RecordsOnly.last {allowed : ExecState → ProgPtr → Prop} {earlier : List Input}
    {reports : List WaitStatus} (quiet : ∀ others, Input.sigchld others ∉ earlier)
    (run : runExecutor name.policy confs targets earlier (ExecState.start env cpus) = .ok () st)
    (only : ∀ prog ∈ recordedExits reports st.runningNr, ∀ p,
      hashLookup st.progPidHash (st.progs prog).shellPid = some p → allowed st p) :
    RecordsOnly allowed name confs targets env cpus (earlier ++ [.sigchld reports]) := by
  intro before others after mid split ran
  have place : before = earlier ∧ others = reports := by
    rcases List.append_eq_append_iff.mp split with ⟨more, rfl, rest⟩ | ⟨more, rfl, rest⟩
    · cases more with
      | nil =>
          have same : others = reports ∧ after = [] := by simpa using rest.symm
          exact ⟨by simp, same.1⟩
      | cons input more => simp at rest
    · cases more with
      | nil =>
          have same : others = reports ∧ after = [] := by simpa using rest
          exact ⟨by simp, same.1⟩
      | cons input more =>
          obtain ⟨rfl, -⟩ := List.cons.inj rest
          exact absurd (List.mem_append_right before List.mem_cons_self) (quiet others)
  obtain ⟨rfl, rfl⟩ := place
  cases run.symm.trans ran
  exact only

/-- The same where the last input reports one exit. -/
theorem RecordsOnly.lastExit {allowed : ExecState → ProgPtr → Prop} {earlier : List Input}
    {prog : ProgPtr} (quiet : ∀ others, Input.sigchld others ∉ earlier)
    (run : runExecutor name.policy confs targets earlier (ExecState.start env cpus) = .ok () st)
    (only : ∀ p ∈ hashLookup st.progPidHash (st.progs prog).shellPid, allowed st p) :
    RecordsOnly allowed name confs targets env cpus (earlier ++ [.sigchld [.exited prog]]) := by
  refine RecordsOnly.last quiet run fun other reported p found => ?_
  have same : other = prog := by
    by_cases none : st.runningNr = 0
    · simp [recordedExits, none] at reported
    · simpa [recordedExits, none] using reported
  subst same
  exact only p found

end Runs

end BachScheduler
