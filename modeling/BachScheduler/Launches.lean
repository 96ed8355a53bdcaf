import BachScheduler.Applications

/-!
# Launches

`do_execute` looks at the group of the application until it finds it frozen, and only then reads
the pid from the page and hands the program over.  Whatever the processes do meanwhile, the hooks
are set up by then, and an application runs no code of its own before its first thaw.
-/

namespace BachScheduler

open Interleaving

section Applications

variable {w : Wiring} {a a' : App}

/-- How far the code of an application has come. -/
def AppPc.stage : AppPc → Nat
  | .forked => 0
  | .initArch => 1
  | .initFdRd => 2
  | .initFdWr => 3
  | .initHandle => 4
  | .initRequested => 5
  | .initPid => 6
  | .initFreezer => 7
  | .freeze => 8
  | .freezing => 9
  | _ => 10

/-- The states of its group while an application sets itself up, and the executor only looks on. -/
def AppPc.initGroups : AppPc → List GroupState
  | .forked | .initArch | .initFdRd | .initFdWr | .initHandle | .initRequested | .initPid
  | .initFreezer =>
      [.uninitialized]
  | .freeze => [.thawed]
  | .freezing => [.freezing, .frozen]
  | _ => []

/-- The page holds what was put there for the application, and the hooks hold what was read so
far. -/
structure App.Wired (w : Wiring) (a : App) : Prop where
  fdExecutor : (shmView a.shm).fdExecutor = w.executorEnd
  cpusArch : (shmView a.shm).cpusArch = w.cpusNr
  appHandler : (shmView a.shm).appHandler = a.wires.handle
  fdApp : 1 ≤ a.pc.stage → (shmView a.shm).fdApp = a.wires.pipeRd
  gotArch : 2 ≤ a.pc.stage → a.hooks.cpusArch = w.cpusNr
  gotFdRd : 3 ≤ a.pc.stage → a.hooks.fdRd = a.wires.pipeRd
  gotFdWr : 4 ≤ a.pc.stage → a.hooks.fdWr = w.executorEnd
  gotHandle : 5 ≤ a.pc.stage → a.hooks.myhandle = a.wires.handle
  appPid : 7 ≤ a.pc.stage → (shmView a.shm).appPid = a.wires.pid

/-- The group is that of the code as long as the application is not handed over, and the executor
knows the application when it is; it runs code of its own behind the first thaw only. -/
structure App.Staged (a : App) : Prop where
  early : a.handed = false → a.group ∈ a.pc.initGroups
  handed : a.handed = true → 9 ≤ a.pc.stage ∧ a.pid = a.wires.pid
  thawed : 9 ≤ a.pc.stage → a.pc ≠ .freezing ∨ a.group = .thawed → a.thawed = true ∧ a.handed = true

/-- What holds of every application that was launched. -/
structure App.Sound (w : Wiring) (a : App) : Prop where
  wired : a.Wired w
  staged : a.Staged

/-- The next step leaves what the executor has noted. -/
theorem App.step_notes (run : a.step = some a') :
    a'.wires = a.wires ∧ a'.handed = a.handed ∧ a'.pid = a.pid ∧ a'.alive = a.alive ∧
      a'.reads = a.reads := by
  unfold App.step at run
  split at run <;> grind

theorem App.Wired.step (wired : a.Wired w) (run : a.step = some a') : a'.Wired w := by
  unfold App.step at run
  split at run <;> rename_i pc
  all_goals first
    | cases run
    | (split at run <;> cases run)
  all_goals
    constructor <;>
      simp [AppPc.stage, pc, wired.fdExecutor, wired.cpusArch, wired.appHandler, wired.fdApp,
        wired.gotArch, wired.gotFdRd, wired.gotFdWr, wired.gotHandle, wired.appPid]

theorem App.Staged.step (staged : a.Staged) (run : a.step = some a') : a'.Staged := by
  obtain ⟨early, handed, thawed⟩ := staged
  unfold App.step at run
  split at run <;> rename_i pc
  all_goals first
    | cases run
    | (split at run <;> cases run)
  all_goals
    rw [pc] at early handed thawed
    constructor <;> simp_all [AppPc.stage, AppPc.initGroups]

theorem App.Sound.step (sound : a.Sound w) (run : a.step = some a') : a'.Sound w :=
  ⟨sound.wired.step run, sound.staged.step run⟩

/-- An application that runs code of its own stays behind its first thaw. -/
theorem App.Sound.inside {pc : AppPc} {nrThreads asked : Word32} (sound : a.Sound w)
    (source : a.pc.stage = 10) (target : pc.stage = 10) :
    ({ a with pc := pc, nrThreads := nrThreads, asked := asked } : App).Sound w := by
  obtain ⟨wired, early, handed, thawed⟩ := sound
  have goesOn : a.pc ≠ .freezing := by
    intro same
    rw [same] at source
    cases source
  have handedOver := thawed (by omega) (.inl goesOn)
  rw [source] at handed
  constructor
  · constructor <;>
      simp [wired.fdExecutor, wired.cpusArch, wired.appHandler, wired.fdApp, wired.gotArch,
        wired.gotFdRd, wired.gotFdWr, wired.gotHandle, wired.appPid, source]
  · exact ⟨fun fresh => absurd fresh (by simp [handedOver.2]), by
      rwa [target], fun _ _ => handedOver⟩

/-- An application that can take a step is not frozen. -/
theorem App.moves (can : a.canStep = true) : a.group ≠ .frozen := by
  simp only [App.canStep, Bool.and_eq_true, decide_eq_true_eq] at can
  exact can.2

theorem App.Sound.enter {nrThreads : Word32} (sound : a.Sound w)
    (run : a.enter nrThreads = some a') :
    a'.Sound w ∧ a'.wires = a.wires ∧ a'.handed = a.handed ∧ a'.pid = a.pid := by
  unfold App.enter at run
  split at run
  · next pc =>
      cases run
      exact ⟨sound.inside (by rw [pc]; rfl) rfl, rfl, rfl, rfl⟩
  · cases run

theorem App.Sound.launch (w : Wiring) (wires : Wires) :
    ({ wires := wires, shm := System.affShmAlloc w wires.handle } : App).Sound w where
  wired := by constructor <;> simp [System.affShmAlloc, AppPc.stage]
  staged := by constructor <;> simp [AppPc.initGroups, AppPc.stage]

theorem App.Wired.assign {cpus : Word32} {handed : Bool} (wired : a.Wired w) :
    ({ a with shm := affShmSetCpusAssigned a.shm cpus, handed := handed } : App).Wired w :=
  { wired with
    fdExecutor := by simpa using wired.fdExecutor
    cpusArch := by simpa using wired.cpusArch
    appHandler := by simpa using wired.appHandler
    fdApp := by simpa using wired.fdApp
    appPid := by simpa using wired.appPid }

theorem App.Sound.handOver {cpus : Word32} (sound : a.Sound w) (pc : a.pc = .freezing)
    (frozen : a.group = .frozen) (pid : a.pid = a.wires.pid) :
    ({ a with shm := affShmSetCpusAssigned a.shm cpus, handed := true } : App).Sound w where
  wired := sound.wired.assign
  staged := by
    constructor
    · intro fresh
      cases fresh
    · intro _
      exact ⟨by rw [pc]; decide, pid⟩
    · intro _ goesOn
      simp [pc, frozen] at goesOn

theorem App.Sound.thaw (sound : a.Sound w) (handed : a.handed = true) :
    ({ a with group := .thawed, thawed := true } : App).Sound w where
  wired := { sound.wired with }
  staged := ⟨fun fresh => absurd fresh (by simp [handed]), sound.staged.handed, fun _ _ =>
    ⟨rfl, handed⟩⟩

/-- A group that is freezing, or is frozen, lets nobody run for the first time. -/
theorem App.Sound.stop {group : GroupState} (sound : a.Sound w) (stops : group ≠ .thawed)
    (early : a.handed = false → group ∈ a.pc.initGroups) :
    ({ a with group := group } : App).Sound w where
  wired := { sound.wired with }
  staged := by
    refine ⟨early, sound.staged.handed, fun stage goesOn => sound.staged.thawed stage ?_⟩
    exact .inl (goesOn.resolve_right stops)

end Applications

/-- The program that is being launched. -/
def LaunchPc.prog : LaunchPc → ProgPtr
  | .waiting prog | .recording prog | .spreading prog => prog

/-- The launch has left the loop. -/
def LaunchPc.past : LaunchPc → Bool
  | .waiting _ => false
  | .recording _ | .spreading _ => true

section System

variable {w : Wiring} {s s' : System} {action : SysAction} {prog : ProgPtr} {a' : App}

/-- All applications are sound, and all but the one being launched are handed over, which is frozen
once the loop was left. -/
structure System.Launches (w : Wiring) (s : System) : Prop where
  sound : ∀ p ∈ s.progs, (s.app p).Sound w
  member : ∀ l ∈ s.launch, l.prog ∈ s.progs
  handed : ∀ p ∈ s.progs, (s.app p).handed = false ↔ ∃ l ∈ s.launch, l.prog = p
  frozen : ∀ l ∈ s.launch, l.past = true → (s.app l.prog).group = .frozen
  recorded : ∀ p, s.launch = some (.spreading p) → (s.app p).pid = (s.app p).wires.pid

namespace System

/-- Only the last part of a state counts for what is launched. -/
theorem Launches.congr (launches : s.Launches w) (progs : s'.progs = s.progs) (app : s'.app = s.app)
    (launch : s'.launch = s.launch) : s'.Launches w := by
  obtain ⟨progs', app', pipe, launch', serve, progFds⟩ := s'
  cases progs
  cases app
  cases launch
  exact { launches with }

/-- One application changes and stays sound; one that is frozen in its launch keeps what is known of
it. -/
theorem Launches.set (launches : s.Launches w) (sound : prog ∈ s.progs → a'.Sound w)
    (handed : a'.handed = (s.app prog).handed)
    (still : (s.app prog).group = .frozen → (s.app prog).handed = false → a'.group = .frozen ∧
      (s.launch = some (.spreading prog) → a'.pid = (s.app prog).pid ∧
        a'.wires = (s.app prog).wires)) :
    (s.set prog a').Launches w := by
  have fresh (l : LaunchPc) (under : l ∈ s.launch) : (s.app l.prog).handed = false :=
    (launches.handed _ (launches.member l under)).mpr ⟨l, under, rfl⟩
  constructor
  · intro p member
    by_cases same : p = prog
    · subst same
      simpa [System.set] using sound member
    · simpa [System.set, same] using launches.sound p member
  · exact launches.member
  · intro p member
    have before := launches.handed p member
    by_cases same : p = prog
    · subst same
      simpa [System.set, handed] using before
    · simpa [System.set, same] using before
  · intro l under past
    have frozen := launches.frozen l under past
    by_cases same : l.prog = prog
    · have kept := still (same ▸ frozen) (same ▸ fresh l under)
      simpa [System.set, same] using kept.1
    · simpa [System.set, same] using frozen
  · intro p spreading
    have recorded := launches.recorded p spreading
    have frozen := launches.frozen _ spreading rfl
    by_cases same : p = prog
    · subst same
      have kept := still frozen (fresh _ spreading)
      obtain ⟨pid, wires⟩ := kept.2 spreading
      simpa [System.set, pid, wires] using recorded
    · simpa [System.set, same] using recorded

theorem Launches.launch {wires : Wires} (launches : s.Launches w) (free : s.launch = none)
    (fresh : prog ∉ s.progs) :
    System.Launches w { s.set prog { wires := wires, shm := affShmAlloc w wires.handle } with
      progs := prog :: s.progs, launch := some (.waiting prog) } := by
  have apart (p : ProgPtr) (member : p ∈ s.progs) : p ≠ prog := fun same => fresh (same ▸ member)
  constructor
  · intro p member
    rcases List.mem_cons.mp member with rfl | earlier
    · simpa [System.set] using App.Sound.launch w wires
    · simpa [System.set, apart p earlier] using launches.sound p earlier
  · intro l under
    cases under
    exact List.mem_cons_self
  · intro p member
    rcases List.mem_cons.mp member with rfl | earlier
    · simp [System.set, LaunchPc.prog]
    · have before := launches.handed p earlier
      simp only [free, Option.mem_def] at before
      simp [System.set, LaunchPc.prog, apart p earlier, before, (apart p earlier).symm]
  · intro l under past
    cases under
    cases past
  · intro p spreading
    cases spreading

theorem Launches.free (launches : s.Launches w) (none_ : s.launch = none) :
    System.Launches w { s with progs := s.progs.filter (· ≠ prog) } := by
  have under (l : LaunchPc) : l ∉ s.launch := by simp [none_]
  constructor
  · exact fun p member => launches.sound p (List.mem_of_mem_filter member)
  · exact fun l launching => absurd launching (under l)
  · exact fun p member => launches.handed p (List.mem_of_mem_filter member)
  · exact fun l launching => absurd launching (under l)
  · exact fun p spreading => absurd spreading (by simp [none_])

/-- A launch goes on with an application that is frozen. -/
theorem Launches.advance {l l' : LaunchPc} (launches : s.Launches w) (under : s.launch = some l)
    (same : l'.prog = l.prog) (frozen : (s.app l.prog).group = .frozen)
    (recorded : ∀ p, l' = .spreading p → (s.app p).pid = (s.app p).wires.pid) :
    System.Launches w { s with launch := some l' } := by
  constructor
  · exact launches.sound
  · intro other is
    cases is
    rw [same]
    exact launches.member l under
  · intro p member
    rw [launches.handed p member, under]
    simp [same]
  · intro other is past
    cases is
    rwa [same]
  · intro p spreading
    exact recorded p (Option.some.inj spreading)

/-- The application that is frozen in its launch is in the write that froze it. -/
theorem Launches.freezing {l : LaunchPc} (launches : s.Launches w) (under : s.launch = some l)
    (past : l.past = true) : (s.app l.prog).pc = .freezing := by
  have member := launches.member l under
  have early := (launches.sound _ member).staged.early
    ((launches.handed _ member).mpr ⟨l, under, rfl⟩)
  rw [launches.frozen l under past] at early
  revert early
  cases (s.app l.prog).pc <;> simp [AppPc.initGroups]

theorem Launches.record (launches : s.Launches w) (recording : s.launch = some (.recording prog)) :
    System.Launches w { s.set prog { s.app prog with pid := affShmGetAppPid (s.app prog).shm } with
      launch := some (.spreading prog) } := by
  have member : prog ∈ s.progs := launches.member _ recording
  have pc : (s.app prog).pc = .freezing := launches.freezing recording rfl
  have frozen : (s.app prog).group = .frozen := launches.frozen _ recording rfl
  have fresh : (s.app prog).handed = false := (launches.handed prog member).mpr ⟨_, recording, rfl⟩
  obtain ⟨wired, staged⟩ := launches.sound prog member
  have noted :
      (s.set prog { s.app prog with pid := affShmGetAppPid (s.app prog).shm }).Launches w := by
    refine launches.set (fun _ => ⟨{ wired with }, staged.early, ?_, staged.thawed⟩) rfl ?_
    · intro handed
      exact absurd handed (by simp [fresh])
    · intro _ _
      refine ⟨frozen, fun spreading => ?_⟩
      rw [recording] at spreading
      cases spreading
  refine noted.advance recording rfl ?_ fun p spreading => ?_
  · simpa [System.set, LaunchPc.prog] using frozen
  · cases spreading
    have written := wired.appPid
    rw [pc] at written
    simpa [System.set] using written (by decide)

theorem Launches.spread {cpus : Word32} (launches : s.Launches w)
    (spreading : s.launch = some (.spreading prog)) :
    System.Launches w { s.set prog { s.app prog with
      shm := affShmSetCpusAssigned (s.app prog).shm cpus, handed := true } with launch :=
        none } := by
  have pc : (s.app prog).pc = .freezing := launches.freezing spreading rfl
  have frozen : (s.app prog).group = .frozen := launches.frozen _ spreading rfl
  constructor
  · intro p member
    by_cases same : p = prog
    · subst same
      simpa [System.set] using (launches.sound p member).handOver pc frozen
        (launches.recorded p spreading)
    · simpa [System.set, same] using launches.sound p member
  · intro l under
    cases under
  · intro p member
    by_cases same : p = prog
    · subst same
      simp [System.set]
    · have before := launches.handed p member
      rw [spreading] at before
      simpa [System.set, same, LaunchPc.prog, Ne.symm same] using before
  · intro l under
    cases under
  · intro p under
    cases under

/-- What a step of `handle_prog_notifications` can be. -/
inductive ServeMove (s : System) : System → Prop where
  | enough (cnt : Nat) (reading : s.serve = .reading cnt)
      (stopped : sizeofProgFds ≤ cnt ∨ s.pipe = []) :
      ServeMove s { s with serve := .answering cnt }
  | wild (cnt : Nat) (handle : Word64) (later : List Word64) (reading : s.serve = .reading cnt)
      (pipe : s.pipe = handle :: later) (unknown : s.deref handle = none) :
      ServeMove s { s with serve := .ended .wildHandle }
  | read (cnt : Nat) (handle : Word64) (later : List Word64) (prog : ProgPtr)
      (inside : cnt < progFdsLength)
      (reading : s.serve = .reading cnt) (pipe : s.pipe = handle :: later)
      (known : s.deref handle = some prog) :
      ServeMove s { s with
        pipe := later
        progFds := s.progFds.set cnt (s.app prog).wires.pipeWr inside
        serve := .reading (cnt + 1) }
  | overrun (cnt : Nat) (handle : Word64) (later : List Word64) (prog : ProgPtr)
      (outside : progFdsLength ≤ cnt)
      (reading : s.serve = .reading cnt) (pipe : s.pipe = handle :: later)
      (known : s.deref handle = some prog) :
      ServeMove s { s with serve := .ended .overrun }
  | done (answering : s.serve = .answering 0) : ServeMove s { s with serve := .idle }
  | reply (cnt : Nat) (prog : ProgPtr) (inside : cnt < progFdsLength)
      (answering : s.serve = .answering (cnt + 1))
      (known : s.owner (s.progFds.get ⟨cnt, inside⟩) = some prog)
      (reads : (s.app prog).reads = true) :
      ServeMove s { s.set prog
        { s.app prog with replies := (s.app prog).replies + 1 } with serve := .answering cnt }
  | sigpipe (cnt : Nat) (prog : ProgPtr) (inside : cnt < progFdsLength)
      (answering : s.serve = .answering (cnt + 1))
      (known : s.owner (s.progFds.get ⟨cnt, inside⟩) = some prog)
      (shut : (s.app prog).reads = false) :
      ServeMove s { s with serve := .ended .sigpipe }
  | badFd (cnt : Nat) (inside : cnt < progFdsLength) (answering : s.serve = .answering (cnt + 1))
      (unknown : s.owner (s.progFds.get ⟨cnt, inside⟩) = none) : ServeMove s
        { s with serve := .ended .badFd }
  | behind (cnt : Nat)
      (outside : progFdsLength ≤ cnt) (answering : s.serve = .answering (cnt + 1)) :
      ServeMove s { s with serve := .ended .overrun }

theorem serveStep_move (run : s.serveStep = some s') : ServeMove s s' := by
  unfold serveStep at run
  split at run
  · cases run
  · cases run
  · next cnt reading =>
      split at run
      · split at run
        · next empty =>
            cases run
            exact .enough cnt reading (.inr empty)
        · next handle later pipe =>
            split at run
            · next unknown =>
                cases run
                exact .wild cnt handle later reading pipe unknown
            · next prog known =>
                split at run
                · next inside =>
                    cases run
                    exact .read cnt handle later prog inside reading pipe known
                · next outside =>
                    cases run
                    exact .overrun cnt handle later prog
                      (Nat.le_of_not_lt outside) reading pipe known
      · next stopped =>
          cases run
          exact .enough cnt reading (.inl (Nat.le_of_not_lt stopped))
  · next answering =>
      cases run
      exact .done answering
  · next cnt answering =>
      split at run
      · next inside =>
          split at run
          · next unknown =>
              cases run
              exact .badFd cnt inside answering unknown
          · next prog known =>
              split at run
              · next reads =>
                  cases run
                  exact .reply cnt prog inside answering known reads
              · next shut =>
                  cases run
                  exact .sigpipe cnt prog inside answering known (by simpa using shut)
      · next outside =>
          cases run
          exact .behind cnt (Nat.le_of_not_lt outside) answering

/-- What an action can do to the system. -/
inductive SysMove (w : Wiring) (s : System) : SysAction → System → Prop where
  | launch (prog : ProgPtr) (wires : Wires) (free : s.free = true) (fresh : prog ∉ s.progs)
      (handle : s.deref wires.handle = none) (owner : s.owner wires.pipeWr = none) :
      SysMove w s (.launch prog wires)
        { s.set prog { wires := wires, shm := affShmAlloc w wires.handle } with
        progs := prog :: s.progs, launch := some (.waiting prog) }
  | leave (prog : ProgPtr) (waiting : s.launch = some (.waiting prog))
      (frozen : (s.app prog).group = .frozen) :
      SysMove w s .poll { s with launch := some (.recording prog) }
  | wait (prog : ProgPtr) (waiting : s.launch = some (.waiting prog))
      (moving : (s.app prog).group ≠ .frozen) :
      SysMove w s .poll s
  | record (prog : ProgPtr) (recording : s.launch = some (.recording prog)) :
      SysMove w s .record
        { s.set prog { s.app prog with pid := affShmGetAppPid (s.app prog).shm } with
        launch := some (.spreading prog) }
  | spread (cpus : Word32) (prog : ProgPtr) (spreading : s.launch = some (.spreading prog)) :
      SysMove w s (.spread cpus) { s.set prog { s.app prog with
        shm := affShmSetCpusAssigned (s.app prog).shm cpus, handed := true } with launch := none }
  | assign (prog : ProgPtr) (cpus : Word32) (free : s.free = true) (member : prog ∈ s.progs)
      (handed : (s.app prog).handed = true) :
      SysMove w s (.assign prog cpus)
        (s.set prog { s.app prog with shm := affShmSetCpusAssigned (s.app prog).shm cpus })
  | thaw (prog : ProgPtr) (free : s.free = true) (member : prog ∈ s.progs)
      (handed : (s.app prog).handed = true) :
      SysMove w s (.thaw prog) (s.set prog { s.app prog with group := .thawed, thawed := true })
  | freeze (prog : ProgPtr) (free : s.free = true) (member : prog ∈ s.progs)
      (handed : (s.app prog).handed = true) :
      SysMove w s (.freeze prog) (s.set prog { s.app prog with
        group := if (s.app prog).group = .frozen then .frozen else .freezing })
  | notified (free : s.free = true) (idle : s.serve = .idle) (pipe : s.pipe ≠ []) :
      SysMove w s .notified { s with serve := .reading 0 }
  | serve (s' : System) (free : s.free = true) (move : ServeMove s s') : SysMove w s .serve s'
  | notify (prog : ProgPtr) (member : prog ∈ s.progs) (can : (s.app prog).canStep = true)
      (pc : (s.app prog).pc = .notify) (fdWr : (s.app prog).hooks.fdWr = w.executorEnd) :
      SysMove w s (.app prog) { s.set prog { s.app prog with pc := .await } with
        pipe := s.pipe ++ [(s.app prog).hooks.myhandle] }
  | app (prog : ProgPtr) (a' : App) (member : prog ∈ s.progs) (can : (s.app prog).canStep = true)
      (silent : (s.app prog).pc ≠ .notify) (ran : (s.app prog).step = some a') :
        SysMove w s (.app prog) (s.set prog a')
  | enter (prog : ProgPtr) (nrThreads : Word32) (a' : App) (member : prog ∈ s.progs)
      (can : (s.app prog).canStep = true) (ran : (s.app prog).enter nrThreads = some a') :
      SysMove w s (.enter prog nrThreads) (s.set prog a')
  | stopped (prog : ProgPtr) (member : prog ∈ s.progs) (freezing : (s.app prog).group = .freezing) :
      SysMove w s (.stopped prog) (s.set prog { s.app prog with group := .frozen })
  | die (prog : ProgPtr) (member : prog ∈ s.progs) :
      SysMove w s (.die prog) (s.set prog { s.app prog with alive := false })
  | close (prog : ProgPtr) (member : prog ∈ s.progs) (dead : (s.app prog).alive = false) :
      SysMove w s (.close prog) (s.set prog { s.app prog with reads := false })
  | free (prog : ProgPtr) (free : s.free = true) (member : prog ∈ s.progs)
      (handed : (s.app prog).handed = true)
      (shut : (s.app prog).reads = false) :
        SysMove w s (.free prog) { s with progs := s.progs.filter (· ≠ prog) }

/-- The branches of a step, each with what was checked on the way to it. -/
theorem step_move (run : System.step w action s = some s') : SysMove w s action s' := by
  cases action with
  | launch prog wires =>
      simp only [System.step] at run
      split at run
      · next checked =>
          cases run
          exact .launch prog wires checked.1 checked.2.1 checked.2.2.1 checked.2.2.2
      · cases run
  | poll =>
      simp only [System.step] at run
      split at run
      · next prog waiting =>
          split at run
          · next frozen =>
              cases run
              exact .leave prog waiting frozen
          · next moving =>
              cases run
              exact .wait prog waiting moving
      · cases run
  | record =>
      simp only [System.step] at run
      split at run
      · next prog recording =>
          cases run
          exact .record prog recording
      · cases run
  | spread cpus =>
      simp only [System.step] at run
      split at run
      · next prog spreading =>
          cases run
          exact .spread cpus prog spreading
      · cases run
  | assign prog cpus =>
      simp only [System.step] at run
      split at run
      · next checked =>
          cases run
          exact .assign prog cpus checked.1 checked.2.1 checked.2.2
      · cases run
  | thaw prog =>
      simp only [System.step] at run
      split at run
      · next checked =>
          cases run
          exact .thaw prog checked.1 checked.2.1 checked.2.2
      · cases run
  | freeze prog =>
      simp only [System.step] at run
      split at run
      · next checked =>
          cases run
          exact .freeze prog checked.1 checked.2.1 checked.2.2
      · cases run
  | notified =>
      simp only [System.step] at run
      split at run
      · next checked =>
          cases run
          exact .notified checked.1 checked.2.1 checked.2.2
      · cases run
  | serve =>
      simp only [System.step] at run
      split at run
      · next free => exact .serve s' free (serveStep_move run)
      · cases run
  | app prog =>
      simp only [System.step] at run
      split at run
      · next can =>
          split at run
          · next pc =>
              split at run
              · next fdWr =>
                  cases run
                  exact .notify prog can.1 can.2 pc fdWr
              · cases run
          · next silent =>
              obtain ⟨a', ran, rfl⟩ := Option.map_eq_some_iff.mp run
              exact .app prog a' can.1 can.2 silent ran
      · cases run
  | enter prog nrThreads =>
      simp only [System.step] at run
      split at run
      · next can =>
          obtain ⟨a', ran, rfl⟩ := Option.map_eq_some_iff.mp run
          exact .enter prog nrThreads a' can.1 can.2 ran
      · cases run
  | stopped prog =>
      simp only [System.step] at run
      split at run
      · next checked =>
          cases run
          exact .stopped prog checked.1 checked.2
      · cases run
  | die prog =>
      simp only [System.step] at run
      split at run
      · next member =>
          cases run
          exact .die prog member
      · cases run
  | close prog =>
      simp only [System.step] at run
      split at run
      · next checked =>
          cases run
          exact .close prog checked.1 checked.2
      · cases run
  | free prog =>
      simp only [System.step] at run
      split at run
      · next checked =>
          cases run
          exact .free prog checked.1 checked.2.1 checked.2.2.1 checked.2.2.2
      · cases run

theorem launch_of_free (free : s.free = true) : s.launch = none := by
  simp only [System.free, Bool.and_eq_true, Option.isNone_iff_eq_none] at free
  exact free.1

/-- Every action keeps the launches in order. -/
theorem Launches.step (launches : s.Launches w) (run : System.step w action s = some s') :
    s'.Launches w := by
  cases step_move run with
  | launch prog wires free fresh =>
      exact launches.launch (launch_of_free free) fresh
  | leave prog waiting frozen =>
      exact launches.advance waiting rfl frozen fun p spreading => by cases spreading
  | wait => exact launches
  | record prog recording => exact launches.record recording
  | spread cpus prog spreading => exact launches.spread spreading
  | assign prog cpus free member handed =>
      have sound := launches.sound prog member
      refine launches.set
        (fun _ => ⟨sound.wired.assign, sound.staged.1, sound.staged.2, sound.staged.3⟩) rfl ?_
      intro frozen _
      exact ⟨frozen, fun _ => ⟨rfl, rfl⟩⟩
  | thaw prog free member handed =>
      refine launches.set (fun _ => (launches.sound prog member).thaw handed) rfl ?_
      intro _ fresh
      exact absurd fresh (by simp [handed])
  | freeze prog free member handed =>
      have fresh (unknown : (s.app prog).handed = false) : False := by simp [handed] at unknown
      refine launches.set (fun _ => (launches.sound prog member).stop (by split <;> decide) ?_)
        rfl ?_
      · exact fun unknown => (fresh unknown).elim
      · exact fun _ unknown => (fresh unknown).elim
  | notified => exact launches.congr rfl rfl rfl
  | serve s' free move =>
      cases move with
      | reply cnt prog =>
          have replied :
              (s.set prog { s.app prog with replies := (s.app prog).replies + 1 }).Launches w := by
            refine launches.set (fun member => ?_) rfl fun frozen _ => ⟨frozen, fun _ => ⟨rfl, rfl⟩⟩
            obtain ⟨wired, staged⟩ := launches.sound prog member
            exact ⟨{ wired with }, { staged with }⟩
          exact replied.congr rfl rfl rfl
      | _ => exact launches.congr rfl rfl rfl
  | notify prog member can pc fdWr =>
      have inside : (s.set prog { s.app prog with pc := .await }).Launches w := by
        refine launches.set (fun _ => (launches.sound prog member).inside (by rw [pc]; rfl) rfl)
          rfl ?_
        exact fun frozen => absurd frozen (App.moves can)
      exact inside.congr rfl rfl rfl
  | app prog a' member can silent ran =>
      refine launches.set (fun _ => (launches.sound prog member).step ran)
        (App.step_notes ran).2.1 ?_
      exact fun frozen => absurd frozen (App.moves can)
  | enter prog nrThreads a' member can ran =>
      obtain ⟨sound, -, handed, -⟩ := (launches.sound prog member).enter ran
      refine launches.set (fun _ => sound) handed ?_
      exact fun frozen => absurd frozen (App.moves can)
  | stopped prog member freezing =>
      refine launches.set (fun _ => (launches.sound prog member).stop (by decide) fun fresh => ?_)
        rfl ?_
      · have early := (launches.sound prog member).staged.early fresh
        rw [freezing] at early
        revert early
        cases (s.app prog).pc <;> simp [AppPc.initGroups]
      · intro frozen
        rw [freezing] at frozen
        cases frozen
  | die prog | close prog =>
      refine launches.set (fun member => ?_) rfl fun frozen _ => ⟨frozen, fun _ => ⟨rfl, rfl⟩⟩
      obtain ⟨wired, staged⟩ := launches.sound prog member
      exact ⟨{ wired with }, { staged with }⟩
  | free prog free => exact launches.free (launch_of_free free)

theorem launches_start (w : Wiring) : System.Launches w {} where
  sound := by simp
  member := by simp
  handed := by simp
  frozen := by simp
  recorded := by simp

/-- Whatever happens, and in whatever order, the launches are in order. -/
theorem launches_run {actions : List SysAction} (run : System.run w actions = some s) :
    s.Launches w :=
  inv_runAll' Launches.step (launches_start w) run

end System

/-- Whatever the processes do, and in whatever order, the executor knows the pid of each application
that it goes on with, whose hooks are set up by then; and no application runs code of its own before
the executor has thawed it. -/
theorem applications_launched (w : Wiring) (actions : List SysAction) (s : System)
    (run : System.run w actions = some s) (prog : ProgPtr) (member : prog ∈ s.progs) :
    ((s.app prog).handed = true → (s.app prog).pid = (s.app prog).wires.pid ∧
        (s.app prog).hooks =
          ⟨w.cpusNr, (s.app prog).wires.pipeRd, w.executorEnd, (s.app prog).wires.handle⟩) ∧
      (9 < (s.app prog).pc.stage → (s.app prog).thawed = true ∧ (s.app prog).handed = true) := by
  obtain ⟨wired, staged⟩ := (System.launches_run run).sound prog member
  constructor
  · intro handed
    obtain ⟨stage, pid⟩ := staged.handed handed
    refine ⟨pid, ?_⟩
    rw [← wired.gotArch (by omega), ← wired.gotFdRd (by omega), ← wired.gotFdWr (by omega),
      ← wired.gotHandle (by omega)]
  · intro stage
    refine staged.thawed (by omega) (.inl fun same => ?_)
    rw [same] at stage
    exact absurd stage (by decide)

end System

section Ends

variable {w : Wiring} {s s' : System} {action : SysAction} {prog : ProgPtr} {a : App}

/-- The executor waits for an application that is dead and will never be frozen. -/
structure System.Stuck (prog : ProgPtr) (s : System) : Prop where
  waiting : s.launch = some (.waiting prog)
  dead : (s.app prog).alive = false
  group : (s.app prog).group ≠ .freezing ∧ (s.app prog).group ≠ .frozen

/-- An application that sets itself up can always take its next step. -/
theorem App.step_setUp (setUp : a.pc.stage < 9) :
    ∃ a', a.step = some a' ∧ a'.pc.stage = a.pc.stage + 1 ∧ a.pc ≠ .notify := by
  revert setUp
  unfold App.step
  cases pc : a.pc <;> simp [AppPc.stage]

namespace System

theorem Stuck.step (stuck : s.Stuck prog) (run : System.step w action s = some s') :
    s'.Stuck prog := by
  obtain ⟨waiting, dead, freezing, frozen⟩ := stuck
  have busy : s.free ≠ true := by simp [System.free, waiting]
  have other (p : ProgPtr) (a' : App) (apart : p ≠ prog) : (s.set p a').Stuck prog :=
    ⟨waiting, by simpa [System.set, apart.symm] using dead,
      by simp [System.set, apart.symm, freezing, frozen]⟩
  have steps (p : ProgPtr) (can : (s.app p).canStep = true) : p ≠ prog := by
    rintro rfl
    simp [App.canStep, dead] at can
  cases step_move run with
  | launch prog wires free | assign prog cpus free | thaw prog free | freeze prog free
  | notified free | serve s' free | free prog free => exact absurd free busy
  | leave p here stopped =>
      obtain rfl : p = prog := by simpa [waiting] using here.symm
      exact absurd stopped frozen
  | wait => exact ⟨waiting, dead, freezing, frozen⟩
  | record p recording => simp [waiting] at recording
  | spread cpus p spreading => simp [waiting] at spreading
  | notify p member can => exact { other p { s.app p with pc := .await } (steps p can) with }
  | app p a' member can => exact other p a' (steps p can)
  | enter p nrThreads a' member can => exact other p a' (steps p can)
  | stopped p member stops =>
      refine other p _ ?_
      rintro rfl
      exact freezing stops
  | die p =>
      by_cases same : p = prog
      · subst same
        exact ⟨waiting, by simp [System.set], by simpa [System.set] using ⟨freezing, frozen⟩⟩
      · exact other p _ same
  | close p =>
      by_cases same : p = prog
      · subst same
        exact ⟨waiting, by simpa [System.set] using dead, by
          simpa [System.set] using ⟨freezing, frozen⟩⟩
      · exact other p _ same

/-- The application comes to the write that freezes it, if it is left to itself. -/
theorem Launches.setsUp (launches : s.Launches w) (waiting : s.launch = some (.waiting prog))
    (alive : (s.app prog).alive = true) :
    ∃ more s', runAll (System.step w) more s = some s' ∧ s'.launch = some (.waiting prog) ∧
      prog ∈ s'.progs ∧
      ((s'.app prog).group = .freezing ∨ (s'.app prog).group = .frozen) := by
  have member : prog ∈ s.progs := launches.member _ waiting
  have early := (launches.sound prog member).staged.early
    ((launches.handed prog member).mpr ⟨_, waiting, rfl⟩)
  induction left : 9 - (s.app prog).pc.stage generalizing s with
  | zero =>
      refine ⟨[], s, rfl, waiting, member, ?_⟩
      revert early left
      cases (s.app prog).pc <;> simp [AppPc.initGroups, AppPc.stage]
  | succ n ih =>
      obtain ⟨a', ran, stage, silent⟩ := App.step_setUp (show (s.app prog).pc.stage < 9 by omega)
      have moves : (s.app prog).group ≠ .frozen := by
        intro frozen
        rw [frozen] at early
        revert early left
        cases (s.app prog).pc <;> simp [AppPc.initGroups, AppPc.stage]
      have can : prog ∈ s.progs ∧ (s.app prog).canStep :=
        ⟨member, by simp [App.canStep, alive, moves]⟩
      have step : System.step w (.app prog) s = some (s.set prog a') := by
        simp only [System.step]
        rw [if_pos can, if_neg silent, ran]
        rfl
      have same : (s.set prog a').app prog = a' := by simp [System.set]
      have kept := App.step_notes ran
      have launches' := launches.step step
      obtain ⟨more, s', run, rest⟩ :=
        ih launches' waiting (by rw [same, kept.2.2.2.1, alive]) member
        ((launches'.sound prog member).staged.early
          ((launches'.handed prog member).mpr ⟨_, waiting, rfl⟩))
        (by rw [same, stage]; omega)
      exact ⟨.app prog :: more, s', runAll_cons_eq_some.mpr ⟨_, step, run⟩, rest⟩

/-- The loop is left when the kernel has stopped the application. -/
theorem leavesLoop (waiting : s.launch = some (.waiting prog)) (member : prog ∈ s.progs)
    (stops : (s.app prog).group = .freezing ∨ (s.app prog).group = .frozen) :
    ∃ more s', runAll (System.step w) more s = some s' ∧ s'.launch = some (.recording prog) := by
  have polls {t : System} (waits : t.launch = some (.waiting prog))
      (frozen : (t.app prog).group = .frozen) :
      runAll (System.step w) [.poll] t = some { t with launch := some (.recording prog) } := by
    simp [runAll, System.step, waits, frozen]
  rcases stops with freezing | frozen
  · have stopped : System.step w (.stopped prog) s =
        some (s.set prog { s.app prog with group := .frozen }) := by
      simp only [System.step]
      rw [if_pos ⟨member, freezing⟩]
    have left := polls (t := s.set prog { s.app prog with group := .frozen }) waiting
      (by simp [System.set])
    exact ⟨[.stopped prog, .poll], _, runAll_cons_eq_some.mpr ⟨_, stopped, left⟩, rfl⟩
  · exact ⟨[.poll], _, polls waiting frozen, rfl⟩

end System

/-- `do_execute` can still leave its loop exactly when the application is alive or is about to be
frozen: an application that dies before, or never starts, keeps the executor in the loop for
good. -/
theorem launch_ends_iff (w : Wiring) (actions : List SysAction) (s : System) (prog : ProgPtr)
    (run : System.run w actions = some s) (waiting : s.launch = some (.waiting prog)) :
    (∃ more s', runAll (System.step w) more s = some s' ∧ s'.launch ≠ some (.waiting prog)) ↔
      (s.app prog).alive = true ∨ (s.app prog).group = .freezing ∨
      (s.app prog).group = .frozen := by
  have launches := System.launches_run run
  constructor
  · rintro ⟨more, s', later, left⟩
    by_contra never
    simp only [not_or, Bool.not_eq_true] at never
    have stuck : s'.Stuck prog := inv_runAll' System.Stuck.step ⟨waiting, never.1, never.2⟩ later
    exact left stuck.waiting
  · have leaves {t : System} {first : List SysAction}
        (ran : runAll (System.step w) first s = some t)
        (waits : t.launch = some (.waiting prog)) (member : prog ∈ t.progs)
        (stops : (t.app prog).group = .freezing ∨ (t.app prog).group = .frozen) :
        ∃ more s', runAll (System.step w) more s = some s' ∧ s'.launch ≠ some (.waiting prog) := by
      obtain ⟨more, s', later, recording⟩ := System.leavesLoop (w := w) waits member stops
      refine ⟨first ++ more, s', runAll_trans ran later, ?_⟩
      rw [recording]
      simp
    rintro (alive | stops)
    · obtain ⟨more, t, ran, waits, member, stops⟩ := launches.setsUp waiting alive
      exact leaves ran waits member stops
    · have here : runAll (System.step w) [] s = some s := rfl
      exact leaves here waiting (launches.member _ waiting) stops

end Ends

section Examples

/-- The executor end of the pipe is 4, and there are two cpus. -/
def twoCpus : Wiring := ⟨4, 2⟩

/-- The wires of a first program. -/
def firstWires : Wires := ⟨0x1000, 77, 5, 6⟩

/-- A program is launched, sets itself up and is handed over. -/
def firstLaunch : List SysAction :=
  .launch 0 firstWires :: List.replicate 9 (.app 0) ++
    [.poll, .stopped 0, .poll, .record, .spread 2]

/-- A first program has been launched and has died, and its address and its pipe are given out
again. -/
def relaunch : List SysAction :=
  firstLaunch ++ [.die 0, .close 0, .free 0] ++ firstLaunch

/-- The second program runs code of its own when it was thawed. -/
theorem applications_launched_first :
    ∃ s, System.run twoCpus (relaunch ++ [.thaw 0, .app 0]) = some s ∧ 0 ∈ s.progs ∧
      (s.app 0).pid = 77 ∧ (s.app 0).hooks = ⟨2, 5, 4, 0x1000⟩ ∧ (s.app 0).thawed = true := by
  obtain ⟨s, run, holds⟩ := (Option.any_eq_true _ _).mp (by decide +kernel :
    (System.run twoCpus (relaunch ++ [.thaw 0, .app 0])).any (fun s =>
      0 ∈ s.progs ∧ (s.app 0).handed = true ∧ 9 < (s.app 0).pc.stage ∧
        (s.app 0).wires = firstWires) = true)
  obtain ⟨member, handed, stage, wires⟩ := of_decide_eq_true holds
  have launched := applications_launched twoCpus _ s run 0 member
  obtain ⟨pid, hooks⟩ := launched.1 handed
  rw [wires] at pid hooks
  exact ⟨s, run, member, pid, hooks, (launched.2 stage).1⟩

/-- The application dies before it is frozen, and nothing ends its launch. -/
theorem launch_ends_iff_dead :
    ∃ s, System.run twoCpus [.launch 0 firstWires, .app 0, .die 0] = some s ∧
      ¬ ∃ more s', runAll (System.step twoCpus) more s = some s' ∧
        s'.launch ≠ some (.waiting 0) := by
  obtain ⟨s, run, holds⟩ := (Option.any_eq_true _ _).mp (by decide +kernel :
    (System.run twoCpus [.launch 0 firstWires, .app 0, .die 0]).any (fun s =>
      s.launch = some (.waiting 0) ∧ (s.app 0).alive = false ∧ (s.app 0).group = .uninitialized) =
        true)
  obtain ⟨waiting, dead, group⟩ := of_decide_eq_true holds
  refine ⟨s, run, fun ends => ?_⟩
  have possible := (launch_ends_iff twoCpus _ s 0 run waiting).mp ends
  simp [dead, group] at possible

end Examples

end BachScheduler
