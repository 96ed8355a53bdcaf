import BachScheduler.LifeCharges

/-!
# What every step of the life of the programs keeps

The places agree with the lists and with the allocated programs, the killed programs are
marked as such, the hash table only knows programs whose exit is to come, and each
counter of the executor and of the policies is a weighted sum over the places.
-/

namespace BachScheduler

open BachScheduler.Ring Census

variable {exits : ProgPtr → Place → Prop} {a b : Life} {prog : ProgPtr} {source target : Place}
variable {effect : Core → Core}

/-- The counters that are kept while programs move. -/
inductive Counter where
  | waitingNr
  | newNr
  | runningNr
  | finishedNr
  | progsNr
  | progsFnsh
  | progsLeft
  deriving DecidableEq, Repr

/-- The value of a counter. -/
def Core.counter (core : Core) : Counter → Int
  | .waitingNr => core.waitingNr
  | .newNr => core.newNr
  | .runningNr => core.runningNr
  | .finishedNr => core.finishedNr
  | .progsNr => core.sched.progsNr
  | .progsFnsh => core.sched.progsFnsh
  | .progsLeft => core.sched.progsLeft

/-- What a program adds to a counter at its place. -/
def Counter.weight : Counter → Place → Int
  | .waitingNr, .waiting => 1
  | .newNr, .new => 1
  | .runningNr, .all | .runningNr, .sch => 1
  | .runningNr, .reaped | .runningNr, .passed | .runningNr, .buried => -1
  | .finishedNr, .finished | .finishedNr, .taken | .finishedNr, .reported | .finishedNr, .spent
  | .finishedNr, .gone | .finishedNr, .killed => 1
  | .finishedNr, .reaped | .finishedNr, .passed | .finishedNr, .buried => 2
  | .progsNr, .all | .progsNr, .sch | .progsNr, .finished | .progsNr, .taken | .progsNr, .reported
  | .progsNr, .spent => 1
  | .progsNr, .buried => -1
  | .progsFnsh, .gone | .progsFnsh, .killed | .progsFnsh, .reaped | .progsFnsh, .passed => 1
  | .progsFnsh, .buried => 2
  | .progsLeft, .waiting | .progsLeft, .new | .progsLeft, .all | .progsLeft, .sch
  | .progsLeft, .finished | .progsLeft, .taken | .progsLeft, .reported => 1
  | _, _ => 0

section Frames

/-- What is known of every program from its start to the end of the run. -/
structure Core.Keeps (core other : Core) : Prop where
  progsAllocated : other.progsAllocated = core.progsAllocated
  progsInit : other.sched.progsInit = core.sched.progsInit
  cpus : other.cpus = core.cpus
  strayCpu : other.strayCpu = core.strayCpu
  id : ∀ p, (other.progs p).id = (core.progs p).id
  pid : ∀ p, (other.progs p).pid = (core.progs p).pid
  shellPid : ∀ p, (other.progs p).shellPid = (core.progs p).shellPid
  coresNeeded : ∀ p, (other.progs p).coresNeeded = (core.progs p).coresNeeded

/-- What only the moves of the programs change. -/
structure Core.Steady (core other : Core) : Prop where
  progPidHash : other.progPidHash = core.progPidHash
  counter : ∀ c, other.counter c = core.counter c
  killed : ∀ p, (other.pds p).killed = (core.pds p).killed
  initId : ∀ p, (other.pds p).initId = (core.pds p).initId

namespace Core

variable {core other later : Core}

theorem Keeps.same (progs : other.progs = core.progs)
    (progsAllocated : other.progsAllocated = core.progsAllocated)
    (progsInit : other.sched.progsInit = core.sched.progsInit) (cpus : other.cpus = core.cpus)
    (strayCpu : other.strayCpu = core.strayCpu) : core.Keeps other :=
  ⟨progsAllocated, progsInit, cpus, strayCpu, fun _ => by rw [progs], fun _ => by rw [progs],
    fun _ => by rw [progs], fun _ => by rw [progs]⟩

theorem Keeps.trans (first : core.Keeps other) (second : other.Keeps later) : core.Keeps later where
  progsAllocated := second.progsAllocated.trans first.progsAllocated
  progsInit := second.progsInit.trans first.progsInit
  cpus := second.cpus.trans first.cpus
  strayCpu := second.strayCpu.trans first.strayCpu
  id p := (second.id p).trans (first.id p)
  pid p := (second.pid p).trans (first.pid p)
  shellPid p := (second.shellPid p).trans (first.shellPid p)
  coresNeeded p := (second.coresNeeded p).trans (first.coresNeeded p)

theorem Keeps.modProg {change : ProgCore → ProgCore} (keeps : core.Keeps other)
    (same : ∀ p, (change p).id = p.id ∧ (change p).pid = p.pid ∧ (change p).shellPid = p.shellPid ∧
      (change p).coresNeeded = p.coresNeeded) : core.Keeps (other.modProg prog change) := by
  have each : ∀ p, ((other.modProg prog change).progs p).id = (other.progs p).id ∧
      ((other.modProg prog change).progs p).pid = (other.progs p).pid ∧
      ((other.modProg prog change).progs p).shellPid = (other.progs p).shellPid ∧
      ((other.modProg prog change).progs p).coresNeeded = (other.progs p).coresNeeded := by
    intro p
    by_cases equal : p = prog
    · subst equal
      simpa [Core.modProg] using same (other.progs p)
    · simp [Core.modProg, equal]
  exact keeps.trans ⟨rfl, rfl, rfl, rfl, fun p => (each p).1, fun p => (each p).2.1,
    fun p => (each p).2.2.1, fun p => (each p).2.2.2⟩

theorem Keeps.modPd {change : PdCore → PdCore} (keeps : core.Keeps other) :
    core.Keeps (other.modPd prog change) :=
  keeps.trans (.same rfl rfl rfl rfl rfl)

theorem Keeps.note {event : Event} (keeps : core.Keeps other) : core.Keeps (other.note event) :=
  keeps.trans (.same rfl rfl rfl rfl rfl)

theorem Keeps.refl (core : Core) : core.Keeps core := .same rfl rfl rfl rfl rfl

theorem Steady.same (pds : other.pds = core.pds)
    (progPidHash : other.progPidHash = core.progPidHash)
    (counter : ∀ c, other.counter c = core.counter c) : core.Steady other :=
  ⟨progPidHash, counter, fun _ => by rw [pds], fun _ => by rw [pds]⟩

theorem Steady.refl (core : Core) : core.Steady core := .same rfl rfl fun _ => rfl

theorem Steady.trans (first : core.Steady other) (second : other.Steady later) :
    core.Steady later where
  progPidHash := second.progPidHash.trans first.progPidHash
  counter c := (second.counter c).trans (first.counter c)
  killed p := (second.killed p).trans (first.killed p)
  initId p := (second.initId p).trans (first.initId p)

theorem Steady.modProg {change : ProgCore → ProgCore} (steady : core.Steady other) :
    core.Steady (other.modProg prog change) :=
  steady.trans (.same rfl rfl fun c => by cases c <;> rfl)

theorem Steady.note {event : Event} (steady : core.Steady other) : core.Steady (other.note event) :=
  steady.trans (.same rfl rfl fun c => by cases c <;> rfl)

theorem Steady.modPd {change : PdCore → PdCore} (steady : core.Steady other)
    (same : (change (other.pds prog)).killed = (other.pds prog).killed ∧
      (change (other.pds prog)).initId = (other.pds prog).initId) :
    core.Steady (other.modPd prog change) := by
  have both : ∀ p, ((other.modPd prog change).pds p).killed = (other.pds p).killed ∧
      ((other.modPd prog change).pds p).initId = (other.pds p).initId := by
    intro p
    by_cases equal : p = prog
    · subst equal
      simpa [Core.modPd] using same
    · simp [Core.modPd, equal]
  exact steady.trans ⟨rfl, fun c => by cases c <;> rfl, fun p => (both p).1, fun p => (both p).2⟩

theorem Keeps.noteClocks {events : List ClockEvent} (keeps : core.Keeps other) :
    core.Keeps (other.noteClocks events) :=
  keeps.trans (.same rfl rfl rfl rfl rfl)

theorem Keeps.updateClock {now : Word32} (keeps : core.Keeps other) :
    core.Keeps (other.updateClock prog now) :=
  keeps.trans (.same rfl rfl rfl rfl rfl)

theorem Steady.noteClocks {events : List ClockEvent} (steady : core.Steady other) :
    core.Steady (other.noteClocks events) :=
  steady.trans (.same rfl rfl fun c => by cases c <;> rfl)

theorem Steady.updateClock {now : Word32} (steady : core.Steady other) :
    core.Steady (other.updateClock prog now) :=
  .noteClocks (.modPd (.noteClocks steady) ⟨rfl, rfl⟩)

theorem assign_keeps (core : Core) (prog : ProgPtr) (rstart : Int) :
    core.Keeps (core.assign prog rstart) := by
  unfold Core.assign
  exact .modPd (.modProg (.note (.refl core)) fun _ => ⟨rfl, rfl, rfl, rfl⟩)

theorem assign_steady (core : Core) (prog : ProgPtr) (rstart : Int) :
    core.Steady (core.assign prog rstart) := by
  unfold Core.assign
  exact .modPd (.modProg (.note (.refl core))) ⟨rfl, rfl⟩

theorem assignAll_keeps (core : Core) (need : ProgPtr → Int) (progs : List ProgPtr) (rstart : Int) :
    core.Keeps (core.assignAll need progs rstart) := by
  induction progs generalizing core rstart with
  | nil => exact Keeps.refl core
  | cons prog later ih => exact (assign_keeps core prog rstart).trans (ih _ _)

theorem assignAll_steady (core : Core) (need : ProgPtr → Int) (progs : List ProgPtr)
    (rstart : Int) : core.Steady (core.assignAll need progs rstart) := by
  induction progs generalizing core rstart with
  | nil => exact Steady.refl core
  | cons prog later ih => exact (assign_steady core prog rstart).trans (ih _ _)

theorem sample_steady (prog : ProgPtr) (instrRetd : Word64) (accumulated : Nat → Word64) :
    core.Steady (core.sample prog instrRetd accumulated) :=
  .modPd (.modPd (.refl _) ⟨rfl, rfl⟩) ⟨rfl, rfl⟩

theorem charge_steady (prog : ProgPtr) (batches : List (Int × Nat)) :
    core.Steady (core.charge prog batches) := by
  have added : core.Steady (core.modPd prog fun pd =>
      { pd with instrRetdSum := (core.pds prog).instrRetdSum + (core.pds prog).instrRetd }) :=
    .modPd (.refl core) ⟨rfl, rfl⟩
  exact ⟨rfl, fun c => by cases c <;> rfl, added.killed, added.initId⟩

end Core

theorem Act.keeps (act : Act a effect) : a.core.Keeps (effect a.core) := by
  cases act with
  | halt => exact .modPd (.updateClock (.modProg (.refl _) fun _ => ⟨rfl, rfl, rfl, rfl⟩))
  | thaw =>
      exact .modProg (.noteClocks (.note (.modPd (.updateClock (.modPd (.refl _)))))) fun _ =>
        ⟨rfl, rfl, rfl, rfl⟩
  | carry => exact .modProg (.refl _) fun _ => ⟨rfl, rfl, rfl, rfl⟩
  | _ => exact .same rfl rfl rfl rfl rfl

theorem Act.steady (act : Act a effect) : a.core.Steady (effect a.core) := by
  cases act with
  | halt => exact .modPd (.updateClock (.modProg (.refl _))) ⟨rfl, rfl⟩
  | sample => exact Core.sample_steady _ _ _
  | sampleLast => exact (Core.Steady.updateClock (.refl _)).trans (Core.sample_steady _ _ _)
  | charge => exact Core.charge_steady _ _
  | thaw =>
      exact .modProg
        (.noteClocks (.note (.modPd (.updateClock (.modPd (.refl _) ⟨rfl, rfl⟩)) ⟨rfl, rfl⟩)))
  | carry => exact .modProg (.refl _)
  | _ => exact .same rfl rfl fun c => by cases c <;> rfl

theorem Move.keeps (move : Move exits a prog source target effect) :
    a.core.Keeps (effect a.core) := by
  cases move with
  | monitor => exact (Core.assign_keeps _ _ _).trans (.same rfl rfl rfl rfl rfl)
  | _ => exact .same rfl rfl rfl rfl rfl

end Frames

section Counters

/-- A move changes each counter by the difference of the weights. -/
theorem Move.counter (move : Move exits a prog source target effect) (c : Counter) :
    (effect a.core).counter c = a.core.counter c + (c.weight target - c.weight source) := by
  cases move with
  | monitor =>
      have steady :=
        (Core.assign_steady a.core prog (a.core.sched.monitorWnd.tmod maxCores)).counter c
      cases c <;> simp_all [Core.counter, Counter.weight, Core.bump, Core.modSched]
  | finish phase allowed found runs =>
      rcases runs with rfl | rfl <;> cases c <;>
        simp [Core.counter, Counter.weight, Core.recordEnd] <;> omega
  | _ => cases c <;> simp [Core.counter, Counter.weight, Core.arrive, Core.enter,
      Core.kill, Core.clear, Core.report, Core.modPd, Core.recordEnd, Core.retire,
        Core.free] <;> omega

/-- Programs that may run weigh the same whether they run or not. -/
theorem Counter.weight_sch (c : Counter) : c.weight .sch = c.weight .all := by
  cases c <;> rfl

theorem Move.source_born (move : Move exits a prog source target effect) : source ≠ .unborn := by
  cases move with
  | finish phase allowed found runs => rcases runs with rfl | rfl <;> decide
  | _ => decide

theorem Move.target_born (move : Move exits a prog source target effect) : target ≠ .unborn := by
  cases move <;> decide

/-- A slot that is not in use stays so. -/
theorem Move.live (move : Move exits a prog source target effect) (uses : target.live = true) :
    source.live = true := by
  cases move with
  | finish phase allowed found runs => rcases runs with rfl | rfl <;> rfl
  | _ => first | rfl | exact absurd uses (by decide)

end Counters

section Lists

variable {on : Lists} {other : ProgPtr} {head : Node} {home : Option Node}

theorem mem_leave (nodup : (on head).Nodup) :
    other ∈ Life.leave on prog home head ↔ other ∈ on head ∧ (home = some head → other ≠ prog) := by
  cases home with
  | none => simp [Life.leave]
  | some first =>
      by_cases same : first = head
      · subst same
        simp [Life.leave, Lists.drop, nodup.mem_erase_iff, and_comm]
      · simp [Life.leave, Lists.drop, Function.update_of_ne (Ne.symm same), same]

theorem mem_join :
    other ∈ Life.join on prog home head ↔ other ∈ on head ∨ home = some head ∧ other = prog := by
  cases home with
  | none => simp [Life.join]
  | some first =>
      by_cases same : first = head
      · subst same
        simp [Life.join, Lists.push]
      · simp [Life.join, Lists.push, Function.update_of_ne (Ne.symm same), same]

theorem nodup_leave (nodup : (on head).Nodup) : (Life.leave on prog home head).Nodup := by
  cases home with
  | none => exact nodup
  | some first =>
      by_cases same : first = head
      · subst same
        simpa [Life.leave, Lists.drop] using nodup.erase prog
      · simpa [Life.leave, Lists.drop, Function.update_of_ne (Ne.symm same)] using nodup

theorem nodup_join (nodup : (on head).Nodup) (fresh : prog ∉ on head) :
    (Life.join on prog home head).Nodup := by
  cases home with
  | none => exact nodup
  | some first =>
      by_cases same : first = head
      · subst same
        simpa [Life.join, Lists.push, List.nodup_append] using
          ⟨nodup, fun p there equal => fresh (equal ▸ there)⟩
      · simpa [Life.join, Lists.push, Function.update_of_ne (Ne.symm same)] using nodup

end Lists

/-- The lists hold the programs whose places belong to them. -/
structure Life.Listed (a : Life) : Prop where
  mem : ∀ head ∈ lifeHeads, ∀ p, p ∈ a.on head ↔ (a.place p).home = some head
  nodup : ∀ head ∈ lifeHeads, (a.on head).Nodup

theorem Life.Listed.transfer (listed : a.Listed) (prog : ProgPtr) (k : Place) :
    (a.transfer prog k).Listed where
  mem head member p := by
    unfold Life.transfer
    rw [mem_join, mem_leave (listed.nodup head member), listed.mem head member]
    by_cases equal : p = prog
    · subst equal
      simp
    · simp [equal]
  nodup head member := by
    unfold Life.transfer
    refine nodup_join (nodup_leave (listed.nodup head member)) fun there => ?_
    rw [mem_leave (listed.nodup head member), listed.mem head member] at there
    exact there.2 there.1 rfl

theorem Life.Listed.decide (listed : a.Listed) {picked rest : List ProgPtr}
    (idle : a.on .progsSch = []) (perm : (picked ++ rest).Perm (a.on .progsAll)) (core : Core) :
    Life.Listed
      { a with
        place := fun prog => if prog ∈ picked then .sch else a.place prog
        on := Function.update (Function.update a.on .progsAll rest) .progsSch picked
        core := core } := by
  have nodup := perm.nodup_iff.mpr (listed.nodup .progsAll (by simp [lifeHeads]))
  have inAll : ∀ p, p ∈ picked ∨ p ∈ rest ↔ (a.place p).home = some .progsAll := fun p => by
    rw [← listed.mem .progsAll (by simp [lifeHeads]), ← perm.mem_iff, List.mem_append]
  have notSch : ∀ p, (a.place p).home ≠ some .progsSch := fun p there => by
    rw [← listed.mem .progsSch (by simp [lifeHeads]), idle] at there
    exact absurd there (by simp)
  constructor
  case mem =>
    intro head member p
    dsimp only
    have here := inAll p
    by_cases isPicked : p ∈ picked
    · rw [if_pos isPicked]
      have notRest : p ∉ rest := fun there =>
        (List.nodup_append.mp nodup).2.2 p isPicked p there rfl
      have all := here.mp (.inl isPicked)
      have other := listed.mem head member p
      rw [all] at other
      simp only [lifeHeads, List.mem_cons, List.not_mem_nil, or_false] at member
      rcases member with rfl | rfl | rfl | rfl <;> simp [Place.home, isPicked, notRest] <;>
        simpa using other
    · rw [if_neg isPicked]
      have other := listed.mem head member p
      have away := notSch p
      simp only [lifeHeads, List.mem_cons, List.not_mem_nil, or_false] at member
      rcases member with rfl | rfl | rfl | rfl
      · simpa [isPicked] using here
      · simpa [isPicked] using away
      · simpa using other
      · simpa using other
  case nodup =>
    intro head member
    have other := listed.nodup head member
    simp only [lifeHeads, List.mem_cons, List.not_mem_nil, or_false] at member
    rcases member with rfl | rfl | rfl | rfl
    · simpa using (List.nodup_append.mp nodup).2.1
    · simpa using (List.nodup_append.mp nodup).1
    · simpa using other
    · simpa using other

/-- The programs whose exits the executor waits for. -/
def Place.expected : Place → Bool
  | .all | .sch | .killed => true
  | _ => false

/-- The hash table leads from the shells of programs to these programs. -/
def Life.Hashed (a : Life) : Prop :=
  ∀ pid p, hashLookup a.core.progPidHash pid = some p →
    (a.core.progs p).shellPid = pid ∧ (a.place p).expected = true

/-- What holds of the programs in every state. -/
structure Life.Sound (a : Life) : Prop where
  unborn : ∀ p, a.place p = .unborn ↔ a.core.progsAllocated ≤ p
  listed : a.Listed
  spared : ∀ p, (a.place p).spared = true → (a.core.pds p).killed = false
  dead : ∀ p, (a.place p).dead = true → (a.core.pds p).killed = true
  hashed : a.Hashed
  counter : ∀ c : Counter, a.core.counter c = tally c.weight a.core.progsAllocated a.place
  stopped : a.core.sched.stopExecution = true → a.Empty
  closed : Event.printTotals ∈ a.core.log → a.Empty
  clocked : a.Clocked
  charged : a.Charged

section Preservation

theorem Life.Sound.allocated (sound : a.Sound) (born : a.place prog ≠ .unborn) :
    prog < a.core.progsAllocated := by
  by_contra outside
  exact born ((sound.unborn prog).mpr (Nat.not_lt.mp outside))

theorem Life.Hashed.recordEnd (hashed : a.Hashed) {known pid : Nat} {p : ProgPtr}
    (found : hashLookup a.core.progPidHash known = some prog)
    (later : hashLookup (Core.recordEnd prog known a.core).progPidHash pid = some p) :
    hashLookup a.core.progPidHash pid = some p ∧ p ≠ prog := by
  simp only [Core.recordEnd, hashLookup_delete] at later
  split at later
  · exact absurd later (by simp)
  · next other =>
      refine ⟨later, fun same => other ?_⟩
      subst same
      exact (hashed pid p later).1.symm.trans (hashed known p found).1

theorem Move.lookup (move : Move exits a prog source target effect) (hashed : a.Hashed) {pid : Nat}
    {p : ProgPtr} (found : hashLookup (effect a.core).progPidHash pid = some p) :
    (target = .all ∧ p = prog ∧ pid = (a.core.progs prog).shellPid) ∨
      hashLookup a.core.progPidHash pid = some p ∧
        (source.expected = true → target.expected = true ∨ p ≠ prog) := by
  cases move with
  | enter some fresh =>
      simp only [Core.enter, hashLookup_insert] at found
      by_cases same : pid = (a.core.progs prog).shellPid
      · rw [if_pos same, Option.some_inj] at found
        exact .inl ⟨rfl, found.symm, same⟩
      · rw [if_neg same] at found
        exact .inr ⟨found, fun expected => absurd expected (by decide)⟩
  | kill =>
      simp only [Core.kill, Core.clear, hashLookup_delete] at found
      split at found
      · exact absurd found (by simp)
      · exact .inr ⟨found, fun _ => .inl rfl⟩
  | finish phase allowed known =>
      have gone := hashed.recordEnd known found
      exact .inr ⟨gone.1, fun _ => .inr gone.2⟩
  | reap phase allowed known =>
      have gone := hashed.recordEnd known found
      exact .inr ⟨gone.1, fun _ => .inr gone.2⟩
  | monitor =>
      have steady := Core.assign_steady a.core prog (a.core.sched.monitorWnd.tmod maxCores)
      exact .inr ⟨steady.progPidHash ▸ found, fun _ => .inl rfl⟩
  | gather => exact .inr ⟨found, fun _ => .inl rfl⟩
  | _ => exact .inr ⟨found, fun expected => absurd expected (by decide)⟩

theorem Move.hashed (move : Move exits a prog source target effect) (here : a.place prog = source)
    (hashed : a.Hashed) : ((a.transfer prog target).act effect).Hashed := by
  intro pid p found
  have shell : ((effect a.core).progs p).shellPid = (a.core.progs p).shellPid :=
    move.keeps.shellPid p
  rcases move.lookup hashed found with ⟨isAll, rfl, same⟩ | ⟨before, expected⟩
  · exact ⟨shell.trans same.symm, by simp [isAll, Place.expected]⟩
  · obtain ⟨known, waits⟩ := hashed pid p before
    refine ⟨shell.trans known, ?_⟩
    by_cases equal : p = prog
    · subst equal
      rw [here] at waits
      simpa using (expected waits).resolve_right fun differs => differs rfl
    · simpa [equal] using waits

theorem Move.killed (move : Move exits a prog source target effect) (p : ProgPtr)
    (other : p ≠ prog) : ((effect a.core).pds p).killed = (a.core.pds p).killed := by
  cases move with
  | enter => simp [Core.enter, other]
  | kill => simp [Core.kill, Core.clear, Core.report, Core.modPd, other]
  | monitor => exact (Core.assign_steady a.core prog _).killed p
  | _ => rfl

theorem Move.marks (move : Move exits a prog source target effect) :
    (target.spared = true → (source.spared = true → (a.core.pds prog).killed = false) →
      ((effect a.core).pds prog).killed = false) ∧
    (target.dead = true → (source.dead = true → (a.core.pds prog).killed = true) →
      ((effect a.core).pds prog).killed = true) := by
  cases move with
  | enter some fresh =>
      refine ⟨fun _ _ => ?_, fun dead => absurd dead (by decide)⟩
      simpa [Core.enter] using fresh.killed
  | kill =>
      refine ⟨fun spared => absurd spared (by decide), fun _ _ => ?_⟩
      simp [Core.kill, Core.clear, Core.report, Core.modPd]
  | monitor =>
      refine ⟨fun _ alive => ?_, fun dead => absurd dead (by decide)⟩
      exact ((Core.assign_steady a.core prog _).killed prog).trans (alive rfl)
  | finish phase allowed found runs =>
      refine ⟨fun _ alive => alive ?_, fun dead => absurd dead (by decide)⟩
      rcases runs with rfl | rfl <;> rfl
  | _ =>
      first
        | exact ⟨fun spared => absurd spared (by decide), fun dead => absurd dead (by decide)⟩
        | exact ⟨fun _ alive => alive rfl, fun dead => absurd dead (by decide)⟩
        | exact ⟨fun spared => absurd spared (by decide), fun _ killed => killed rfl⟩

/-- No program moves once all slots are retired, but to be freed. -/
theorem Life.Empty.transfer (empty : a.Empty) (move : Move exits a prog source target effect)
    (here : a.place prog = source) : ((a.transfer prog target).act effect).Empty := by
  intro p
  by_cases equal : p = prog
  · subst equal
    have idle := empty p
    rw [here] at idle
    simp only [Life.act_place, Life.transfer_place, Function.update_self]
    by_contra uses
    rw [move.live (by simpa using uses)] at idle
    exact absurd idle (by decide)
  · simpa [equal] using empty p

theorem Move.stopExecution (move : Move exits a prog source target effect) :
    (effect a.core).sched.stopExecution = a.core.sched.stopExecution := by
  cases move <;> rfl

/-- A run that is to stop stays so. -/
theorem Step.stays_stopped (step : Step exits a b) (stopped : a.core.sched.stopExecution = true) :
    b.core.sched.stopExecution = true := by
  cases step with
  | move here move => exact (move.stopExecution).trans stopped
  | act act => cases act <;> first | exact stopped | rfl
  | @decide picked rest =>
      exact (congrArg SchedCore.stopExecution (Core.assignAll_sched a.core _ picked 0)).trans
        stopped
  | _ => exact stopped

theorem Steps.stays_stopped (steps : Steps exits a b)
    (stopped : a.core.sched.stopExecution = true) :
    b.core.sched.stopExecution = true := by
  induction steps with
  | refl => exact stopped
  | tail _ step ih => exact step.stays_stopped ih

theorem Move.printTotals (move : Move exits a prog source target effect) :
    Event.printTotals ∈ (effect a.core).log ↔ Event.printTotals ∈ a.core.log := by
  cases move <;> simp [Core.arrive, Core.enter, Core.bump, Core.modSched, Core.assign, Core.modPd,
    Core.modProg, Core.note, Core.kill, Core.clear, Core.report, Core.recordEnd,
      Core.retire, Core.free]

theorem Life.Sound.move (sound : a.Sound) (here : a.place prog = source)
    (move : Move exits a prog source target effect) :
    ((a.transfer prog target).act effect).Sound := by
  have born : prog < a.core.progsAllocated := sound.allocated (here ▸ move.source_born)
  constructor
  case unborn =>
    intro p
    simp only [Life.act_place, Life.transfer_place, Life.act_core, Life.transfer_core,
      move.keeps.progsAllocated]
    by_cases equal : p = prog
    · subst equal
      simp [move.target_born, born]
    · rw [Function.update_of_ne equal]
      exact sound.unborn p
  case listed =>
    have listed := sound.listed.transfer prog target
    exact ⟨listed.mem, listed.nodup⟩
  case spared =>
    intro p spared
    by_cases equal : p = prog
    · subst equal
      simp only [Life.act_place, Life.transfer_place, Function.update_self] at spared
      exact move.marks.1 spared fun before => sound.spared p (here ▸ before)
    · simp only [Life.act_place, Life.transfer_place, Function.update_of_ne equal] at spared
      exact (move.killed p equal).trans (sound.spared p spared)
  case dead =>
    intro p dead
    by_cases equal : p = prog
    · subst equal
      simp only [Life.act_place, Life.transfer_place, Function.update_self] at dead
      exact move.marks.2 dead fun before => sound.dead p (here ▸ before)
    · simp only [Life.act_place, Life.transfer_place, Function.update_of_ne equal] at dead
      exact (move.killed p equal).trans (sound.dead p dead)
  case hashed => exact move.hashed here sound.hashed
  case counter =>
    intro c
    simp only [Life.act_place, Life.transfer_place, Life.act_core, Life.transfer_core,
      move.keeps.progsAllocated]
    rw [move.counter c, sound.counter c, tally_update born, here]
  case stopped =>
    intro stops
    exact (sound.stopped (move.stopExecution ▸ stops)).transfer move here
  case closed =>
    intro printed
    exact (sound.closed (move.printTotals.mp printed)).transfer move here
  case clocked => exact sound.clocked.move here move
  case charged => exact sound.charged.move sound.clocked here move

theorem Act.printTotals (act : Act a effect) (printed : Event.printTotals ∈ (effect a.core).log) :
    Event.printTotals ∈ a.core.log ∨ a.Empty := by
  cases act with
  | close empty => exact .inr empty
  | _ =>
      left
      simpa [Core.readEpochs, Core.modSched, Core.halt, Core.modPd, Core.modProg, Core.sample,
        Core.sampleLast, Core.copyStats, Core.note, Core.noteClocks, Core.charge, Core.bump,
          Core.tick, Core.thaw,
        Core.zeroEpochs, Core.carry, Core.stop] using printed

theorem Act.stopExecution (act : Act a effect)
    (stops : (effect a.core).sched.stopExecution = true) :
    a.core.sched.stopExecution = true ∨ a.Empty := by
  cases act with
  | stop empty => exact .inr empty
  | _ => exact .inl stops

/-- A change of the core that does not concern the places keeps the programs sound. -/
theorem Life.Sound.recore (sound : a.Sound) {core : Core} (keeps : a.core.Keeps core)
    (steady : a.core.Steady core)
    (stopped : core.sched.stopExecution = true → a.core.sched.stopExecution = true ∨ a.Empty)
    (closed : Event.printTotals ∈ core.log → Event.printTotals ∈ a.core.log ∨ a.Empty)
    (phase : Phase) (clocked : Life.Clocked { a with core := core, phase := phase })
    (charged : Life.Charged { a with core := core, phase := phase }) :
    Life.Sound { a with core := core, phase := phase } where
  unborn p := by simpa [keeps.progsAllocated] using sound.unborn p
  listed := ⟨sound.listed.mem, sound.listed.nodup⟩
  spared p spared := (steady.killed p).trans (sound.spared p spared)
  dead p dead := (steady.killed p).trans (sound.dead p dead)
  hashed pid p found := by
    have before := sound.hashed pid p (steady.progPidHash ▸ found)
    exact ⟨(keeps.shellPid p).trans before.1, before.2⟩
  counter c := by
    rw [steady.counter c, keeps.progsAllocated, sound.counter c]
  stopped stops := by
    rcases stopped stops with before | empty
    · exact sound.stopped before
    · exact empty
  closed printed := by
    rcases closed printed with before | empty
    · exact sound.closed before
    · exact empty
  clocked := clocked
  charged := charged

theorem Life.Sound.act (sound : a.Sound) (act : Act a effect) : (a.act effect).Sound :=
  sound.recore act.keeps act.steady act.stopExecution act.printTotals a.phase
    (sound.clocked.act act)
    (sound.charged.act act)

theorem Life.Sound.phase (sound : a.Sound) (phase : Phase)
    (awake : phase = .running → ∀ p, a.place p = .sch → (a.core.pds p).runStatus = .running)
    (charged : Life.Charged { a with phase := phase }) : Life.Sound { a with phase := phase } :=
  sound.recore (.refl _) (.refl _) .inl .inl phase
    ⟨sound.clocked.ticking, sound.clocked.idle, awake⟩ charged

theorem Life.Sound.wake (sound : a.Sound) (choosing : a.phase = .choosing)
    (thawing : ∀ p, a.place p = .sch → a.Thawing p) :
    Life.Sound { a with phase := .running, core := a.core.newEpoch } := by
  have keeps : a.core.Keeps a.core.newEpoch := .same rfl rfl rfl rfl rfl
  have steady : a.core.Steady a.core.newEpoch := .same rfl rfl fun c => by cases c <;> rfl
  refine sound.recore keeps steady .inl .inl .running
    ⟨fun p ticks => ?_, sound.clocked.idle, fun _ p listed => ?_⟩
    (sound.charged.wake choosing thawing)
  · exact (sound.clocked.ticking p ticks).unclocked (.same (fun _ => ⟨rfl, rfl⟩) rfl)
  · exact (thawing p listed).1.2

theorem Life.Sound.unlisted (sound : a.Sound) (idle : a.on .progsSch = []) (p : ProgPtr) :
    a.place p ≠ .sch := by
  intro here
  have listed := (sound.listed.mem .progsSch (by simp [lifeHeads]) p).mpr (by rw [here]; rfl)
  rw [idle] at listed
  exact absurd listed (by simp)

theorem Core.assignAll_printTotals (core : Core) (need : ProgPtr → Int) (progs : List ProgPtr)
    (rstart : Int) : Event.printTotals ∈ (core.assignAll need progs rstart).log ↔
      Event.printTotals ∈ core.log := by
  induction progs generalizing core rstart with
  | nil => rfl
  | cons prog later ih =>
      rw [assignAll, ih]
      simp [assign, modPd, modProg, note]

theorem Life.Sound.place_picked (sound : a.Sound) {picked rest : List ProgPtr}
    (perm : (picked ++ rest).Perm (a.on .progsAll)) (member : prog ∈ picked) :
    a.place prog = .all := by
  have listed := (sound.listed.mem .progsAll (by simp [lifeHeads]) prog).mp
    (perm.subset (List.mem_append_left rest member))
  revert listed
  cases a.place prog <;> simp [Place.home]

theorem Life.Sound.decide (sound : a.Sound) {picked rest : List ProgPtr}
    (phase : a.phase = .choosing) (idle : a.on .progsSch = [])
    (perm : (picked ++ rest).Perm (a.on .progsAll)) (need : ProgPtr → Int) :
    Life.Sound
      { a with
        place := fun prog => if prog ∈ picked then .sch else a.place prog
        on := Function.update (Function.update a.on .progsAll rest) .progsSch picked
        core := a.core.assignAll need picked 0 } := by
  have keeps := Core.assignAll_keeps a.core need picked 0
  have steady := Core.assignAll_steady a.core need picked 0
  have waits : ∀ p ∈ picked, a.place p = .all := fun p member => sound.place_picked perm member
  constructor
  case unborn =>
    intro p
    simp only [keeps.progsAllocated]
    rw [← sound.unborn p]
    by_cases member : p ∈ picked
    · simp [member, waits p member]
    · simp [member]
  case listed => exact sound.listed.decide idle perm _
  case spared =>
    intro p spared
    refine (steady.killed p).trans (sound.spared p ?_)
    by_cases member : p ∈ picked
    · rw [waits p member]
      rfl
    · simpa [member] using spared
  case dead =>
    intro p dead
    refine (steady.killed p).trans (sound.dead p ?_)
    by_cases member : p ∈ picked
    · simp [member, Place.dead] at dead
    · simpa [member] using dead
  case hashed =>
    intro pid p found
    obtain ⟨known, expected⟩ := sound.hashed pid p (steady.progPidHash ▸ found)
    refine ⟨(keeps.shellPid p).trans known, ?_⟩
    by_cases member : p ∈ picked
    · simp [member, Place.expected]
    · simpa [member] using expected
  case counter =>
    intro c
    simp only [steady.counter c, keeps.progsAllocated, sound.counter c]
    refine (tally_congr fun p _ => ?_).symm
    by_cases member : p ∈ picked
    · simp only [if_pos member, waits p member, c.weight_sch]
    · simp only [if_neg member]
  case stopped =>
    intro stops p
    rw [Core.assignAll_sched] at stops
    have empty := sound.stopped stops p
    by_cases member : p ∈ picked
    · rw [waits p member] at empty
      exact absurd empty (by decide)
    · simpa [member] using empty
  case closed =>
    intro printed p
    have empty := sound.closed ((Core.assignAll_printTotals ..).mp printed) p
    by_cases member : p ∈ picked
    · rw [waits p member] at empty
      exact absurd empty (by decide)
    · simpa [member] using empty
  case clocked =>
    have alone := Core.assignAll_unclocked a.core need picked 0
    constructor
    case ticking =>
      intro p ticks
      refine Core.Ticking.unclocked (sound.clocked.ticking p ?_) (alone p)
      by_cases member : p ∈ picked
      · rw [waits p member]
        rfl
      · simpa [member] using ticks
    case idle =>
      intro p here
      have outside : p ∉ picked := fun member => by simp [member] at here
      exact (alone p).runStatus.trans (sound.clocked.idle p (by simpa [outside] using here))
    case awake =>
      intro running
      exact absurd (phase.symm.trans running) (by decide)
  case charged => exact sound.charged.decide sound.clocked phase waits (sound.unlisted idle) _ _

theorem Life.Sound.respawn (sound : a.Sound) {born : ProgCore} (here : a.place prog = .reported) :
    Life.Sound
      { a with
        place := Function.update (Function.update a.place prog .spent)
          a.core.progsAllocated .waiting
        core := a.core.bear prog born } := by
  have old : prog < a.core.progsAllocated := sound.allocated (by simp [here])
  have fresh : a.place a.core.progsAllocated = .unborn := (sound.unborn _).mpr le_rfl
  have differs : prog ≠ a.core.progsAllocated := old.ne
  have uses : ¬ a.Empty := fun empty => by simpa [here, Place.live] using empty prog
  have place : ∀ p, Function.update (Function.update a.place prog .spent)
      a.core.progsAllocated .waiting p =
      if p = a.core.progsAllocated then .waiting else if p = prog then .spent else a.place p := by
    intro p
    simp only [Function.update_apply]
  constructor
  case unborn =>
    intro p
    simp only [place, Core.bear]
    by_cases new : p = a.core.progsAllocated
    · subst new
      simp
    · by_cases same : p = prog
      · rw [if_neg new, if_pos same, same]
        exact ⟨Place.noConfusion, fun outside => absurd (Nat.lt_of_succ_le outside) old.not_gt⟩
      · rw [if_neg new, if_neg same, sound.unborn p]
        exact ⟨fun outside => Nat.lt_of_le_of_ne outside (Ne.symm new), Nat.le_of_succ_le⟩
  case listed =>
    constructor
    case nodup => exact sound.listed.nodup
    case mem =>
      intro head member p
      simp only [place]
      rw [sound.listed.mem head member p]
      by_cases new : p = a.core.progsAllocated
      · subst new
        simp [fresh, Place.home]
      · by_cases same : p = prog
        · subst same
          simp [new, here, Place.home]
        · simp [new, same]
  case spared =>
    intro p spared
    simp only [place] at spared
    refine sound.spared p ?_
    by_cases new : p = a.core.progsAllocated
    · simp [new, Place.spared] at spared
    · by_cases same : p = prog
      · subst same
        rw [here]
        rfl
      · simpa [new, same] using spared
  case dead =>
    intro p dead
    simp only [place] at dead
    refine sound.dead p ?_
    by_cases new : p = a.core.progsAllocated
    · simp [new, Place.dead] at dead
    · by_cases same : p = prog
      · simp [same, differs, Place.dead] at dead
      · simpa [new, same] using dead
  case hashed =>
    intro pid p found
    obtain ⟨known, expected⟩ := sound.hashed pid p found
    have old : p ≠ a.core.progsAllocated := fun same => by
      simp [same, fresh, Place.expected] at expected
    have other : p ≠ prog := fun same => by simp [same, here, Place.expected] at expected
    simp only [place, if_neg old, if_neg other, Core.bear, Function.update_of_ne old]
    exact ⟨known, expected⟩
  case counter =>
    intro c
    have grown : tally c.weight (a.core.progsAllocated + 1)
        (Function.update (Function.update a.place prog .spent) a.core.progsAllocated .waiting) =
        tally c.weight a.core.progsAllocated a.place + (c.weight .spent - c.weight .reported) +
          c.weight .waiting := by
      rw [tally_succ, tally_update_outside le_rfl, tally_update old, here, Function.update_self]
    have counted := sound.counter c
    simp only [Core.bear]
    rw [grown, ← counted]
    cases c <;> simp [Core.counter, Counter.weight]
  case stopped => exact fun stops => absurd (sound.stopped stops) uses
  case closed =>
    intro printed
    simp only [Core.bear, List.mem_append, List.mem_cons, List.not_mem_nil, or_false,
      reduceCtorEq] at printed
    exact absurd (sound.closed printed) uses
  case clocked =>
    have alone : ∀ p, Core.Unclocked p a.core (a.core.bear prog born) := fun p =>
      .same (fun _ => ⟨rfl, rfl⟩) rfl
    have earlier : ∀ p k, k ≠ .waiting → k ≠ .spent →
        Function.update (Function.update a.place prog .spent) a.core.progsAllocated .waiting p = k →
          a.place p = k :=
      fun p k waits spent here => by
        rw [place] at here
        split at here
        · exact absurd here.symm waits
        · split at here
          · exact absurd here.symm spent
          · exact here
    constructor
    case ticking =>
      intro p ticks
      refine (sound.clocked.ticking p ?_).unclocked (alone p)
      have differs : ∀ k : Place, k.ticks = false →
          Function.update (Function.update a.place prog .spent) a.core.progsAllocated
            .waiting p ≠ k :=
        fun k still here => by
          have ticks : (Function.update (Function.update a.place prog .spent) a.core.progsAllocated
              .waiting p).ticks =
            true := ticks
          rw [here, still] at ticks
          exact absurd ticks (by decide)
      rw [earlier p _ (differs .waiting rfl) (differs .spent rfl) rfl]
      exact ticks
    case idle =>
        exact fun p here => sound.clocked.idle p (earlier p .all (by decide) (by decide) here)
    case awake => exact fun phase p here =>
        sound.clocked.awake phase p (earlier p .sch (by decide) (by decide) here)
  case charged => exact sound.charged.respawn fresh

theorem Life.Sound.step (sound : a.Sound) (step : Step exits a b) : b.Sound := by
  cases step with
  | move here move => exact sound.move here move
  | act act => exact sound.act act
  | freeze phase none =>
      exact sound.phase .settling nofun (sound.charged.phase _ (fun _ _ => ⟨phase, rfl⟩) nofun)
  | choose phase idle =>
      exact sound.phase .choosing nofun
        (sound.charged.phase _ (fun p here => absurd here (sound.unlisted idle p)) nofun)
  | wake phase thawing => exact sound.wake phase thawing
  | abandon phase idle empty =>
      refine sound.phase .running (fun _ p here => absurd here (sound.unlisted idle p))
        (sound.charged.phase _ (fun p here => absurd here (sound.unlisted idle p)) fun _ p => ?_)
      have free := empty p
      cases here : a.place p <;> simp [here, Place.live, Place.ticks] at free ⊢
  | decide phase idle perm => exact sound.decide phase idle perm _
  | respawn here => exact sound.respawn here

theorem Life.Sound.steps (sound : a.Sound) (steps : Steps exits a b) : b.Sound := by
  induction steps with
  | refl => exact sound
  | tail _ step ih => exact ih.step step

/-- The programs on a list, counted by their places. -/
theorem Life.Sound.length_on (sound : a.Sound) {head : Node} (member : head ∈ lifeHeads) {k : Place}
    (home : ∀ other : Place, other.home = some head ↔ other = k) :
    tally (fun other => if other = k then 1 else 0) a.core.progsAllocated a.place =
      (a.on head).length := by
  refine tally_eq_length k (sound.listed.nodup head member) fun p => ?_
  rw [sound.listed.mem head member p, home]
  refine ⟨fun here => ⟨sound.allocated fun unborn => ?_, here⟩, fun here => here.2⟩
  have listed := (home _).mpr here
  rw [unborn] at listed
  exact absurd listed (by simp [Place.home])

end Preservation

end BachScheduler
