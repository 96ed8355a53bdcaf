import BachScheduler.LinuxLife

/-!
# What every step under the `linux` policy keeps

The places agree with the lists, with the marks of the killed programs and with the counters of
the executor, and the instances of a slot come one after the other: a slot goes on only from a
program that has ended by itself, and a killed one holds its slot until its exit comes in.
-/

namespace BachScheduler

open BachScheduler.Ring Census Lineage

variable {rules : LinuxRules} {a b : LinuxLife} {prog : ProgPtr} {source target : Place}
variable {effect : LinuxCore → LinuxCore} {n : Nat}

section Fits

/-- The counters of the executor that are kept while programs move. -/
inductive LinuxCounter where
  | waitingNr
  | newNr
  | runningNr
  deriving DecidableEq, Repr

/-- The value of a counter. -/
def LinuxCore.counter (c : LinuxCore) : LinuxCounter → Int
  | .waitingNr => c.core.waitingNr
  | .newNr => c.core.newNr
  | .runningNr => c.core.runningNr

/-- What a program adds to a counter at its place. -/
def LinuxCounter.weight : LinuxCounter → Place → Int
  | .waitingNr, .waiting => 1
  | .newNr, .new => 1
  | .runningNr, .all | .runningNr, .killed => 1
  | _, _ => 0

/-- The lists hold the programs whose places belong to them. -/
structure LinuxLife.Listed (a : LinuxLife) : Prop where
  mem : ∀ head ∈ linuxHeads, ∀ p, p ∈ a.on head ↔ (a.place p).linuxHome = some head
  nodup : ∀ head ∈ linuxHeads, (a.on head).Nodup

/-- The places that occur under the `linux` policy. -/
def Place.underLinux : Place → Bool
  | .unborn | .waiting | .new | .all | .killed | .finished | .reaped | .gone | .buried => true
  | _ => false

/-- What holds of the programs in every state. -/
structure LinuxLife.Fits (a : LinuxLife) : Prop where
  unborn : ∀ p, a.place p = .unborn ↔ a.core.core.progsAllocated ≤ p
  listed : a.Listed
  known : ∀ p, (a.place p).underLinux = true
  spared : ∀ p, (a.place p).spared = true → a.core.killed p = false
  dead : ∀ p, (a.place p).dead = true → a.core.killed p = true
  hashed : ∀ pid p, hashLookup a.core.core.progPidHash pid = some p →
    (a.core.core.progs p).shellPid = pid ∧ (a.place p = .all ∨ a.place p = .killed)
  counter : ∀ c : LinuxCounter, a.core.counter c = tally c.weight a.core.core.progsAllocated a.place
  qt : a.core.core.qt = ⟨0, 200000⟩

theorem LinuxLife.Fits.allocated (fits : a.Fits) (born : a.place prog ≠ .unborn) :
    prog < a.core.core.progsAllocated := by
  by_contra outside
  exact born ((fits.unborn prog).mpr (Nat.not_lt.mp outside))

theorem LinuxLife.Listed.transfer (listed : a.Listed) (prog : ProgPtr) (k : Place) :
    (a.transfer prog k).Listed where
  mem head member p := by
    unfold LinuxLife.transfer
    rw [mem_join, mem_leave (listed.nodup head member), listed.mem head member]
    by_cases equal : p = prog
    · subst equal
      simp
    · simp [equal]
  nodup head member := by
    unfold LinuxLife.transfer
    refine nodup_join (nodup_leave (listed.nodup head member)) fun there => ?_
    rw [mem_leave (listed.nodup head member), listed.mem head member] at there
    exact there.2 there.1 rfl

theorem LinuxMove.born (move : LinuxMove a prog source target effect) :
    source ≠ .unborn ∧ target ≠ .unborn := by
  cases move <;> decide

theorem LinuxCore.settle_same (c : LinuxCore) :
    c.settle.killed = c.killed ∧ c.settle.initId = c.initId ∧ c.settle.progsLeft = c.progsLeft ∧
      c.settle.core.progPidHash = c.core.progPidHash ∧ ∀ k, c.settle.counter k = c.counter k := by
  rcases c.settle_cases with same | ⟨-, printed⟩
  · rw [same]
    exact ⟨rfl, rfl, rfl, rfl, fun _ => rfl⟩
  · rw [printed]
    exact ⟨rfl, rfl, rfl, rfl, fun k => by cases k <;> rfl⟩

/-- A move changes each counter by the difference of the weights. -/
theorem LinuxMove.counter (move : LinuxMove a prog source target effect) (c : LinuxCounter) :
    (effect a.core).counter c = a.core.counter c + (c.weight target - c.weight source) := by
  cases move with
  | conclude =>
      have same : (a.core.retire prog).settle.counter c = a.core.counter c :=
        ((a.core.retire prog).settle_same.2.2.2.2 c).trans (by cases c <;> rfl)
      cases c <;> simpa [LinuxCore.counter, LinuxCounter.weight, LinuxCore.conclude, LinuxCore.lift,
        Core.note] using same
  | _ => cases c <;> simp [LinuxCore.counter, LinuxCounter.weight, LinuxCore.lift, Core.arrive,
      LinuxCore.enter, Core.enroll, Core.modProg, Core.recordEnd, Core.note] <;> omega

theorem LinuxMove.lookup (move : LinuxMove a prog source target effect) (fits : a.Fits) {pid : Nat}
    {p : ProgPtr} (found : hashLookup (effect a.core).core.progPidHash pid = some p) :
    (target = .all ∧ p = prog ∧ pid = (a.core.core.progs prog).shellPid) ∨
      hashLookup a.core.core.progPidHash pid = some p ∧
        (p = prog → source ≠ .all ∧ source ≠ .killed) := by
  have recorded : ∀ known, hashLookup a.core.core.progPidHash known = some prog →
      hashLookup (hashDelete a.core.core.progPidHash known).2 pid = some p →
      hashLookup a.core.core.progPidHash pid = some p ∧ p ≠ prog := by
    intro known before after
    rw [hashLookup_delete] at after
    split at after
    · exact absurd after (by simp)
    · next other =>
        refine ⟨after, fun same => other ?_⟩
        subst same
        exact (fits.hashed pid p after).1.symm.trans (fits.hashed known p before).1
  cases move with
  | enter some =>
      simp only [LinuxCore.enter, Core.modProg, Core.enroll, hashLookup_insert] at found
      by_cases same : pid = (a.core.core.progs prog).shellPid
      · rw [if_pos same, Option.some_inj] at found
        exact .inl ⟨rfl, found.symm, same⟩
      · rw [if_neg same] at found
        exact .inr ⟨found, fun _ => by decide⟩
  | finish known =>
      obtain ⟨before, differs⟩ := recorded _ known found
      exact .inr ⟨before, fun equal => absurd equal differs⟩
  | reap known =>
      obtain ⟨before, differs⟩ := recorded _ known found
      exact .inr ⟨before, fun equal => absurd equal differs⟩
  | conclude =>
      have same : (a.core.retire prog).settle.core.progPidHash = _ :=
        (a.core.retire prog).settle_same.2.2.2.1
      have found : hashLookup (a.core.retire prog).settle.core.progPidHash pid = some p := found
      rw [same] at found
      exact .inr ⟨found, fun _ => by decide⟩
  | _ => exact .inr ⟨found, fun _ => by decide⟩

theorem LinuxMove.killed (move : LinuxMove a prog source target effect) :
    (∀ p, p ≠ prog → (effect a.core).killed p = a.core.killed p) ∧
      ((effect a.core).killed prog = a.core.killed prog ∧
        (target.spared = true → source.spared = true) ∧
        (target.dead = true → source.dead = true) ∨
        (effect a.core).killed prog = false ∧ target.dead = false) := by
  cases move with
  | enter some =>
      refine ⟨fun p differs => ?_, .inr ⟨?_, rfl⟩⟩
      · simp [LinuxCore.enter, differs]
      · simp [LinuxCore.enter]
  | conclude =>
      have same := (a.core.retire prog).settle_same.1
      exact ⟨fun p _ => congrFun same p,
        .inl ⟨congrFun same prog, fun _ => rfl, fun dead => absurd dead (by decide)⟩⟩
  | _ => exact ⟨fun _ _ => rfl, .inl ⟨rfl, by decide, by decide⟩⟩

theorem LinuxLife.Fits.move (fits : a.Fits) (here : a.place prog = source)
    (move : LinuxMove a prog source target effect) :
    ((a.transfer prog target).act effect).Fits := by
  have follows := move.follows
  have number : (effect a.core).core.progsAllocated = a.core.core.progsAllocated :=
    follows.progsAllocated
  have small : prog < a.core.core.progsAllocated := fits.allocated (here ▸ move.born.1)
  constructor
  case unborn =>
    intro p
    rw [LinuxLife.act_place, LinuxLife.act_core, LinuxLife.transfer_core,
      LinuxLife.transfer_place, number]
    by_cases equal : p = prog
    · subst equal
      simpa [move.born.2] using small
    · rw [Function.update_of_ne equal]
      exact fits.unborn p
  case listed =>
      exact ⟨(fits.listed.transfer prog target).mem, (fits.listed.transfer prog target).nodup⟩
  case known =>
    intro p
    by_cases equal : p = prog
    · subst equal
      rw [LinuxLife.act_place, LinuxLife.transfer_place, Function.update_self]
      cases move <;> rfl
    · rw [LinuxLife.act_place, LinuxLife.transfer_place, Function.update_of_ne equal]
      exact fits.known p
  case spared =>
    intro p spared
    by_cases equal : p = prog
    · subst equal
      have spared : target.spared = true := by simpa using spared
      rcases move.killed.2 with ⟨same, before, -⟩ | ⟨cleared, -⟩
      · exact same.trans (fits.spared p (here ▸ before spared))
      · exact cleared
    · exact (move.killed.1 p equal).trans (fits.spared p (by simpa [equal] using spared))
  case dead =>
    intro p dead
    by_cases equal : p = prog
    · subst equal
      have dead : target.dead = true := by simpa using dead
      rcases move.killed.2 with ⟨same, -, before⟩ | ⟨-, alive⟩
      · exact same.trans (fits.dead p (here ▸ before dead))
      · exact absurd dead (by simp [alive])
    · exact (move.killed.1 p equal).trans (fits.dead p (by simpa [equal] using dead))
  case hashed =>
    intro pid p found
    have shell : ((effect a.core).core.progs p).shellPid = (a.core.core.progs p).shellPid :=
      follows.shellPid p
    rcases move.lookup fits found with ⟨isAll, rfl, same⟩ | ⟨before, away⟩
    · exact ⟨shell.trans same.symm, .inl (by simp [isAll])⟩
    · obtain ⟨known, runs⟩ := fits.hashed pid p before
      refine ⟨shell.trans known, ?_⟩
      have differs : p ≠ prog := fun equal => by
        obtain ⟨notAll, notKilled⟩ := away equal
        rw [equal, here] at runs
        exact runs.elim notAll notKilled
      simpa [differs] using runs
  case counter =>
    intro c
    rw [LinuxLife.act_core, LinuxLife.transfer_core, move.counter c, LinuxLife.act_place,
      LinuxLife.transfer_place, number, tally_update small, fits.counter c, here]
  case qt => exact follows.qt.trans fits.qt

theorem LinuxLife.Fits.act (fits : a.Fits) {events : List Event}
    (follows : a.core.Follows (effect a.core) events)
    (killed : (effect a.core).killed = a.core.killed)
    (progPidHash : (effect a.core).core.progPidHash = a.core.core.progPidHash)
    (counter : ∀ c, (effect a.core).counter c = a.core.counter c) : (a.act effect).Fits where
  unborn p := by
    rw [LinuxLife.act_core, follows.progsAllocated]
    exact fits.unborn p
  listed := ⟨fits.listed.mem, fits.listed.nodup⟩
  known := fits.known
  spared p spared := (congrFun killed p).trans (fits.spared p spared)
  dead p dead := (congrFun killed p).trans (fits.dead p dead)
  hashed pid p found := by
    have found : hashLookup (effect a.core).core.progPidHash pid = some p := found
    rw [progPidHash] at found
    obtain ⟨known, runs⟩ := fits.hashed pid p found
    exact ⟨(follows.shellPid p).trans known, runs⟩
  counter c := by
    rw [LinuxLife.act_core, follows.progsAllocated, counter c]
    exact fits.counter c
  qt := follows.qt.trans fits.qt

theorem LinuxLife.Fits.kill (fits : a.Fits) (runs : a.place prog = .all ∨ a.place prog = .killed) :
    (a.kill prog).Fits := by
  have small : prog < a.core.core.progsAllocated :=
    fits.allocated (by rcases runs with here | here <;> rw [here] <;> decide)
  constructor
  case unborn =>
    intro p
    rw [LinuxLife.kill_place]
    by_cases equal : p = prog
    · subst equal
      simpa [LinuxCore.kill, LinuxCore.retire, Core.note] using small
    · rw [Function.update_of_ne equal]
      exact fits.unborn p
  case listed =>
    refine ⟨fun head member p => ?_, fits.listed.nodup⟩
    rw [LinuxLife.kill_on, LinuxLife.kill_place, fits.listed.mem head member p]
    by_cases equal : p = prog
    · subst equal
      rcases runs with here | here <;> simp [here, Place.linuxHome]
    · rw [Function.update_of_ne equal]
  case known =>
    intro p
    by_cases equal : p = prog
    · simp [equal, Place.underLinux]
    · simpa [equal] using fits.known p
  case spared =>
    intro p spared
    by_cases equal : p = prog
    · simp [equal, Place.spared] at spared
    · simpa [LinuxCore.kill, equal] using fits.spared p (by simpa [equal] using spared)
  case dead =>
    intro p dead
    by_cases equal : p = prog
    · simp [LinuxCore.kill, equal]
    · simpa [LinuxCore.kill, equal] using fits.dead p (by simpa [equal] using dead)
  case hashed =>
    intro pid p found
    obtain ⟨known, running⟩ := fits.hashed pid p found
    refine ⟨known, ?_⟩
    by_cases equal : p = prog
    · simp [equal]
    · simpa [equal] using running
  case counter =>
    intro c
    have same : (a.core.kill prog).counter c = a.core.counter c := by cases c <;> rfl
    have number : (a.core.kill prog).core.progsAllocated = a.core.core.progsAllocated := rfl
    rw [LinuxLife.kill_core, LinuxLife.kill_place, same, number, tally_update small, fits.counter c]
    have level : c.weight .killed = c.weight (a.place prog) := by
      rcases runs with here | here
      · rw [here]
        cases c <;> rfl
      · rw [here]
    omega
  case qt => exact fits.qt

/-- A program on the list of the scheduler runs or was killed. -/
theorem LinuxLife.Fits.runs (fits : a.Fits) (listed : prog ∈ a.on .linuxProgs) :
    a.place prog = .all ∨ a.place prog = .killed := by
  have home := (fits.listed.mem .linuxProgs (by simp [linuxHeads]) prog).mp listed
  cases here : a.place prog <;> simp_all [Place.linuxHome]

theorem LinuxLife.Fits.quantum (fits : a.Fits) {doomed : List ProgPtr}
    (listed : doomed ⊆ a.on .linuxProgs) :
    ((doomed.foldl LinuxLife.kill a).act LinuxCore.settle).Fits := by
  have killed : (doomed.foldl LinuxLife.kill a).Fits ∧
      (doomed.foldl LinuxLife.kill a).on = a.on := by
    refine LinuxLife.kills (P := fun b => b.Fits ∧ b.on = a.on) (fun b inv p member => ?_)
      listed ⟨fits, rfl⟩
    obtain ⟨fits, same⟩ := inv
    exact ⟨fits.kill (fits.runs (same ▸ member)), same⟩
  have same := (doomed.foldl LinuxLife.kill a).core.settle_same
  exact killed.1.act (.settle _) same.1 same.2.2.2.1 same.2.2.2.2

/-- The next instance of a program, before the accounts are settled. -/
theorem LinuxCore.succeed_follows (c : LinuxCore) (prog : ProgPtr) (born : ProgCore) :
    (c.lift (Core.bear prog born)).Follows (c.succeed prog born)
      ((if c.progsLeft ≤ 0 then [.printTotals] else []) ++ [.deallocated prog]) :=
  (LinuxCore.Follows.settle (c.lift (Core.bear prog born))).trans (.note _ _)

theorem LinuxCore.succeed_same (c : LinuxCore) (prog : ProgPtr) (born : ProgCore) :
    (c.succeed prog born).killed = c.killed ∧ (c.succeed prog born).initId = c.initId ∧
      (c.succeed prog born).progsLeft = c.progsLeft ∧
      (c.succeed prog born).core.progPidHash = c.core.progPidHash ∧
      ∀ k, (c.succeed prog born).counter k = (c.lift (Core.bear prog born)).counter k := by
  obtain ⟨killed, initId, progsLeft, progPidHash, counter⟩ :=
    (c.lift (Core.bear prog born)).settle_same
  exact ⟨killed, initId, progsLeft, progPidHash, fun k =>
    (by cases k <;> rfl : _ = _).trans (counter k)⟩

theorem LinuxLife.Fits.respawn (fits : a.Fits) (here : a.place prog = .finished) (next : ProgCore) :
    (a.respawn prog next).Fits := by
  have small : prog < a.core.core.progsAllocated := fits.allocated (by simp [here])
  have follows := a.core.succeed_follows prog next
  have number : (a.core.succeed prog next).core.progsAllocated = a.core.core.progsAllocated + 1 :=
    follows.progsAllocated
  obtain ⟨killed, -, -, progPidHash, counter⟩ := a.core.succeed_same prog next
  have unborn : a.place a.core.core.progsAllocated = .unborn := (fits.unborn _).mpr le_rfl
  constructor
  case unborn =>
    intro p
    rw [LinuxLife.respawn_core, number, a.respawn_place]
    by_cases new : p = a.core.core.progsAllocated
    · simp [new]
    · rw [if_neg new]
      by_cases equal : p = prog
      · subst equal
        rw [if_pos rfl]
        constructor
        · exact fun same => absurd same (by decide)
        · exact fun outside => absurd small (Nat.not_lt.mpr (Nat.le_of_succ_le outside))
      · rw [if_neg equal, fits.unborn p]
        exact ⟨fun outside => Nat.lt_of_le_of_ne outside (Ne.symm new), Nat.le_of_succ_le⟩
  case listed =>
    constructor
    · intro head member p
      rw [LinuxLife.respawn_on, mem_leave (fits.listed.nodup head member),
        fits.listed.mem head member, a.respawn_place]
      by_cases new : p = a.core.core.progsAllocated
      · simp [new, unborn, Place.linuxHome]
      · rw [if_neg new]
        by_cases equal : p = prog
        · subst equal
          simp [here, Place.linuxHome]
        · simp [equal]
    · intro head member
      rw [LinuxLife.respawn_on]
      exact nodup_leave (fits.listed.nodup head member)
  case known =>
    intro p
    rw [a.respawn_place]
    split
    · rfl
    · split
      · rfl
      · exact fits.known p
  case spared =>
    intro p spared
    rw [LinuxLife.respawn_core, killed]
    rw [a.respawn_place] at spared
    split at spared
    · exact absurd spared (by decide)
    · split at spared
      · next equal => exact fits.spared p (by rw [equal, here]; rfl)
      · exact fits.spared p spared
  case dead =>
    intro p dead
    rw [LinuxLife.respawn_core, killed]
    rw [a.respawn_place] at dead
    split at dead
    · exact absurd dead (by decide)
    · split at dead
      · exact absurd dead (by decide)
      · exact fits.dead p dead
  case hashed =>
    intro pid p found
    rw [LinuxLife.respawn_core, progPidHash] at found
    obtain ⟨known, runs⟩ := fits.hashed pid p found
    have inside : p < a.core.core.progsAllocated :=
      fits.allocated (by rcases runs with here | here <;> rw [here] <;> decide)
    have old : p ≠ a.core.core.progsAllocated := inside.ne
    have same : ((a.core.lift (Core.bear prog next)).core.progs p).shellPid =
        (a.core.core.progs p).shellPid :=
      congrArg ProgCore.shellPid (Function.update_of_ne old _ _)
    refine ⟨(follows.shellPid p).trans (same.trans known), ?_⟩
    rw [a.respawn_place, if_neg old, if_neg]
    · exact runs
    · intro equal
      rw [equal, here] at runs
      exact absurd runs (by decide)
  case counter =>
    intro c
    have born : (a.core.lift (Core.bear prog next)).counter c =
        a.core.counter c + c.weight .waiting := by
      cases c <;> simp [LinuxCore.counter, LinuxCore.lift, Core.bear, LinuxCounter.weight]
    have light : c.weight .gone = c.weight .finished := by cases c <;> rfl
    have last : (a.respawn prog next).place a.core.core.progsAllocated = .waiting :=
      Function.update_self ..
    have rest : tally c.weight a.core.core.progsAllocated (a.respawn prog next).place =
        tally c.weight a.core.core.progsAllocated (Function.update a.place prog .gone) :=
          tally_update_outside le_rfl _
    rw [LinuxLife.respawn_core, counter c, born, fits.counter c, number, tally_succ, last, rest,
      tally_update small, here, light]
    omega
  case qt => exact follows.qt.trans fits.qt

theorem LinuxLife.Fits.step (fits : a.Fits) (step : LinuxStep rules a b) : b.Fits := by
  cases step with
  | move here move allowed => exact fits.move here move
  | quantum expires busy listed => exact fits.quantum listed.subset
  | respawn here next => exact fits.respawn here _
  | wait prog => exact fits.act (.note _ _) rfl rfl fun c => by cases c <;> rfl
  | terminate =>
      have same : a.core.Follows (a.core.lift fun core => { core with massacre := true }) [] :=
        .same rfl rfl rfl rfl (List.append_nil _).symm
      exact fits.act same rfl rfl fun c => by cases c <;> rfl

theorem LinuxLife.Fits.steps (fits : a.Fits) (steps : LinuxSteps rules a b) : b.Fits := by
  induction steps with
  | refl => exact fits
  | tail _ step ih => exact ih.step step

end Fits

section Line

/-- The instances of a run, of which those are live that hold their slots. -/
def LinuxLife.line (a : LinuxLife) : Line where
  born := a.core.core.progsAllocated
  id := fun p => (a.core.core.progs p).id
  live := fun p => (a.place p).holds = true
  heir := fun p q => .respawned p q ∈ a.core.core.log

/-- The instances have come one after the other in each slot, `init_id` is their slot, and the
log says which of them were handed to the scheduler and which have ended. -/
structure LinuxLife.Lined (n : Nat) (a : LinuxLife) : Prop where
  ordered : a.line.Ordered idUserOffset n
  progsInit : a.core.progsInit = n
  initId : ∀ p, Mark.enrolled.borne (a.place p) = true →
    a.core.initId p = ((a.core.core.progs p).id - idUserOffset).tmod n
  enrolled : ∀ p, .newRunning p ∈ a.core.core.log → Mark.enrolled.borne (a.place p) = true
  recorded : ∀ p, Mark.recorded.borne (a.place p) = true → .runningFinished p ∈ a.core.core.log
  always : OneUnderway n (a.core.core.slotOf n) a.core.core.log

/-- Nothing is started. -/
theorem LinuxLife.Lined.fade (lined : a.Lined n) {events : List Event}
    (follows : a.core.Follows b.core events) (plain : ∀ event ∈ events, event.births = false)
    (fewer : ∀ p, (b.place p).holds = true → (a.place p).holds = true)
    (initId : ∀ p, Mark.enrolled.borne (b.place p) = true →
      b.core.initId p = ((a.core.core.progs p).id - idUserOffset).tmod n)
    (enrolled : ∀ p, Mark.enrolled.borne (a.place p) = true ∨ .newRunning p ∈ events →
      Mark.enrolled.borne (b.place p) = true)
    (recorded : ∀ p, Mark.recorded.borne (b.place p) = true →
      Mark.recorded.borne (a.place p) = true ∨ .runningFinished p ∈ events) : b.Lined n where
  ordered := by
    refine lined.ordered.fade follows.progsAllocated (fun p _ => follows.id p) fewer fun p q => ?_
    change Event.respawned p q ∈ b.core.core.log ↔ Event.respawned p q ∈ a.core.core.log
    rw [follows.log, List.mem_append]
    exact or_iff_left fun noted => absurd (plain _ noted) (by simp [Event.births])
  progsInit := follows.progsInit.trans lined.progsInit
  initId p bears := by
    rw [follows.id p]
    exact initId p bears
  enrolled p noted := by
    rw [follows.log, List.mem_append] at noted
    exact enrolled p (noted.imp_left (lined.enrolled p))
  recorded p bears := by
    rw [follows.log, List.mem_append]
    exact (recorded p bears).imp_left (lined.recorded p)
  always := by
    rw [follows.log]
    refine (lined.always.append plain).congr fun p _ => ?_
    rw [Core.slotOf, follows.id]

/-- The marks and the slot of a program after a move. -/
theorem LinuxMove.marks (move : LinuxMove a prog source target effect) :
    (target.holds = true → source.holds = true) ∧
      (∀ p, .newRunning p ∈ LinuxMove.notes a prog target → p = prog ∧ target = .all) ∧
      (Mark.enrolled.borne source = true → Mark.enrolled.borne target = true) ∧
      (Mark.recorded.borne target = true → Mark.recorded.borne source = true ∨
        .runningFinished prog ∈ LinuxMove.notes a prog target) ∧
      ∀ event ∈ LinuxMove.notes a prog target, event.births = false := by
  cases move with
  | conclude =>
      by_cases none : (a.core.retire prog).progsLeft ≤ 0 <;>
        simp [LinuxMove.notes, none, Place.holds, Place.live, Mark.borne, Place.spared,
          Place.dead, Event.births]
  | _ => simp [LinuxMove.notes, Place.holds, Place.live, Mark.borne, Place.spared,
      Place.dead, Event.births]

/-- A program gets its `init_id` when it is handed to the scheduler, and keeps it. -/
theorem LinuxMove.initId (move : LinuxMove a prog source target effect) :
    (∀ p, p ≠ prog → (effect a.core).initId p = a.core.initId p) ∧
      ((effect a.core).initId prog = ((a.core.core.progs prog).id - idUserOffset).tmod
        a.core.progsInit ∨
        (effect a.core).initId prog = a.core.initId prog ∧
          (Mark.enrolled.borne target = true → Mark.enrolled.borne source = true)) := by
  cases move with
  | enter some =>
      refine ⟨fun p differs => ?_, .inl ?_⟩
      · simp [LinuxCore.enter, differs]
      · simp [LinuxCore.enter]
  | conclude =>
      have same := (a.core.retire prog).settle_same.2.1
      exact ⟨fun p _ => congrFun same p, .inr ⟨congrFun same prog, fun _ => rfl⟩⟩
  | arrive => exact ⟨fun _ _ => rfl, .inr ⟨rfl, fun bears => absurd bears (by decide)⟩⟩
  | _ => exact ⟨fun _ _ => rfl, .inr ⟨rfl, fun _ => rfl⟩⟩

theorem LinuxLife.Lined.move (lined : a.Lined n) (here : a.place prog = source)
    (move : LinuxMove a prog source target effect) :
    ((a.transfer prog target).act effect).Lined n := by
  obtain ⟨holds, entered, bears, records, plain⟩ := move.marks
  refine lined.fade move.follows plain (fun p held => ?_) (fun p enrolled => ?_)
    (fun p enrolled => ?_) fun p recorded => ?_
  · by_cases equal : p = prog
    · subst equal
      exact here ▸ holds (by simpa using held)
    · simpa [equal] using held
  · by_cases equal : p = prog
    · subst equal
      rcases move.initId.2 with fresh | ⟨same, before⟩
      · rw [LinuxLife.act_core, LinuxLife.transfer_core, fresh, lined.progsInit]
      · exact same.trans (lined.initId p (here ▸ before (by simpa using enrolled)))
    · exact (move.initId.1 p equal).trans (lined.initId p (by simpa [equal] using enrolled))
  · rcases enrolled with before | noted
    · by_cases equal : p = prog
      · subst equal
        simpa using bears (here ▸ before)
      · simpa [equal] using before
    · obtain ⟨rfl, rfl⟩ := entered p noted
      simp [Mark.borne, Place.spared]
  · by_cases equal : p = prog
    · subst equal
      rw [here]
      exact records (by simpa using recorded)
    · exact .inl (by simpa [equal] using recorded)

theorem LinuxLife.Lined.kill (lined : a.Lined n)
    (runs : a.place prog = .all ∨ a.place prog = .killed) :
    (a.kill prog).Lined n := by
  have holds : (a.place prog).holds = true := by rcases runs with here | here <;> rw [here] <;> rfl
  have bears : Mark.enrolled.borne (a.place prog) = true := by
    rcases runs with here | here <;> rw [here] <;> rfl
  refine lined.fade (.kill a.core prog) (by simp [Event.births]) (fun p held => ?_)
    (fun p enrolled => ?_)
    (fun p enrolled => ?_) fun p recorded => ?_
  · by_cases equal : p = prog
    · rw [equal]
      exact holds
    · simpa [equal] using held
  · by_cases equal : p = prog
    · rw [equal]
      exact lined.initId prog bears
    · exact lined.initId p (by simpa [equal] using enrolled)
  · have before : Mark.enrolled.borne (a.place p) = true := by simpa using enrolled
    by_cases equal : p = prog
    · simp [equal, Mark.borne, Place.dead]
    · simpa [equal] using before
  · by_cases equal : p = prog
    · simp [equal, Mark.borne] at recorded
    · exact .inl (by simpa [equal] using recorded)

/-- Nothing moves, and nothing of a program's life is noted. -/
theorem LinuxLife.Lined.act (lined : a.Lined n) {events : List Event}
    (follows : a.core.Follows (effect a.core) events)
    (initId : (effect a.core).initId = a.core.initId)
    (plain : ∀ event ∈ events, event.births = false ∧ ∀ p, event ≠ .newRunning p) :
    (a.act effect).Lined n := by
  refine lined.fade follows (fun event noted => (plain event noted).1) (fun _ held => held)
    (fun p enrolled => ?_)
    (fun p enrolled => ?_) fun p recorded => .inl recorded
  · exact (congrFun initId p).trans (lined.initId p enrolled)
  · exact enrolled.resolve_right fun noted => (plain _ noted).2 p rfl

theorem LinuxLife.Lined.quantum (lined : a.Lined n) (fits : a.Fits) {doomed : List ProgPtr}
    (listed : doomed ⊆ a.on .linuxProgs) :
    ((doomed.foldl LinuxLife.kill a).act LinuxCore.settle).Lined n := by
  have killed : (doomed.foldl LinuxLife.kill a).Lined n ∧ (doomed.foldl LinuxLife.kill a).Fits ∧
      (doomed.foldl LinuxLife.kill a).on = a.on := by
    refine LinuxLife.kills (P := fun b => b.Lined n ∧ b.Fits ∧ b.on = a.on)
      (fun b inv p member => ?_) listed
      ⟨lined, fits, rfl⟩
    obtain ⟨lined, fits, same⟩ := inv
    have runs := fits.runs (same ▸ member : p ∈ b.on .linuxProgs)
    exact ⟨lined.kill runs, fits.kill runs, same⟩
  refine killed.1.act (.settle _) (doomed.foldl LinuxLife.kill a).core.settle_same.2.1
    fun event noted => ?_
  split at noted
  · rw [List.mem_singleton.mp noted]
    exact ⟨rfl, nofun⟩
  · exact absurd noted (by simp)

/-- A program that is underway holds its slot, and its end was not recorded. -/
theorem LinuxLife.Lined.underway (lined : a.Lined n) (fits : a.Fits) {p : ProgPtr}
    (underway : Underway n a.core.core.log p) :
    (a.place p).holds = true ∧ Mark.recorded.borne (a.place p) = false := by
  obtain ⟨born, -, unrecorded⟩ := underway
  have inside : p < a.core.core.progsAllocated := by
    rcases born with root | ⟨old, heir⟩
    · exact root.trans_le lined.ordered.roots
    · exact (lined.ordered.heirs old p heir).2.1
  have isBorn : a.place p ≠ .unborn := fun unborn =>
    Nat.not_le.mpr inside ((fits.unborn p).mp unborn)
  have known := fits.known p
  have recorded : ¬ Mark.recorded.borne (a.place p) = true := fun bears =>
    unrecorded (lined.recorded p bears)
  revert isBorn known recorded
  cases a.place p <;> simp [Mark.borne, Place.holds, Place.live, Place.underLinux]

/-- The next instance of a program, before the accounts are settled. -/
def LinuxLife.begin (a : LinuxLife) (prog : ProgPtr) (born : ProgCore) : LinuxLife :=
  { a.respawn prog born with core := a.core.lift (Core.bear prog born) }

theorem LinuxLife.begin_id (lined : a.Lined n) {born : ProgCore}
    (next : born.id = a.core.progsInit + (a.core.core.progs prog).id) :
    (∀ p < a.core.core.progsAllocated,
      ((a.begin prog born).core.core.progs p).id = (a.core.core.progs p).id) ∧
      ((a.begin prog born).core.core.progs a.core.core.progsAllocated).id = n +
      (a.core.core.progs prog).id := by
  constructor
  · intro p inside
    exact congrArg ProgCore.id (Function.update_of_ne (Nat.ne_of_lt inside) _ _)
  · rw [← lined.progsInit, ← next]
    exact congrArg ProgCore.id (Function.update_self ..)

/-- At every moment, also when a slot goes to its next instance, one instance is underway in it. -/
theorem LinuxLife.Lined.always_begin (lined : a.Lined n) (fits : a.Fits) {born : ProgCore}
    (here : a.place prog = .finished)
    (next : born.id = a.core.progsInit + (a.core.core.progs prog).id) :
    OneUnderway n ((a.begin prog born).core.core.slotOf n) (a.begin prog born).core.core.log := by
  obtain ⟨ids, id⟩ := LinuxLife.begin_id lined next
  have known : ∀ p < a.core.core.progsAllocated,
      (a.begin prog born).core.core.slotOf n p = a.core.core.slotOf n p :=
    fun p inside => by rw [Core.slotOf, ids p inside]
  have started : ∀ p, (p < n ∨ ∃ old, .respawned old p ∈ a.core.core.log) →
      p < a.core.core.progsAllocated := by
    intro p born
    rcases born with root | ⟨old, heir⟩
    · exact root.trans_le lined.ordered.roots
    · exact (lined.ordered.heirs old p heir).2.1
  have before := lined.always.congr fun p born => known p (started p born)
  have log : (a.begin prog born).core.core.log = _ := a.core.core.bear_notes prog born
  rw [log]
  refine (before.born fun p underway same => ?_).append (by simp [Event.births])
  obtain ⟨holds, unrecorded⟩ := lined.underway fits underway
  have taken : a.line.live prog := by
    show (a.place prog).holds = true
    rw [here]
    rfl
  rw [known p (started p underway.1), Core.slotOf, Core.slotOf, id, slot_add] at same
  have equal : p = prog := lined.ordered.live_unique holds taken same
  rw [equal, here] at unrecorded
  exact absurd unrecorded (by decide)

theorem LinuxLife.Lined.begin (lined : a.Lined n) (fits : a.Fits) {born : ProgCore}
    (here : a.place prog = .finished)
    (next : born.id = a.core.progsInit + (a.core.core.progs prog).id) :
    (a.begin prog born).Lined n := by
  obtain ⟨ids, id⟩ := LinuxLife.begin_id lined next
  have taken : a.line.live prog := by
    show (a.place prog).holds = true
    rw [here]
    rfl
  have place : ∀ p, (a.begin prog born).place p = _ := a.respawn_place prog born
  have log : (a.begin prog born).core.core.log =
      a.core.core.log ++ [.respawned prog a.core.core.progsAllocated,
        .setCpuRange a.core.core.progsAllocated 0 a.core.core.cpus.length] := rfl
  constructor
  case ordered =>
    refine lined.ordered.succeed taken rfl ids id (fun q holds => ?_) fun x y => ?_
    · have holds : ((a.begin prog born).place q).holds = true := holds
      rw [place q] at holds
      by_cases new : q = a.core.core.progsAllocated
      · exact .inl new
      · rw [if_neg new] at holds
        by_cases equal : q = prog
        · rw [if_pos equal] at holds
          exact absurd holds (by decide)
        · rw [if_neg equal] at holds
          exact .inr ⟨holds, equal⟩
    · change Event.respawned x y ∈ (a.begin prog born).core.core.log ↔
        Event.respawned x y ∈ a.core.core.log ∨ x = prog ∧ y = a.core.core.progsAllocated
      simp [log]
  case progsInit => exact lined.progsInit
  case initId =>
    intro p enrolled
    rw [place p] at enrolled
    split at enrolled
    · exact absurd enrolled (by decide)
    · next old =>
        have before : Mark.enrolled.borne (a.place p) = true := by
          split at enrolled
          · next equal =>
              rw [equal, here]
              rfl
          · exact enrolled
        have inside : p < a.core.core.progsAllocated :=
          fits.allocated fun unborn => by
            simp [unborn, Mark.borne, Place.spared, Place.dead] at before
        rw [ids p inside]
        exact lined.initId p before
  case enrolled =>
    intro p noted
    have noted : Event.newRunning p ∈ a.core.core.log := by simpa [log] using noted
    have bears := lined.enrolled p noted
    have old : p ≠ a.core.core.progsAllocated := fun new => by
      rw [new, (fits.unborn _).mpr le_rfl] at bears
      exact absurd bears (by decide)
    rw [place p, if_neg old]
    split
    · rfl
    · exact bears
  case recorded =>
    intro p recorded
    rw [log, List.mem_append]
    refine .inl (lined.recorded p ?_)
    rw [place p] at recorded
    split at recorded
    · exact absurd recorded (by decide)
    · split at recorded
      · next equal =>
          rw [equal, here]
          rfl
      · exact recorded
  case always => exact lined.always_begin fits here next

theorem LinuxLife.Lined.respawn (lined : a.Lined n) (fits : a.Fits) {born : ProgCore}
    (here : a.place prog = .finished)
    (next : born.id = a.core.progsInit + (a.core.core.progs prog).id) :
    (a.respawn prog born).Lined n := by
  have begun := lined.begin fits here next
  have follows : (a.begin prog born).core.Follows (a.respawn prog born).core _ :=
    a.core.succeed_follows prog born
  have plain :
      ∀ event ∈ (if a.core.progsLeft ≤ 0 then [Event.printTotals] else []) ++ [.deallocated prog],
      event.births = false ∧ ∀ p, event ≠ .newRunning p := by
    intro event noted
    by_cases none : a.core.progsLeft ≤ 0
    · rw [if_pos none] at noted
      rcases List.mem_cons.mp noted with rfl | last
      · exact ⟨rfl, nofun⟩
      · rw [List.mem_singleton.mp last]
        exact ⟨rfl, nofun⟩
    · rw [if_neg none] at noted
      rw [List.mem_singleton.mp noted]
      exact ⟨rfl, nofun⟩
  refine begun.fade follows (fun event noted => (plain event noted).1) (fun _ held => held)
    (fun p enrolled => ?_)
    (fun p enrolled => ?_) fun p recorded => .inl recorded
  · exact (congrFun (a.core.succeed_same prog born).2.1 p).trans (begun.initId p enrolled)
  · exact enrolled.resolve_right fun noted => (plain _ noted).2 p rfl

theorem LinuxLife.Lined.step (lined : a.Lined n) (fits : a.Fits) (step : LinuxStep rules a b) :
    b.Lined n := by
  cases step with
  | move here move allowed => exact lined.move here move
  | quantum expires busy listed => exact lined.quantum fits listed.subset
  | respawn here next => exact lined.respawn fits here next
  | wait prog => exact lined.act (.note _ _) rfl (by simp [Event.births])
  | terminate =>
      have same : a.core.Follows (a.core.lift fun core => { core with massacre := true }) [] :=
        .same rfl rfl rfl rfl (List.append_nil _).symm
      exact lined.act same rfl (by simp)

theorem LinuxLife.Lined.steps (lined : a.Lined n) (fits : a.Fits) (steps : LinuxSteps rules a b) :
    b.Lined n := by
  induction steps with
  | refl => exact lined
  | tail before step ih => exact ih.step (fits.steps before) step

end Line

end BachScheduler
