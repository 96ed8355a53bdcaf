import BachScheduler.Balances
import BachScheduler.DecisionRanges
import BachScheduler.Totals

/-!
# Who runs where

Where every program needs one core, those on `progs_sch` have different cpus.  The programs on
`progs_sch` run between the expiries, and those that wait, are new or on `progs_all` are frozen.
-/

namespace BachScheduler

open Wp

variable {exits : ProgPtr → Place → Prop} {name : PolicyName} {a b : Life} {prog : ProgPtr}
variable {source target : Place} {effect : Core → Core} {st : ExecState}
variable {confs : List ProgConf} {env : Env} {cpus : List Int} {targets : Int → Word64}

section Freezer

/-- Whether the programs of a place are frozen whatever the phase. -/
def Place.parked : Place → Bool
  | .waiting | .new | .all => true
  | _ => false

/-- The states of the freezer groups. -/
structure Life.Cooled (a : Life) : Prop where
  parked : ∀ p, (a.place p).parked = true → (a.core.progs p).freezer = .frozen
  awake : a.phase = .running → ∀ p, a.place p = .sch → (a.core.progs p).freezer = .thawed

/-- What happens without a move only concerns the freezer of a program on `progs_sch`, between an
expiry and the next quantum. -/
theorem Act.freezer (act : Act a effect) (p : ProgPtr) :
    ((effect a.core).progs p).freezer = (a.core.progs p).freezer ∨ a.place p = .sch ∧
    a.phase ≠ .running := by
  cases act with
  | @halt q phase listed =>
      by_cases equal : p = q
      · subst equal
        exact .inr ⟨listed, by simp [phase]⟩
      · exact .inl (by simp [Core.halt, Core.modProg, Core.modPd, equal])
  | @thaw q phase listed =>
      by_cases equal : p = q
      · subst equal
        exact .inr ⟨listed, by simp [phase]⟩
      · exact .inl
          (by
            simp [Core.thaw, Core.modProg, Core.modPd, Core.note, Core.noteClocks,
              Core.zeroEpochs, equal])
  | @carry q =>
      have carried : Core.Agree ProgCore.freezer (fun _ => ()) a.core (a.core.carry q) :=
        .modProg (.refl _) rfl
      exact .inl (carried.progs p)
  | _ => exact .inl rfl

theorem Move.freezer (move : Move exits a prog source target effect) (p : ProgPtr) :
    ((effect a.core).progs p).freezer = (a.core.progs p).freezer := by
  cases move with
  | monitor =>
      have assigned : Core.Agree ProgCore.freezer (fun _ => ()) a.core
          (a.core.assign prog (a.core.sched.monitorWnd.tmod maxCores)) :=
            .assign _ _ _ (fun _ _ => rfl) fun _ _ => rfl
      exact assigned.progs p
  | _ => rfl

/-- A program that a move parks was parked, or rests. -/
theorem Move.parked (move : Move exits a prog source target effect) (parks : target.parked = true) :
    source.parked = true ∨ a.Resting prog := by
  cases move with
  | gather phase resting => exact .inr resting
  | arrive | enter => exact .inl rfl
  | _ => exact absurd parks (by decide)

/-- Only a decision brings a program to `progs_sch`. -/
theorem Move.chooses (move : Move exits a prog source target effect) (there : target = .sch) :
    a.phase = .choosing ∧ a.on .progsSch = [] ∧
      effect = fun core => (core.assign prog (core.sched.monitorWnd.tmod maxCores)).bump := by
  cases move with
  | monitor phase idle => exact ⟨phase, idle, rfl⟩
  | _ => exact absurd there (by decide)

theorem Life.Cooled.move (cooled : a.Cooled) (here : a.place prog = source)
    (move : Move exits a prog source target effect) :
    ((a.transfer prog target).act effect).Cooled where
  parked p parks := by
    refine (move.freezer p).trans ?_
    by_cases equal : p = prog
    · subst equal
      rcases move.parked (by simpa using parks) with before | resting
      · exact cooled.parked p (here ▸ before)
      · exact resting.1
    · exact cooled.parked p (by simpa [equal] using parks)
  awake running p listed := by
    refine (move.freezer p).trans (cooled.awake running p ?_)
    by_cases equal : p = prog
    · subst equal
      have phase := (move.chooses (by simpa using listed)).1
      exact absurd (phase.symm.trans running) (by decide)
    · simpa [equal] using listed

theorem Life.Cooled.act (cooled : a.Cooled) (act : Act a effect) : (a.act effect).Cooled where
  parked p parks := by
    rcases act.freezer p with same | ⟨listed, -⟩
    · exact same.trans (cooled.parked p parks)
    · have parks : (a.place p).parked = true := parks
      rw [listed] at parks
      exact absurd parks (by decide)
  awake running p listed := by
    rcases act.freezer p with same | ⟨-, settles⟩
    · exact same.trans (cooled.awake running p listed)
    · exact absurd running settles

theorem Life.Cooled.step (cooled : a.Cooled) (sound : a.Sound) (step : Step exits a b) :
    b.Cooled := by
  cases step with
  | move here move => exact cooled.move here move
  | act act => exact cooled.act act
  | freeze => exact ⟨cooled.parked, nofun⟩
  | choose => exact ⟨cooled.parked, nofun⟩
  | wake phase thawing => exact ⟨cooled.parked, fun _ p listed => (thawing p listed).1.1⟩
  | abandon phase idle =>
      exact ⟨cooled.parked, fun _ p listed => absurd listed (sound.unlisted idle p)⟩
  | @decide picked rest phase idle perm =>
      have same : Core.Agree ProgCore.freezer (fun _ => ()) a.core _ :=
        .assignAll a.core (fun p => (a.core.progs p).coresNeeded) picked 0 (fun _ _ => rfl)
          fun _ _ => rfl
      refine ⟨fun p parks => (same.progs p).trans (cooled.parked p ?_), fun running => ?_⟩
      · by_cases member : p ∈ picked
        · simp [member, Place.parked] at parks
        · simpa [member] using parks
      · exact absurd (phase.symm.trans running) (by decide)
  | @respawn prog born here carried running next =>
      have other : ∀ p, p ≠ a.core.progsAllocated →
          ((a.core.bear prog born).progs p).freezer = (a.core.progs p).freezer := fun p old =>
        congrArg ProgCore.freezer (Function.update_of_ne old _ _)
      refine ⟨fun p parks => ?_, fun running p listed => ?_⟩
      · by_cases new : p = a.core.progsAllocated
        · subst new
          exact (congrArg ProgCore.freezer (Function.update_self ..)).trans next.freezer
        · by_cases equal : p = prog
          · simp [equal, equal ▸ new, Place.parked] at parks
          · exact (other p new).trans (cooled.parked p (by simpa [new, equal] using parks))
      · by_cases new : p = a.core.progsAllocated
        · simp [new] at listed
        · by_cases equal : p = prog
          · simp [equal, equal ▸ new] at listed
          · exact (other p new).trans (cooled.awake running p (by simpa [new, equal] using listed))

theorem Life.Cooled.steps (cooled : a.Cooled) (sound : a.Sound) (steps : Steps exits a b) :
    b.Cooled := by
  induction steps with
  | refl => exact cooled
  | tail before step ih => exact ih.step (sound.steps before) step

theorem Life.Boots.cooled (boots : a.Boots cpus confs targets) : a.Cooled := by
  constructor
  case parked =>
    intro p parks
    have inside : p < confs.length := by
      by_contra outside
      rw [boots.place, Place.atStart, if_neg outside] at parks
      exact absurd parks (by decide)
    exact (boots.parsed.configured p confs[p] (List.getElem?_eq_getElem inside)).freezer
  case awake =>
    intro _ p listed
    rw [boots.place, Place.atStart] at listed
    split at listed <;> exact absurd listed (by decide)

end Freezer

section Single

/-- The cpus of the programs on `progs_sch`, where each program needs one core: the cpus at
different positions below `MAX_CORES`, as they were given out. -/
structure Life.Spread (cpus : List Int) (a : Life) : Prop where
  cpus : a.core.cpus = cpus
  single : ∀ p < a.core.progsAllocated, (a.core.progs p).coresNeeded = 1
  window : 0 ≤ a.core.sched.monitorWnd
  positions : ∃ position : ProgPtr → Nat,
    (∀ p, a.place p = .sch → (position p : Int) < maxCores ∧
      (a.core.progs p).cpuset = [a.core.cpuAt (position p)] ∧
        (a.core.pds p).cpu = a.core.cpuAt (position p) ∧
      .setCpuRange p (position p) (position p + 1) ∈ a.core.log) ∧
    ∀ p q, a.place p = .sch → a.place q = .sch → position p = position q → p = q

theorem Act.cores (act : Act a effect) :
    Core.Agree ProgCore.cpuset PdCore.cpu a.core (effect a.core) := by
  cases act with
  | halt => exact .modPd (.updateClock (.modProg (.refl _) rfl) fun _ _ => rfl) rfl
  | sample => exact .modPd (.modPd (.refl _) rfl) rfl
  | @sampleLast prog listed read ticking now instrRetd accumulated =>
      have sampled : Core.Agree ProgCore.cpuset PdCore.cpu a.core
          ((a.core.updateClock prog now).sample prog instrRetd accumulated) :=
        .modPd (.modPd (.updateClock (.refl _) fun _ _ => rfl) rfl) rfl
      exact sampled
  | @charge prog =>
      have charged : Core.Agree ProgCore.cpuset PdCore.cpu a.core (a.core.modPd prog fun pd =>
        { pd with instrRetdSum := (a.core.pds prog).instrRetdSum + (a.core.pds prog).instrRetd }) :=
          .modPd (.refl _) rfl
      exact ⟨charged.progs, charged.pds⟩
  | @thaw prog phase listed waits now =>
      have woken : Core.Agree ProgCore.cpuset PdCore.cpu a.core
          (((a.core.zeroEpochs prog).updateClock prog now).modPd prog fun pd =>
            { pd with runStatus := .running }) :=
        .modPd (.updateClock (.modPd (.refl _) rfl) fun _ _ => rfl) rfl
      exact .modProg (woken.trans (.same rfl rfl)) rfl
  | carry => exact .modProg (.refl _) rfl
  | _ => exact .same rfl rfl

theorem Act.window (act : Act a effect) :
    a.core.sched.monitorWnd ≤ (effect a.core).sched.monitorWnd := by
  cases act with
  | bump => exact Int.le_add_one le_rfl
  | _ => exact le_rfl

theorem Move.window (move : Move exits a prog source target effect) :
    a.core.sched.monitorWnd ≤ (effect a.core).sched.monitorWnd := by
  cases move with
  | monitor => exact Int.le_add_one le_rfl
  | _ => exact le_rfl

/-- Where no program comes to `progs_sch` and the cores stay as they are. -/
theorem Life.Spread.keep (spread : a.Spread cpus) (keeps : a.core.Keeps b.core)
    (log : a.core.log <+: b.core.log) (window : a.core.sched.monitorWnd ≤ b.core.sched.monitorWnd)
    (fewer : ∀ p, b.place p = .sch → a.place p = .sch)
    (same : ∀ p, b.place p = .sch → (b.core.progs p).cpuset = (a.core.progs p).cpuset ∧
      (b.core.pds p).cpu = (a.core.pds p).cpu) : b.Spread cpus := by
  obtain ⟨position, known, apart⟩ := spread.positions
  have cpuAt : ∀ i, b.core.cpuAt i = a.core.cpuAt i := fun i => by
    rw [Core.cpuAt, Core.cpuAt, keeps.cpus, keeps.strayCpu]
  refine ⟨keeps.cpus.trans spread.cpus, fun p born => ?_, spread.window.trans window, position,
    fun p listed => ?_,
    fun p q first second => apart p q (fewer p first) (fewer q second)⟩
  · rw [keeps.coresNeeded p]
    exact spread.single p (keeps.progsAllocated ▸ born)
  · obtain ⟨below, cpuset, cpu, given⟩ := known p (fewer p listed)
    rw [(same p listed).1, (same p listed).2, cpuAt]
    exact ⟨below, cpuset, cpu, log.subset given⟩

/-- Programs of one core each are no more than there are cores. -/
theorem length_le_of_guarded {picked : List ProgPtr} {need : ProgPtr → Int}
    (single : ∀ p ∈ picked, need p = 1)
    (guarded : ∀ before prog after, picked = before ++ prog :: after →
      (before.map need).sum ≠ maxCores) :
    (picked.length : Int) ≤ maxCores := by
  by_contra long
  have long : maxCores.toNat < picked.length := by
    rw [maxCores] at long ⊢
    omega
  refine guarded (picked.take maxCores.toNat) picked[maxCores.toNat]
    (picked.drop (maxCores.toNat + 1)) (by simp) ?_
  have ones : (picked.take maxCores.toNat).map need = List.replicate maxCores.toNat 1 := by
    refine List.eq_replicate_iff.mpr ⟨by simp [long.le], fun size member => ?_⟩
    obtain ⟨p, there, rfl⟩ := List.mem_map.mp member
    exact single p (List.mem_of_mem_take there)
  rw [ones, List.sum_replicate, nsmul_eq_mul, mul_one]
  rfl

/-- A program that runs alone has the cpu of its position. -/
theorem Life.Spread.monitor (spread : a.Spread cpus) (sound : a.Sound) (here : a.place prog = .all)
    (idle : a.on .progsSch = []) {effect : Core → Core}
    (chosen : effect = fun core => (core.assign prog (core.sched.monitorWnd.tmod maxCores)).bump)
    (keeps : a.core.Keeps (effect a.core)) : ((a.transfer prog .sch).act effect).Spread cpus := by
  subst chosen
  have alone : ∀ p, ((a.transfer prog .sch).act fun core =>
      (core.assign prog (core.sched.monitorWnd.tmod maxCores)).bump).place p = .sch → p = prog := by
    intro p listed
    by_contra differs
    exact sound.unlisted idle p (by simpa [differs] using listed)
  have nonneg : 0 ≤ a.core.sched.monitorWnd.tmod maxCores := Int.tmod_nonneg _ spread.window
  have below : a.core.sched.monitorWnd.tmod maxCores < maxCores := Int.tmod_lt_of_pos _ (by decide)
  have cast := Int.toNat_of_nonneg nonneg
  have one := spread.single prog (sound.allocated (by simp [here]))
  have self := a.core.assign_self prog (a.core.sched.monitorWnd.tmod maxCores) one
  rw [Core.cpusIn_single] at self
  refine ⟨keeps.cpus.trans spread.cpus, fun p born => ?_,
    spread.window.trans (Int.le_add_one le_rfl),
    fun _ => (a.core.sched.monitorWnd.tmod maxCores).toNat, fun p listed => ?_,
        fun p q first second _ =>
      (alone p first).trans (alone q second).symm⟩
  · exact (keeps.coresNeeded p).trans (spread.single p (keeps.progsAllocated ▸ born))
  · rw [alone p listed, cast]
    have cpuAt : (a.core.assign prog (a.core.sched.monitorWnd.tmod maxCores)).bump.cpuAt
        (a.core.sched.monitorWnd.tmod maxCores) =
          a.core.cpuAt (a.core.sched.monitorWnd.tmod maxCores) := rfl
    refine ⟨below, (congrArg ProgCore.cpuset self.1).trans ?_,
      (congrArg PdCore.cpu self.2).trans ?_, ?_⟩
    · rw [Life.act_core, Life.transfer_core, cpuAt]
    · rw [Life.act_core, Life.transfer_core, cpuAt]
      rfl
    · exact List.mem_append_right _ (by simp [one])

theorem Life.Spread.move (spread : a.Spread cpus) (sound : a.Sound) (here : a.place prog = source)
    (move : Move exits a prog source target effect) :
    ((a.transfer prog target).act effect).Spread cpus := by
  by_cases there : target = .sch
  · obtain ⟨-, idle, chosen⟩ := move.chooses there
    have all : source = .all := by
      cases move with
      | monitor => rfl
      | _ => exact absurd there (by decide)
    subst all there
    exact spread.monitor sound here idle chosen move.keeps
  · have other : ∀ p, ((a.transfer prog target).act effect).place p = .sch →
        p ≠ prog := fun p listed equal => by
      subst equal
      exact there (by simpa using listed)
    have log : a.core.log <+: (effect a.core).log := (Step.move here move).log_grows
    refine spread.keep move.keeps log move.window (fun p listed => ?_) fun p listed => ?_
    · simpa [other p listed] using listed
    · have same := move.other (other p listed)
      exact ⟨congrArg ProgCore.cpuset same.1, congrArg PdCore.cpu same.2⟩

/-- The programs of a decision have the cpus of their positions. -/
theorem Life.Spread.decide (spread : a.Spread cpus) (sound : a.Sound) {picked rest : List ProgPtr}
    (idle : a.on .progsSch = []) (perm : (picked ++ rest).Perm (a.on .progsAll))
    (guarded : ∀ before prog after, picked = before ++ prog :: after →
      (before.map fun p => (a.core.progs p).coresNeeded).sum ≠ maxCores) :
    Life.Spread cpus
      { a with
        place := fun prog => if prog ∈ picked then .sch else a.place prog
        on := Function.update (Function.update a.on .progsAll rest) .progsSch picked
        core := a.core.assignAll (fun p => (a.core.progs p).coresNeeded) picked 0 } := by
  have keeps := Core.assignAll_keeps a.core (fun p => (a.core.progs p).coresNeeded) picked 0
  have nodup : picked.Nodup :=
    (List.nodup_append.mp
      (perm.nodup_iff.mpr (sound.listed.nodup .progsAll (by simp [lifeHeads])))).1
  have one : ∀ p ∈ picked, (a.core.progs p).coresNeeded = 1 := fun p member =>
    spread.single p (sound.allocated (by simp [sound.place_picked perm member]))
  have short := length_le_of_guarded one guarded
  have listed : ∀ p, (if p ∈ picked then Place.sch else a.place p) = .sch → p ∈ picked := by
    intro p there
    by_contra outside
    rw [if_neg outside] at there
    exact sound.unlisted idle p there
  refine ⟨keeps.cpus.trans spread.cpus, fun p born => ?_, ?_, fun p => picked.idxOf p,
    fun p there => ?_,
    fun p q first second same => ?_⟩
  · exact (keeps.coresNeeded p).trans (spread.single p (keeps.progsAllocated ▸ born))
  · rw [Core.assignAll_sched]
    exact spread.window
  · have member := listed p there
    have inside : picked.idxOf p < picked.length := List.idxOf_lt_length_iff.mpr member
    have self := a.core.assignAll_single (fun p => (a.core.progs p).coresNeeded) picked
      (fun _ => rfl) nodup one
      (picked.idxOf p) inside
    simp only [List.getElem_idxOf] at self
    have cpuAt : ∀ i, (a.core.assignAll (fun p => (a.core.progs p).coresNeeded) picked 0).cpuAt i =
        a.core.cpuAt i :=
      fun i => by rw [Core.cpuAt, Core.cpuAt, keeps.cpus, keeps.strayCpu]
    dsimp only
    rw [cpuAt]
    refine ⟨by omega, congrArg ProgCore.cpuset self.1, congrArg PdCore.cpu self.2, ?_⟩
    rw [a.core.assignAll_log _ picked 0 fun _ => rfl]
    refine List.mem_append_right _ ?_
    rw [show grants _ picked 0 = _ from Decision.grants_single one 0]
    exact List.mem_map_of_mem (List.mk_mem_zipIdx_iff_getElem?.mpr (List.getElem?_idxOf member))
  · exact (List.idxOf_inj (listed p first)).mp same

theorem Life.Spread.step (spread : a.Spread cpus) (sound : a.Sound) (step : Step exits a b) :
    b.Spread cpus := by
  cases step with
  | move here move => exact spread.move sound here move
  | act act =>
      exact spread.keep act.keeps (Step.act act : Step exits a _).log_grows act.window
        (fun _ listed => listed)
        fun p _ => ⟨act.cores.progs p, act.cores.pds p⟩
  | decide phase idle perm guarded => exact spread.decide sound idle perm guarded
  | @respawn prog born here carried running next =>
      obtain ⟨position, known, apart⟩ := spread.positions
      have listed : ∀ p, Function.update (Function.update a.place prog .spent) a.core.progsAllocated
          .waiting p = .sch →
          p ≠ a.core.progsAllocated ∧ a.place p = .sch := by
        intro p there
        rw [Function.update_apply, Function.update_apply] at there
        split_ifs at there with new equal
        exact ⟨new, there⟩
      refine ⟨spread.cpus, fun p inside => ?_, spread.window, position, fun p there => ?_,
        fun p q first second =>
        apart p q (listed p first).2 (listed q second).2⟩
      · by_cases new : p = a.core.progsAllocated
        · subst new
          refine (congrArg ProgCore.coresNeeded (Function.update_self ..)).trans
            (next.coresNeeded.trans ?_)
          exact spread.single prog (sound.allocated (by simp [here]))
        · refine (congrArg ProgCore.coresNeeded (Function.update_of_ne new _ _)).trans
            (spread.single p ?_)
          exact Nat.lt_of_le_of_ne (Nat.lt_succ_iff.mp inside) new
      · obtain ⟨new, before⟩ := listed p there
        obtain ⟨below, cpuset, cpu, given⟩ := known p before
        exact ⟨below, (congrArg ProgCore.cpuset (Function.update_of_ne new _ _)).trans cpuset, cpu,
          List.mem_append_left _ given⟩
  | wake =>
      exact spread.keep (.same rfl rfl rfl rfl rfl) List.prefix_rfl le_rfl (fun _ listed => listed)
        fun _ _ => ⟨rfl, rfl⟩
  | _ => exact spread.keep (.refl _) List.prefix_rfl le_rfl (fun _ listed => listed) fun _ _ =>
      ⟨rfl, rfl⟩

theorem Life.Spread.steps (spread : a.Spread cpus) (sound : a.Sound) (steps : Steps exits a b) :
    b.Spread cpus := by
  induction steps with
  | refl => exact spread
  | tail before step ih => exact ih.step (sound.steps before) step

theorem Life.Boots.spread (boots : a.Boots cpus confs targets)
    (single : ∀ conf ∈ confs, conf.coresNeeded = 1) : a.Spread cpus := by
  refine ⟨boots.parsed.cpus, fun p born => ?_, ?_, fun _ => 0, fun p listed => ?_, fun p q listed =>
    ?_⟩
  · have inside : p < confs.length := boots.parsed.progsAllocated ▸ born
    have configured := boots.parsed.configured p confs[p] (List.getElem?_eq_getElem inside)
    exact configured.coresNeeded.trans (single _ (List.getElem_mem inside))
  · rw [boots.monitorWnd]
  · rw [boots.place, Place.atStart] at listed
    split at listed <;> exact absurd listed (by decide)
  · rw [boots.place, Place.atStart] at listed
    split at listed <;> exact absurd listed (by decide)

end Single

section Runs

theorem Core.getElem?_cpus {core : Core} {k : Nat} (inside : k < core.cpus.length) :
    core.cpus[k]? = some (core.cpuAt k) := by
  simp [Core.cpuAt, inside]

theorem position_inj {count i j : Nat} {cpu : Int} (distinct : (cpus.take count).Nodup)
    (first : i < count) (second : j < count) (here : cpus[i]? = some cpu)
    (there : cpus[j]? = some cpu) : i = j := by
  have inside : i < (cpus.take count).length := by
    have := (List.getElem?_eq_some_iff.mp here).1
    simp [first, this]
  have same : (cpus.take count)[i]? = (cpus.take count)[j]? := by
    rw [List.getElem?_take_of_lt first, List.getElem?_take_of_lt second, here, there]
  exact (List.getElem?_inj inside distinct).mp same

/-- Where every program needs one core and the first `MAX_CORES` cpus are different ones: between
the handlers the programs that the scheduler has and whose end was not recorded are on one of its
lists, those on `progs_sch` run, each on a cpu of its own, and those on `progs_all` are frozen. -/
theorem programs_in_place (name : PolicyName) (confs : List ProgConf) (targets : Int → Word64)
    (inputs : List Input) (env : Env) (cpus : List Int) (st : ExecState)
    (single : ∀ conf ∈ confs, conf.coresNeeded = 1) (enough : maxCores ≤ cpus.length)
    (distinct : (cpus.take maxCores.toNat).Nodup)
    (run : runExecutor name.policy confs targets inputs (ExecState.start env cpus) = .ok () st) :
    ∃ queue on, st.Holds lifeHeads queue on ∧
      (∀ head ∈ lifeHeads, ∀ other ∈ lifeHeads, ∀ p ∈ on head, p ∈ on other → head = other) ∧
      (∀ p, .newRunning p ∈ st.log ∧ ¬ st.Ended p ↔ p ∈ on .progsAll ∨ p ∈ on .progsSch) ∧
      (∀ p ∈ on .progsAll, (st.progs p).freezer = .frozen ∧ (st.pds p).runStatus = .stoped) ∧
      (∀ p ∈ on .progsSch, (st.progs p).freezer = .thawed ∧ (st.pds p).runStatus = .running ∧
        (st.progs p).cpuset = [(st.pds p).cpu] ∧ (st.pds p).cpu ∈ cpus) ∧
      ∀ p ∈ on .progsSch, ∀ q ∈ on .progsSch, (st.pds p).cpu = (st.pds q).cpu → p = q := by
  obtain ⟨a, b, boots, xs, shows_, settled⟩ :=
    runExecutor_between (heard_anywhere name confs targets env cpus inputs) run
  have tracks := shows_.tracks
  have sound := tracks.sound
  have marked := boots.marked.steps boots.sound tracks.steps
  have cooled := boots.cooled.steps boots.sound tracks.steps
  have spread := (boots.spread single).steps boots.sound tracks.steps
  obtain ⟨position, known, apart⟩ := spread.positions
  have core := tracks.core
  have log : st.log = b.core.log := congrArg Core.log core
  have freezer : ∀ p, (st.progs p).freezer = (b.core.progs p).freezer := fun p =>
    congrArg (fun core => (core.progs p).freezer) core
  have cpuset : ∀ p, (st.progs p).cpuset = (b.core.progs p).cpuset := fun p =>
    congrArg (fun core => (core.progs p).cpuset) core
  have runStatus : ∀ p, (st.pds p).runStatus = (b.core.pds p).runStatus := fun p =>
    congrArg (fun core => (core.pds p).runStatus) core
  have cpu : ∀ p, (st.pds p).cpu = (b.core.pds p).cpu := fun p =>
    congrArg (fun core => (core.pds p).cpu) core
  have all : ∀ p, p ∈ b.on .progsAll ↔ b.place p = .all := fun p => by
    rw [sound.listed.mem .progsAll (by simp [lifeHeads])]
    cases b.place p <;> simp [Place.home]
  have sch : ∀ p, p ∈ b.on .progsSch ↔ b.place p = .sch := fun p => by
    rw [sound.listed.mem .progsSch (by simp [lifeHeads])]
    cases b.place p <;> simp [Place.home]
  have there : ∀ p, b.place p = .sch → position p < maxCores.toNat ∧
      cpus[position p]? = some (st.pds p).cpu :=
    fun p listed => by
      obtain ⟨below, -, given, -⟩ := known p listed
      have inside : position p < b.core.cpus.length := by
        rw [spread.cpus]
        omega
      refine ⟨by omega, ?_⟩
      rw [cpu, given, ← spread.cpus]
      exact Core.getElem?_cpus inside
  refine ⟨xs, b.on, tracks.holds, ?_, fun p => ?_, fun p listed => ?_, fun p listed => ?_,
    fun p first q second same => ?_⟩
  · intro head member other otherMember p here there
    exact Option.some.inj (((sound.listed.mem head member p).mp here).symm.trans
      ((sound.listed.mem other otherMember p).mp there))
  · have enrolled : Event.newRunning p ∈ b.core.log ↔ _ := marked.mem_iff .enrolled p
    rw [marked.ended_iff settled core, log, enrolled, all, sch]
    have stays := settled p
    cases here : b.place p <;> simp [here, Place.settled] at stays <;>
      simp [Mark.borne, Place.spared, Place.dead]
  · rw [all] at listed
    rw [freezer, runStatus]
    exact ⟨cooled.parked p (by rw [listed]; rfl), sound.clocked.idle p listed⟩
  · rw [sch] at listed
    rw [freezer, runStatus, cpuset]
    refine ⟨cooled.awake shows_.phase p listed, sound.clocked.awake shows_.phase p listed, ?_,
      List.mem_of_getElem? (there p listed).2⟩
    rw [cpu, (known p listed).2.1, (known p listed).2.2.1]
  · rw [sch] at first second
    refine apart p q first second
      (position_inj distinct (there p first).1 (there q second).1 (there p first).2 ?_)
    rw [same]
    exact (there q second).2

/-- One of two programs runs while the other one is frozen. -/
theorem programs_in_place_two :
    ∃ st, runExecutor PolicyName.perfFair.policy [.single, .single] (fun _ => 2000000000)
      [.events, .events]
        (ExecState.start (Env.counting 5) [0, 1, 2, 3, 4, 5]) = .ok () st ∧
      (st.pds 0).runStatus ≠ (st.pds 1).runStatus ∧
      ∃ queue on, st.Holds lifeHeads queue on ∧
        ∀ p ∈ on .progsSch, (st.progs p).freezer = .thawed ∧
          (st.pds p).cpu ∈ [0, 1, 2, 3, 4, 5] := by
  obtain ⟨st, run, differ⟩ := exists_of_returnsWith (by decide +kernel :
    returnsWith (runExecutor PolicyName.perfFair.policy [.single, .single] (fun _ => 2000000000)
        [.events, .events])
      (ExecState.start (Env.counting 5) [0, 1, 2, 3, 4, 5])
      (fun st => (st.pds 0).runStatus ≠ (st.pds 1).runStatus) = true)
  obtain ⟨queue, on, holds, -, -, -, running, -⟩ :=
    programs_in_place .perfFair _ _ _ _ _ st (by decide) (by decide)
    (by decide) run
  exact ⟨st, run, of_decide_eq_true differ, queue, on, holds, fun p listed =>
    ⟨(running p listed).1, (running p listed).2.2.2⟩⟩

end Runs

end BachScheduler
