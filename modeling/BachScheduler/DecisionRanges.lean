import BachScheduler.Lib.Packing
import BachScheduler.Population
import BachScheduler.Schedules

/-!
# The core positions that a decision hands out

The programs of a decision get ranges that lie end to end from position 0 on, in the
order in which they were picked.  With programs of one core each, the positions are
those below the number of programs picked; with larger programs they stay below
`MAX_CORES` only for some configurations, which are described exactly.
-/

namespace BachScheduler

open BachScheduler.Ring Wp

section Grants

/-- The calls of `schedule_setcpurange` for programs that get their cores in turn. -/
def grants (need : ProgPtr → Int) : List ProgPtr → Int → List Event
  | [], _ => []
  | prog :: later, rstart =>
      .setCpuRange prog rstart (rstart + need prog) :: grants need later (rstart + need prog)

theorem Core.assignAll_log (core : Core) (need : ProgPtr → Int) (progs : List ProgPtr)
    (rstart : Int) (agree : ∀ prog, (core.progs prog).coresNeeded = need prog) :
    (core.assignAll need progs rstart).log = core.log ++ grants need progs rstart := by
  induction progs generalizing core rstart with
  | nil => simp [assignAll, grants]
  | cons prog later ih =>
      rw [assignAll, ih _ _ fun other =>
        (core.assign_coresNeeded prog other rstart).trans (agree other)]
      simp [assign, modPd, modProg, note, grants, agree]

theorem Core.assign_other (core : Core) {prog other : ProgPtr} (rstart : Int)
    (differs : other ≠ prog) : (core.assign prog rstart).progs other = core.progs other ∧
      (core.assign prog rstart).pds other = core.pds other := by
  simp [assign, modPd, modProg, note, differs]

theorem Core.assignAll_other (core : Core) (need : ProgPtr → Int) {progs : List ProgPtr}
    (rstart : Int) {other : ProgPtr} (outside : other ∉ progs) :
    (core.assignAll need progs rstart).progs other = core.progs other ∧
      (core.assignAll need progs rstart).pds other = core.pds other := by
  induction progs generalizing core rstart with
  | nil => exact ⟨rfl, rfl⟩
  | cons prog later ih =>
      obtain ⟨differs, outside⟩ := List.ne_and_not_mem_of_not_mem_cons outside
      have first := core.assign_other rstart differs
      have rest := ih (core.assign prog rstart) (rstart + need prog) outside
      exact ⟨rest.1.trans first.1, rest.2.trans first.2⟩

theorem Core.assign_self (core : Core) (prog : ProgPtr) (rstart : Int) {size : Int}
    (needs : (core.progs prog).coresNeeded = size) :
    let cpuset := core.cpusIn rstart (rstart + size)
    (core.assign prog rstart).progs prog = { core.progs prog with cpuset := cpuset } ∧
      (core.assign prog rstart).pds prog = { core.pds prog with cpu := cpuset.min?.getD 0 } := by
  subst needs
  simp [assign, modPd, modProg, note]

/-- What a program is left with that gets its cores behind some others. -/
theorem Core.assignAll_self (core : Core) (need : ProgPtr → Int) (before : List ProgPtr)
    (prog : ProgPtr) (after : List ProgPtr) (rstart : Int)
    (agree : ∀ prog, (core.progs prog).coresNeeded = need prog)
    (nodup : (before ++ prog :: after).Nodup) :
    let start := rstart + (before.map need).sum
    let cpuset := core.cpusIn start (start + need prog)
    let assigned := core.assignAll need (before ++ prog :: after) rstart
    assigned.progs prog = { core.progs prog with cpuset := cpuset } ∧
      assigned.pds prog = { core.pds prog with cpu := cpuset.min?.getD 0 } := by
  induction before generalizing core rstart with
  | nil =>
      have self := core.assign_self prog rstart (agree prog)
      have other := (core.assign prog rstart).assignAll_other need (rstart + need prog)
        (List.nodup_cons.mp nodup).1
      simp only [List.map_nil, List.sum_nil, add_zero, List.nil_append, assignAll]
      exact ⟨other.1.trans self.1, other.2.trans self.2⟩
  | cons first before ih =>
      obtain ⟨fresh, nodup⟩ := List.nodup_cons.mp nodup
      have differs : prog ≠ first := fun same => fresh (by simp [same])
      have rest := ih (core.assign first rstart) (rstart + need first)
        (fun other => (core.assign_coresNeeded first other rstart).trans (agree other)) nodup
      have other := core.assign_other rstart differs
      rw [other.1, other.2] at rest
      rw [List.map_cons, List.sum_cons, ← add_assoc]
      exact rest

theorem Core.cpusIn_single (core : Core) (k : Int) : core.cpusIn k (k + 1) = [core.cpuAt k] := by
  simp [cpusIn]

/-- With one core each, the `k`-th program gets the `k`-th cpu. -/
theorem Core.assignAll_single (core : Core) (need : ProgPtr → Int) (progs : List ProgPtr)
    (agree : ∀ prog, (core.progs prog).coresNeeded = need prog) (nodup : progs.Nodup)
    (single : ∀ prog ∈ progs, need prog = 1) (k : Nat) (short : k < progs.length) :
    let assigned := core.assignAll need progs 0
    assigned.progs progs[k] = { core.progs progs[k] with cpuset := [core.cpuAt k] } ∧
      assigned.pds progs[k] = { core.pds progs[k] with cpu := core.cpuAt k } := by
  have split : progs.take k ++ progs[k] :: progs.drop (k + 1) = progs := by simp
  have ones : (progs.take k).map need = List.replicate k 1 := by
    refine List.eq_replicate_iff.mpr ⟨by simp [short.le], fun size member => ?_⟩
    obtain ⟨prog, there, rfl⟩ := List.mem_map.mp member
    exact single prog (List.mem_of_mem_take there)
  have self := core.assignAll_self need (progs.take k) progs[k] (progs.drop (k + 1)) 0 agree
    (split.symm ▸ nodup)
  rw [split, ones, List.sum_replicate, nsmul_eq_mul, mul_one, zero_add,
    single _ (List.getElem_mem short)] at self
  simp only [cpusIn_single] at self
  exact self

end Grants

section Schedules

variable {d : Decision} {progs : List ProgPtr} {st : ExecState} {E : Stop → ExecState → Prop}

/-- When a policy stops picking programs. -/
def PolicyName.full : PolicyName → Int → Prop
  | .perf => Decision.Reached
  | _ => Decision.Full

theorem schedule_spec (name : PolicyName) (here : d.At [] progs st) (ordinary : d.Ordinary) :
    wp name.policy.schedule (fun _ st' => d.Done name.full progs st')
      (fun stop st' => name = .perfFair ∧ stop = .misuse ∧ progs ≠ [] ∧
        maxCores < d.origin.core.sched.progsNr ∧
        ∃ picked, d.Chosen Decision.Full progs picked [] st' ∧ ¬ Decision.Full (d.cores picked))
      st := by
  cases name with
  | fair => exact Decision.fairSchedule_spec here ordinary
  | perf => exact Decision.perfSchedule_spec here ordinary
  | perfFair =>
      exact Wp.mono (Decision.perfFairSchedule_spec here ordinary) (fun _ _ ends => ends)
        fun stop st' stopped => ⟨rfl, stopped⟩
  | fairBwCache => exact Decision.fairBwCacheSchedule_spec here ordinary

/-- In the monitoring phase all policies do the same. -/
theorem schedule_monitors (name : PolicyName)
    (monitoring : st.sched.monitorWnd ≤ st.sched.progsNr) :
    name.policy.schedule st = monitor st := by
  have phase : monitoringPhase st = .ok true st := by
    change EStateM.Result.ok (!decide (st.sched.progsNr < st.sched.monitorWnd)) st = _
    simp [monitoring]
  have chooses : ∀ ordinary : Exec Unit,
      (monitoringPhase >>= fun monitors => if monitors = true then monitor else ordinary) st =
        monitor st := by
    intro ordinary
    simp only [Bind.bind, EStateM.bind, phase, if_true]
  cases name <;> exact chooses _

/-- `monitor` takes the first program and gives it the cores of the window. -/
theorem monitor_spec {first : ProgPtr} {later : List ProgPtr} (here : d.At [] (first :: later) st) :
    wp monitor (fun _ st' => PlRings d.heads d.bound st'.links (d.lists [first] later) d.idle ∧
      view st' =
        { d.origin with
          links := st'.links
          core :=
            (d.origin.core.assign first (d.origin.core.sched.monitorWnd.tmod maxCores)).modSched
            fun sched => { sched with monitorWnd := sched.monitorWnd + 1 } }) E st := by
  refine Wp.bind_ok (readSched_run st) (Wp.bind_ok (Decision.cdsListFirst_run here.ring) ?_)
  refine Wp.bind_ok (elemMove2tail_run first .progsSch st) ?_
  refine Wp.bind_ok (assignCores_run first _ _) ?_
  have listed : first ∈ d.lists [] (first :: later) .progsAll := List.mem_cons_self
  have moved := here.move Decision.progsAll_mem Decision.progsSch_mem listed
  rw [Decision.move_lists, List.erase_cons_head] at moved
  refine Wp.modify ⟨moved.rings, ?_⟩
  rw [← here.monitorWnd]
  have assigned := view_assigned first (st.sched.monitorWnd.tmod maxCores)
    (st.moved first .progsSch)
  rw [moved.viewed] at assigned
  exact congrArg (View.modCore (Core.modSched fun sched =>
    { sched with monitorWnd := sched.monitorWnd + 1 })) assigned

theorem monitor_empty (here : d.At [] [] st) : monitor st = .error .misuse st := by
  have next := next_head_walkPos here.ring
  have stops : cdsListFirst .progsAll st = .error .misuse st := by
    change cdsListEntry (st.links.next .progsAll) st = _
    rw [next]
    rfl
  change (cdsListFirst .progsAll >>= _) st = _
  simp only [Bind.bind, EStateM.bind, stops]

end Schedules

section Picked

variable {progs : List ProgPtr} {st : ExecState}

theorem PolicyName.full_max (name : PolicyName) : name.full maxCores := by
  cases name <;> simp [full, Decision.Full, Decision.Reached]

theorem PolicyName.full_le (name : PolicyName) {cores : Int} (isFull : name.full cores) :
    maxCores ≤ cores := by
  cases name with
  | perf => exact isFull
  | fair => exact (show cores = maxCores from isFull).ge
  | perfFair => exact (show cores = maxCores from isFull).ge
  | fairBwCache => exact (show cores = maxCores from isFull).ge

namespace Decision

variable {d : Decision} {full : Int → Prop} {picked rest : List ProgPtr}

/-- Programs that take one core each. -/
theorem cores_single (single : ∀ prog ∈ picked, d.need prog = 1) :
    d.cores picked = picked.length := by
  have ones : picked.map d.need = List.replicate picked.length 1 :=
    List.eq_replicate_iff.mpr ⟨List.length_map .., by simpa using single⟩
  rw [cores, ones, List.sum_replicate, nsmul_eq_mul, mul_one]

/-- No more programs of one core each are picked than there are cores. -/
theorem Chosen.length_le (chosen : d.Chosen full progs picked rest st) (fills : full maxCores)
    (single : ∀ prog ∈ progs, d.need prog = 1) : picked.length ≤ maxCores.toNat := by
  by_contra more
  have inside : picked ⊆ progs := fun prog member =>
    chosen.perm.subset (List.mem_append_left _ member)
  have more : maxCores.toNat < picked.length := not_le.mp more
  have split : picked = picked.take maxCores.toNat ++
      picked[maxCores.toNat] :: picked.drop (maxCores.toNat + 1) := by simp
  have front : d.cores (picked.take maxCores.toNat) = maxCores := by
    rw [cores_single fun prog member => single prog (inside (List.mem_of_mem_take member)),
      List.length_take_of_le more.le]
    rfl
  refine chosen.guarded _ _ _ split ?_
  rwa [front]

/-- As many programs of one core each are picked as there are programs and cores. -/
theorem Done.length_eq {name : PolicyName} (chosen : d.Chosen name.full progs picked rest st)
    (ended : name.full (d.cores picked) ∨ rest = []) (single : ∀ prog ∈ progs, d.need prog = 1) :
    picked.length = min maxCores.toNat progs.length := by
  have inside : picked ⊆ progs := fun prog member =>
    chosen.perm.subset (List.mem_append_left _ member)
  have few := chosen.length_le name.full_max single
  have total := chosen.perm.length_eq
  rw [List.length_append] at total
  rcases ended with isFull | rfl
  · have reached := name.full_le isFull
    rw [cores_single fun prog member => single prog (inside member)] at reached
    omega
  · rw [List.length_nil] at total
    omega

/-- The calls of `schedule_setcpurange` for programs that take one core each. -/
theorem grants_single {need : ProgPtr → Int} (single : ∀ prog ∈ picked, need prog = 1)
    (start : Nat) :
    grants need picked start =
      (picked.zipIdx start).map fun grant => .setCpuRange grant.1 grant.2 (grant.2 + 1) := by
  induction picked generalizing start with
  | nil => rfl
  | cons prog later ih =>
      have rest := ih (fun other member => single other (by simp [member])) (start + 1)
      rw [grants, List.zipIdx_cons, List.map_cons, ← rest, single prog (by simp)]
      push_cast
      rfl

end Decision

/-- Outside of the monitoring phase, with programs of one core each, every policy moves as
many programs to `progs_sch` as there are programs and cores, loses none, and hands out the
positions from 0 on, one to each program. -/
theorem schedule_picks_programs (name : PolicyName) (progs : List ProgPtr) (st : ExecState)
    (population : Population progs st) (counted : st.sched.progsNr = progs.length)
    (ordinary : st.sched.progsNr < st.sched.monitorWnd)
    (single : ∀ prog ∈ progs, (st.progs prog).coresNeeded = 1) :
    ∃ (st' : ExecState) (picked rest : List ProgPtr), name.policy.schedule st = .ok () st' ∧
      IsRing st'.links .progsSch (picked.map Node.plNode) ∧
      IsRing st'.links .progsAll (rest.map Node.plNode) ∧
      (picked ++ rest).Perm progs ∧
      picked.length = min maxCores.toNat progs.length ∧
      st'.log = st.log ++ picked.zipIdx.map
        (fun grant => .setCpuRange grant.1 grant.2 (grant.2 + 1)) ∧
      ∀ (k : Nat) prog, picked[k]? = some prog → (st'.progs prog).cpuset = [st.cpuAt k] := by
  have single : ∀ prog ∈ progs, st.decision.need prog = 1 := single
  have spec := schedule_spec name population.at ordinary
  cases run : name.policy.schedule st with
  | error stop st' =>
      obtain ⟨-, -, -, many, picked, chosen, notFull⟩ := (of_error run).mp spec
      have few := chosen.length_le rfl single
      have total := chosen.perm.length_eq
      have many : maxCores < st.sched.progsNr := many
      rw [List.append_nil] at total
      unfold maxCores at few many
      exact absurd many (by omega)
  | ok _ st' =>
      obtain ⟨picked, rest, chosen, ended⟩ := (of_ok run).mp spec
      have inside : ∀ prog ∈ picked, st.decision.need prog = 1 := fun prog member =>
        single prog (chosen.perm.subset (List.mem_append_left _ member))
      have core := chosen.here.core
      refine ⟨st', picked, rest, rfl, chosen.here.rings.ring _ Decision.progsSch_mem,
        chosen.here.ring,
        chosen.perm, Decision.Done.length_eq chosen ended single, ?_, fun k prog atK => ?_⟩
      · have log := Core.assignAll_log st.core st.decision.need picked 0 fun _ => rfl
        rw [← Nat.cast_zero, Decision.grants_single inside] at log
        exact (congrArg Core.log core).trans log
      · obtain ⟨short, rfl⟩ := List.getElem?_eq_some_iff.mp atK
        have self := (Core.assignAll_single st.core st.decision.need picked (fun _ => rfl)
          (chosen.here.rings.nodup Decision.progsSch_mem) inside k short).1
        have here := congrArg (fun core => (core.progs picked[k]).cpuset) core
        exact here.trans (congrArg ProgCore.cpuset self)

/-- Seven programs on the six cores of `fair_bw_cache`. -/
theorem schedule_picks_programs_seven :
    let st := ExecState.populated (List.replicate 7 1) [8, 9, 10, 11, 12, 13] 8 7 fun _ => .blank
    ∃ (st' : ExecState) (picked rest : List ProgPtr),
      PolicyName.fairBwCache.policy.schedule st = .ok () st' ∧
      IsRing st'.links .progsSch (picked.map Node.plNode) ∧
      IsRing st'.links .progsAll (rest.map Node.plNode) ∧
      (picked ++ rest).Perm (List.range 7) ∧
      picked.length = min maxCores.toNat (List.range 7).length ∧
      st'.log = st.log ++ picked.zipIdx.map
        (fun grant => .setCpuRange grant.1 grant.2 (grant.2 + 1)) ∧
      ∀ (k : Nat) prog, picked[k]? = some prog → (st'.progs prog).cpuset = [st.cpuAt k] :=
  schedule_picks_programs .fairBwCache (List.range 7) _
    (populated_population (List.replicate 7 1) [8, 9, 10, 11, 12, 13] 8 7 fun _ => .blank)
      rfl (by decide)
    (by decide)

end Picked

end BachScheduler
