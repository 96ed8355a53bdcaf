import BachScheduler.DecisionRanges

/-!
# When the ranges of every decision stay within the cores

A loop that stops when the cores are exactly full steps over that point for some sizes
of programs.  Whether this can happen is decided by the sizes alone: they have to fit
all together, or be one divisor of `MAX_CORES`.
-/

namespace BachScheduler

open BachScheduler.Ring Wp Packing

section Safe

/-- The ranges passed to `schedule_setcpurange`. -/
def rangesOf (log : List Event) : List (Int × Int) :=
  log.filterMap fun event =>
    match event with
    | .setCpuRange _ rstart rend => some (rstart, rend)
    | _ => none

/-- All ranges are non-empty, lie within the cores and the cpus, and do not overlap. -/
def RangesSafe (cpusNr : Nat) (ranges : List (Int × Int)) : Prop :=
  (∀ range ∈ ranges, 0 ≤ range.1 ∧ range.1 < range.2 ∧ range.2 ≤ min maxCores cpusNr) ∧
    ranges.Pairwise fun first second => first.2 ≤ second.1 ∨ second.2 ≤ first.1

/-- What one decision has passed to `schedule_setcpurange` since `st` is safe, and it took no
program from an empty list. -/
def DecisionSafe (st : ExecState) : EStateM.Result Stop ExecState Unit → Prop
  | .ok _ st' => RangesSafe st.cpus.length (rangesOf (st'.log.drop st.log.length))
  | .error stop st' =>
      stop ≠ .misuse ∧ RangesSafe st.cpus.length (rangesOf (st'.log.drop st.log.length))

instance (cpusNr : Nat) (ranges : List (Int × Int)) : Decidable (RangesSafe cpusNr ranges) :=
  inferInstanceAs (Decidable (_ ∧ _))

instance (st : ExecState) (result : EStateM.Result Stop ExecState Unit) :
    Decidable (DecisionSafe st result) :=
  match result with
  | .ok _ _ => inferInstanceAs (Decidable (RangesSafe _ _))
  | .error _ _ => inferInstanceAs (Decidable (_ ∧ _))

variable {d : Decision} {need : ProgPtr → Int} {picked rest progs : List ProgPtr} {st : ExecState}

theorem rangesOf_grants (start : Int) :
    rangesOf (grants need picked start) = layout (picked.map need) start := by
  induction picked generalizing start with
  | nil => rfl
  | cons prog later ih =>
      rw [List.map_cons, layout, ← ih]
      rfl

/-- Ranges that lie end to end are safe if they do not go too far. -/
theorem rangesSafe_iff {cpusNr : Nat} {sizes : List Int} (positive : ∀ size ∈ sizes, 0 < size) :
    RangesSafe cpusNr (layout sizes 0) ↔ sizes.sum ≤ min maxCores cpusNr := by
  constructor
  · intro safe
    by_cases none : sizes = []
    · subst none
      have : (0 : Int) ≤ cpusNr := Int.natCast_nonneg _
      simp [maxCores]
    · obtain ⟨range, member, ends⟩ := layout_end none 0
      have within := (safe.1 range member).2.2
      rwa [ends, zero_add] at within
  · intro fits
    refine ⟨fun range member => ?_, (layout_apart positive 0).imp fun apart => .inl apart⟩
    have within := layout_within positive member
    rw [zero_add] at within
    exact ⟨within.1, within.2.1, within.2.2.trans fits⟩

theorem ranges_picked {assigned : List ProgPtr} {among : List Node} {on : Lists}
    (has : d.Has among on assigned st) :
    rangesOf (st.log.drop d.origin.core.log.length) = layout (assigned.map d.need) 0 := by
  have log := (congrArg Core.log has.core).trans (Core.assignAll_log _ _ assigned 0 fun _ => rfl)
  have log : st.log = _ := log
  rw [log, List.drop_left, rangesOf_grants]

end Safe

section Fits

/-- The sizes fit together into the cores and cpus, or are one divisor of `MAX_CORES`. -/
def Fits (sizes : List Int) (cpusNr : Nat) : Prop :=
  sizes.sum ≤ min maxCores cpusNr ∨
    maxCores ≤ cpusNr ∧ ∃ size, size ∣ maxCores ∧ ∀ other ∈ sizes, other = size

/-- The configurations for which every decision is safe. -/
def DecisionFits (name : PolicyName) (sizes : List Int) (cpusNr : Nat) (monitorWnd progsNr : Int) :
    Prop :=
  if monitorWnd ≤ progsNr then
    sizes ≠ [] ∧ 0 ≤ monitorWnd.tmod maxCores ∧
      ∀ size ∈ sizes, monitorWnd.tmod maxCores + size ≤ min maxCores cpusNr
  else
    Fits sizes cpusNr ∧
      (name = .perfFair → sizes ≠ [] → maxCores < progsNr → maxCores ≤ sizes.sum)

variable {d : Decision} {name : PolicyName} {picked rest progs : List ProgPtr} {st st' : ExecState}
variable {sizes : List Int} {cpusNr : Nat}

theorem Decision.Chosen.cores_eq {full : Int → Prop} (chosen : d.Chosen full progs picked rest st)
    (perm : (progs.map d.need).Perm sizes) : d.cores picked + d.cores rest = sizes.sum := by
  rw [← perm.sum_eq, ← (chosen.perm.map d.need).sum_eq, List.map_append, List.sum_append]
  rfl

theorem Decision.Chosen.positive {full : Int → Prop} (chosen : d.Chosen full progs picked rest st)
    (perm : (progs.map d.need).Perm sizes) (positive : ∀ size ∈ sizes, 0 < size) :
    (∀ size ∈ picked.map d.need, 0 < size) ∧ ∀ size ∈ rest.map d.need, 0 < size := by
  have all := (chosen.perm.map d.need).trans perm
  rw [List.map_append] at all
  exact ⟨fun size member => positive size (all.subset (List.mem_append_left _ member)),
    fun size member => positive size (all.subset (List.mem_append_right _ member))⟩

/-- Programs that fit stay within the cores and cpus. -/
theorem picked_fits (chosen : d.Chosen name.full progs picked rest st)
    (perm : (progs.map d.need).Perm sizes) (positive : ∀ size ∈ sizes, 0 < size)
    (fits : Fits sizes cpusNr) : d.cores picked ≤ min maxCores cpusNr := by
  obtain ⟨pickedPositive, restPositive⟩ := chosen.positive perm positive
  rcases fits with all | ⟨enough, size, divides, even⟩
  · have total := chosen.cores_eq perm
    have more : 0 ≤ d.cores rest := sum_nonneg restPositive
    omega
  rw [min_eq_left enough]
  by_cases none : picked = []
  · subst none
    exact (by decide : (0 : Int) ≤ maxCores)
  have all := (chosen.perm.map d.need).trans perm
  rw [List.map_append] at all
  have even : ∀ other ∈ picked.map d.need, other = size := fun other member =>
    even other (all.subset (List.mem_append_left _ member))
  obtain ⟨first, member⟩ := List.exists_mem_of_ne_nil picked none
  have member : d.need first ∈ picked.map d.need := List.mem_map_of_mem member
  have sizePositive : 0 < size := even _ member ▸ pickedPositive _ member
  refine sum_le_of_even sizePositive divides (by decide) even fun before next after split hit => ?_
  obtain ⟨front, tail, rfl, rfl, tailMap⟩ := List.map_eq_append_iff.mp split
  obtain ⟨prog, back, rfl, -, -⟩ := List.map_eq_cons_iff.mp tailMap
  refine chosen.guarded front prog back rfl ?_
  rw [show d.cores front = maxCores from hit]
  exact name.full_max

theorem monitoring_safe_iff {first : ProgPtr} {later : List ProgPtr}
    (population : Population (first :: later) st)
    (monitoring : st.sched.monitorWnd ≤ st.sched.progsNr)
    (positive : 0 < (st.progs first).coresNeeded) :
    DecisionSafe st (name.policy.schedule st) ↔
      0 ≤ st.sched.monitorWnd.tmod maxCores ∧
        st.sched.monitorWnd.tmod maxCores + (st.progs first).coresNeeded ≤
          min maxCores st.cpus.length := by
  rw [schedule_monitors name monitoring]
  have spec := monitor_spec (E := fun _ _ => False) population.at
  cases run : monitor st with
  | error stop st' => exact ((of_error run).mp spec).elim
  | ok _ st' =>
      have log := congrArg (fun v => v.core.log) ((of_ok run).mp spec).2
      have log : st'.log = st.log ++ [.setCpuRange first (st.sched.monitorWnd.tmod maxCores)
        (st.sched.monitorWnd.tmod maxCores + (st.progs first).coresNeeded)] := log
      simp only [DecisionSafe, log, List.drop_left, rangesOf, RangesSafe]
      simp
      omega

theorem ordinary_safe_iff (chosen : d.Chosen name.full progs picked rest st')
    (perm : (progs.map d.need).Perm sizes) (positive : ∀ size ∈ sizes, 0 < size) :
    RangesSafe cpusNr (rangesOf (st'.log.drop d.origin.core.log.length)) ↔
      d.cores picked ≤ min maxCores cpusNr := by
  rw [ranges_picked chosen.here]
  exact rangesSafe_iff (chosen.positive perm positive).1

/-- With a configuration that fits, every decision is safe. -/
theorem safe_of_fits (population : Population progs st)
    (perm : (progs.map fun prog => (st.progs prog).coresNeeded).Perm sizes)
    (positive : ∀ size ∈ sizes, 0 < size)
    (fits : DecisionFits name sizes st.cpus.length st.sched.monitorWnd st.sched.progsNr) :
    DecisionSafe st (name.policy.schedule st) := by
  unfold DecisionFits at fits
  split at fits
  case isTrue monitoring =>
    obtain ⟨some, start, inside⟩ := fits
    cases progs with
    | nil => exact absurd perm.nil_eq.symm some
    | cons first later =>
        have member : (st.progs first).coresNeeded ∈ sizes := perm.subset (by simp)
        exact (monitoring_safe_iff population monitoring (positive _ member)).mpr
          ⟨start, inside _ member⟩
  case isFalse ordinary =>
    obtain ⟨fits, enough⟩ := fits
    have spec := schedule_spec name population.at (not_le.mp ordinary)
    cases run : name.policy.schedule st with
    | ok _ st' =>
        obtain ⟨picked, rest, chosen, -⟩ := (of_ok run).mp spec
        exact (ordinary_safe_iff chosen perm positive).mpr (picked_fits chosen perm positive fits)
    | error stop st' =>
        obtain ⟨rfl, -, some, many, picked, chosen, notFull⟩ := (of_error run).mp spec
        have total := chosen.cores_eq perm
        have chosen : st.decision.Chosen PolicyName.perfFair.full progs picked [] st' := chosen
        have most := picked_fits chosen perm positive fits
        have least := enough rfl (fun none => some (by simpa [none] using perm)) many
        rw [Decision.cores_nil, add_zero] at total
        exact absurd (le_antisymm (most.trans (min_le_left ..)) (total ▸ least)) notFull

end Fits

section Misfits

variable {d : Decision} {name : PolicyName} {picked rest progs : List ProgPtr} {st st' : ExecState}
variable {sizes : List Int} {cpusNr : Nat}

theorem cores_take_le (positive : ∀ size ∈ progs.map d.need, 0 < size) (k : Nat) :
    d.cores (progs.take k) ≤ d.cores progs := by
  have others : 0 ≤ d.cores (progs.drop k) := sum_nonneg fun size member =>
    positive size (List.map_subset _ (List.drop_subset ..) member)
  have total : d.cores progs = d.cores (progs.take k) + d.cores (progs.drop k) := by
    conv_lhs => rw [← List.take_append_drop k progs]
    simp only [Decision.cores, List.map_append, List.sum_append]
  omega

/-- A decision over programs that no rule distinguishes goes beyond the cores, if the sizes of
the programs do so in the order of the list. -/
theorem overshoots_picked (chosen : d.Chosen name.full progs picked rest st)
    (ended : name.full (d.cores picked) ∨ rest = []) (bland : d.Bland progs)
    (positive : ∀ size ∈ progs.map d.need, 0 < size)
    (overshoots : Overshoots maxCores (progs.map d.need)) : maxCores < d.cores picked := by
  obtain ⟨before, size, after, split, below, beyond⟩ := overshoots
  obtain ⟨front, tail, rfl, rfl, tailMap⟩ := List.map_eq_append_iff.mp split
  obtain ⟨prog, back, rfl, rfl, rfl⟩ := List.map_eq_cons_iff.mp tailMap
  have frontPositive : ∀ size ∈ front.map d.need, 0 < size := fun size member =>
    positive size (by simp only [List.map_append, List.mem_append]; exact .inl member)
  have short : front.length < maxCores.toNat := by
    have count := length_le_sum frontPositive
    rw [List.length_map] at count
    omega
  have same : (picked ++ rest).take (front.length + 1) = front ++ [prog] := by
    have leading := congrArg (List.take (front.length + 1)) (chosen.ordered bland)
    unfold Decision.leaders at leading
    rw [List.take_take, List.take_take, min_eq_left (by omega)] at leading
    rw [leading, List.append_cons, List.take_left' (by simp)]
  obtain ⟨pickedPositive, -⟩ := chosen.positive (.refl _) positive
  have longer : front.length < picked.length := by
    by_contra notLonger
    have notLonger := not_lt.mp notLonger
    have inside : picked = front.take picked.length := by
      have taken := congrArg (List.take picked.length) same
      rwa [List.take_take, min_eq_left (by omega), List.take_left,
        List.take_append_of_le_length notLonger] at taken
    have fewer : d.cores picked ≤ d.cores front := inside ▸ cores_take_le frontPositive _
    have below : d.cores front < maxCores := below
    rcases ended with isFull | rfl
    · have reached := name.full_le isFull
      omega
    · have count := congrArg List.length same
      simp only [List.append_nil, List.length_take, List.length_append,
        List.length_singleton] at count
      omega
  have taken : picked.take (front.length + 1) = front ++ [prog] := by
    rwa [List.take_append_of_le_length longer] at same
  have more := cores_take_le pickedPositive (front.length + 1)
  have beyond : maxCores < d.cores front + d.need prog := beyond
  rw [taken, Decision.cores_concat] at more
  omega

/-- The decision of `perf_fair` among programs that all read too much memory for its first loop. -/
theorem perfFair_heavy (here : d.At [] progs st) (ordinary : d.Ordinary) (some : progs ≠ [])
    (many : maxCores < d.origin.core.sched.progsNr)
    (heavy : ∀ prog ∈ progs, (d.traits prog).sumMemReads > bwLimit - 271250000) :
    wp perfFairSchedule
      (fun _ st' => ∃ picked rest, d.Chosen Decision.Full progs picked rest st' ∧
        Decision.Full (d.cores picked))
      (fun stop _ => stop = .misuse) st := by
  refine Wp.bind_ok (Decision.Has.monitoringPhase_run here ordinary) ?_
  refine Wp.bind_ok (writeResults_run st) ?_
  refine Wp.bind (Decision.sortAll_spec Decision.Full here.written) fun _ st₁ sorted => ?_
  obtain ⟨sorted, chosen⟩ := sorted
  have inside : sorted ⊆ progs := chosen.perm.subset
  refine Wp.bind (Decision.readWalk_spec (fun ahead acc => ahead ⊆ sorted ∧ acc = (0, bwLimit))
    chosen.here.ring chosen.here.short ?_ ⟨List.Subset.refl _, rfl⟩) fun acc st₂ passed => ?_
  · intro prog ahead acc inv
    obtain ⟨within, rfl⟩ := inv
    have reads := heavy prog (inside (within List.mem_cons_self))
    rw [← chosen.here.traits] at reads
    have refused : Decision.perfFairAdmits (st₁.pds prog) (0, bwLimit) = none := if_pos reads
    refine ⟨(0, bwLimit), ?_, (List.cons_subset.mp within).2, rfl⟩
    rw [Decision.perfFairPass_eq]
    exact Decision.admitBody_refused (by decide) refused
  · obtain ⟨rfl, -, rfl⟩ := passed
    have several : sorted ≠ [] := fun none => some (by simpa [none] using chosen.perm)
    have filled : cdsListEmpty .progsAll st₂.links = false := by
      rw [Bool.eq_false_iff]
      exact fun empty => several (chosen.here.empty_iff.mp empty)
    obtain ⟨first, member⟩ := List.exists_mem_of_ne_nil progs some
    have other : ¬ d.Bland progs := fun bland => by
      have reads := heavy first member
      rw [bland.sumMemReads first member] at reads
      exact absurd reads (by decide)
    refine Wp.bind_ok (listEmpty_run _ _) ?_
    rw [filled]
    refine Wp.ite (fun _ => ?_) fun finished => absurd (by simp [maxCores]) finished
    refine Wp.bind_ok (readSched_run st₂) (Wp.ite (fun few => ?_) fun _ => ?_)
    · rw [chosen.here.progsNr] at few
      omega
    · refine Wp.bind_ok (walkFuel_run st₂) ?_
      exact Wp.mono (Decision.perfFairNeighborsLoop_spec other _ chosen
        (Nat.lt_succ_of_le chosen.here.short) _) (fun _ _ ends => ends) fun _ _ stopped => stopped.1

end Misfits

section Configurations

variable {name : PolicyName} {sizes order : List Int} {cpusNr : Nat} {monitorWnd progsNr : Int}

/-- Every decision of a policy over programs of the given sizes is safe, in whatever order the
programs stand and whatever was measured about them. -/
def EveryDecisionSafe (name : PolicyName) (sizes : List Int) (cpusNr : Nat)
    (monitorWnd progsNr : Int) : Prop :=
  ∀ (progs : List ProgPtr) (st : ExecState), Population progs st →
    (progs.map fun prog => (st.progs prog).coresNeeded).Perm sizes → st.cpus.length = cpusNr →
    st.sched.monitorWnd = monitorWnd → st.sched.progsNr = progsNr →
    DecisionSafe st (name.policy.schedule st)

theorem populated_sizes (sizes cpus : List Int) (monitorWnd progsNr : Int)
    (pd : ProgPtr → ProgData) : ((List.range sizes.length).map fun prog =>
      ((ExecState.populated sizes cpus monitorWnd progsNr pd).progs prog).coresNeeded) = sizes := by
  refine List.ext_getElem (by simp) fun k short _ => ?_
  simp at short
  simp [ExecState.populated, short]

theorem populated_need (perm : order.Perm sizes) (cpus : List Int) (pd : ProgPtr → ProgData) :
    ((List.range order.length).map
      (ExecState.populated order cpus monitorWnd progsNr pd).decision.need).Perm sizes := by
  have same := populated_sizes order cpus monitorWnd progsNr pd
  change (List.map (fun prog => _) (List.range order.length)).Perm sizes
  rw [← same] at perm
  exact perm

/-- The decision over given programs in a given order. -/
theorem EveryDecisionSafe.populated (safe : EveryDecisionSafe name sizes cpusNr monitorWnd progsNr)
    (perm : order.Perm sizes) (pd : ProgPtr → ProgData) :
    let st := ExecState.populated order (List.replicate cpusNr 0) monitorWnd progsNr pd
    DecisionSafe st (name.policy.schedule st) := by
  refine safe _ _ (populated_population ..) ?_
    (by simp [ExecState.populated, ExecState.start]) rfl rfl
  rw [populated_sizes]
  exact perm

/-- A program like all others, but for a ratio that grows with its number. -/
def blandPd (prog : ProgPtr) : ProgData :=
  { ProgData.blank with ratio := BitVec.ofNat 64 (min prog 7) }

/-- A program that reads more memory than `perf_fair` admits. -/
def heavyPd (_prog : ProgPtr) : ProgData :=
  { ProgData.blank with sumMemReads := bwLimit }

theorem ratio_small : ∀ k < 8, ((BitVec.ofNat 64 k).setWidth 32).toInt = k := by
  decide

theorem blandPd_bland (sizes cpus : List Int) (monitorWnd progsNr : Int) :
    (ExecState.populated sizes cpus monitorWnd progsNr blandPd).decision.Bland
      (List.range sizes.length) := by
  have ratio : ∀ prog,
      (ExecState.populated sizes cpus monitorWnd progsNr blandPd).decision.ratio prog =
      (min prog 7 : Nat) := fun prog => ratio_small (min prog 7) (by omega)
  have leading : Decision.leaders (List.range sizes.length) = List.range (min 7 sizes.length) := by
    rw [Decision.leaders, List.take_range]
    rfl
  refine ⟨fun _ _ => rfl, fun _ _ => rfl, fun _ _ _ _ => rfl, ?_, ?_⟩
  · rw [leading]
    refine List.pairwise_lt_range.imp_of_mem fun {prog other} _ member less => ?_
    have small := List.mem_range.mp member
    rw [ratio, ratio]
    omega
  · rw [leading]
    intro prog member other _ behind
    have small := List.mem_range.mp member
    rw [List.mem_range] at behind
    rw [ratio, ratio]
    omega

/-- A safe decision in the monitoring phase. -/
theorem monitoring_fits (positive : ∀ size ∈ sizes, 0 < size) (monitoring : monitorWnd ≤ progsNr)
    (safe : EveryDecisionSafe name sizes cpusNr monitorWnd progsNr) :
    sizes ≠ [] ∧ 0 ≤ monitorWnd.tmod maxCores ∧
      ∀ size ∈ sizes, monitorWnd.tmod maxCores + size ≤ min maxCores cpusNr := by
  have some : sizes ≠ [] := by
    rintro rfl
    have empty := safe.populated (.refl []) blandPd
    simp only at empty
    have none := (populated_population [] (List.replicate cpusNr 0) monitorWnd progsNr blandPd).at
    rw [schedule_monitors name monitoring, monitor_empty none] at empty
    exact empty.1 rfl
  have each : ∀ size ∈ sizes, 0 ≤ monitorWnd.tmod maxCores ∧
      monitorWnd.tmod maxCores + size ≤ min maxCores cpusNr := by
    intro size member
    have safe := safe.populated (List.perm_cons_erase member).symm blandPd
    have population := populated_population (size :: sizes.erase size) (List.replicate cpusNr 0)
      monitorWnd progsNr blandPd
    rw [List.length_cons, List.range_succ_eq_map] at population
    have within := (monitoring_safe_iff population monitoring (positive size member)).mp safe
    simpa [ExecState.populated, ExecState.start] using within
  obtain ⟨size, member⟩ := List.exists_mem_of_ne_nil sizes some
  exact ⟨some, (each size member).1, fun size member => (each size member).2⟩

/-- What a safe decision outside of the monitoring phase has picked. -/
theorem picked_of_safe (positive : ∀ size ∈ sizes, 0 < size) (ordinary : progsNr < monitorWnd)
    (safe : EveryDecisionSafe name sizes cpusNr monitorWnd progsNr) (perm : order.Perm sizes)
    (pd : ProgPtr → ProgData) :
    let st := ExecState.populated order (List.replicate cpusNr 0) monitorWnd progsNr pd
    ∃ st' picked rest,
      st.decision.Chosen name.full (List.range order.length) picked rest st' ∧
      (name.full (st.decision.cores picked) ∨ rest = []) ∧
      st.decision.cores picked ≤ min maxCores cpusNr := by
  intro st
  have safe : DecisionSafe st (name.policy.schedule st) := safe.populated perm pd
  have here := (populated_population order (List.replicate cpusNr 0) monitorWnd progsNr pd).at
  have sizesPerm : ((List.range order.length).map st.decision.need).Perm sizes :=
    populated_need perm _ pd
  have spec := schedule_spec name here ordinary
  cases run : name.policy.schedule st with
  | ok _ st' =>
      obtain ⟨picked, rest, chosen, ended⟩ := (of_ok run).mp spec
      rw [run] at safe
      have within := (ordinary_safe_iff chosen sizesPerm positive).mp safe
      rw [show st.cpus.length = cpusNr by simp [st, ExecState.populated, ExecState.start]] at within
      exact ⟨st', picked, rest, chosen, ended, within⟩
  | error stop st' =>
      obtain ⟨-, misuse, -⟩ := (of_error run).mp spec
      rw [run] at safe
      exact absurd misuse safe.1

/-- Sizes of programs whose decisions are all safe fit. -/
theorem sizes_fit (positive : ∀ size ∈ sizes, 0 < size) (ordinary : progsNr < monitorWnd)
    (safe : EveryDecisionSafe name sizes cpusNr monitorWnd progsNr) : Fits sizes cpusNr := by
  by_contra misfit
  unfold Fits at misfit
  push Not at misfit
  obtain ⟨more, uneven⟩ := misfit
  by_cases enough : maxCores ≤ cpusNr
  · rw [min_eq_left enough] at more
    have uneven : ¬ ∃ size, size ∣ maxCores ∧ ∀ other ∈ sizes, other = size := by
      simpa using uneven enough
    obtain ⟨order, perm, overshoots⟩ := exists_overshoot positive (by decide) more uneven
    obtain ⟨st', picked, rest, chosen, ended, within⟩ :=
      picked_of_safe positive ordinary safe perm blandPd
    have orderSizes := populated_sizes order (List.replicate cpusNr 0) monitorWnd progsNr blandPd
    have beyond := overshoots_picked chosen ended (blandPd_bland ..)
      (fun size member => positive size (perm.subset (orderSizes ▸ member)))
        (orderSizes.symm ▸ overshoots)
    omega
  · obtain ⟨st', picked, rest, chosen, ended, within⟩ :=
      picked_of_safe positive ordinary safe (.refl sizes) blandPd
    rcases ended with isFull | rfl
    · have reached := name.full_le isFull
      omega
    · have total := chosen.cores_eq (populated_need (.refl sizes) _ blandPd)
      rw [Decision.cores_nil] at total
      omega

/-- If every decision is safe, the configuration fits. -/
theorem fits_of_safe (positive : ∀ size ∈ sizes, 0 < size)
    (safe : EveryDecisionSafe name sizes cpusNr monitorWnd progsNr) :
    DecisionFits name sizes cpusNr monitorWnd progsNr := by
  unfold DecisionFits
  split
  case isTrue monitoring => exact monitoring_fits positive monitoring safe
  case isFalse ordinary =>
    have ordinary := not_le.mp ordinary
    refine ⟨sizes_fit positive ordinary safe, ?_⟩
    rintro rfl some many
    by_contra few
    have safe := safe.populated (.refl sizes) heavyPd
    have here :=
      (populated_population sizes (List.replicate cpusNr 0) monitorWnd progsNr heavyPd).at
    have some : List.range sizes.length ≠ [] := by simpa using some
    have spec := perfFair_heavy here ordinary some many fun prog _ =>
      (by decide : bwLimit > bwLimit - 271250000)
    simp only at safe
    cases run : PolicyName.perfFair.policy.schedule
      (ExecState.populated sizes (List.replicate cpusNr 0) monitorWnd progsNr heavyPd) with
    | ok _ st' =>
        obtain ⟨picked, rest, chosen, isFull⟩ := (of_ok run).mp spec
        have total := chosen.cores_eq (populated_need (.refl sizes) _ heavyPd)
        have more := sum_nonneg
          (chosen.positive (populated_need (.refl sizes) _ heavyPd) positive).2
        have reached := PolicyName.full_le .perfFair isFull
        change _ + (List.map _ rest).sum = _ at total
        omega
    | error stop st' =>
        rw [run] at safe
        exact safe.1 ((of_error run).mp spec)

/-- For every policy, sizes of programs, number of cpus and window: all decisions pass ranges
within the cores and the cpus, and take no program from an empty list, exactly if the
configuration fits. -/
theorem decisions_safe_iff (name : PolicyName) (sizes : List Int)
    (positive : ∀ size ∈ sizes, 0 < size) (cpusNr : Nat) (monitorWnd progsNr : Int) :
    EveryDecisionSafe name sizes cpusNr monitorWnd progsNr ↔
      DecisionFits name sizes cpusNr monitorWnd progsNr := by
  refine ⟨fits_of_safe positive, fun fits progs st population perm cpus wnd nr => ?_⟩
  subst cpus wnd nr
  exact safe_of_fits population perm positive fits

/-- Six programs of one core each on six cpus. -/
theorem decisions_safe_iff_six :
    EveryDecisionSafe .perfFair (List.replicate 6 1) 6 7 6 ↔
      DecisionFits .perfFair (List.replicate 6 1) 6 7 6 :=
  decisions_safe_iff .perfFair (List.replicate 6 1) (by decide) 6 7 6

/-- Two programs of four cores each on eight cpus: `fair` gives the second one the positions
from 4 to 8. -/
theorem decisions_unsafe_four : ¬ EveryDecisionSafe .fair [4, 4] 8 3 2 := by
  intro safe
  have one := safe.populated (.refl [4, 4]) blandPd
  revert one
  decide +kernel

end Configurations

end BachScheduler
