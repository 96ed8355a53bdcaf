import Mathlib.Algebra.Order.BigOperators.Group.List
import Mathlib.Algebra.Order.Ring.Int
import BachScheduler.Population
import BachScheduler.Schedules

/-!
# Which programs the choices prefer

`perf_schedule` takes a program by its waiting time as long as it has allocated no core, and
by its fitness from then on.  It has allocated one as soon as a program that needs a core was
taken: for one that needs none it would ask the kernel for an empty cpuset, and exit when that
is refused.  The two functions `good_neighbors` take the program that fits best, and the least
demanding one of a class.
-/

namespace BachScheduler

open BachScheduler.Ring Wp Words

variable {progs picked rest : List ProgPtr} {st : ExecState} {prog : ProgPtr}
variable {traits : ProgPtr → Traits} {E : Stop → ExecState → Prop}

section Bandwidth

/-- What `perf_schedule` begins with. -/
def perfBandwidth : Int := 547208745 - 291250000

/-- What is left of the bandwidth once some programs were picked. -/
def bwLeft (traits : ProgPtr → Traits) (picked : List ProgPtr) : Int :=
  picked.foldl (fun bw prog => max 0 (bw - (traits prog).memReads)) perfBandwidth

theorem bwLeft_concat : bwLeft traits (picked ++ [prog]) =
    max 0 (bwLeft traits picked - (traits prog).memReads) :=
  List.foldl_concat ..

theorem memReads_nonneg (traits : Traits) : 0 ≤ traits.memReads := Int.natCast_nonneg _

theorem bwLeft_bounds (picked : List ProgPtr) :
    0 ≤ bwLeft traits picked ∧ bwLeft traits picked ≤ perfBandwidth := by
  induction picked using List.reverseRecOn with
  | nil => exact show 0 ≤ perfBandwidth ∧ perfBandwidth ≤ perfBandwidth by decide
  | append_singleton before last ih =>
      have reads := memReads_nonneg (traits last)
      rw [bwLeft_concat]
      unfold perfBandwidth at *
      omega

/-- The subtraction and the clamp of `perf_schedule` are those of the integers. -/
theorem clampBw_toInt {bw reads : Word64} (nonneg : 0 ≤ bw.toInt) (small : reads.toNat < 2 ^ 62) :
    (clampBw (bw - reads)).toInt = max 0 (bw.toInt - reads.toNat) := by
  have same : reads.toInt = reads.toNat := toInt_of_small (by omega)
  have high := small_of_nonneg nonneg
  have value := toNat_of_nonneg nonneg
  have difference : (bw - reads).toInt = bw.toInt - reads.toNat := by
    rw [toInt_sub_of_bounds] <;> omega
  unfold clampBw
  split
  · have zero : (0 : Word64).toInt = 0 := by decide
    omega
  · omega

theorem score_eq_misfit {bw reads : Word64} (nonneg : 0 ≤ bw.toInt) (traits : Traits)
    (same : traits.sumMemReads = reads) :
    ((bwDistance bw reads).toNat : Int) = traits.misfit bw.toInt := by
  subst same
  exact bwDistance_toNat nonneg

end Bandwidth

section Perf

/-- The programs of a list that were not picked yet. -/
def unpicked (progs picked : List ProgPtr) : List ProgPtr :=
  progs.filter (· ∉ picked)

theorem unpicked_concat (nodup : progs.Nodup) :
    (unpicked progs picked).erase prog = unpicked progs (picked ++ [prog]) := by
  have nodup : (unpicked progs picked).Nodup := nodup.filter _
  rw [nodup.erase_eq_filter, unpicked, unpicked, List.filter_filter]
  refine List.filter_congr fun other _ => ?_
  rw [Bool.eq_iff_iff]
  simp [and_comm]

/-- The rule by which `perf_schedule` takes the next program. -/
def PerfPrefers (traits : ProgPtr → Traits) (cores : Int) (picked left : List ProgPtr)
    (prog : ProgPtr) : Prop :=
  if cores = 0 then left.argmax (fun other => (traits other).waiting) = some prog
  else left.argmin (fun other => (traits other).misfit (bwLeft traits picked)) = some prog

namespace Decision

variable {d : Decision}

/-- Every program was taken by the rule of `perf_schedule`. -/
def PerfPreferred (d : Decision) (progs picked : List ProgPtr) : Prop :=
  ∀ before prog after, picked = before ++ prog :: after →
    PerfPrefers d.traits (d.cores before) before (unpicked progs before) prog

theorem PerfPreferred.extend (preferred : d.PerfPreferred progs picked)
    (prefers : PerfPrefers d.traits (d.cores picked) picked (unpicked progs picked) prog) :
    d.PerfPreferred progs (picked ++ [prog]) := by
  intro before first after split
  rcases List.eq_nil_or_concat after with rfl | ⟨front, last, rfl⟩
  · obtain ⟨rfl, equal⟩ := List.append_inj' split rfl
    obtain rfl : prog = first := by simpa using equal
    exact prefers
  · have split : picked ++ [prog] = (before ++ first :: front) ++ [last] := by simpa using split
    exact preferred before first front (List.append_inj' split rfl).1

/-- How `perfNext` chooses from the programs left. -/
def PerfChooses (d : Decision) (cores : Int) (bw : Word64) (left : List ProgPtr) (prog : ProgPtr) :
    Prop :=
  if cores = 0 then left.argmax (fun other => (d.traits other).waiting) = some prog
  else left.argmin (d.score bw) = some prog

theorem PerfChooses.listed {cores : Int} {bw : Word64}
    (chooses : d.PerfChooses cores bw rest prog) : prog ∈ rest := by
  unfold PerfChooses at chooses
  split at chooses
  · exact List.argmax_mem chooses
  · exact List.argmin_mem chooses

/-- The next program, whatever fitness values the programs had. -/
theorem perfNext_chooses (here : d.At picked rest st) (cores : Int) (bw : Word64) :
    wp (perfNext cores bw) (fun drawn st' => match drawn with
      | none => rest = [] ∧ d.At picked rest st'
      | some prog => d.PerfChooses cores bw rest prog ∧
          ∃ before, d.At picked rest before ∧ st' = unlinked before prog) E st := by
  refine Wp.ite (fun zero => Wp.imp (perfMaxWaiting_chooses here) ?_)
    fun some => Wp.imp (perfMaxFitness_chooses here bw) ?_
  · intro drawn st' found
    cases drawn with
    | none => exact found
    | some prog => exact ⟨(if_pos zero).mpr found.1, found.2⟩
  · intro drawn st' found
    cases drawn with
    | none => exact found
    | some prog =>
        obtain ⟨best, before, here, unlinks⟩ := found
        exact ⟨(if_neg some).mpr best, before.written, here.written, unlinks⟩

/-- The loop of `perf_schedule` keeps what every choice keeps; `I` speaks about the programs
picked so far and the bandwidth left. -/
theorem perfLoop_induction (I : List ProgPtr → Word64 → Prop)
    (step : ∀ picked bw prog, I picked bw →
      d.PerfChooses (d.cores picked) bw (unpicked progs picked) prog →
      I (picked ++ [prog]) (clampBw (bw - (d.traits prog).sumMemReads)))
    (nodup : progs.Nodup) (fuel : Nat) {picked : List ProgPtr} {st : ExecState} {bw : Word64}
    (here : d.At picked (unpicked progs picked) st) (holds : I picked bw)
    (enough : (unpicked progs picked).length < fuel) :
    wp (perfLoop fuel (d.cores picked) bw) (fun _ st' => ∃ picked' bw',
      d.At picked' (unpicked progs picked') st' ∧ I picked' bw' ∧
        (maxCores ≤ d.cores picked' ∨ unpicked progs picked' = [])) E st := by
  induction fuel generalizing picked st bw with
  | zero => simp at enough
  | succ fuel ih =>
      unfold perfLoop
      refine Wp.ite (fun free => ?_) fun full =>
        Wp.pure ⟨picked, bw, here, holds, .inl (not_lt.mp full)⟩
      refine Wp.bind (perfNext_chooses here _ bw) fun drawn st' outcome => ?_
      cases drawn with
      | none => exact Wp.pure ⟨picked, bw, outcome.2, holds, .inr outcome.1⟩
      | some prog =>
          obtain ⟨chooses, before, here, rfl⟩ := outcome
          have taken := At.take here.written chooses.listed
          rw [unpicked_concat nodup] at taken
          have relinked : modifyLinks (cdsListAddTail (.plNode prog) .progsSch)
            (unlinked before prog).written = .ok () (before.written.moved prog .progsSch) := rfl
          refine Wp.bind_ok (readPd_run prog _)
            (Wp.bind_ok (writeResults_run _) (Wp.bind_ok relinked ?_))
          refine Wp.bind_ok (assignCores_run prog _ _) (Wp.bind_ok (readProg_run prog _) ?_)
          rw [taken.coresNeeded]
          have shorter := erase_shorter chooses.listed enough
          rw [unpicked_concat nodup] at shorter
          have reads : (before.pds prog).sumMemReads = (d.traits prog).sumMemReads :=
            congrArg Traits.sumMemReads (here.traits prog)
          have later := ih taken (step picked bw prog holds chooses) shorter
          rw [cores_concat, ← reads] at later
          exact later

theorem PerfChooses.prefers {cores : Int} {bw : Word64} (value : bw.toInt = bwLeft d.traits picked)
    (chooses : d.PerfChooses cores bw rest prog) : PerfPrefers d.traits cores picked rest prog := by
  unfold PerfChooses at chooses
  unfold PerfPrefers
  split at chooses
  · next zero => rwa [if_pos zero]
  · next some =>
      have nonneg : 0 ≤ bw.toInt := value ▸ (bwLeft_bounds picked).1
      rw [if_neg some, ← value, ← chooses]
      refine argmin_congr fun one _ two _ => ?_
      rw [← score_eq_misfit nonneg _ rfl, ← score_eq_misfit nonneg _ rfl]
      exact Int.ofNat_lt

/-- The loop of `perf_schedule` takes every program by the rule. -/
theorem perfLoop_prefers (small : ∀ prog ∈ progs, (d.traits prog).sumMemReads.toNat < 2 ^ 62)
    (nodup : progs.Nodup) (fuel : Nat) {st : ExecState} (here : d.At [] (unpicked progs []) st)
    (enough : (unpicked progs []).length < fuel) {bw : Word64} (value : bw.toInt = perfBandwidth) :
    wp (perfLoop fuel 0 bw) (fun _ st' => ∃ picked,
      d.At picked (unpicked progs picked) st' ∧ d.PerfPreferred progs picked ∧
        (maxCores ≤ d.cores picked ∨ unpicked progs picked = [])) E st := by
  have kept := perfLoop_induction (E := E)
    (fun picked bw => bw.toInt = bwLeft d.traits picked ∧ d.PerfPreferred progs picked)
    (fun picked bw prog holds chooses => ?_) nodup fuel here
    ⟨value, fun before prog after split => by simp at split⟩ enough
  · refine Wp.imp kept fun _ st' ended => ?_
    obtain ⟨picked, bw, here, holds, full⟩ := ended
    exact ⟨picked, here, holds.2, full⟩
  · obtain ⟨value, preferred⟩ := holds
    have listed : prog ∈ progs := List.mem_of_mem_filter chooses.listed
    have nonneg : 0 ≤ bw.toInt := value ▸ (bwLeft_bounds picked).1
    refine ⟨?_, preferred.extend (chooses.prefers value)⟩
    rw [clampBw_toInt nonneg (small prog listed), value, bwLeft_concat]
    rfl

end Decision

end Perf

section Choices

/-- Some programs are on `progs_all`, and others were moved to `progs_sch`. -/
structure Waiting (progs picked : List ProgPtr) (st : ExecState) : Prop where
  all : IsRing st.links .progsAll (progs.map Node.plNode)
  sch : IsRing st.links .progsSch (picked.map Node.plNode)
  apart : progs.Disjoint picked
  allocated : ∀ prog ∈ progs ++ picked, prog < st.progsAllocated

theorem Waiting.has (waiting : Waiting progs picked st) :
    st.decision.Has st.decision.heads (st.decision.lists picked progs) [] st where
  rings :=
    { ring := by
        intro head member
        rcases List.mem_cons.mp member with rfl | member
        · exact waiting.all
        · rw [List.mem_singleton.mp member]
          exact waiting.sch
      apart := by
        intro head member other otherMember prog listed there
        have apart := @waiting.apart prog
        cases head <;> cases other <;> simp_all [Decision.lists, ExecState.decision]
      bounded := by
        intro head member prog listed
        refine waiting.allocated prog ?_
        cases head <;> simp_all [Decision.lists, ExecState.decision]
      headNode := by
        intro head member prog
        cases head <;> simp_all [Decision.heads, ExecState.decision]
      idleSelf := by simp [ExecState.decision]
      idleApart := by simp [ExecState.decision] }
  viewed := rfl
  traits _ := rfl

theorem Waiting.of_has {d : Decision} {assigned : List ProgPtr}
    (has : d.Has d.heads (d.lists picked progs) assigned st) : Waiting progs picked st where
  all := has.rings.ring _ Decision.progsAll_mem
  sch := has.rings.ring _ Decision.progsSch_mem
  apart prog listed there := by
    have same := has.rings.apart _ Decision.progsAll_mem _ Decision.progsSch_mem prog listed there
    cases same
  allocated prog member := by
    refine lt_of_lt_of_le ?_ (d.enough.trans has.progsAllocated.ge)
    rcases List.mem_append.mp member with listed | listed
    · exact has.rings.bounded _ Decision.progsAll_mem prog listed
    · exact has.rings.bounded _ Decision.progsSch_mem prog listed

theorem Population.waiting (population : Population progs st) : Waiting progs [] st where
  all := population.all
  sch := population.sch
  apart := List.disjoint_nil_right _
  allocated prog member := population.allocated prog (by simpa using member)

/-- The cores that some programs need together. -/
def ExecState.coresOf (st : ExecState) (progs : List ProgPtr) : Int :=
  (progs.map fun prog => (st.progs prog).coresNeeded).sum

/-- `perf_schedule` takes every program by its rule, until the cores are full or no program is
left. -/
theorem Waiting.perf (waiting : Waiting progs [] st)
    (ordinary : st.sched.progsNr < st.sched.monitorWnd)
    (small : ∀ prog ∈ progs, (st.pds prog).sumMemReads.toNat < 2 ^ 62) :
    ∃ st' chosen, perfSchedule st = .ok () st' ∧ Waiting (unpicked progs chosen) chosen st' ∧
      (maxCores ≤ st.coresOf chosen ∨ unpicked progs chosen = []) ∧
      ∀ before prog after, chosen = before ++ prog :: after →
        PerfPrefers (fun other => (st.pds other).traits) (st.coresOf before) before
          (unpicked progs before)
          prog := by
  have population : Population progs st := ⟨waiting.all, waiting.sch, fun prog listed =>
    waiting.allocated prog (by simpa using listed)⟩
  have here : st.decision.At [] (unpicked progs []) st := by
    simpa [unpicked] using population.at
  have start : (bwLimit - 291250000).toInt = perfBandwidth := by decide
  have spec : wp perfSchedule _ (fun _ _ => False) st :=
    Wp.bind_ok (Decision.Has.monitoringPhase_run here ordinary) (Wp.bind_ok (writeResults_run st)
      (Wp.bind_ok (walkFuel_run _)
        (Decision.perfLoop_prefers small population.at.nodup _ here.written
        (Nat.lt_succ_of_le here.short) start)))
  cases run : perfSchedule st with
  | error stop st' => exact ((of_error run).mp spec).elim
  | ok _ st' =>
      obtain ⟨chosen, here, preferred, ended⟩ := (of_ok run).mp spec
      exact ⟨st', chosen, rfl, .of_has here, ended, preferred⟩

theorem Waiting.perfFair (waiting : Waiting progs picked st) (several : progs ≠ []) {bw : Word64}
    (nonneg : 0 ≤ bw.toInt) (small : ∀ prog ∈ progs, (st.pds prog).sumMemReads.toNat < 2 ^ 62) :
    ∃ best st', PerfFair.goodNeighbors bw st = .ok best st' ∧
      progs.argmin (fun prog => (st.pds prog).traits.misfit bw.toInt) = some best ∧
      Waiting (progs.erase best) (picked ++ [best]) st' := by
  have has := waiting.has
  have spec : wp (PerfFair.goodNeighbors bw) _ (fun _ _ => False) st :=
    Decision.perfFairGoodNeighbors_chooses waiting.all (has.short Decision.progsAll_mem) several bw
  cases run : PerfFair.goodNeighbors bw st with
  | error stop st' => exact ((of_error run).mp spec).elim
  | ok best st' =>
      obtain ⟨found, rfl⟩ := (of_ok run).mp spec
      have moved := has.move Decision.progsAll_mem Decision.progsSch_mem (List.argmin_mem found)
      rw [Decision.move_lists] at moved
      refine ⟨best, _, rfl, ?_, .of_has moved⟩
      have measured : ∀ prog ∈ progs, (bwDistance bw (st.pds prog).sumMemReads).toInt =
          (st.pds prog).traits.misfit bw.toInt := fun prog listed => by
        have distance : ((bwDistance bw (st.pds prog).sumMemReads).toNat : Int) = _ :=
          bwDistance_toNat nonneg
        have high := small_of_nonneg nonneg
        have value := toNat_of_nonneg nonneg
        have reads := small prog listed
        have bound : |bw.toInt - (st.pds prog).sumMemReads.toNat| < 2 ^ 63 :=
          abs_lt.mpr ⟨by omega, by omega⟩
        rw [toInt_of_small (by omega), distance]
        rfl
      rw [← found]
      exact argmin_congr fun a first b second => by rw [measured a first, measured b second]

theorem Waiting.fairBwCache (waiting : Waiting progs picked st) (bwOn : Bool) :
    let candidates := progs.filter fun prog => (st.pds prog).traits.wanted bwOn
    ∃ best st', FairBwCache.goodNeighbors bwOn st = .ok best st' ∧
      candidates.argmin (fun prog => (st.pds prog).traits.demand bwOn) = best ∧
      (best = none ↔ candidates = []) ∧
      ∃ left, left.Perm (best.elim progs progs.erase) ∧
        Waiting left (picked ++ best.toList) st' := by
  intro candidates
  have spec : wp (FairBwCache.goodNeighbors bwOn) _ (fun _ _ => False) st :=
    Decision.fairBwCacheGoodNeighbors_chooses bwOn waiting.has
  cases run : FairBwCache.goodNeighbors bwOn st with
  | error stop st' => exact ((of_error run).mp spec).elim
  | ok best st' =>
      have found := (of_ok run).mp spec
      cases best with
      | none =>
          obtain ⟨empty, has⟩ := found
          have empty : candidates = [] := empty
          exact ⟨none, st', rfl, by simp [empty], by simp [empty], progs, .refl _, by
            simpa using Waiting.of_has has⟩
      | some prog =>
          obtain ⟨least, has⟩ := found
          have least : candidates.argmin (fun prog => (st.pds prog).traits.demand bwOn) =
              some prog := least
          have listed := List.argmin_mem least
          refine ⟨some prog, st', rfl, least, ?_, _, ?_, .of_has has⟩
          · simp [List.ne_nil_of_mem listed]
          · have member := List.mem_of_mem_filter listed
            exact ((Decision.restored_perm listed).trans (List.perm_cons_erase member)).cons_inv

/-- `perf_schedule` takes the program that has waited longest, and after it the ones that fit
best. -/
def PerfTakes (traits : ProgPtr → Traits) (picked left : List ProgPtr) (prog : ProgPtr) : Prop :=
  if picked = [] then left.argmax (fun other => (traits other).waiting) = some prog
  else left.argmin (fun other => (traits other).misfit (bwLeft traits picked)) = some prog

/-- Programs that need a core each need more than none. -/
theorem coresOf_pos (several : picked ≠ [])
    (needs : ∀ prog ∈ picked, 0 < (st.progs prog).coresNeeded) :
    0 < st.coresOf picked := by
  have more := List.sum_lt_sum_of_ne_nil several (fun _ => 0)
    (fun prog => (st.progs prog).coresNeeded) needs
  rwa [List.map_const', List.sum_replicate, nsmul_zero] at more

/-- Where every program so far was given a core, the cores tell whether one was taken. -/
theorem PerfPrefers.takes {left : List ProgPtr}
    (prefers : PerfPrefers traits (st.coresOf picked) picked left prog)
    (needs : ∀ prog ∈ picked, 0 < (st.progs prog).coresNeeded) :
    PerfTakes traits picked left prog := by
  unfold PerfPrefers at prefers
  unfold PerfTakes
  split
  · next none =>
      subst none
      exact (if_pos rfl).mp prefers
  · next several => rwa [if_neg (coresOf_pos several needs).ne'] at prefers

/-- `perf_schedule` takes the program that has waited longest and then, each time, one that fits
best, as long as the cpusets that it asks for on the way are not empty; `good_neighbors` of
`perf_fair.c` takes one that fits best, and that of `fair_bw_cache.c` the least demanding one of its
class, where there is one. -/
theorem choices_prefer (progs picked : List ProgPtr) (st : ExecState)
    (waiting : Waiting progs picked st)
    (small : ∀ prog ∈ progs, (st.pds prog).sumMemReads.toNat < 2 ^ 62) :
    (picked = [] → st.sched.progsNr < st.sched.monitorWnd →
      ∃ st' chosen, perfSchedule st = .ok () st' ∧ Waiting (unpicked progs chosen) chosen st' ∧
        (maxCores ≤ st.coresOf chosen ∨ unpicked progs chosen = []) ∧
        ∀ before prog after, chosen = before ++ prog :: after →
          (∀ other ∈ before, 0 < (st.progs other).coresNeeded) →
          PerfTakes (fun other => (st.pds other).traits) before (unpicked progs before) prog) ∧
    (progs ≠ [] → ∀ bw : Word64, 0 ≤ bw.toInt →
      ∃ best st', PerfFair.goodNeighbors bw st = .ok best st' ∧
        progs.argmin (fun prog => (st.pds prog).traits.misfit bw.toInt) = some best ∧
        Waiting (progs.erase best) (picked ++ [best]) st') ∧
    ∀ bwOn : Bool,
      let candidates := progs.filter fun prog => (st.pds prog).traits.wanted bwOn
      ∃ best st', FairBwCache.goodNeighbors bwOn st = .ok best st' ∧
        candidates.argmin (fun prog => (st.pds prog).traits.demand bwOn) = best ∧
        (best = none ↔ candidates = []) ∧
        ∃ left, left.Perm (best.elim progs progs.erase) ∧
          Waiting left (picked ++ best.toList) st' := by
  refine ⟨fun none ordinary => ?_, fun several bw nonneg => waiting.perfFair several nonneg small,
    fun bwOn => waiting.fairBwCache bwOn⟩
  subst none
  obtain ⟨st', chosen, run, left, ended, prefers⟩ := waiting.perf ordinary small
  refine ⟨st', chosen, run, left, ended, fun before prog after split needs => ?_⟩
  exact (prefers before prog after split).takes needs

/-- Three programs of one core that have waited for 5, 3 and 4 ms; the second one fits best. -/
def ExecState.threeWaiting : ExecState :=
  .populated [1, 1, 1] [0, 1, 2, 3, 4, 5] 4 3 fun prog =>
    { ProgData.blank with
      waitingTime := if prog = 0 then 5 else if prog = 1 then 3 else 4
      sumMemReads := if prog = 1 then 255958745 else 0
      category := .bw }

/-- The choices among three programs of one core each. -/
theorem choices_prefer_three : ∃ st' chosen, perfSchedule .threeWaiting = .ok () st' ∧
      Waiting (unpicked [0, 1, 2] chosen) chosen st' ∧
      ∀ before prog after, chosen = before ++ prog :: after →
        PerfTakes (fun other => (ExecState.threeWaiting.pds other).traits) before
          (unpicked [0, 1, 2] before)
          prog := by
  have population : Population [0, 1, 2] .threeWaiting :=
    populated_population [1, 1, 1] [0, 1, 2, 3, 4, 5] 4 3 _
  have needs : ∀ prog, 0 < (ExecState.threeWaiting.progs prog).coresNeeded
    | 0 | 1 | 2 => by decide
    | _ + 3 => show (0 : Int) < 1 by decide
  obtain ⟨st', chosen, run, waiting, -, takes⟩ := (choices_prefer [0, 1, 2] [] .threeWaiting
    population.waiting (by decide)).1 rfl (by decide)
  exact ⟨st', chosen, run, waiting, fun before prog after split =>
    takes before prog after split fun other _ =>
    needs other⟩

end Choices

end BachScheduler
