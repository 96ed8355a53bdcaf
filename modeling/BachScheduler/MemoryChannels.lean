import BachScheduler.Lib.FreeRunning
import BachScheduler.Samples

/-!
# Traffic of the memory controller

Each channel of the memory controller has a counter of 48 bits.  `stopMCCounters` subtracts
sums over the channels, so a counter that wrapped in between is seen nowhere.  The energy
counters of 32 bits are subtracted one by one, with a case for a wrap.
-/

namespace BachScheduler

open Wp

/-- Two readings of a channel show a counter of 48 bits. -/
def ChannelShows (counter : FreeRunning 48) (first second : Word64) : Prop :=
  first = BitVec.ofNat 64 counter.start ∧ second = BitVec.ofNat 64 counter.stop

/-- The sum over the channels. -/
def channelSum (value : Nat → Nat) : Nat :=
  ((List.range mcSize).map value).sum

section Readings

variable {st : ExecState} {E : Stop → ExecState → Prop}

/-- What `startMCCounters` and `stopMCCounters` depend on. -/
def controller (st : ExecState) : Env × Nat × UncMc :=
  (st.env, st.reads, st.sched.cntrs.mcInfo)

theorem useCntrs_controller : Acts controller useCntrs id := by
  refine Acts.modify fun st => ?_
  unfold controller
  dsimp only
  split <;> rfl

theorem startMCCounters_spec : wp startMCCounters (fun _ st' =>
      st'.sched.cntrs.mcInfo.previousMCNormalReads =
          ((List.range mcSize).map (st.env.imcReads st.reads)).sum ∧
        st'.sched.cntrs.mcInfo.previousMCFullWrites =
          ((List.range mcSize).map (st.env.imcWrites (st.reads + 1))).sum) E st := by
  refine useCntrs_controller.before fun _ used same => ?_
  refine Wp.bind_ok rfl (Wp.bind_ok rfl (Wp.bind_ok rfl (Wp.modify ?_)))
  simp only [controller, id_eq, Prod.mk.injEq] at same
  obtain ⟨env, reads, _⟩ := same
  rw [← foldl_eq_sum, ← foldl_eq_sum, ← env, ← reads]
  exact ⟨rfl, rfl⟩

theorem stopMCCounters_spec : wp stopMCCounters (fun _ st' =>
      st'.sched.cntrs.mcInfo.uncMCNormalReads =
          ((List.range mcSize).map (st.env.imcReads st.reads)).sum -
            st.sched.cntrs.mcInfo.previousMCNormalReads ∧
        st'.sched.cntrs.mcInfo.uncMCFullWrites =
          ((List.range mcSize).map (st.env.imcWrites (st.reads + 1))).sum -
            st.sched.cntrs.mcInfo.previousMCFullWrites) E st := by
  refine useCntrs_controller.before fun _ used same => ?_
  refine Wp.bind_ok rfl (Wp.bind_ok rfl (Wp.modify ?_))
  simp only [controller, id_eq, Prod.mk.injEq] at same
  obtain ⟨env, reads, mc⟩ := same
  rw [← foldl_eq_sum, ← foldl_eq_sum, ← env, ← reads, ← mc]
  exact ⟨rfl, rfl⟩

end Readings

section Wraps

theorem sum_ofNat (values : List Nat) :
    (values.map (BitVec.ofNat 64)).sum = BitVec.ofNat 64 values.sum := by
  induction values with
  | nil => rfl
  | cons value values ih => rw [List.map_cons, List.sum_cons, List.sum_cons, ih, BitVec.ofNat_add]

/-- The channels' readings add up to the readings of their counters. -/
theorem sum_channels {readings : Nat → Word64} {values : Nat → Nat}
    (shown : ∀ i < mcSize, readings i = BitVec.ofNat 64 (values i)) :
    ((List.range mcSize).map readings).sum = BitVec.ofNat 64 (channelSum values) := by
  rw [channelSum, ← sum_ofNat, List.map_map]
  congr 1
  exact List.map_congr_left fun i member => shown i (List.mem_range.mp member)

/-- A difference of channel sums is the sum of the advances exactly if no channel wrapped. -/
theorem channel_difference_iff {counters : Nat → FreeRunning 48} {first second : Nat → Word64}
    (shown : ∀ i < mcSize, ChannelShows (counters i) (first i) (second i)) :
    (((List.range mcSize).map second).sum - ((List.range mcSize).map first).sum).toNat =
        channelSum (fun i => (counters i).advance) ↔
      ∀ i < mcSize, ¬ (counters i).Wraps := by
  rw [sum_channels fun i inside => (shown i inside).1, sum_channels fun i inside =>
    (shown i inside).2]
  have fits : ((List.range mcSize).map counters).length * 2 ^ 48 < 2 ^ 64 := by
    rw [List.length_map, List.length_range]
    decide
  have sums := FreeRunning.sub_sums_eq_iff ((List.range mcSize).map counters) fits
  simp only [List.map_map, List.forall_mem_map, List.mem_range] at sums
  exact sums

/-- What `stopMCCounters` leaves are the advances of the channels since `startMCCounters`
exactly if no channel wrapped in between.  No other function writes `MCinfo`. -/
theorem stopMCCounters_iff {st started stopped st' : ExecState}
    {reads writes : Nat → FreeRunning 48} (start : startMCCounters st = .ok () started)
    (stop : stopMCCounters stopped = .ok () st')
    (between : stopped.sched.cntrs.mcInfo = started.sched.cntrs.mcInfo)
    (showsReads : ∀ i < mcSize, ChannelShows (reads i) (st.env.imcReads st.reads i)
      (stopped.env.imcReads stopped.reads i))
    (showsWrites : ∀ i < mcSize, ChannelShows (writes i) (st.env.imcWrites (st.reads + 1) i)
      (stopped.env.imcWrites (stopped.reads + 1) i)) :
    (st'.sched.cntrs.mcInfo.uncMCNormalReads.toNat = channelSum (fun i => (reads i).advance) ↔
        ∀ i < mcSize, ¬ (reads i).Wraps) ∧
      (st'.sched.cntrs.mcInfo.uncMCFullWrites.toNat = channelSum (fun i => (writes i).advance) ↔
        ∀ i < mcSize, ¬ (writes i).Wraps) := by
  obtain ⟨previousReads, previousWrites⟩ :=
    (Wp.of_ok (E := fun _ _ => False) start).mp startMCCounters_spec
  obtain ⟨currentReads, currentWrites⟩ :=
    (Wp.of_ok (E := fun _ _ => False) stop).mp stopMCCounters_spec
  rw [currentReads, currentWrites, between, previousReads, previousWrites]
  exact ⟨channel_difference_iff showsReads, channel_difference_iff showsWrites⟩

/-- A counter that does not move. -/
def FreeRunning.still (width : Nat) : FreeRunning width where
  start := 0
  advance := 0
  start_lt := Nat.two_pow_pos width
  advance_lt := Nat.two_pow_pos width

/-- The counter of channel `i` starts at `1000 * i` and advances by `10 * i + more`. -/
def FreeRunning.staggered (more i : Nat) : FreeRunning 48 where
  start := 1000 * i % 2 ^ 20
  advance := (10 * i + more) % 2 ^ 20
  start_lt := (Nat.mod_lt _ (by decide)).trans (by decide)
  advance_lt := (Nat.mod_lt _ (by decide)).trans (by decide)

/-- The environment in which the counters move so, by one more for the reads, by three more for the
writes. -/
def Env.staggered : Env :=
  { Env.still with
    imcReads := fun n i =>
      BitVec.ofNat 64
        (if n = 0 then (FreeRunning.staggered 1 i).start else (FreeRunning.staggered 1 i).stop)
    imcWrites := fun n i =>
      BitVec.ofNat 64
        (if n = 1 then (FreeRunning.staggered 3 i).start else (FreeRunning.staggered 3 i).stop) }

/-- The reads of the five channels advance by 1, 11, 21, 31 and 41, the writes by 3, 13, 23, 33 and
43. -/
theorem stopMCCounters_iff_staggered :
    ∃ started st', startMCCounters (ExecState.start .staggered []) = .ok () started ∧
      stopMCCounters started = .ok () st' ∧
      st'.sched.cntrs.mcInfo.uncMCNormalReads.toNat = 105 ∧
      st'.sched.cntrs.mcInfo.uncMCFullWrites.toNat = 115 := by
  have stays : ∀ more ∈ [1, 3], ∀ i < mcSize, ¬ (FreeRunning.staggered more i).Wraps := by
    decide +kernel
  have sums : channelSum (fun i => (FreeRunning.staggered 1 i).advance) = 105 ∧
      channelSum (fun i => (FreeRunning.staggered 3 i).advance) = 115 := by decide +kernel
  have showsReads : ∀ i < mcSize, ChannelShows (FreeRunning.staggered 1 i)
      (Env.staggered.imcReads 0 i) (Env.staggered.imcReads 2 i) := fun _ _ => ⟨rfl, rfl⟩
  have showsWrites : ∀ i < mcSize, ChannelShows (FreeRunning.staggered 3 i)
      (Env.staggered.imcWrites 1 i) (Env.staggered.imcWrites 3 i) := fun _ _ => ⟨rfl, rfl⟩
  refine ⟨_, _, rfl, rfl, Eq.trans ?_ sums.1, Eq.trans ?_ sums.2⟩
  · exact (stopMCCounters_iff rfl rfl rfl showsReads showsWrites).1.mpr (stays 1 (by simp))
  · exact (stopMCCounters_iff rfl rfl rfl showsReads showsWrites).2.mpr (stays 3 (by simp))

/-- A counter that passes its largest value. -/
def FreeRunning.passing : FreeRunning 48 where
  start := 2 ^ 48 - 1
  advance := 1
  start_lt := by decide
  advance_lt := by decide

/-- An environment in which the first channel wraps after the first reading. -/
def Env.wrapping : Env :=
  { Env.still with
    imcReads := fun n i => if n = 0 ∧ i = 0 then BitVec.ofNat 64 FreeRunning.passing.start else 0 }

/-- The first channel counts one more read, and the difference is off by the modulus. -/
theorem stopMCCounters_misses_wrap :
    ¬ ∀ (st started stopped st' : ExecState) (reads writes : Nat → FreeRunning 48),
      startMCCounters st = .ok () started → stopMCCounters stopped = .ok () st' →
      stopped.sched.cntrs.mcInfo = started.sched.cntrs.mcInfo →
      (∀ i < mcSize, ChannelShows (reads i) (st.env.imcReads st.reads i)
        (stopped.env.imcReads stopped.reads i)) →
      (∀ i < mcSize, ChannelShows (writes i) (st.env.imcWrites (st.reads + 1) i)
        (stopped.env.imcWrites (stopped.reads + 1) i)) →
      st'.sched.cntrs.mcInfo.uncMCNormalReads.toNat = channelSum (fun i => (reads i).advance) ∧
        st'.sched.cntrs.mcInfo.uncMCFullWrites.toNat =
          channelSum (fun i => (writes i).advance) := by
  intro always
  have sums := always (ExecState.start .wrapping []) _ _ _
    (fun i => if i = 0 then .passing else .still 48) (fun _ => .still 48) rfl rfl rfl ?_ ?_
  · exact absurd sums.1 (by decide +kernel)
  · intro i _
    by_cases first : i = 0
    · subst first
      exact ⟨rfl, by decide⟩
    · simp only [first, if_false]
      exact ⟨by simp [ExecState.start, Env.wrapping, first]; rfl, by
        simp [ExecState.start, Env.wrapping]; rfl⟩
  · intro i _
    exact ⟨rfl, rfl⟩

end Wraps

section Energy

/-- How `stopPower` takes the difference of an energy counter. -/
def energyDifference (energy previous : Word64) : Word64 :=
  let energy := energy &&& 0xffffffff
  if energy ≥ previous then energy - previous else ((1 <<< 32) - previous) + energy

/-- The energy counters may wrap. -/
theorem energyDifference_eq (counter : FreeRunning 32) :
    (energyDifference (BitVec.ofNat 64 counter.stop)
      (BitVec.ofNat 64 counter.start &&& 0xffffffff)).toNat = counter.advance := by
  have stop_lt : counter.stop < 2 ^ 32 := Nat.mod_lt _ (by decide)
  have start_lt := counter.start_lt
  have advance_lt := counter.advance_lt
  have masked (n : Nat) (small : n < 2 ^ 32) :
      BitVec.ofNat 64 n &&& 0xffffffff = BitVec.ofNat 64 n := by
    have all : (0xffffffff : Word64).toNat = 2 ^ 32 - 1 := rfl
    rw [← BitVec.toNat_inj, BitVec.toNat_and, all, Nat.and_two_pow_sub_one_eq_mod,
      BitVec.toNat_ofNat, Nat.mod_eq_of_lt (show n < 2 ^ 64 by omega), Nat.mod_eq_of_lt small]
  have total := counter.stop_add_wrap
  have order := counter.stop_lt_start_iff
  rw [masked _ start_lt, energyDifference, masked _ stop_lt]
  split
  · next later =>
      rw [ge_iff_le, BitVec.le_def, BitVec.toNat_ofNat, BitVec.toNat_ofNat] at later
      have stays : ¬ counter.Wraps := fun wraps => by
        have := order.mpr wraps
        omega
      rw [if_neg stays] at total
      rw [BitVec.toNat_sub, BitVec.toNat_ofNat, BitVec.toNat_ofNat]
      omega
  · next earlier =>
      rw [ge_iff_le, BitVec.le_def, BitVec.toNat_ofNat, BitVec.toNat_ofNat] at earlier
      rw [if_pos (order.mp (by omega))] at total
      have whole : (1 <<< 32 : Word64).toNat = 2 ^ 32 := rfl
      rw [BitVec.toNat_add, BitVec.toNat_sub, BitVec.toNat_ofNat, BitVec.toNat_ofNat, whole]
      omega

end Energy

end BachScheduler
