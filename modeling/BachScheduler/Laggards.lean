import BachScheduler.Passes
import BachScheduler.Population
import BachScheduler.Schedules
import Mathlib.Data.List.FinRange

/-!
# Whether `fair_schedule` selects the programs that lag most

`get_value` returns the ratio as an `int`, so the list is sorted by what is left of a ratio
in 32 bits.  Which of several programs with the same `int` comes first depends on the order
of the list.
-/

namespace BachScheduler

open BachScheduler.Ring Wp

section Ties

variable {α : Type}

/-- Every sorted list is what the sort makes of some order of its elements. -/
theorem exists_sort_eq (key : α → Int) (nodes : List α)
    (sorted : nodes.Pairwise fun a b => key a ≤ key b) :
    ∃ start : List α, start.Perm nodes ∧ Hoare.sort (keyOrder .asc key) start = nodes := by
  let keyAt (i : Fin nodes.length) : Int := key nodes[i]
  let order := Hoare.sort (keyOrder .asc keyAt) (List.finRange nodes.length)
  have perm : order.Perm (List.finRange nodes.length) := Hoare.sort_perm _ _
  have length : order.length = nodes.length := by simpa using perm.length_eq
  have nodup : order.Nodup := perm.nodup_iff.mpr (List.nodup_finRange _)
  have listed : ∀ i, order.idxOf i < order.length := fun i =>
    List.idxOf_lt_length_iff.mpr (perm.mem_iff.mpr (List.mem_finRange i))
  -- the element that has to stand at a position, so that the sort brings it to its place
  let place (i : Fin nodes.length) : α := nodes.get ⟨order.idxOf i, (listed i).trans_eq length⟩
  have keys : order.map keyAt = nodes.map key := by
    have inOrder : order.Pairwise fun i j => keyAt i ≤ keyAt j :=
      sortedBy_sort .asc keyAt (List.finRange nodes.length)
    have positions : (List.finRange nodes.length).map keyAt = nodes.map key :=
      List.ext_getElem (by simp) fun i _ _ => by simp [keyAt]
    refine (positions ▸ perm.map keyAt).eq_of_pairwise (fun a b _ _ => le_antisymm)
      (List.pairwise_map.mpr inOrder) (List.pairwise_map.mpr sorted)
  have same : ∀ i, key (place i) = keyAt i := by
    intro i
    have short : order.idxOf i < (order.map keyAt).length := by simpa using listed i
    have there : (order.map keyAt)[order.idxOf i] = keyAt i := by simp
    rw [← there]
    simp only [keys, List.getElem_map]
    rfl
  have renamed : Hoare.sort (keyOrder .asc key) ((List.finRange nodes.length).map place) =
      order.map place :=
    Hoare.sort_map (fun i j => by simp only [keyOrder, same]) _
  have placed : order.map place = nodes := by
    refine List.ext_getElem (by simp [length]) fun i short _ => ?_
    have bound : i < order.length := by simpa using short
    simp [place, nodup.idxOf_getElem i bound]
  have sorts := renamed.trans placed
  exact ⟨_, (sorts ▸ Hoare.sort_perm (keyOrder .asc key) _).symm, sorts⟩

variable {key : α → Int} {nodes : List α} {a : α} {k : Nat}

/-- Among the first `k` of a sorted list, fewer than `k` elements have a smaller key than a
given one of them. -/
theorem countP_lt_of_mem_take (sorted : nodes.Pairwise fun a b => key a ≤ key b)
    (member : a ∈ nodes.take k) : nodes.countP (fun b => key b < key a) < k := by
  obtain ⟨before, after, split⟩ := List.append_of_mem member
  have short : before.length < k := by
    have count := congrArg List.length split
    simp only [List.length_take, List.length_append, List.length_cons] at count
    omega
  have whole : nodes = before ++ a :: (after ++ nodes.drop k) := by
    rw [← List.cons_append, ← List.append_assoc, ← split, List.take_append_drop]
  rw [whole] at sorted
  have behind : ∀ b ∈ a :: (after ++ nodes.drop k), ¬ key b < key a := by
    have ordered := List.pairwise_cons.mp (List.pairwise_append.mp sorted).2.1
    intro b there
    rcases List.mem_cons.mp there with rfl | there
    · exact lt_irrefl _
    · exact not_lt.mpr (ordered.1 b there)
  have none : (a :: (after ++ nodes.drop k)).countP (fun b => key b < key a) = 0 :=
    List.countP_eq_zero.mpr fun b there => by simpa using behind b there
  calc nodes.countP (fun b => key b < key a)
      = before.countP (fun b => key b < key a) := by
        conv_lhs => rw [whole]
        rw [List.countP_append, none, add_zero]
    _ ≤ before.length := List.countP_le_length
    _ < k := short

/-- Behind the first `k` of a sorted list, more than `k` elements have at most the key of a
given one there. -/
theorem lt_countP_of_mem_drop (sorted : nodes.Pairwise fun a b => key a ≤ key b)
    (member : a ∈ nodes.drop k) : k < nodes.countP (fun b => key b ≤ key a) := by
  have long : k < nodes.length := by
    by_contra short
    simp [List.drop_eq_nil_of_le (not_lt.mp short)] at member
  have split := (List.take_append_drop k nodes).symm
  rw [split] at sorted
  have ahead : ∀ b ∈ nodes.take k, key b ≤ key a := fun b there =>
    (List.pairwise_append.mp sorted).2.2 b there a member
  have all : (nodes.take k).countP (fun b => key b ≤ key a) = k := by
    rw [List.countP_eq_length.mpr fun b there => by simpa using ahead b there, List.length_take]
    omega
  have itself : 0 < (nodes.drop k).countP (fun b => key b ≤ key a) :=
    List.countP_pos_iff.mpr ⟨a, member, by simp⟩
  rw [split, List.countP_append, all]
  omega

end Ties

section FairSchedule

open Decision

variable {progs : List ProgPtr} {st : ExecState}

/-- A ratio as `get_value` returns it. -/
def ratioInt (ratio : Word64) : Int := (ratio.setWidth 32).toInt

/-- A pass that admits everybody, over programs of one core each. -/
theorem passOver_all {need : ProgPtr → Int} (pd : ProgPtr → ProgData) {cores : Int}
    (single : ∀ prog ∈ progs, need prog = 1) (room : cores ≤ maxCores) :
    (passOver id (fun _ _ => some id) need pd progs cores).picked = progs.take
    (maxCores - cores).toNat ∧
      (passOver id (fun _ _ => some id) need pd progs cores).left = progs.drop
      (maxCores - cores).toNat := by
  induction progs generalizing cores with
  | nil => simp [passOver]
  | cons prog later ih =>
      by_cases isFull : cores = maxCores
      · rw [passOver_full isFull]
        simp [isFull]
      · have next := ih (fun other member => single other (List.mem_cons_of_mem _ member))
          (show cores + 1 ≤ maxCores by omega)
        have fewer : (maxCores - cores).toNat = (maxCores - (cores + 1)).toNat + 1 := by omega
        rw [passOver_pick isFull rfl, id_eq, id_eq, single prog List.mem_cons_self, fewer]
        simpa using next

/-- `fair_schedule` picks the programs that come first when they are sorted by `get_value`. -/
theorem fairSchedule_picks (population : Population progs st)
    (ordinary : st.sched.progsNr < st.sched.monitorWnd)
    (single : ∀ prog ∈ progs, (st.progs prog).coresNeeded = 1) :
    let sorted := Hoare.sort (keyOrder .asc fun prog => ratioInt (st.pds prog).ratio) progs
    ∃ st', fairSchedule st = .ok () st' ∧
      IsRing st'.links .progsSch ((sorted.take maxCores.toNat).map Node.plNode) ∧
      IsRing st'.links .progsAll ((sorted.drop maxCores.toNat).map Node.plNode) := by
  intro sorted
  have single : ∀ prog ∈ st.decision.sorted progs, st.decision.need prog = 1 := fun prog member =>
    single prog ((sorted_perm progs).subset member)
  have spec : wp fairSchedule (fun _ st' => st.decision.At (sorted.take maxCores.toNat)
      (sorted.drop maxCores.toNat) st') (fun _ _ => False) st := by
    refine Wp.bind_ok (Has.monitoringPhase_run population.at ordinary) ?_
    refine Wp.bind_ok (writeResults_run st) ?_
    refine Wp.bind (sortAll_sorts (Has.written population.at)) fun _ st' here => ?_
    rw [fairTake_eq]
    refine Wp.bind (passOver_spec fair_counts here rfl) fun _ st'' passed => Wp.pure ?_
    obtain ⟨-, here, -⟩ := passed
    obtain ⟨picked, left⟩ := passOver_all st'.pds single (show (0 : Int) ≤ maxCores by decide)
    rw [picked, left] at here
    exact here
  cases run : fairSchedule st with
  | error stop st' => exact ((of_error run).mp spec).elim
  | ok _ st' =>
      have here := (of_ok run).mp spec
      exact ⟨st', rfl, here.rings.ring _ progsSch_mem, here.ring⟩

/-- Whatever the order of the list, no program that is left has a smaller ratio than one that
is picked. -/
def PicksLaggards (ratios : List Word64) : Prop :=
  ∀ progs st, Population progs st → (progs.map fun prog => (st.pds prog).ratio).Perm ratios →
    st.sched.progsNr < st.sched.monitorWnd → (∀ prog ∈ progs, (st.progs prog).coresNeeded = 1) →
    ∃ (st' : ExecState) (picked left : List ProgPtr), fairSchedule st = .ok () st' ∧
      IsRing st'.links .progsSch (picked.map Node.plNode) ∧
      IsRing st'.links .progsAll (left.map Node.plNode) ∧
      ∀ prog ∈ picked, ∀ other ∈ left, (st.pds prog).ratio ≤ (st.pds other).ratio

/-- The larger ratio is no larger as an `int`, fewer than `MAX_CORES` ratios lie below it as an
`int`, and more than `MAX_CORES` do not lie above the smaller one. -/
def Misread (ratios : List Word64) (larger smaller : Word64) : Prop :=
  smaller < larger ∧ ratioInt larger ≤ ratioInt smaller ∧
    ratios.countP (fun ratio => ratioInt ratio < ratioInt larger) < maxCores.toNat ∧
    maxCores.toNat < ratios.countP fun ratio => ratioInt ratio ≤ ratioInt smaller

variable {ratios : List Word64} {larger smaller : Word64}

instance : Decidable (Misread ratios larger smaller) := inferInstanceAs (Decidable (_ ∧ _))

theorem map_sorted (progs : List ProgPtr) (ratio : ProgPtr → Word64) :
    (Hoare.sort (keyOrder .asc fun prog => ratioInt (ratio prog)) progs).map ratio =
      Hoare.sort (keyOrder .asc ratioInt) (progs.map ratio) :=
  (Hoare.sort_map (f := ratio) (fun _ _ => rfl) progs).symm

theorem picksLaggards_of_not_misread (read : ∀ larger ∈ ratios, ∀ smaller ∈ ratios,
    ¬ Misread ratios larger smaller) : PicksLaggards ratios := by
  intro progs st population perm ordinary single
  obtain ⟨st', run, sch, all⟩ := fairSchedule_picks population ordinary single
  refine ⟨st', _, _, run, sch, all, fun prog picked other left => ?_⟩
  let ratio (prog : ProgPtr) : Word64 := (st.pds prog).ratio
  let order := Hoare.sort (keyOrder .asc ratioInt) (progs.map ratio)
  have same : order.Perm ratios := (Hoare.sort_perm _ _).trans perm
  have increasing : order.Pairwise fun a b =>
      ratioInt a ≤ ratioInt b := sortedBy_sort .asc ratioInt _
  have renamed : _ = order := map_sorted progs ratio
  have front : ratio prog ∈ order.take maxCores.toNat := by
    rw [← renamed, ← List.map_take]
    exact List.mem_map_of_mem picked
  have back : ratio other ∈ order.drop maxCores.toNat := by
    rw [← renamed, ← List.map_drop]
    exact List.mem_map_of_mem left
  have split : order.take maxCores.toNat ++ order.drop maxCores.toNat = order :=
    List.take_append_drop ..
  have few := countP_lt_of_mem_take increasing front
  have many := lt_countP_of_mem_drop increasing back
  rw [same.countP_eq] at few many
  by_contra wrong
  refine read _ (same.subset (List.mem_of_mem_take front)) _
    (same.subset (List.mem_of_mem_drop back))
    ⟨BitVec.not_le.mp wrong, ?_, few, many⟩
  rw [← split] at increasing
  exact (List.pairwise_append.mp increasing).2.2 _ front _ back

/-- The order by `int`, in which one ratio comes first among those that read like it, and
another one last. -/
def tieKey (larger smaller ratio : Word64) : Int :=
  3 * ratioInt ratio + if ratio = larger then 0 else if ratio = smaller then 2 else 1

theorem tieKey_bounds (ratio : Word64) : 3 * ratioInt ratio ≤ tieKey larger smaller ratio ∧
    tieKey larger smaller ratio ≤ 3 * ratioInt ratio + 2 := by
  unfold tieKey
  split
  · omega
  · split <;> omega

/-- With the ties decided, the larger ratio is picked. -/
theorem larger_front {order : List Word64} {k : Nat} (member : larger ∈ order)
    (sorted : order.Pairwise fun a b => tieKey larger smaller a ≤ tieKey larger smaller b)
    (few : order.countP (fun ratio => ratioInt ratio < ratioInt larger) < k) :
    larger ∈ order.take k := by
  have split : order.take k ++ order.drop k = order := List.take_append_drop ..
  by_contra notFront
  have back : larger ∈ order.drop k := by
    rw [← split] at member
    exact (List.mem_append.mp member).resolve_left notFront
  have long : k < order.length := by
    by_contra short
    simp [List.drop_eq_nil_of_le (not_lt.mp short)] at back
  have before : ∀ ratio ∈ order.take k, ratioInt ratio < ratioInt larger := fun ratio there => by
    rw [← split] at sorted
    have le := (List.pairwise_append.mp sorted).2.2 ratio there larger back
    have differs : ratio ≠ larger := fun same => notFront (same ▸ there)
    simp only [tieKey, if_neg differs, if_true] at le
    split at le <;> omega
  have all := List.countP_eq_length.mpr fun ratio there => decide_eq_true (before ratio there)
  rw [← split, List.countP_append, all, List.length_take] at few
  omega

/-- With the ties decided, the smaller ratio is left. -/
theorem smaller_back {order : List Word64} {k : Nat} (differs : smaller ≠ larger)
    (member : smaller ∈ order)
    (sorted : order.Pairwise fun a b => tieKey larger smaller a ≤ tieKey larger smaller b)
    (many : k < order.countP fun ratio => ratioInt ratio ≤ ratioInt smaller) :
    smaller ∈ order.drop k := by
  have split : order.take k ++ order.drop k = order := List.take_append_drop ..
  by_contra notBack
  have front : smaller ∈ order.take k := by
    rw [← split] at member
    exact (List.mem_append.mp member).resolve_right notBack
  have behind : ∀ ratio ∈ order.drop k, ¬ ratioInt ratio ≤ ratioInt smaller := fun ratio there => by
    rw [← split] at sorted
    have le := (List.pairwise_append.mp sorted).2.2 smaller front ratio there
    have other : ratio ≠ smaller := fun same => notBack (same ▸ there)
    simp only [tieKey, if_neg differs, if_neg other, if_true] at le
    split at le <;> omega
  have none : (order.drop k).countP (fun ratio => ratioInt ratio ≤ ratioInt smaller) = 0 :=
    List.countP_eq_zero.mpr fun ratio there => by simpa using behind ratio there
  rw [← split, List.countP_append, none] at many
  have count : (order.take k).countP
      (fun ratio => decide (ratioInt ratio ≤ ratioInt smaller)) ≤ k :=
    List.countP_le_length.trans (List.length_take_le ..)
  omega

/-- A state before a decision with these ratios in this order. -/
def ExecState.withRatios (ratios : List Word64) : ExecState :=
  .populated (List.replicate ratios.length 1) [] (ratios.length + 1) ratios.length fun prog =>
    { ProgData.blank with ratio := ratios.getD prog 0 }

theorem withRatios_population (ratios : List Word64) :
    Population (List.range ratios.length) (.withRatios ratios) := by
  have population := populated_population (List.replicate ratios.length 1) [] (ratios.length + 1)
    ratios.length fun prog => { ProgData.blank with ratio := ratios.getD prog 0 }
  rwa [List.length_replicate] at population

theorem withRatios_ratios (ratios : List Word64) :
    (List.range ratios.length).map
    (fun prog => ((ExecState.withRatios ratios).pds prog).ratio) = ratios := by
  refine List.ext_getElem (by simp) fun i short long => ?_
  have bound : i < ratios.length := long
  simp [ExecState.withRatios, ExecState.populated, List.getElem?_eq_getElem bound]

/-- A misread pair is picked and left in the wrong way for some order of the list. -/
theorem not_misread_of_picksLaggards (picks : PicksLaggards ratios) (large : larger ∈ ratios)
    (small : smaller ∈ ratios) : ¬ Misread ratios larger smaller := by
  rintro ⟨less, notAbove, few, many⟩
  let order := Hoare.sort (keyOrder .asc (tieKey larger smaller)) ratios
  have perm : order.Perm ratios := Hoare.sort_perm _ _
  have tied : order.Pairwise fun a b => tieKey larger smaller a ≤ tieKey larger smaller b :=
    sortedBy_sort .asc _ ratios
  have increasing : order.Pairwise fun a b => ratioInt a ≤ ratioInt b := tied.imp fun {a b} le => by
    have low : 3 * ratioInt a ≤ tieKey larger smaller a := (tieKey_bounds a).1
    have high := (tieKey_bounds b).2.trans' le
    omega
  rw [← perm.countP_eq] at few many
  have front := larger_front (perm.mem_iff.mpr large) tied few
  have back := smaller_back (BitVec.ne_of_lt less) (perm.mem_iff.mpr small) tied many
  -- the order of the list that the quicksort turns into this one
  obtain ⟨start, same, sorts⟩ := exists_sort_eq ratioInt order increasing
  let st := ExecState.withRatios start
  let progs := List.range start.length
  have ratios : progs.map (fun prog => (st.pds prog).ratio) = start := withRatios_ratios start
  have population : Population progs st := withRatios_population start
  have ordinary : st.sched.progsNr < st.sched.monitorWnd := Int.lt_succ _
  have single : ∀ prog ∈ progs, (st.progs prog).coresNeeded = 1 := fun prog _ => by
    simp only [st, ExecState.withRatios, ExecState.populated, List.getD_eq_getElem?_getD,
      List.getElem?_replicate]
    split <;> rfl
  obtain ⟨st₁, picked, left, run, sch, all, right⟩ :=
    picks progs st population (ratios ▸ same.trans perm) ordinary single
  obtain ⟨st₂, run₂, sch₂, all₂⟩ := fairSchedule_picks population ordinary single
  obtain ⟨-, rfl⟩ := EStateM.Result.ok.inj (run.symm.trans run₂)
  have sameNode : ∀ {a b : List ProgPtr}, a.map Node.plNode = b.map Node.plNode →
      a = b := fun equal =>
    (List.map_inj_right fun _ _ => Node.plNode.inj).mp equal
  obtain rfl := sameNode (sch.unique sch₂)
  obtain rfl := sameNode (all.unique all₂)
  rw [← sorts, ← ratios, ← map_sorted, ← List.map_take] at front
  rw [← sorts, ← ratios, ← map_sorted, ← List.map_drop] at back
  obtain ⟨prog, isPicked, rfl⟩ := List.mem_map.mp front
  obtain ⟨other, isLeft, rfl⟩ := List.mem_map.mp back
  exact absurd (right prog isPicked other isLeft) (BitVec.not_le.mpr less)

/-- `fair_schedule` picks the programs that lag most, in any order of the list, exactly if no
ratio is misread. -/
theorem picksLaggards_iff (ratios : List Word64) :
    PicksLaggards ratios ↔
      ∀ larger ∈ ratios, ∀ smaller ∈ ratios, ¬ Misread ratios larger smaller :=
  ⟨fun picks _ large _ small => not_misread_of_picksLaggards picks large small,
    picksLaggards_of_not_misread⟩

/-- A ratio that is 0 as an `int` is picked before one that is 6. -/
theorem picks_largest_of_seven : ¬ PicksLaggards [4294967296, 1, 2, 3, 4, 5, 6] := fun picks =>
  not_misread_of_picksLaggards picks (show (4294967296 : Word64) ∈ _ by simp)
    (show (6 : Word64) ∈ _ by simp) (by decide)

end FairSchedule

end BachScheduler
