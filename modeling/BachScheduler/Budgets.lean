import BachScheduler.Lib.Words
import BachScheduler.Passes
import BachScheduler.Population
import BachScheduler.Schedules

/-!
# The budgets of the first passes

`perf_fair_schedule` and `fair_bw_cache_schedule` fill the cores in a first pass with the
programs that fit into a bandwidth and a cache.  What is left is kept in signed words, and
compared with unsigned ones; the comparisons never see a negative word.
-/

namespace BachScheduler

open BachScheduler.Ring Wp Words

section Bandwidth

variable (pd : ProgPtr → ProgData)

/-- The memory reads of some programs together. -/
def reads (progs : List ProgPtr) : Nat :=
  (progs.map fun prog => (pd prog).sumMemReads.toNat).sum

variable {pd} {progs picked : List ProgPtr} {prog : ProgPtr}

@[simp] theorem reads_nil : reads pd [] = 0 := rfl

@[simp] theorem reads_concat :
    reads pd (progs ++ [prog]) = reads pd progs + (pd prog).sumMemReads.toNat := by
  simp [reads]

end Bandwidth

section PerfFair

open Decision

/-- What the first pass of `perf_fair_schedule` may read together. -/
def passReads : Int := 547208745 - 271250000

variable {pd : ProgPtr → ProgData} {need : ProgPtr → Int} {progs picked : List ProgPtr}
    {prog : ProgPtr}
variable {acc : Int × Word64}

/-- What is left after the programs picked so far is read rightly, and enough for the test. -/
structure PerfFair.Within (pd : ProgPtr → ProgData) (picked : List ProgPtr) (acc : Int × Word64) :
    Prop where
  rem : acc.2.toInt = 547208745 - reads pd picked
  fits : reads pd picked ≤ passReads

namespace PerfFair.Within

theorem start : Within pd [] (0, bwLimit) where
  rem := show bwLimit.toInt = 547208745 - 0 by decide
  fits := show (0 : Int) ≤ passReads by decide

/-- The right side of the test is not negative. -/
theorem threshold (within : Within pd picked acc) :
    (acc.2 - 271250000).toInt = passReads - reads pd picked := by
  obtain ⟨rem, fits⟩ := within
  have literal : (271250000 : Word64).toInt = 271250000 := by decide
  unfold passReads at *
  rw [toInt_sub_of_bounds] <;> omega

/-- The test compares what the program reads with what is left. -/
theorem refused_iff (within : Within pd picked acc) :
    perfFairAdmits (pd prog) acc = none ↔ passReads < reads pd (picked ++ [prog]) := by
  have threshold := within.threshold
  have fits := within.fits
  have reading : (pd prog).sumMemReads > acc.2 - 271250000 ↔ _ := ult_iff_of_nonneg (by omega)
  unfold perfFairAdmits
  rw [threshold] at reading
  rw [ite_eq_left_iff, reads_concat]
  simp only [reduceCtorEq, imp_false, not_not, reading]
  omega

/-- After an admitted program the clamp has nothing to do. -/
theorem unclamped (within : Within pd picked acc) (fits : reads pd (picked ++ [prog]) ≤ passReads) :
    (acc.2 - (pd prog).sumMemReads).toInt = 547208745 - reads pd (picked ++ [prog]) ∧
      clampBw (acc.2 - (pd prog).sumMemReads) = acc.2 - (pd prog).sumMemReads := by
  have rem := within.rem
  rw [reads_concat] at *
  unfold passReads at fits
  have small : (pd prog).sumMemReads.toInt = (pd prog).sumMemReads.toNat :=
    toInt_of_small (by omega)
  have left : (acc.2 - (pd prog).sumMemReads).toInt =
      acc.2.toInt - (pd prog).sumMemReads.toInt := by
    apply toInt_sub_of_bounds <;> omega
  refine ⟨by omega, if_neg ?_⟩
  omega

theorem step (within : Within pd picked acc) {next : Int → Int × Word64}
    (admitted : perfFairAdmits (pd prog) acc = some next) (cores : Int) :
    Within pd (picked ++ [prog]) (next cores) := by
  have fits : reads pd (picked ++ [prog]) ≤ passReads := by
    have notRefused := within.refused_iff.not.mp
      (by simp [admitted] : ¬ perfFairAdmits (pd prog) acc = none)
    omega
  have left := within.unclamped fits
  unfold perfFairAdmits at admitted
  split at admitted
  · cases admitted
  · cases admitted
    exact ⟨by rw [left.2, left.1], fits⟩

theorem passed : Within pd (passOver Prod.fst perfFairAdmits need pd progs (0, bwLimit)).picked
    (passOver Prod.fst perfFairAdmits need pd progs (0, bwLimit)).acc :=
  passOver_induction (Within pd) (fun _ _ _ _ _ _ admitted within => within.step admitted _) start

end PerfFair.Within

/-- The first pass of `perf_fair_schedule` over some programs, as a function. -/
def perfFairPassOver (st : ExecState) (progs : List ProgPtr) : Passed (Int × Word64) :=
  passOver Prod.fst perfFairAdmits (fun prog => (st.progs prog).coresNeeded) st.pds
    progs (0, bwLimit)

/-- The first pass of `perf_fair_schedule` computes `perfFairPassOver`.  The programs it picks
read at most `passReads` together; whenever it tests a program, what is left is not negative;
a program is passed over only if it would exceed the sum, and picking one leaves no less than
zero, so that the clamp is not taken. -/
theorem perfFair_first_pass (progs : List ProgPtr) (st : ExecState)
    (population : Population progs st) :
    ∃ acc st' picked left,
      cdsListForEachEntrySafe .progsAll (0, bwLimit) PerfFair.passBody st = .ok acc st' ∧
      perfFairPassOver st progs = ⟨acc, picked, left⟩ ∧
      IsRing st'.links .progsSch (picked.map Node.plNode) ∧
      IsRing st'.links .progsAll (left.map Node.plNode) ∧ (picked ++ left).Perm progs ∧
      reads st.pds picked ≤ passReads ∧
      ∀ before prog after, progs = before ++ prog :: after →
        let passed := perfFairPassOver st before
        passed.acc.1 ≠ maxCores →
          0 ≤ (passed.acc.2 - 271250000).toInt ∧
          (prog ∈ left → passReads < reads st.pds passed.picked + (st.pds prog).sumMemReads.toNat) ∧
          (prog ∈ picked → 0 ≤ (passed.acc.2 - (st.pds prog).sumMemReads).toInt) := by
  have spec :
      wp (cdsListForEachEntrySafe .progsAll (0, bwLimit) (admitBody Prod.fst perfFairAdmits)) _
    (fun _ _ => False) st := passOver_spec perfFair_counts population.at rfl
  rw [← perfFairPass_eq] at spec
  cases run : cdsListForEachEntrySafe .progsAll (0, bwLimit) PerfFair.passBody st with
  | error stop st' => exact ((of_error run).mp spec).elim
  | ok acc st' =>
      obtain ⟨rfl, here, -⟩ := (of_ok run).mp spec
      refine ⟨_, st', _, _, rfl, rfl, here.rings.ring _ progsSch_mem, here.ring,
        passOver_perm .., ?_, ?_⟩
      · exact PerfFair.Within.passed.fits
      · rintro before prog after rfl passed notFull
        have within : PerfFair.Within st.pds passed.picked passed.acc := PerfFair.Within.passed
        obtain ⟨refused, admitted⟩ := passOver_refused_iff population.at.nodup notFull
        have threshold := within.threshold
        have fits := within.fits
        refine ⟨by omega, fun skipped => ?_, fun member => ?_⟩
        · have exceeds := within.refused_iff.mp (refused.mp skipped)
          rwa [reads_concat] at exceeds
        · have inside := within.refused_iff.not.mp (admitted.mp member)
          rw [(within.unclamped (not_lt.mp inside)).1]
          unfold passReads at inside
          omega

/-- Seven programs, of which one reads more than a signed word can hold. -/
theorem perfFair_first_pass_seven :
    let pd := fun prog => { ProgData.blank with sumMemReads := if prog = 0 then -1 else 100000000 }
    let st := ExecState.populated (List.replicate 7 1) [0, 1, 2, 3, 4, 5] 8 7 pd
    ∃ acc st' picked left,
      cdsListForEachEntrySafe .progsAll (0, bwLimit) PerfFair.passBody st = .ok acc st' ∧
      perfFairPassOver st (List.range 7) = ⟨acc, picked, left⟩ ∧
        reads st.pds picked ≤ passReads := by
  intro pd st
  obtain ⟨acc, st', picked, left, run, passed, -, -, -, fits, -⟩ :=
    perfFair_first_pass (List.range 7) st
      (populated_population (List.replicate 7 1) [0, 1, 2, 3, 4, 5] 8 7 pd)
  exact ⟨acc, st', picked, left, run, passed, fits⟩

end PerfFair

section FairBwCache

open Decision FairBwCache

variable {pd : ProgPtr → ProgData} {progs picked : List ProgPtr} {prog : ProgPtr} {pass next : Pass}

/-- The programs of class `BW`. -/
def ofBw (pd : ProgPtr → ProgData) (progs : List ProgPtr) : List ProgPtr :=
  progs.filter fun prog => (pd prog).category = .bw

/-- The programs of the classes `CS` and `CNS`. -/
def ofCache (pd : ProgPtr → ProgData) (progs : List ProgPtr) : List ProgPtr :=
  progs.filter fun prog => (pd prog).category = .cs ∨ (pd prog).category = .cns

/-- The cache that some programs use alone, together. -/
def llcSum (pd : ProgPtr → ProgData) (progs : List ProgPtr) : Int :=
  (progs.map fun prog => (pd prog).llcAlone.toInt).sum

@[simp] theorem llcSum_concat :
    llcSum pd (progs ++ [prog]) = llcSum pd progs + (pd prog).llcAlone.toInt := by
  simp [llcSum]

theorem ofBw_concat : ofBw pd (progs ++ [prog]) =
    if (pd prog).category = .bw then ofBw pd progs ++ [prog] else ofBw pd progs := by
  by_cases same : (pd prog).category = .bw <;> simp [ofBw, same]

theorem ofCache_concat : ofCache pd (progs ++ [prog]) =
    if (pd prog).category = .cs ∨ (pd prog).category = .cns then ofCache pd progs ++ [prog]
    else ofCache pd progs := by
  by_cases same : (pd prog).category = .cs ∨ (pd prog).category = .cns <;> simp [ofCache, same]

/-- Some program is of class `BW`. -/
def HasBw (pd : ProgPtr → ProgData) (progs : List ProgPtr) : Prop :=
  ∃ prog ∈ progs, (pd prog).category = .bw

/-- Some program is of class `CS`. -/
def HasCs (pd : ProgPtr → ProgData) (progs : List ProgPtr) : Prop :=
  ∃ prog ∈ progs, (pd prog).category = .cs

theorem hasBw_concat : HasBw pd (progs ++ [prog]) ↔ HasBw pd progs ∨ (pd prog).category = .bw := by
  simp [HasBw, or_and_right, exists_or]

theorem hasCs_concat : HasCs pd (progs ++ [prog]) ↔ HasCs pd progs ∨ (pd prog).category = .cs := by
  simp [HasCs, or_and_right, exists_or]

/-- What the variables of the first pass say about the programs picked so far. -/
structure FairBwCache.Within (pd : ProgPtr → ProgData) (picked : List ProgPtr) (pass : Pass) :
    Prop where
  bwRem : pass.bwRem.toInt = 547208745 - reads pd (ofBw pd picked)
  bwFits : (reads pd (ofBw pd picked) : Int) ≤ 547208745 + 15625000
  llcRem : pass.llcRem.toInt = 15605765 - llcSum pd (ofCache pd picked)
  llcNonneg : 0 ≤ llcSum pd (ofCache pd picked)
  bwOn : pass.bwOn = true ↔ HasBw pd picked
  csOn : pass.csOn = true ↔ HasCs pd picked
  apart : ¬ (HasBw pd picked ∧ HasCs pd picked)
  llcFits : HasCs pd picked → llcSum pd (ofCache pd picked) ≤ 15605765 + 4000000

namespace FairBwCache.Within

theorem start : Within pd [] ⟨0, bwLimit, llcLimit, false, false⟩ where
  bwRem := show bwLimit.toInt = 547208745 - 0 by decide
  bwFits := by simp [ofBw, reads]
  llcRem := show llcLimit.toInt = 15605765 - 0 by decide
  llcNonneg := by simp [ofCache, llcSum]
  bwOn := by simp [HasBw]
  csOn := by simp [HasCs]
  apart := by simp [HasBw]
  llcFits := by simp [HasCs]

theorem bwThreshold (within : Within pd picked pass) :
    (pass.bwRem + 15625000).toInt = 547208745 + 15625000 - reads pd (ofBw pd picked) := by
  have rem := within.bwRem
  have fits := within.bwFits
  have literal : (15625000 : Word64).toInt = 15625000 := by decide
  rw [toInt_add_of_bounds] <;> omega

/-- The bandwidth test compares what the program reads with what is left. -/
theorem bwTest (within : Within pd picked pass) :
    (pd prog).sumMemReads > pass.bwRem + 15625000 ↔
      547208745 + 15625000 < (reads pd (ofBw pd picked ++ [prog]) : Int) := by
  have threshold := within.bwThreshold
  have fits := within.bwFits
  have reading : (pd prog).sumMemReads > pass.bwRem + 15625000 ↔ _ := ult_iff_of_nonneg (by omega)
  rw [reading, threshold, reads_concat]
  omega

/-- The cache test compares what the program uses with what is left. -/
theorem llcTest (within : Within pd picked pass) (small : llcSum pd (ofCache pd picked) < 2 ^ 31) :
    overLlc pass (pd prog) = true ↔
      15605765 + 4000000 < llcSum pd (ofCache pd picked ++ [prog]) := by
  have rem := within.llcRem
  have nonneg := within.llcNonneg
  have literal : (4000000 : Word32).toInt = 4000000 := by decide
  have threshold : (pass.llcRem + 4000000).toInt = pass.llcRem.toInt + 4000000 := by
    rw [toInt_add_of_bounds] <;> omega
  rw [overLlc, decide_eq_true_iff, threshold, llcSum_concat]
  omega

theorem takeBw (within : Within pd picked pass) (category : (pd prog).category = .bw)
    (alone : pass.csOn = false) (fits : ¬ (pd prog).sumMemReads > pass.bwRem + 15625000) :
    Within pd (picked ++ [prog])
      { pass with bwRem := pass.bwRem - (pd prog).sumMemReads, bwOn := true } where
  bwRem := by
    have rem := within.bwRem
    have total := within.bwTest.not.mp fits
    rw [reads_concat] at total
    have small : (pd prog).sumMemReads.toInt = (pd prog).sumMemReads.toNat :=
      toInt_of_small (by omega)
    rw [ofBw_concat, if_pos category, reads_concat]
    change (pass.bwRem - _).toInt = _
    rw [toInt_sub_of_bounds] <;> omega
  bwFits := by
    rw [ofBw_concat, if_pos category]
    exact not_lt.mp (within.bwTest.not.mp fits)
  llcRem := by simpa [ofCache_concat, category] using within.llcRem
  llcNonneg := by simpa [ofCache_concat, category] using within.llcNonneg
  bwOn := by simp [hasBw_concat, category]
  csOn := by simpa [hasCs_concat, category] using within.csOn
  apart := by
    rw [hasCs_concat, category, ← within.csOn]
    simp [alone]
  llcFits := by simpa [hasCs_concat, ofCache_concat, category] using within.llcFits

/-- A program that uses cache is admitted: of class `CS`, or `CNS` where `CS` is not on or the
cache suffices. -/
theorem takeCache (within : Within pd picked pass) (csOn : Bool)
    (category : if csOn then (pd prog).category = .cs ∧
      pass.bwOn = false else (pd prog).category = .cns)
    (fits : csOn ∨ pass.csOn → overLlc pass (pd prog) = false)
    (nonneg : 0 ≤ (pd prog).llcAlone.toInt)
    (small : llcSum pd (ofCache pd (picked ++ [prog])) < 2 ^ 31) :
    Within pd (picked ++ [prog])
      { pass with llcRem := pass.llcRem - (pd prog).llcAlone, csOn := csOn || pass.csOn } := by
  have rem := within.llcRem
  have before := within.llcNonneg
  have cached : ofCache pd (picked ++ [prog]) = ofCache pd picked ++ [prog] := by
    rw [ofCache_concat, if_pos]
    cases csOn <;> simp_all
  have notBw : (pd prog).category ≠ .bw := by cases csOn <;> simp_all
  have more : (pd prog).category = .cs ↔ csOn = true := by cases csOn <;> simp_all
  have noBw : ofBw pd (picked ++ [prog]) = ofBw pd picked := by simp [ofBw_concat, notBw]
  rw [cached, llcSum_concat] at small
  constructor
  · rw [noBw]
    exact within.bwRem
  · rw [noBw]
    exact within.bwFits
  · rw [cached, llcSum_concat]
    change (pass.llcRem - _).toInt = _
    rw [toInt_sub_of_bounds] <;> omega
  · rw [cached, llcSum_concat]
    omega
  · simp [hasBw_concat, notBw, within.bwOn]
  · rw [hasCs_concat, more, ← within.csOn, Bool.or_eq_true, or_comm]
  · rw [hasBw_concat, hasCs_concat, more, ← within.bwOn, ← within.csOn]
    have apart := within.apart
    rw [← within.bwOn, ← within.csOn] at apart
    cases csOn <;> simp_all
  · intro some
    rw [hasCs_concat, more, ← within.csOn, or_comm] at some
    have total : ¬ 15605765 + 4000000 < llcSum pd (ofCache pd picked ++ [prog]) :=
      (within.llcTest (by omega)).not.mp (by simp [fits some])
    rw [cached]
    omega

/-- A program that no rule speaks about is admitted. -/
theorem takeOther (within : Within pd picked pass)
    (category : (pd prog).category = .none ∨ (pd prog).category = .n) :
    Within pd (picked ++ [prog]) pass := by
  have bw : ofBw pd (picked ++ [prog]) = ofBw pd picked := by
    rcases category with same | same <;> simp [ofBw_concat, same]
  have cache : ofCache pd (picked ++ [prog]) = ofCache pd picked := by
    rcases category with same | same <;> simp [ofCache_concat, same]
  have hasBw : HasBw pd (picked ++ [prog]) ↔ HasBw pd picked := by
    rcases category with same | same <;> simp [hasBw_concat, same]
  have hasCs : HasCs pd (picked ++ [prog]) ↔ HasCs pd picked := by
    rcases category with same | same <;> simp [hasCs_concat, same]
  constructor <;> simp only [bw, cache, hasBw, hasCs]
  · exact within.bwRem
  · exact within.bwFits
  · exact within.llcRem
  · exact within.llcNonneg
  · exact within.bwOn
  · exact within.csOn
  · exact within.apart
  · exact within.llcFits

/-- What the rules of the first pass admit stays within the budgets. -/
theorem step (within : Within pd picked pass) (admitted : admitClass (pd prog) pass = some next)
    (nonneg : 0 ≤ (pd prog).llcAlone.toInt)
    (small : llcSum pd (ofCache pd (picked ++ [prog])) < 2 ^ 31) :
    Within pd (picked ++ [prog]) next := by
  unfold admitClass at admitted
  split at admitted
  case h_1 category =>
    split at admitted
    · cases admitted
    · rename_i fits
      simp only [Bool.or_eq_true, decide_eq_true_eq, not_or, Bool.not_eq_true] at fits
      cases admitted
      exact within.takeBw category fits.1 fits.2
  case h_2 category =>
    split at admitted
    · cases admitted
    · rename_i fits
      simp only [Bool.or_eq_true, not_or, Bool.not_eq_true] at fits
      cases admitted
      exact within.takeCache true ⟨category, fits.1⟩ (fun _ => fits.2) nonneg small
  case h_3 category =>
    split at admitted
    · cases admitted
    · rename_i fits
      simp only [Bool.and_eq_true, not_and, Bool.not_eq_true] at fits
      cases admitted
      exact within.takeCache false category (fun on => fits (by simpa using on)) nonneg small
  case h_4 category =>
    cases admitted
    exact within.takeOther (.inl category)
  case h_5 category =>
    cases admitted
    exact within.takeOther (.inr category)

end FairBwCache.Within

/-- The first pass of `fair_bw_cache_schedule` over some programs, as a function. -/
def fairBwCachePassOver (st : ExecState) (progs : List ProgPtr) : Passed Pass :=
  passOver Pass.cores fairBwCacheAdmits (fun prog => (st.progs prog).coresNeeded) st.pds progs
    ⟨0, bwLimit, llcLimit, false, false⟩

/-- Sums over fewer programs are no larger. -/
theorem llcSum_sublist {some : List ProgPtr} (sub : some.Sublist progs)
    (nonneg : ∀ prog ∈ progs, 0 ≤ (pd prog).llcAlone.toInt) : llcSum pd some ≤ llcSum pd progs := by
  induction sub with
  | slnil => rfl
  | cons prog sub ih =>
      have rest := ih fun other member => nonneg other (List.mem_cons_of_mem _ member)
      have this := nonneg prog List.mem_cons_self
      simp only [llcSum, List.map_cons, List.sum_cons] at *
      omega
  | cons_cons prog sub ih =>
      have rest := ih fun other member => nonneg other (List.mem_cons_of_mem _ member)
      simp only [llcSum, List.map_cons, List.sum_cons] at *
      omega

/-- The invariant holds at every point of the first pass over programs of one core each. -/
theorem fairBwCachePassOver_within {st : ExecState}
    (single : ∀ prog ∈ progs, (st.progs prog).coresNeeded = 1)
    (nonneg : ∀ prog ∈ progs, 0 ≤ (st.pds prog).llcAlone.toInt)
    (small : ∀ some, some.Sublist progs → some.length ≤ maxCores.toNat →
      llcSum st.pds some < 2 ^ 31) :
    FairBwCache.Within st.pds (fairBwCachePassOver st progs).picked
      (fairBwCachePassOver st progs).acc := by
  let I (picked : List ProgPtr) (pass : Pass) : Prop :=
    pass.cores = picked.length ∧ pass.cores ≤ maxCores ∧ FairBwCache.Within st.pds picked pass
  suffices all : I (fairBwCachePassOver st progs).picked
      (fairBwCachePassOver st progs).acc from all.2.2
  refine passOver_induction I (fun picked prog pass next sub notFull verdict inv => ?_)
    ⟨rfl, by decide, .start⟩
  obtain ⟨counted, few, within⟩ := inv
  obtain ⟨passed, admitted, rfl⟩ := Option.map_eq_some_iff.mp verdict
  have member : prog ∈ progs := sub.subset (by simp)
  have fewer : pass.cores + 1 ≤ maxCores := by
    have notFull : pass.cores ≠ maxCores := notFull
    omega
  have short : (picked ++ [prog]).length ≤ maxCores.toNat := by
    unfold maxCores at fewer ⊢
    simp
    omega
  have total : llcSum st.pds (ofCache st.pds (picked ++ [prog])) < 2 ^ 31 :=
    (llcSum_sublist List.filter_sublist fun other there => nonneg other (sub.subset there)).trans_lt
      (small _ sub short)
  have stepped := within.step admitted (nonneg prog member) total
  refine ⟨?_, ?_, stepped.bwRem, stepped.bwFits, stepped.llcRem, stepped.llcNonneg, stepped.bwOn,
    stepped.csOn, stepped.apart, stepped.llcFits⟩
  · simp [single prog member, counted]
  · rw [single prog member]
    exact fewer

/-- The first pass of `fair_bw_cache_schedule` computes `fairBwCachePassOver`.  It never picks
both a `BW` and a `CS` program; the `BW` programs it picks keep to the bandwidth, and once it
has picked a `CS` program, the `CS` and `CNS` programs keep to the cache, with the tolerances
of the source; what is left of the bandwidth is never below the tolerance, so that each test
compares the integers. -/
theorem fairBwCache_first_pass (progs : List ProgPtr) (st : ExecState)
    (population : Population progs st) (single : ∀ prog ∈ progs, (st.progs prog).coresNeeded = 1)
    (nonneg : ∀ prog ∈ progs, 0 ≤ (st.pds prog).llcAlone.toInt)
    (small : ∀ some, some.Sublist progs → some.length ≤ maxCores.toNat →
      llcSum st.pds some < 2 ^ 31) :
    ∃ pass st' picked left,
      cdsListForEachEntrySafe .progsAll ⟨0, bwLimit, llcLimit, false, false⟩
        FairBwCache.passBody st =
        .ok pass st' ∧
      fairBwCachePassOver st progs = ⟨pass, picked, left⟩ ∧
      IsRing st'.links .progsSch (picked.map Node.plNode) ∧
      IsRing st'.links .progsAll (left.map Node.plNode) ∧ (picked ++ left).Perm progs ∧
      ¬ (HasBw st.pds picked ∧ HasCs st.pds picked) ∧
      (reads st.pds (ofBw st.pds picked) : Int) ≤ 547208745 + 15625000 ∧
      (HasCs st.pds picked → llcSum st.pds (ofCache st.pds picked) ≤ 15605765 + 4000000) ∧
      ∀ before after, progs = before ++ after →
        let pass := (fairBwCachePassOver st before).acc
        0 ≤ (pass.bwRem + 15625000).toInt ∧
          (pass.bwRem + 15625000).toInt = pass.bwRem.toInt + 15625000 ∧
          ∀ prog ∈ after, (st.pds prog).sumMemReads > pass.bwRem + 15625000 ↔
            pass.bwRem.toInt + 15625000 < (st.pds prog).sumMemReads.toNat := by
  have spec : wp (cdsListForEachEntrySafe .progsAll ⟨0, bwLimit, llcLimit, false, false⟩
    (admitBody Pass.cores fairBwCacheAdmits)) _ (fun _ _ => False) st :=
    passOver_spec fairBwCache_counts population.at rfl
  rw [← fairBwCachePass_eq] at spec
  cases run : cdsListForEachEntrySafe .progsAll ⟨0, bwLimit, llcLimit, false, false⟩
      FairBwCache.passBody st with
  | error stop st' => exact ((of_error run).mp spec).elim
  | ok pass st' =>
      obtain ⟨rfl, here, -⟩ := (of_ok run).mp spec
      have within := fairBwCachePassOver_within single nonneg small
      refine ⟨_, st', _, _, rfl, rfl, here.rings.ring _ progsSch_mem, here.ring, passOver_perm ..,
        within.apart, within.bwFits, within.llcFits, ?_⟩
      rintro before after rfl
      have within : FairBwCache.Within st.pds _ (fairBwCachePassOver st before).acc :=
        fairBwCachePassOver_within
          (fun prog member => single prog (List.mem_append_left _ member))
          (fun prog member => nonneg prog (List.mem_append_left _ member))
          (fun some sub => small some (sub.trans (List.sublist_append_left ..)))
      have threshold := within.bwThreshold
      have fits := within.bwFits
      have rem := within.bwRem
      refine ⟨by omega, by omega, fun prog _ => ?_⟩
      have reading : (st.pds prog).sumMemReads > _ ↔ _ :=
        ult_iff_of_nonneg
          (show 0 ≤ ((fairBwCachePassOver st before).acc.bwRem + 15625000).toInt by omega)
      rw [reading]
      omega

/-- A program of each class. -/
theorem fairBwCache_first_pass_three :
    let pd := fun prog => { ProgData.blank with
      category := if prog = 0 then .cns else if prog = 1 then .cs else .bw
      sumMemReads := 300000000
      llcAlone := 9000000 }
    let st := ExecState.populated [1, 1, 1] [0, 1, 2, 3, 4, 5] 8 3 pd
    ∃ pass st' picked left,
      cdsListForEachEntrySafe .progsAll ⟨0, bwLimit, llcLimit, false, false⟩
        FairBwCache.passBody st =
        .ok pass st' ∧
      fairBwCachePassOver st [0, 1, 2] = ⟨pass, picked, left⟩ ∧
      ¬ (HasBw st.pds picked ∧ HasCs st.pds picked) := by
  intro pd st
  have nonneg : ∀ prog ∈ [0, 1, 2], 0 ≤ (st.pds prog).llcAlone.toInt := by decide
  have total : llcSum st.pds [0, 1, 2] < 2 ^ 31 := by decide
  obtain ⟨pass, st', picked, left, run, passed, -, -, -, apart, -⟩ :=
    fairBwCache_first_pass [0, 1, 2] st (populated_population [1, 1, 1] [0, 1, 2, 3, 4, 5] 8 3 pd)
      (by decide) nonneg fun some sub _ => (llcSum_sublist sub nonneg).trans_lt total
  exact ⟨pass, st', picked, left, run, passed, apart⟩

end FairBwCache

end BachScheduler
