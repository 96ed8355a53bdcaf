import BachScheduler.State
import Mathlib.Algebra.Group.Nat.Defs

/-!
# Resource monitoring ids

`InitRMID` gives each monitored cpu an RMID of its own, counting down from the largest one.
The registers hold ten bits of it, but the mask of the loop keeps bit 10 and bits 7 to 0 only.
-/

namespace BachScheduler

/-- The registers `IA32_PQR_ASSOC` and `IA32_QM_EVTSEL` of a cpu. -/
structure CpuMsrs where
  pqrAssoc : Word64
  qmEvtsel : Word64
  deriving DecidableEq

/-- The loop of `InitRMID` over the cpus of the handles; it has no result where it exits. -/
def initRMIDLoop (maxrmid : Word64) : List Nat → Word64 → (Nat → CpuMsrs) → Option (Nat → CpuMsrs)
  | [], _, msrs => some msrs
  | cpu :: handles, rmid, msrs =>
      let pqrAssoc := (msrs cpu).pqrAssoc &&& 0xfffffffffffffc00#64
      if rmid > 0x4ff ∨ rmid > maxrmid then
        none
      else
        let rmid := rmid &&& 0x4ff#64
        let msrs := Function.update msrs cpu { msrs cpu with pqrAssoc := pqrAssoc ||| rmid }
        let qmEvtsel := (msrs cpu).qmEvtsel &&& 0xfffffc00ffffff00#64
        let event := rmid <<< 32 ||| 1#64
        let msrs := Function.update msrs cpu { msrs cpu with qmEvtsel := qmEvtsel ||| event }
        initRMIDLoop maxrmid handles (rmid - 1) msrs

/-- `InitRMID`, with the `MaxRMID` that the processor reports. -/
def initRMID (maxRMID : Word32) (handles : List Nat) (msrs : Nat → CpuMsrs) :
    Option (Nat → CpuMsrs) :=
  let maxrmid := maxRMID.setWidth 64
  initRMIDLoop maxrmid handles maxrmid msrs

/-- The RMID that a cpu is associated with. -/
def CpuMsrs.rmid (msrs : CpuMsrs) : BitVec 10 :=
  msrs.pqrAssoc.extractLsb' 0 10

/-- The registers carry an RMID and the occupancy event, and are otherwise what they were. -/
structure RmidAssigned (before after : CpuMsrs) (rmid : BitVec 10) : Prop where
  associated : after.rmid = rmid
  pqrAssoc : ∀ k, 10 ≤ k → after.pqrAssoc.getLsbD k = before.pqrAssoc.getLsbD k
  selected : after.qmEvtsel.extractLsb' 32 10 = rmid
  event : after.qmEvtsel.extractLsb' 0 8 = 1
  qmEvtsel : ∀ k, 8 ≤ k → k < 32 ∨ 42 ≤ k → after.qmEvtsel.getLsbD k = before.qmEvtsel.getLsbD k

namespace CpuMsrs

variable {rmid : Word64} {k : Nat}

/-- The registers of a cpu after a round of the loop. -/
def associate (msrs : CpuMsrs) (rmid : Word64) : CpuMsrs where
  pqrAssoc := msrs.pqrAssoc &&& 0xfffffffffffffc00#64 ||| rmid
  qmEvtsel := msrs.qmEvtsel &&& 0xfffffc00ffffff00#64 ||| (rmid <<< 32 ||| 1#64)

/-- The bits that `IA32_PQR_ASSOC` keeps. -/
theorem pqrAssoc_mask (k : Nat) :
    (0xfffffffffffffc00#64).getLsbD k = decide (10 ≤ k ∧ k < 64) := by
  by_cases inside : k < 64
  · revert k
    decide
  · rw [BitVec.getLsbD_of_ge _ _ (by omega)]
    simp [inside]

/-- The bits that `IA32_QM_EVTSEL` keeps. -/
theorem qmEvtsel_mask (k : Nat) :
    (0xfffffc00ffffff00#64).getLsbD k = decide ((8 ≤ k ∧ k < 32 ∨ 42 ≤ k) ∧ k < 64) := by
  by_cases inside : k < 64
  · revert k
    decide
  · rw [BitVec.getLsbD_of_ge _ _ (by omega)]
    simp [inside]

/-- An RMID has ten bits. -/
theorem rmid_high (small : rmid.toNat < 2 ^ 10) (high : 10 ≤ k) : rmid.getLsbD k = false := by
  rw [BitVec.getLsbD]
  exact Nat.testBit_lt_two_pow (lt_of_lt_of_le small (Nat.pow_le_pow_right (by decide) high))

theorem one_bit (k : Nat) : (1#64).getLsbD k = decide (k = 0) := by
  by_cases inside : k < 64
  · revert k
    decide
  · rw [BitVec.getLsbD_of_ge _ _ (by omega), eq_comm, decide_eq_false_iff_not]
    omega

theorem pqrAssoc_bit (msrs : CpuMsrs) (rmid : Word64) (k : Nat) :
    (msrs.associate rmid).pqrAssoc.getLsbD k =
      (msrs.pqrAssoc.getLsbD k && decide (10 ≤ k ∧ k < 64) || rmid.getLsbD k) := by
  simp only [associate, BitVec.getLsbD_or, BitVec.getLsbD_and, pqrAssoc_mask]

theorem qmEvtsel_bit (msrs : CpuMsrs) (rmid : Word64) (k : Nat) :
    (msrs.associate rmid).qmEvtsel.getLsbD k =
      (msrs.qmEvtsel.getLsbD k && decide ((8 ≤ k ∧ k < 32 ∨ 42 ≤ k) ∧ k < 64) ||
        (decide (k < 64) && !decide (k < 32) && rmid.getLsbD (k - 32) || decide (k = 0))) := by
  simp only [associate, BitVec.getLsbD_or, BitVec.getLsbD_and, BitVec.getLsbD_shiftLeft,
    qmEvtsel_mask, one_bit]

/-- A round of the loop assigns its RMID. -/
theorem associate_spec (msrs : CpuMsrs) (small : rmid.toNat < 2 ^ 10) :
    RmidAssigned msrs (msrs.associate rmid) (rmid.setWidth 10) where
  associated := by
    apply BitVec.eq_of_getLsbD_eq
    intro i inside
    have low : ¬ (10 ≤ i ∧ i < 64) := by omega
    rw [CpuMsrs.rmid, BitVec.getLsbD_extractLsb', BitVec.getLsbD_setWidth,
      Nat.zero_add, pqrAssoc_bit, decide_eq_false low, Bool.and_false, Bool.false_or]
  pqrAssoc k high := by
    by_cases inside : k < 64
    · rw [pqrAssoc_bit, rmid_high small high, decide_eq_true ⟨high, inside⟩, Bool.and_true,
        Bool.or_false]
    · rw [BitVec.getLsbD_of_ge _ _ (by omega), BitVec.getLsbD_of_ge _ _ (by omega)]
  selected := by
    apply BitVec.eq_of_getLsbD_eq
    intro i inside
    have cleared : ¬ ((8 ≤ 32 + i ∧ 32 + i < 32 ∨ 42 ≤ 32 + i) ∧ 32 + i < 64) := by omega
    have word : 32 + i < 64 := by omega
    have shifted : ¬ 32 + i < 32 := by omega
    have other : ¬ 32 + i = 0 := by omega
    rw [BitVec.getLsbD_extractLsb', BitVec.getLsbD_setWidth, qmEvtsel_bit, decide_eq_false cleared,
      decide_eq_true word, decide_eq_false shifted, decide_eq_false other, Nat.add_sub_cancel_left,
      Bool.and_false, Bool.false_or, Bool.or_false, Bool.not_false, Bool.true_and, Bool.true_and]
  event := by
    apply BitVec.eq_of_getLsbD_eq
    intro i inside
    have cleared : ¬ ((8 ≤ i ∧ i < 32 ∨ 42 ≤ i) ∧ i < 64) := by omega
    have low : i < 32 := by omega
    rw [BitVec.getLsbD_extractLsb', Nat.zero_add, qmEvtsel_bit, decide_eq_false cleared,
      decide_eq_true low,
      Bool.and_false, Bool.false_or, Bool.not_true, Bool.and_false, Bool.false_and, Bool.false_or,
      decide_eq_true inside, Bool.true_and]
    revert i
    decide
  qmEvtsel k low kept := by
    by_cases inside : k < 64
    · have other : ¬ k = 0 := by omega
      have event : (decide (k < 64) && !decide (k < 32) && rmid.getLsbD (k - 32)) = false := by
        rcases kept with below | above
        · rw [decide_eq_true below, Bool.not_true, Bool.and_false, Bool.false_and]
        · rw [rmid_high small (by omega), Bool.and_false]
      have stays : (8 ≤ k ∧ k < 32 ∨ 42 ≤ k) ∧ k < 64 := by omega
      rw [qmEvtsel_bit, event, decide_eq_false other, decide_eq_true stays, Bool.and_true,
        Bool.or_false, Bool.or_false]
    · rw [BitVec.getLsbD_of_ge _ _ (by omega), BitVec.getLsbD_of_ge _ _ (by omega)]

end CpuMsrs

section Loop

variable {maxrmid rmid : Word64} {cpu : Nat} {handles : List Nat} {msrs msrs' : Nat → CpuMsrs}

theorem initRMIDLoop_cons (field : rmid.toNat ≤ 0x4ff) (bound : rmid.toNat ≤ maxrmid.toNat) :
    initRMIDLoop maxrmid (cpu :: handles) rmid msrs =
      initRMIDLoop maxrmid handles ((rmid &&& 0x4ff#64) - 1)
        (Function.update msrs cpu ((msrs cpu).associate (rmid &&& 0x4ff#64))) := by
  have within : ¬ (rmid > 0x4ff ∨ rmid > maxrmid) := by
    rw [gt_iff_lt, gt_iff_lt, BitVec.lt_def, BitVec.lt_def]
    exact not_or.mpr ⟨Nat.not_lt.mpr field, Nat.not_lt.mpr bound⟩
  rw [initRMIDLoop, if_neg within]
  simp only [Function.update_self, Function.update_idem, CpuMsrs.associate]

/-- Registers of other cpus stay as they are. -/
theorem initRMIDLoop_other {other : Nat} (apart : other ∉ handles)
    (run : initRMIDLoop maxrmid handles rmid msrs = some msrs') : msrs' other = msrs other := by
  induction handles generalizing rmid msrs with
  | nil => rw [← Option.some_inj.mp run]
  | cons cpu handles ih =>
      rw [List.mem_cons, not_or] at apart
      rw [initRMIDLoop] at run
      split at run
      · contradiction
      · rw [ih apart.2 run, Function.update_of_ne apart.1, Function.update_of_ne apart.1]

/-- The mask of the loop keeps an RMID of eight bits. -/
theorem rmid_mask_low (low : rmid.toNat ≤ 0xff) : rmid &&& 0x4ff#64 = rmid := by
  have each : ∀ n < 256, n &&& 0x4ff = n := by decide +kernel
  rw [← BitVec.toNat_inj, BitVec.toNat_and]
  exact each _ (by omega)

/-- It drops the upper two bits of an RMID of ten bits. -/
theorem rmid_mask_high (high : 0xff < rmid.toNat) (field : rmid.toNat ≤ 0x3ff) :
    (rmid &&& 0x4ff#64).toNat < rmid.toNat := by
  have each : ∀ n < 1024, 0xff < n → n &&& 0x4ff < n := by decide +kernel
  rw [BitVec.toNat_and]
  exact each _ (by omega) high

/-- From an RMID of eight bits on, the cpus get the RMIDs in descending order. -/
theorem initRMIDLoop_spec (nodup : handles.Nodup) (low : rmid.toNat ≤ 0xff)
    (bound : rmid.toNat ≤ maxrmid.toNat) (enough : handles.length ≤ rmid.toNat) :
    ∃ msrs', initRMIDLoop maxrmid handles rmid msrs = some msrs' ∧
      ∀ i cpu, handles[i]? = some cpu →
        RmidAssigned (msrs cpu) (msrs' cpu) (BitVec.ofNat 10 (rmid.toNat - i)) := by
  induction handles generalizing rmid msrs with
  | nil => exact ⟨msrs, rfl, by simp⟩
  | cons cpu handles ih =>
      rw [List.nodup_cons] at nodup
      rw [List.length_cons] at enough
      have less : (rmid - 1).toNat = rmid.toNat - 1 := by
        rw [BitVec.toNat_sub_of_le (by rw [BitVec.le_def]; exact (by omega : 1 ≤ rmid.toNat))]
        rfl
      have next : ∃ msrs', initRMIDLoop maxrmid handles (rmid - 1)
            (Function.update msrs cpu ((msrs cpu).associate rmid)) = some msrs' ∧ _ :=
        ih nodup.2 (by omega) (by omega) (by omega)
      obtain ⟨msrs', run, rest⟩ := next
      refine ⟨msrs', by rw [initRMIDLoop_cons (by omega) bound, rmid_mask_low low, run], ?_⟩
      intro i other atI
      cases i with
      | zero =>
          obtain rfl : cpu = other := by simpa using atI
          rw [initRMIDLoop_other nodup.1 run, Function.update_self, Nat.sub_zero]
          have assigned := (msrs cpu).associate_spec
            (lt_of_le_of_lt low (by decide : 0xff < 2 ^ 10))
          rwa [← BitVec.ofNat_toNat] at assigned
      | succ i =>
          have member : other ∈ handles := List.mem_of_getElem? (by simpa using atI)
          have differs : other ≠ cpu := fun same => nodup.1 (same ▸ member)
          have assigned := rest i other (by simpa using atI)
          rw [Function.update_of_ne differs, less] at assigned
          rwa [show rmid.toNat - (i + 1) = rmid.toNat - 1 - i by omega]

end Loop

section InitRMID

variable {maxRMID : Word32} {handles : List Nat} {msrs : Nat → CpuMsrs}

/-- `InitRMID` gives each cpu an RMID of its own, from the largest one down, and changes
nothing else. -/
def AssignsRmids (maxRMID : Word32) (handles : List Nat) (msrs : Nat → CpuMsrs) : Prop :=
  ∃ msrs', initRMID maxRMID handles msrs = some msrs' ∧
    (∀ i cpu, handles[i]? = some cpu →
      RmidAssigned (msrs cpu) (msrs' cpu) (BitVec.ofNat 10 (maxRMID.toNat - i))) ∧
    (handles.map fun cpu => (msrs' cpu).rmid).Nodup ∧
    ∀ cpu ∉ handles, msrs' cpu = msrs cpu

/-- For RMIDs that the registers can hold, `InitRMID` does its task exactly if eight bits are
enough for them, or no cpu is monitored. -/
theorem initRMID_iff (nodup : handles.Nodup) (field : maxRMID.toNat ≤ 0x3ff)
    (enough : handles.length ≤ maxRMID.toNat) :
    AssignsRmids maxRMID handles msrs ↔ maxRMID.toNat ≤ 0xff ∨ handles = [] := by
  have wide : (maxRMID.setWidth 64).toNat = maxRMID.toNat := by
    rw [BitVec.toNat_setWidth, Nat.mod_eq_of_lt (by omega)]
  constructor
  · rintro ⟨msrs', run, assigned, -, -⟩
    cases handles with
    | nil => exact .inr rfl
    | cons cpu handles =>
        left
        by_contra high
        rw [List.nodup_cons] at nodup
        rw [initRMID, initRMIDLoop_cons (by omega) (le_refl _)] at run
        have first := (assigned 0 cpu rfl).associated
        have dropped : (maxRMID.setWidth 64 &&& 0x4ff#64).toNat < (maxRMID.setWidth 64).toNat :=
          rmid_mask_high (by omega) (by omega)
        have small := lt_of_lt_of_le dropped (by omega : (maxRMID.setWidth 64).toNat ≤ 2 ^ 10)
        rw [initRMIDLoop_other nodup.1 run, Function.update_self,
          ((msrs cpu).associate_spec small).associated, Nat.sub_zero, ← BitVec.toNat_inj,
          BitVec.toNat_setWidth, BitVec.toNat_ofNat, Nat.mod_eq_of_lt small,
          Nat.mod_eq_of_lt (by omega)] at first
        omega
  · intro fits
    have spec : ∃ msrs', initRMID maxRMID handles msrs = some msrs' ∧ ∀ i cpu,
        handles[i]? = some cpu →
        RmidAssigned (msrs cpu) (msrs' cpu) (BitVec.ofNat 10 (maxRMID.toNat - i)) := by
      rcases fits with low | rfl
      · rw [← wide] at low enough ⊢
        exact initRMIDLoop_spec nodup low (le_refl _) enough
      · exact ⟨msrs, rfl, by simp⟩
    obtain ⟨msrs', run, assigned⟩ := spec
    refine ⟨msrs', run, assigned, ?_, fun cpu apart => initRMIDLoop_other apart run⟩
    have descending : handles.map (fun cpu => (msrs' cpu).rmid) =
        (List.range handles.length).map fun i => BitVec.ofNat 10 (maxRMID.toNat - i) := by
      apply List.ext_getElem?
      intro i
      rw [List.getElem?_map, List.getElem?_map]
      cases atI : handles[i]? with
      | none =>
          have outside := List.getElem?_eq_none_iff.mp atI
          rw [List.getElem?_eq_none (by simpa using outside)]
          rfl
      | some cpu =>
          have inside := List.getElem?_eq_some_iff.mp atI |>.1
          rw [List.getElem?_range inside, Option.map_some, Option.map_some,
            (assigned i cpu atI).associated]
    rw [descending]
    refine List.Nodup.map_on ?_ List.nodup_range
    intro i first j second equal
    rw [List.mem_range] at first second
    have values := congrArg BitVec.toNat equal
    rw [BitVec.toNat_ofNat, BitVec.toNat_ofNat, Nat.mod_eq_of_lt (by omega),
      Nat.mod_eq_of_lt (by omega)] at values
    omega

/-- Two cpus and sixteen RMIDs. -/
theorem initRMID_iff_two :
    AssignsRmids 15 [0, 1] (fun _ => ⟨0, 0⟩) ↔ (15 : Word32).toNat ≤ 0xff ∨ [0, 1] = [] :=
  initRMID_iff (by decide) (by decide) (by decide)

/-- With 256 as the largest RMID the first cpu gets 0, and the program exits at the second. -/
theorem initRMID_exits :
    ¬ ∀ (maxRMID : Word32) (handles : List Nat) (msrs : Nat → CpuMsrs), handles.Nodup →
      maxRMID.toNat ≤ 0x3ff → handles.length ≤ maxRMID.toNat →
        AssignsRmids maxRMID handles msrs := by
  intro assigns
  obtain ⟨msrs', run, -⟩ := assigns 256 [0, 1] (fun _ => ⟨0, 0⟩) (by decide) (by decide) (by decide)
  have exits : (initRMID 256 [0, 1] fun _ => ⟨0, 0⟩).isNone = true := by decide +kernel
  rw [run] at exits
  contradiction

end InitRMID

end BachScheduler
