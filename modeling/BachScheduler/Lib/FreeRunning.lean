import Mathlib.Algebra.BigOperators.Group.List.Basic
import Mathlib.Data.BitVec
import Mathlib.Tactic.Common

/-!
# Free-running counters

A counter of a given width counts modulo a power of two.  As long as it is read before it has
come round, two readings tell how far it has advanced, and whether it wrapped in between.
Sums of readings do not: the difference of two sums falls short by the modulus for each counter
that wrapped.
-/

namespace BachScheduler

/-- A counter between two readings: where it starts, and how far it is on at the second one. -/
structure FreeRunning (width : Nat) where
  start : Nat
  advance : Nat
  start_lt : start < 2 ^ width
  advance_lt : advance < 2 ^ width

namespace FreeRunning

variable {width w : Nat} (counter : FreeRunning width) (counters : List (FreeRunning width))

/-- The second reading. -/
def stop : Nat :=
  (counter.start + counter.advance) % 2 ^ width

/-- The counter has passed its largest value. -/
def Wraps : Prop :=
  2 ^ width ≤ counter.start + counter.advance

instance : Decidable counter.Wraps :=
  inferInstanceAs (Decidable (2 ^ width ≤ counter.start + counter.advance))

theorem stop_add_wrap :
    counter.stop + (if counter.Wraps then 2 ^ width else 0) = counter.start + counter.advance := by
  have start := counter.start_lt
  have advance := counter.advance_lt
  unfold stop
  split
  · next wraps =>
      unfold Wraps at wraps
      rw [Nat.mod_eq_sub_mod wraps, Nat.mod_eq_of_lt (by omega)]
      omega
  · next stays =>
      unfold Wraps at stays
      rw [Nat.mod_eq_of_lt (by omega), Nat.add_zero]

/-- A counter wrapped exactly if the second reading is before the first one. -/
theorem stop_lt_start_iff : counter.stop < counter.start ↔ counter.Wraps := by
  have total := counter.stop_add_wrap
  have advance := counter.advance_lt
  constructor
  · intro less
    by_contra stays
    rw [if_neg stays] at total
    omega
  · intro wraps
    rw [if_pos wraps] at total
    omega

/-- The sum of the second readings lacks the modulus once for each counter that wrapped. -/
theorem sum_stop_add_wraps :
    (counters.map stop).sum + 2 ^ width * counters.countP (fun counter => counter.Wraps) =
      (counters.map start).sum + (counters.map advance).sum := by
  induction counters with
  | nil => rfl
  | cons counter counters ih =>
      have one := counter.stop_add_wrap
      rw [List.map_cons, List.map_cons, List.map_cons, List.sum_cons, List.sum_cons, List.sum_cons,
        List.countP_cons]
      by_cases wraps : counter.Wraps
      · simp only [wraps, decide_true, if_true, Nat.mul_add, Nat.mul_one] at one ⊢
        omega
      · simp only [wraps, decide_false, if_false, Nat.add_zero, Bool.false_eq_true] at one ⊢
        omega

theorem sum_advance_le : (counters.map advance).sum ≤ counters.length * 2 ^ width := by
  induction counters with
  | nil => simp
  | cons counter counters ih =>
      have less := counter.advance_lt
      rw [List.map_cons, List.sum_cons, List.length_cons, Nat.succ_mul]
      omega

/-- In words that the sums fit into, the difference of the sums is the sum of the advances
exactly if no counter wrapped. -/
theorem sub_sums_eq_iff (fits : counters.length * 2 ^ width < 2 ^ w) :
    (BitVec.ofNat w (counters.map stop).sum - BitVec.ofNat w (counters.map start).sum).toNat =
        (counters.map advance).sum ↔
      ∀ counter ∈ counters, ¬ counter.Wraps := by
  have total := sum_stop_add_wraps counters
  have small := sum_advance_le counters
  have few : counters.countP (fun counter => counter.Wraps) ≤ counters.length :=
    List.countP_le_length
  have lacks := Nat.mul_le_mul_right (2 ^ width) few
  rw [Nat.mul_comm _ (2 ^ width)] at lacks
  have none_wraps : counters.countP (fun counter => counter.Wraps) = 0 ↔
      ∀ counter ∈ counters, ¬ counter.Wraps := by
    simp [List.countP_eq_zero]
  rw [← none_wraps]
  generalize counters.countP (fun counter => counter.Wraps) = wraps at total lacks ⊢
  generalize (counters.map stop).sum = after at total ⊢
  generalize (counters.map start).sum = before at total ⊢
  generalize (counters.map advance).sum = advance at total small ⊢
  have lacking : 2 ^ width * wraps = 0 ↔ wraps = 0 := by
    simp
  rw [← lacking]
  generalize 2 ^ width * wraps = lack at total lacks ⊢
  calc (BitVec.ofNat w after - BitVec.ofNat w before).toNat = advance
      ↔ BitVec.ofNat w after - BitVec.ofNat w before = BitVec.ofNat w advance := by
        rw [← BitVec.toNat_inj, BitVec.toNat_ofNat advance, Nat.mod_eq_of_lt (by omega)]
    _ ↔ BitVec.ofNat w after = BitVec.ofNat w (after + lack) := by
        rw [BitVec.sub_eq_iff_eq_add, ← BitVec.ofNat_add, Nat.add_comm advance, total]
    _ ↔ BitVec.ofNat w lack = 0 := by
        rw [BitVec.ofNat_add, eq_comm, add_eq_left]
    _ ↔ lack = 0 := by
        rw [← BitVec.toNat_inj, BitVec.toNat_ofNat, Nat.mod_eq_of_lt (by omega)]
        rfl

end FreeRunning

end BachScheduler
