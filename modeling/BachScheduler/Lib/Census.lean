import Mathlib.Algebra.BigOperators.Ring.Finset
import Mathlib.Algebra.Order.BigOperators.Group.Finset
import Mathlib.Algebra.Order.Ring.Int
import Mathlib.Logic.Function.Basic

/-!
# Counting a population by where its members are

The members of a population are the numbers below a bound, and each is at some place.  A
weight on the places is summed up over the members.  The sum changes by the difference
of two weights when a member moves, and by one weight when a member comes in.
-/

namespace BachScheduler.Census

variable {κ ι : Type} {n : Nat} {place other : Nat → κ} {weight : κ → Int}

/-- The sum of the weights of the places of the first `n` members. -/
def tally (weight : κ → Int) (n : Nat) (place : Nat → κ) : Int :=
  ∑ p ∈ Finset.range n, weight (place p)

@[simp] theorem tally_zero : tally weight 0 place = 0 := by simp [tally]

/-- Only the weights at the members count. -/
theorem tally_congr {weight' : κ → Int} (same : ∀ p < n, weight' (other p) = weight (place p)) :
    tally weight' n other = tally weight n place :=
  Finset.sum_congr rfl fun p member => same p (Finset.mem_range.mp member)

theorem tally_update {p : Nat} (member : p < n) (k : κ) :
    tally weight n (Function.update place p k) =
      tally weight n place + (weight k - weight (place p)) := by
  unfold tally
  have inside : p ∈ Finset.range n := Finset.mem_range.mpr member
  rw [← Finset.add_sum_erase _ _ inside,
    ← Finset.add_sum_erase (Finset.range n) (fun p => weight (place p)) inside,
    Function.update_self]
  have others : ∑ q ∈ (Finset.range n).erase p, weight (Function.update place p k q) =
      ∑ q ∈ (Finset.range n).erase p, weight (place q) :=
    Finset.sum_congr rfl fun q there => by rw [Function.update_of_ne (Finset.ne_of_mem_erase there)]
  rw [others]
  omega

theorem sum_gain {M : Type} [AddCommMonoid M] {f g : Nat → M} {p : Nat} (member : p < n)
    (none : f p = 0) (others : ∀ q, q ≠ p → g q = f q) :
    ∑ q ∈ Finset.range n, g q = ∑ q ∈ Finset.range n, f q + g p := by
  have inside : p ∈ Finset.range n := Finset.mem_range.mpr member
  have same : ∑ q ∈ (Finset.range n).erase p, g q = ∑ q ∈ (Finset.range n).erase p, f q :=
    Finset.sum_congr rfl fun q there => others q (Finset.ne_of_mem_erase there)
  rw [← Finset.add_sum_erase _ g inside, ← Finset.add_sum_erase _ f inside, same, none,
    zero_add, add_comm]

theorem tally_succ : tally weight (n + 1) place = tally weight n place + weight (place n) :=
  Finset.sum_range_succ _ _

/-- What happens to those outside of the population does not count. -/
theorem tally_update_outside {p : Nat} (outside : n ≤ p) (k : κ) :
    tally weight n (Function.update place p k) = tally weight n place := by
  apply tally_congr
  intro q member
  rw [Function.update_of_ne (by omega)]

theorem tally_nonneg (nonneg : ∀ k, 0 ≤ weight k) : 0 ≤ tally weight n place :=
  Finset.sum_nonneg fun p _ => nonneg (place p)

/-- Nobody counts exactly when the sum is zero. -/
theorem tally_eq_zero_iff (nonneg : ∀ k, 0 ≤ weight k) :
    tally weight n place = 0 ↔ ∀ p < n, weight (place p) = 0 := by
  unfold tally
  rw [Finset.sum_eq_zero_iff_of_nonneg fun p _ => nonneg (place p)]
  simp

theorem tally_add (first second : κ → Int) :
    tally (fun k => first k + second k) n place = tally first n place + tally second n place :=
  Finset.sum_add_distrib

theorem tally_sub (first second : κ → Int) :
    tally (fun k => first k - second k) n place = tally first n place - tally second n place :=
  Finset.sum_sub_distrib ..

/-- The members at a place, counted. -/
theorem tally_eq_length [DecidableEq κ] (k : κ) {members : List Nat} (nodup : members.Nodup)
    (exact : ∀ p, p ∈ members ↔ p < n ∧ place p = k) :
    tally (fun other => if other = k then 1 else 0) n place = members.length := by
  unfold tally
  rw [Finset.sum_boole]
  have same : (Finset.range n).filter (fun p => place p = k) = members.toFinset := by
    ext p
    rw [Finset.mem_filter, Finset.mem_range, List.mem_toFinset, exact]
  rw [same, List.toFinset_card_of_nodup nodup]

end BachScheduler.Census
