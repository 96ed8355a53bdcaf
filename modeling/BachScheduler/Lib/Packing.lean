import Mathlib.Algebra.Order.BigOperators.Group.List
import Mathlib.Algebra.Order.Ring.Int
import Mathlib.Tactic.Linarith

/-!
# Filling a capacity greedily

Positive sizes are taken one after the other until their sum reaches a capacity.  The
sum hits the capacity in whatever order the sizes come only if there is too little to
fill it, or all sizes are one divisor of it.
-/

namespace BachScheduler.Packing

variable {capacity : Int} {sizes : List Int}

/-- One of the sizes, in this order, carries the sum from below the capacity beyond it. -/
def Overshoots (capacity : Int) (sizes : List Int) : Prop :=
  ∃ before size after, sizes = before ++ size :: after ∧ before.sum < capacity ∧
    capacity < before.sum + size

theorem sum_nonneg (positive : ∀ size ∈ sizes, 0 < size) : 0 ≤ sizes.sum :=
  List.sum_nonneg fun size member => (positive size member).le

/-- A positive size is no more than the sum it belongs to. -/
theorem length_le_sum (positive : ∀ size ∈ sizes, 0 < size) : (sizes.length : Int) ≤ sizes.sum := by
  induction sizes with
  | nil => simp
  | cons size later ih =>
      have first := positive size (by simp)
      have rest := ih fun other member => positive other (by simp [member])
      rw [List.length_cons, List.sum_cons]
      push_cast
      omega

/-- The size with which the sum reaches the capacity. -/
theorem exists_reaching (enough : capacity ≤ sizes.sum) (room : 0 < capacity) :
    ∃ before size after, sizes = before ++ size :: after ∧ before.sum < capacity ∧
      capacity ≤ before.sum + size := by
  induction sizes generalizing capacity with
  | nil => simp at enough; omega
  | cons size later ih =>
      rw [List.sum_cons] at enough
      by_cases reached : capacity ≤ size
      · exact ⟨[], size, later, rfl, by simpa using room, by simpa using reached⟩
      · have rest : capacity - size ≤ later.sum := by omega
        obtain ⟨before, next, after, rfl, below, reaches⟩ := ih rest (by omega)
        refine ⟨size :: before, next, after, rfl, ?_, ?_⟩ <;> rw [List.sum_cons] <;> omega

/-- A sum that hits the capacity is upset by exchanging two sizes that differ. -/
theorem overshoot_of_ne {front back : List Int} {x y : Int}
    (positive : ∀ size ∈ front ++ back, 0 < size) (full : front.sum = capacity)
    (inFront : x ∈ front) (inBack : y ∈ back) (differ : x ≠ y) :
    ∃ order, order.Perm (front ++ back) ∧ Overshoots capacity order := by
  have frontPerm := List.perm_cons_erase inFront
  have backPerm := List.perm_cons_erase inBack
  have frontSum : x + (front.erase x).sum = capacity := by
    rw [← List.sum_cons, ← frontPerm.sum_eq, full]
  have xPositive := positive x (by simp [inFront])
  have yPositive := positive y (by simp [inBack])
  have perm : (front.erase x ++ y :: x :: back.erase y).Perm (front ++ back) := by
    calc (front.erase x ++ y :: x :: back.erase y).Perm (front.erase x ++ x :: y :: back.erase y) :=
          (List.Perm.swap x y _).append_left _
      List.Perm _ (x :: (front.erase x ++ y :: back.erase y)) := List.perm_middle
      List.Perm _ (front ++ back) := (frontPerm.symm.append backPerm.symm)
  rcases lt_or_gt_of_ne differ with less | more
  · exact ⟨_, perm, front.erase x, y, x :: back.erase y, rfl, by omega, by omega⟩
  · refine ⟨_, perm, front.erase x ++ [y], x, back.erase y, by simp, ?_, ?_⟩ <;>
      rw [List.sum_append, List.sum_singleton] <;> omega

/-- More than the capacity, and not all one divisor of it: some order overshoots. -/
theorem exists_overshoot (positive : ∀ size ∈ sizes, 0 < size) (room : 0 < capacity)
    (more : capacity < sizes.sum)
    (uneven : ¬ ∃ size, size ∣ capacity ∧ ∀ other ∈ sizes, other = size) :
    ∃ order, order.Perm sizes ∧ Overshoots capacity order := by
  obtain ⟨before, size, after, rfl, below, reaches⟩ := exists_reaching more.le room
  by_cases beyond : capacity < before.sum + size
  · exact ⟨_, .refl _, before, size, after, rfl, below, beyond⟩
  have split : before ++ size :: after = (before ++ [size]) ++ after := by simp
  have full : (before ++ [size]).sum = capacity := by
    rw [List.sum_append, List.sum_singleton]
    omega
  rw [split] at positive more uneven ⊢
  by_cases same : ∀ x ∈ before ++ [size], ∀ y ∈ after, x = y
  · have some : after ≠ [] := by
      rintro rfl
      rw [List.append_nil] at more
      omega
    obtain ⟨y, inAfter⟩ := List.exists_mem_of_ne_nil after some
    have even : ∀ other ∈ (before ++ [size]) ++ after, other = size := by
      intro other member
      have sizeIs := same size (by simp) y inAfter
      rcases List.mem_append.mp member with inFront | inBack
      · rw [same other inFront y inAfter, sizeIs]
      · exact (same size (by simp) other inBack).symm
    have replicated : before ++ [size] = List.replicate (before ++ [size]).length size :=
      List.eq_replicate_of_mem fun other member => even other (List.mem_append_left _ member)
    refine absurd ⟨size, ?_, even⟩ uneven
    rw [← full, replicated, List.sum_replicate]
    simp
  · push Not at same
    obtain ⟨x, inFront, y, inBack, differ⟩ := same
    exact overshoot_of_ne positive full inFront inBack differ

/-- Sizes that are all one divisor of the capacity do not go beyond it, if they stop when they hit
it. -/
theorem sum_le_of_even {size : Int} (positive : 0 < size) (divides : size ∣ capacity)
    (room : 0 < capacity) (even : ∀ other ∈ sizes, other = size)
    (stops : ∀ before next after, sizes = before ++ next :: after → before.sum ≠ capacity) :
    sizes.sum ≤ capacity := by
  obtain ⟨count, rfl⟩ := divides
  by_contra beyond
  have replicated : sizes = List.replicate sizes.length size := List.eq_replicate_of_mem even
  rw [replicated, List.sum_replicate, nsmul_eq_mul] at beyond
  have countPositive : 0 < count := by
    by_contra nonpositive
    nlinarith
  have longer : count.toNat < sizes.length := by
    have : count < sizes.length := by nlinarith
    omega
  refine stops (sizes.take count.toNat) sizes[count.toNat] (sizes.drop (count.toNat + 1)) ?_ ?_
  · simp
  · rw [replicated, List.take_replicate, List.sum_replicate, nsmul_eq_mul, min_eq_left longer.le]
    rw [Int.toNat_of_nonneg countPositive.le, mul_comm]

section Layout

/-- The ranges that sizes take when they are laid end to end. -/
def layout : List Int → Int → List (Int × Int)
  | [], _ => []
  | size :: later, start => (start, start + size) :: layout later (start + size)

/-- Every range of a layout lies within it. -/
theorem layout_within (positive : ∀ size ∈ sizes, 0 < size) {start : Int} {range : Int × Int}
    (member : range ∈ layout sizes start) :
    start ≤ range.1 ∧ range.1 < range.2 ∧ range.2 ≤ start + sizes.sum := by
  induction sizes generalizing start with
  | nil => simp [layout] at member
  | cons size later ih =>
      have first := positive size (by simp)
      have positive : ∀ size ∈ later, 0 < size := fun other there =>
        positive other (by simp [there])
      have rest := sum_nonneg positive
      rw [List.sum_cons]
      rcases List.mem_cons.mp member with rfl | member
      · exact ⟨le_refl _, by simp only; omega, by simp only; omega⟩
      · have within := ih positive member
        omega

/-- A layout is a chain of ranges that do not overlap. -/
theorem layout_apart (positive : ∀ size ∈ sizes, 0 < size) (start : Int) :
    (layout sizes start).Pairwise fun first second => first.2 ≤ second.1 := by
  induction sizes generalizing start with
  | nil => exact List.Pairwise.nil
  | cons size later ih =>
      have positive : ∀ size ∈ later, 0 < size := fun other there =>
        positive other (by simp [there])
      exact List.pairwise_cons.mpr
        ⟨fun range member => (layout_within positive member).1, ih positive (start + size)⟩

/-- The last range of a layout ends where the layout does. -/
theorem layout_end (some : sizes ≠ []) (start : Int) :
    ∃ range ∈ layout sizes start, range.2 = start + sizes.sum := by
  induction sizes generalizing start with
  | nil => exact absurd rfl some
  | cons size later ih =>
      rw [List.sum_cons]
      by_cases last : later = []
      · subst last
        exact ⟨(start, start + size), by simp [layout], by simp⟩
      · obtain ⟨range, member, ends⟩ := ih last (start + size)
        exact ⟨range, List.mem_cons_of_mem _ member, by rw [ends, add_assoc]⟩

end Layout

end BachScheduler.Packing
