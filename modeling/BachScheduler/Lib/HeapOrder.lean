import Mathlib.Data.List.Perm.Basic
import Mathlib.Tactic.Common

/-!
# Binary heaps laid out in a list

The children of position `k` are `2 * k + 1` and `2 * k + 2`.  Inserting moves a
hole towards the root, removing moves one towards the leaves.  `UpHole` and
`DownHole` say what is still in order while the hole moves: `UpHole` is about the
list with the new element in the hole, `DownHole` does not look into the hole.
-/

namespace BachScheduler.BinHeap

variable {α : Type}

/-- The parent of a position other than the root. -/
def parent (k : Nat) : Nat := (k - 1) / 2

theorem parent_lt {k : Nat} (pos : 0 < k) : parent k < k := by
  unfold parent
  omega

theorem parent_eq_iff {k p : Nat} (pos : 0 < k) :
    parent k = p ↔ k = 2 * p + 1 ∨ k = 2 * p + 2 := by
  unfold parent
  omega

/-- A comparison that any two elements are related by, in one direction or both. -/
structure TotalPreorder (leq : α → α → Bool) : Prop where
  total : ∀ a b, leq a b ∨ leq b a
  trans : ∀ a b c, leq a b → leq b c → leq a c

theorem TotalPreorder.refl {leq : α → α → Bool} (order : TotalPreorder leq) (a : α) : leq a a :=
  (order.total a a).elim id id

variable (leq : α → α → Bool)

/-- The elements at two positions, if any, are in order. -/
def InOrder (xs : List α) (upper lower : Nat) : Prop :=
  ∀ a b, xs[upper]? = some a → xs[lower]? = some b → leq a b

/-- Every element but the root is behind its parent. -/
def Ordered (xs : List α) : Prop :=
  ∀ k, 0 < k → InOrder leq xs (parent k) k

/-- The element at `pos` may still be before its parent. -/
structure UpHole (xs : List α) (pos : Nat) : Prop where
  except : ∀ k, 0 < k → k ≠ pos → InOrder leq xs (parent k) k
  grand : ∀ k, 0 < k → parent k = pos → 0 < pos → InOrder leq xs (parent pos) k

/-- The element at `pos` may be anything. -/
structure DownHole (xs : List α) (pos : Nat) : Prop where
  except : ∀ k, 0 < k → k ≠ pos → parent k ≠ pos → InOrder leq xs (parent k) k
  grand : ∀ k, 0 < k → parent k = pos → 0 < pos → InOrder leq xs (parent pos) k

variable {leq} {xs : List α} {pos upper lower : Nat} {elem up : α}

/-- Exchanging the elements of two positions. -/
def exchange (xs : List α) (i j : Nat) (atI atJ : α) : List α :=
  (xs.set i atJ).set j atI

theorem exchange_perm {i j : Nat} {atI atJ : α} (hi : xs[i]? = some atI) (hj : xs[j]? = some atJ) :
    (exchange xs i j atI atJ).Perm xs := by
  obtain ⟨iLess, rfl⟩ := List.getElem?_eq_some_iff.mp hi
  obtain ⟨jLess, rfl⟩ := List.getElem?_eq_some_iff.mp hj
  exact List.set_set_perm iLess jLess

theorem InOrder.trans (order : TotalPreorder leq) {k m n : Nat} {a : α} (middle : xs[m]? = some a)
    (first : InOrder leq xs k m) (second : InOrder leq xs m n) : InOrder leq xs k n :=
  fun b c atK atN => order.trans b a c (first b a atK middle) (second a c middle atN)

namespace UpHole

/-- A hole whose element is behind its parent is filled. -/
theorem finish (hole : UpHole leq xs pos) (last : 0 < pos → InOrder leq xs (parent pos) pos) :
    Ordered leq xs := by
  intro k positive
  by_cases here : k = pos
  · exact here ▸ last (here ▸ positive)
  · exact hole.except k positive here

/-- A hole whose element is before its parent moves up. -/
theorem move (order : TotalPreorder leq) (hole : UpHole leq xs pos) (positive : 0 < pos)
    (atPos : xs[pos]? = some elem) (atParent : xs[parent pos]? = some up) (before : leq elem up) :
    UpHole leq (exchange xs pos (parent pos) elem up) (parent pos) := by
  have less := parent_lt positive
  have inside := List.getElem?_eq_some_iff.mp atPos |>.1
  have read (k : Nat) : (exchange xs pos (parent pos) elem up)[k]? =
      if k = parent pos then some elem else if k = pos then some up else xs[k]? := by
    simp only [exchange, List.getElem?_set, List.length_set]
    grind
  constructor
  · intro k positiveK other a b
    rw [read, read]
    have lessK := parent_lt positiveK
    by_cases atHole : k = pos
    · grind
    · have old := hole.except k positiveK atHole
      by_cases sibling : parent k = parent pos
      · intro atUpper atLower
        rw [sibling] at old
        have behind := old up b atParent (by grind)
        have same : elem = a := by grind
        exact same ▸ order.trans elem up b before behind
      · by_cases child : parent k = pos
        · have := hole.grand k positiveK child positive
          grind [InOrder]
        · grind [InOrder]
  · intro k positiveK child positiveParent a b
    rw [read, read]
    have lessParent := parent_lt positiveParent
    have above := hole.except (parent pos) positiveParent (by omega)
    intro atUpper atLower
    have upperEq : xs[parent (parent pos)]? = some a := by grind
    by_cases atHole : k = pos
    · have lowerEq : up = b := by grind
      exact lowerEq ▸ above a up upperEq atParent
    · have behind := hole.except k positiveK atHole
      rw [child] at behind
      have lowerEq : xs[k]? = some b := by
        have := parent_lt positiveK
        grind
      exact above.trans order atParent behind a b upperEq lowerEq

end UpHole

theorem Ordered.downHole (order : TotalPreorder leq) (ordered : Ordered leq xs) (pos : Nat) :
    DownHole leq xs pos where
  except k positive _ _ := ordered k positive
  grand k positive child positivePos a b atUpper atLower := by
    have less : pos < k := child ▸ parent_lt positive
    have inside := List.getElem?_eq_some_iff.mp atLower |>.1
    obtain ⟨middle, atPos⟩ : ∃ middle, xs[pos]? = some middle :=
      ⟨_, List.getElem?_eq_getElem (by omega)⟩
    have behind := ordered k positive
    rw [child] at behind
    exact (ordered pos positivePos).trans order atPos behind a b atUpper atLower

namespace DownHole

variable {child : Nat} {low : α}

/-- What is in the hole does not matter. -/
theorem set (hole : DownHole leq xs pos) (elem : α) : DownHole leq (xs.set pos elem) pos where
  except k positive other notChild := by
    intro a b
    rw [List.getElem?_set_ne (Ne.symm notChild), List.getElem?_set_ne (Ne.symm other)]
    exact hole.except k positive other notChild a b
  grand k positive child positivePos := by
    intro a b
    have := parent_lt positive
    have := parent_lt positivePos
    rw [List.getElem?_set_ne (by omega), List.getElem?_set_ne (by omega)]
    exact hole.grand k positive child positivePos a b

/-- Another comparison may serve, if it agrees outside of the hole. -/
theorem congr {leq' : α → α → Bool} (hole : DownHole leq xs pos)
    (agree : ∀ k m, k ≠ pos → m ≠ pos → InOrder leq xs k m → InOrder leq' xs k m) :
    DownHole leq' xs pos where
  except k positive other notChild :=
    agree _ _ notChild other (hole.except k positive other notChild)
  grand k positive child positivePos := by
    have below := parent_lt positive
    have above := parent_lt positivePos
    exact agree _ _ (by omega) (by omega) (hole.grand k positive child positivePos)

/-- A hole without children is one that only its parent can be out of order
with. -/
theorem leaf (hole : DownHole leq xs pos) (childless : xs.length ≤ 2 * pos + 1) :
    UpHole leq xs pos where
  except k positive other := by
    by_cases child : parent k = pos
    · intro a b atUpper atLower
      have inside := List.getElem?_eq_some_iff.mp atLower |>.1
      have := (parent_eq_iff positive).mp child
      omega
    · exact hole.except k positive other child
  grand := hole.grand

/-- The hole moves to the child that is not behind its sibling. -/
theorem move (hole : DownHole leq xs pos) (positive : 0 < child)
    (isChild : parent child = pos) (atPos : xs[pos]? = some elem) (atChild : xs[child]? = some low)
    (least : ∀ k, 0 < k → parent k = pos → InOrder leq xs child k) :
    DownHole leq (exchange xs pos child elem low) child := by
  have less := parent_lt positive
  have inside := List.getElem?_eq_some_iff.mp atPos |>.1
  have insideChild := List.getElem?_eq_some_iff.mp atChild |>.1
  have read (k : Nat) : (exchange xs pos child elem low)[k]? =
      if k = child then some elem else if k = pos then some low else xs[k]? := by
    simp only [exchange, List.getElem?_set, List.length_set]
    grind
  constructor
  · intro k positiveK other notChild a b
    rw [read, read]
    have lessK := parent_lt positiveK
    by_cases atHole : k = pos
    · have above := hole.grand child positive isChild (atHole ▸ positiveK)
      grind [InOrder]
    · by_cases sibling : parent k = pos
      · have := least k positiveK sibling
        grind [InOrder]
      · have := hole.except k positiveK atHole sibling
        grind [InOrder]
  · intro k positiveK grandChild _ a b
    rw [read, read]
    have lessK := parent_lt positiveK
    have below := hole.except k positiveK (by omega) (by omega)
    grind [InOrder]

end DownHole

/-- The root of an ordered heap is before every element. -/
theorem Ordered.root_least (order : TotalPreorder leq) (ordered : Ordered leq xs) {root a : α}
    (atRoot : xs[0]? = some root) (k : Nat) (atK : xs[k]? = some a) : leq root a := by
  induction k using Nat.strongRecOn generalizing a with
  | ind k ih =>
      by_cases isRoot : k = 0
      · subst isRoot
        rw [atRoot, Option.some_inj] at atK
        exact atK ▸ order.refl root
      · have positive : 0 < k := by omega
        have less := parent_lt positive
        have inside := List.getElem?_eq_some_iff.mp atK |>.1
        obtain ⟨up, atParent⟩ : ∃ up, xs[parent k]? = some up :=
          ⟨_, List.getElem?_eq_getElem (by omega)⟩
        exact order.trans root up a (ih _ less atParent) (ordered k positive up a atParent atK)

/-- Adding an element behind the last one leaves a hole there. -/
theorem Ordered.append_hole (ordered : Ordered leq xs) (elem : α) :
    UpHole leq (xs ++ [elem]) xs.length where
  except k positive other a b atUpper atLower := by
    have inside := List.getElem?_eq_some_iff.mp atLower |>.1
    have less := parent_lt positive
    simp only [List.length_append, List.length_singleton] at inside
    rw [List.getElem?_append_left (by omega)] at atUpper atLower
    exact ordered k positive a b atUpper atLower
  grand k positive child _ a b _ atLower := by
    have inside := List.getElem?_eq_some_iff.mp atLower |>.1
    have less := parent_lt positive
    simp only [List.length_append, List.length_singleton] at inside
    omega

/-- Dropping the last element keeps the order. -/
theorem Ordered.left {last : List α} (ordered : Ordered leq (xs ++ last)) : Ordered leq xs := by
  intro k positive a b atUpper atLower
  have upperInside := List.getElem?_eq_some_iff.mp atUpper |>.1
  have lowerInside := List.getElem?_eq_some_iff.mp atLower |>.1
  refine ordered k positive a b ?_ ?_
  · rw [List.getElem?_append_left upperInside, atUpper]
  · rw [List.getElem?_append_left lowerInside, atLower]

end BachScheduler.BinHeap
