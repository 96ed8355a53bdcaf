import Mathlib.Data.List.Perm.Basic
import Mathlib.Data.List.TakeWhile
import Mathlib.Data.Nat.Init
import Mathlib.Tactic.Common

/-!
# Hoare's partition scheme on a sequence

Two scans run towards each other over the unsorted middle, one skipping what
sorts before the pivot, the other what sorts after it.  A pass exchanges the two
nodes the scans stopped at and goes on between them, or ends with the sequence
cut in two.  `scan_cases` says how one pass can end; the lemmas about `split`
and `sort` are inductions over it.
-/

namespace BachScheduler.Hoare

variable {α : Type} (before : α → α → Bool)

/-- Partition of `middle`, between the nodes already known to go left and the
nodes already known to go right. -/
def split (pivot : α) (left middle right : List α) : List α × List α :=
  match _up : middle.dropWhile (before · pivot) with
  | [] => (left ++ middle, right)
  | x :: rest =>
      let skipped := middle.takeWhile (before · pivot)
      match _down : rest.reverse.dropWhile (before pivot ·) with
      | [] =>
          if before pivot x then (left ++ skipped, x :: rest ++ right)
          else (left ++ skipped ++ [x], rest ++ right)
      | y :: inner =>
          split pivot (left ++ skipped ++ [y]) inner.reverse
            (x :: (rest.reverse.takeWhile (before pivot ·)).reverse ++ right)
termination_by middle.length
decreasing_by
  have upLength := (List.dropWhile_sublist (before · pivot) (l := middle)).length_le
  have downLength := (List.dropWhile_sublist (before pivot ·) (l := rest.reverse)).length_le
  simp only [_up, _down, List.length_reverse, List.length_cons] at upLength downLength ⊢
  omega

/-- How the two scans of one pass can end. -/
inductive Pass (pivot : α) : List α → Prop where
  /-- The upward scan runs through. -/
  | through {middle : List α} (up : ∀ z ∈ middle, before z pivot) : Pass pivot middle
  /-- The downward scan meets the node the upward scan stopped at. -/
  | cross {skipped rest : List α} {x : α} (up : ∀ z ∈ skipped, before z pivot)
      (stop : before x pivot = false) (down : ∀ z ∈ rest, before pivot z) :
      Pass pivot (skipped ++ x :: rest)
  /-- Both scans stop before they meet. -/
  | exchange {skipped inner passed : List α} {x y : α} (up : ∀ z ∈ skipped, before z pivot)
      (stop : before x pivot = false) (down : ∀ z ∈ passed, before pivot z)
      (stopDown : before pivot y = false) :
      Pass pivot (skipped ++ x :: (inner ++ y :: passed))

variable {before}
variable {pivot x y : α} {left middle right skipped inner rest passed : List α}

/-- A scan either runs through or stops at a first node. -/
theorem scan_cases (goesOn : α → Bool) (nodes : List α) :
    (∀ z ∈ nodes, goesOn z) ∨ ∃ skipped stop rest, nodes = skipped ++ stop :: rest ∧
      (∀ z ∈ skipped, goesOn z) ∧ goesOn stop = false := by
  induction nodes with
  | nil => exact .inl (by simp)
  | cons first nodes ih =>
      cases answer : goesOn first with
      | false => exact .inr ⟨[], first, nodes, rfl, by simp, answer⟩
      | true =>
          rcases ih with all | ⟨skipped, stop, rest, rfl, skip, stops⟩
          · exact .inl (by simpa [answer] using all)
          · exact .inr ⟨first :: skipped, stop, rest, rfl, by simpa [answer] using skip, stops⟩

/-- Every middle ends its pass in one of the three ways. -/
theorem pass (before : α → α → Bool) (pivot : α) (middle : List α) :
    Pass before pivot middle := by
  rcases scan_cases (before · pivot) middle with up | ⟨skipped, x, rest, rfl, up, stop⟩
  · exact .through up
  · rcases scan_cases (before pivot ·)
      rest.reverse with down | ⟨passed, y, inner, equal, down, stopDown⟩
    · exact .cross up stop (by simpa using down)
    · obtain rfl : rest = inner.reverse ++ y :: passed.reverse := by
        rw [← List.reverse_inj, equal]
        simp
      exact .exchange up stop (by simpa using down) stopDown

/-- A scan skips exactly the stretch before the node it stops at. -/
theorem takeWhile_stop (goesOn : α → Bool) (rest : List α) (skip : ∀ z ∈ skipped, goesOn z)
    (stop : goesOn x = false) : (skipped ++ x :: rest).takeWhile goesOn = skipped ∧
      (skipped ++ x :: rest).dropWhile goesOn = x :: rest := by
  rw [List.takeWhile_append_of_pos skip, List.dropWhile_append_of_pos skip]
  simp [stop]

theorem split_through (up : ∀ z ∈ middle, before z pivot) :
    split before pivot left middle right = (left ++ middle, right) := by
  have none : middle.dropWhile (before · pivot) = [] := List.dropWhile_eq_nil_iff.mpr up
  rw [split]
  split
  · rfl
  · simp_all

theorem split_cross (up : ∀ z ∈ skipped, before z pivot) (stop : before x pivot = false)
    (down : ∀ z ∈ rest, before pivot z) :
    split before pivot left (skipped ++ x :: rest) right =
      if before pivot x then (left ++ skipped, x :: rest ++ right)
      else (left ++ skipped ++ [x], rest ++ right) := by
  obtain ⟨takeEq, dropEq⟩ := takeWhile_stop (before · pivot) rest up stop
  have none : rest.reverse.dropWhile (before pivot ·) = [] :=
    List.dropWhile_eq_nil_iff.mpr (by simpa using down)
  rw [split]
  split
  · simp_all
  · rename_i first others equal
    rw [dropEq] at equal
    obtain ⟨rfl, rfl⟩ := List.cons.inj equal
    split
    · rw [takeEq]
    · simp_all

theorem split_exchange (up : ∀ z ∈ skipped, before z pivot) (stop : before x pivot = false)
    (down : ∀ z ∈ passed, before pivot z) (stopDown : before pivot y = false) :
    split before pivot left (skipped ++ x :: (inner ++ y :: passed)) right =
      split before pivot (left ++ skipped ++ [y]) inner (x :: passed ++ right) := by
  obtain ⟨takeEq, dropEq⟩ :=
    takeWhile_stop (before · pivot) (inner ++ y :: passed) up stop
  obtain ⟨takeDown, dropDown⟩ := takeWhile_stop (before pivot ·) inner.reverse
    (show ∀ z ∈ passed.reverse, before pivot z by simpa using down) stopDown
  have backwards : (inner ++ y :: passed).reverse = passed.reverse ++ y :: inner.reverse := by simp
  rw [split]
  split
  · simp_all
  · rename_i first others equal
    rw [dropEq] at equal
    obtain ⟨rfl, rfl⟩ := List.cons.inj equal
    split
    · simp_all
    · rename_i last others equal
      rw [backwards, dropDown] at equal
      obtain ⟨rfl, rfl⟩ := List.cons.inj equal
      simp only [backwards, takeDown, takeEq, List.reverse_reverse]

/-- Induction over the passes of one partition. -/
theorem pass_induction (before : α → α → Bool) (pivot : α)
    {motive : List α → List α → List α → Prop}
    (through : ∀ left middle right, (∀ z ∈ middle, before z pivot) → motive left middle right)
    (cross : ∀ left skipped x rest right, (∀ z ∈ skipped, before z pivot) →
      before x pivot = false → (∀ z ∈ rest, before pivot z) →
      motive left (skipped ++ x :: rest) right)
    (exchange : ∀ left skipped x inner y passed right, (∀ z ∈ skipped, before z pivot) →
      before x pivot = false → (∀ z ∈ passed, before pivot z) → before pivot y = false →
      motive (left ++ skipped ++ [y]) inner (x :: passed ++ right) →
      motive left (skipped ++ x :: (inner ++ y :: passed)) right)
    (left middle right : List α) : motive left middle right := by
  induction size : middle.length using Nat.strongRecOn generalizing left middle right with
  | _ size ih =>
      cases pass before pivot middle with
      | through up => exact through left middle right up
      | cross up stop down => exact cross left _ _ _ right up stop down
      | exchange up stop down stopDown =>
          refine exchange left _ _ _ _ _ right up stop down stopDown (ih _ ?_ _ _ _ rfl)
          simp only [← size, List.length_append, List.length_cons]
          omega

/-- Partitioning keeps the elements. -/
theorem split_perm (before : α → α → Bool) (pivot : α) (left middle right : List α) :
    ((split before pivot left middle right).1 ++ (split before pivot left middle right).2).Perm
      (left ++ middle ++ right) := by
  induction left, middle, right using pass_induction before pivot with
  | through left middle right up => rw [split_through up]
  | cross left skipped x rest right up stop down =>
      rw [split_cross up stop down]
      split <;> simp
  | exchange left skipped x inner y passed right up stop down stopDown ih =>
      rw [split_exchange up stop down stopDown]
      refine ih.trans ?_
      simp only [List.append_assoc, List.cons_append, List.nil_append]
      refine List.Perm.append_left _ (List.Perm.append_left _ ?_)
      calc (y :: (inner ++ x :: (passed ++ right))).Perm (x :: y :: (inner ++ (passed ++ right))) :=
            (List.Perm.cons y List.perm_middle).trans (List.Perm.swap x y _)
        List.Perm _ (x :: (inner ++ y :: (passed ++ right))) :=
            List.Perm.cons x List.perm_middle.symm

/-- What goes left does not sort after the pivot, and what goes right does not
sort before it. -/
theorem split_bounds (middle : List α) (asymm : ∀ a b, before a b → before b a = false)
    (leftBound : ∀ z ∈ left, before pivot z = false)
    (rightBound : ∀ z ∈ right, before z pivot = false) :
    (∀ z ∈ (split before pivot left middle right).1, before pivot z = false) ∧
      ∀ z ∈ (split before pivot left middle right).2, before z pivot = false := by
  induction left, middle, right using pass_induction before pivot with
  | through left middle right up =>
      rw [split_through up]
      refine ⟨?_, rightBound⟩
      intro z member
      rcases List.mem_append.mp member with member | member
      · exact leftBound z member
      · exact asymm _ _ (up z member)
  | cross left skipped x rest right up stop down =>
      have skippedBound : ∀ z ∈ skipped, before pivot z = false := fun z member =>
        asymm _ _ (up z member)
      have restBound : ∀ z ∈ rest, before z pivot = false := fun z member =>
        asymm _ _ (down z member)
      rw [split_cross up stop down]
      split
      · constructor <;> intro z member <;>
          simp only [List.mem_append, List.mem_cons] at member <;> grind
      · constructor <;> intro z member <;>
          simp only [List.mem_append, List.mem_cons, List.not_mem_nil] at member <;> grind
  | exchange left skipped x inner y passed right up stop down stopDown ih =>
      rw [split_exchange up stop down stopDown]
      refine ih ?_ ?_
      · intro z member
        simp only [List.mem_append, List.mem_singleton] at member
        rcases member with (member | member) | rfl
        · exact leftBound z member
        · exact asymm _ _ (up z member)
        · exact stopDown
      · intro z member
        simp only [List.cons_append, List.mem_cons, List.mem_append] at member
        rcases member with rfl | member | member
        · exact stop
        · exact asymm _ _ (down z member)
        · exact rightBound z member

/-- Both parts are inhabited once something is known to go to each side. -/
theorem split_nonempty (leftSome : left ≠ []) (rightSome : right ≠ []) :
    (split before pivot left middle right).1 ≠ [] ∧
      (split before pivot left middle right).2 ≠ [] := by
  induction left, middle, right using pass_induction before pivot with
  | through left middle right up =>
      rw [split_through up]
      simp [leftSome, rightSome]
  | cross left skipped x rest right up stop down =>
      rw [split_cross up stop down]
      split <;> simp [leftSome, rightSome]
  | exchange left skipped x inner y passed right up stop down stopDown ih =>
      rw [split_exchange up stop down stopDown]
      exact ih (by simp) (by simp)

/-- With the first of two or more elements as the pivot, both parts are
inhabited. -/
theorem split_first_nonempty (irrefl : before pivot pivot = false) (some : rest ≠ []) :
    (split before pivot [] (pivot :: rest) []).1 ≠ [] ∧
      (split before pivot [] (pivot :: rest) []).2 ≠ [] := by
  rcases scan_cases (before pivot ·) rest.reverse with down | ⟨passed, y, inner, equal, down, stop⟩
  · have step : split before pivot [] ([] ++ pivot :: rest) [] = _ :=
      split_cross (by simp) irrefl (by simpa using down)
    rw [List.nil_append, irrefl] at step
    simp [step, some]
  · obtain rfl : rest = inner.reverse ++ y :: passed.reverse := by
      rw [← List.reverse_inj, equal]
      simp
    have step :
        split before pivot [] ([] ++ pivot :: (inner.reverse ++ y :: passed.reverse)) [] = _ :=
      split_exchange (by simp) irrefl (by simpa using down) stop
    rw [List.nil_append] at step
    rw [step]
    exact split_nonempty (by simp) (by simp)

/-- A strict weak order given by its comparison: "sorts strictly before". -/
structure Order (α : Type) where
  before : α → α → Bool
  asymm : ∀ a b, before a b → before b a = false
  negTrans : ∀ a b c, before a b = false → before b c = false → before a c = false

namespace Order

variable (order : Order α)

theorem irrefl (a : α) : order.before a a = false := by
  cases answer : order.before a a with
  | false => rfl
  | true => simpa [answer] using order.asymm a a answer

end Order

variable (order : Order α)

/-- The two parts of a sequence of at least two elements are shorter. -/
theorem split_first_length (pivot : α) (some : rest ≠ []) :
    (split order.before pivot [] (pivot :: rest) []).1.length < (pivot :: rest).length ∧
      (split order.before pivot [] (pivot :: rest) []).2.length < (pivot :: rest).length := by
  have total := (split_perm order.before pivot [] (pivot :: rest) []).length_eq
  have ⟨lowSome, highSome⟩ := split_first_nonempty (order.irrefl pivot) some
  have lowLength := List.length_pos_iff.mpr lowSome
  have highLength := List.length_pos_iff.mpr highSome
  simp only [List.length_append, List.nil_append, List.append_nil] at total
  omega

/-- Quicksort with the first element as the pivot. -/
def sort : List α → List α
  | [] => []
  | [x] => [x]
  | first :: second :: rest =>
      sort (split order.before first [] (first :: second :: rest) []).1 ++
        sort (split order.before first [] (first :: second :: rest) []).2
termination_by nodes => nodes.length
decreasing_by
  · exact (split_first_length order first (List.cons_ne_nil second rest)).1
  · exact (split_first_length order first (List.cons_ne_nil second rest)).2

theorem sort_perm (nodes : List α) : (sort order nodes).Perm nodes := by
  induction nodes using sort.induct order with
  | case1 => simp [sort]
  | case2 x => simp [sort]
  | case3 first second rest low high =>
      rw [sort]
      refine (low.append high).trans ((split_perm _ _ _ _ _).trans ?_)
      simp

theorem sort_sorted (nodes : List α) :
    (sort order nodes).Pairwise fun a b => order.before b a = false := by
  induction nodes using sort.induct order with
  | case1 => simp [sort]
  | case2 x => simp [sort]
  | case3 first second rest low high =>
      rw [sort]
      refine List.pairwise_append.mpr ⟨low, high, ?_⟩
      intro a inLow b inHigh
      have nothing : ∀ z ∈ ([] : List α), order.before first z = false := by simp
      have nothing' : ∀ z ∈ ([] : List α), order.before z first = false := by simp
      obtain ⟨lowBound, highBound⟩ :=
        split_bounds (first :: second :: rest) order.asymm nothing nothing'
      have notAfter := lowBound a ((sort_perm order _).mem_iff.mp inLow)
      have notBefore := highBound b ((sort_perm order _).mem_iff.mp inHigh)
      exact order.negTrans b first a notBefore notAfter

section Map

variable {β : Type} {other : β → β → Bool} {f : α → β}

/-- Renaming the elements commutes with partitioning. -/
theorem split_map (same : ∀ a b, other (f a) (f b) = before a b) (pivot : α)
    (left middle right : List α) : split other (f pivot) (left.map f) (middle.map f) (right.map f) =
      ((split before pivot left middle right).1.map f,
        (split before pivot left middle right).2.map f) := by
  have upMap : ∀ {nodes : List α}, (∀ z ∈ nodes, before z pivot) →
      ∀ z ∈ nodes.map f, other z (f pivot) := by
    simp [same]
  have downMap : ∀ {nodes : List α}, (∀ z ∈ nodes, before pivot z) →
      ∀ z ∈ nodes.map f, other (f pivot) z := by
    simp [same]
  induction left, middle, right using pass_induction before pivot with
  | through left middle right up =>
      rw [split_through up, split_through (upMap up), List.map_append]
  | cross left skipped x rest right up stop down =>
      rw [split_cross up stop down, List.map_append, List.map_cons,
        split_cross (upMap up) ((same x pivot).trans stop) (downMap down), same]
      split <;> simp
  | exchange left skipped x inner y passed right up stop down stopDown ih =>
      rw [split_exchange up stop down stopDown, ← ih]
      simp only [List.map_append, List.map_cons, List.map_nil]
      exact split_exchange (upMap up) ((same x pivot).trans stop) (downMap down)
        ((same pivot y).trans stopDown)

/-- Renaming the elements commutes with sorting. -/
theorem sort_map {order : Order α} {other : Order β}
    (same : ∀ a b, other.before (f a) (f b) = order.before a b) (nodes : List α) :
    sort other (nodes.map f) = (sort order nodes).map f := by
  induction nodes using sort.induct order with
  | case1 => simp [sort]
  | case2 x => simp [sort]
  | case3 first second rest low high =>
      have parts := split_map same first [] (first :: second :: rest) []
      simp only [List.map_nil, List.map_cons] at parts
      rw [List.map_cons, List.map_cons, sort, sort, parts, low, high, List.map_append]

end Map

end BachScheduler.Hoare
