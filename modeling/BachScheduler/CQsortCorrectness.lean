import BachScheduler.CQsort

/-!
# Correctness of the quicksort of `c_qsort.c`

The pointer code computes the list function `Hoare.sort` on the nodes of a ring:
each scan walks one stretch of the circle, an exchange swaps two nodes, and the
two temporary heads cut the circle in two and close it again.
-/

namespace BachScheduler

open BachScheduler.Ring

section Scans

variable {α : Type} [DecidableEq α]

/-- The order that `qtype` puts on nodes with the given keys. -/
def keyOrder (qtype : SortType) (key : α → Int) : Hoare.Order α where
  before a b := scansUp qtype (key a) (key b)
  asymm a b := by
    cases qtype <;> simp [scansUp] <;> omega
  negTrans a b c := by
    cases qtype <;> simp [scansUp] <;> omega

/-- A scan over a stretch of keys on which it goes on ends at the node behind
the stretch, having met `other` if that is on the way. -/
theorem qsrtScan_eq {getVal : α → Option Int} {key : α → Int} {step back : α → α}
    {goesOn : Int → Bool} {list other stop : α} {skipped : List α} {node : α} {fuel : Nat}
    {flag : Bool}
    (chain : (node :: (skipped ++ [stop])).IsChain fun a b => step a = b ∧ back b = a)
    (keys : ∀ z ∈ skipped ++ [stop], getVal z = some (key z))
    (skip : ∀ z ∈ skipped, goesOn (key z)) (stops : goesOn (key stop) = false)
    (enough : skipped.length < fuel) :
    qsrtScan getVal step back goesOn list other fuel node flag =
      some (stop, flag || decide (other ≠ list ∧ other ∈ node :: (skipped ++ [stop]))) := by
  induction skipped generalizing node flag fuel with
  | nil =>
      obtain ⟨fuel, rfl⟩ : ∃ n, fuel = n + 1 := ⟨fuel - 1, by simp at enough; omega⟩
      obtain ⟨rfl, backEq⟩ := (List.isChain_cons_cons.mp chain).1
      have here := keys (step node) (by simp)
      simp only [qsrtScan, here, backEq, Option.bind_eq_bind, Option.bind_some, stops]
      refine congrArg some (Prod.ext rfl (Bool.eq_iff_iff.mpr ?_))
      simp
      grind
  | cons first skipped ih =>
      obtain ⟨fuel, rfl⟩ : ∃ n, fuel = n + 1 := ⟨fuel - 1, by simp at enough; omega⟩
      obtain ⟨⟨rfl, backEq⟩, later⟩ := List.isChain_cons_cons.mp chain
      have here := keys (step node) (by simp)
      have going := skip (step node) (by simp)
      simp only [qsrtScan, here, backEq, Option.bind_eq_bind, Option.bind_some, going, if_true]
      rw [ih later (fun z member => keys z (by simp_all))
        (fun z member => skip z (by simp [member]))
        (by simpa using enough)]
      refine congrArg some (Prod.ext rfl (Bool.eq_iff_iff.mpr ?_))
      simp
      grind

variable {getVal : α → Option Int} {key : α → Int} {qtype : SortType}
variable {links : Links α} {list pivot i j stop : α} {before skipped after : List α}

/-- The upward scan from cursor `i` over a stretch of its circle. -/
theorem qsrtScanUp_eq (fuel : Nat) (flag : Bool) (j : α)
    (ring : IsRing links list (before ++ (skipped ++ stop :: after)))
    (at_i : ∃ front, list :: before = front ++ [i])
    (keys : ∀ z ∈ before ++ (skipped ++ stop :: after), getVal z = some (key z))
    (skip : ∀ z ∈ skipped, (keyOrder qtype key).before z pivot)
    (stops : (keyOrder qtype key).before stop pivot = false) (enough : skipped.length < fuel) :
    qsrtScanUp getVal qtype links list j (key pivot) fuel i flag =
      some (stop, flag || decide (j ≠ list ∧ j ∈ i :: (skipped ++ [stop]))) := by
  obtain ⟨front, frontEq⟩ := at_i
  refine qsrtScan_eq ?_ (fun z member => keys z ?_) skip stops enough
  · have split : list :: (before ++ (skipped ++ stop :: after)) ++ [list] =
        front ++ (i :: (skipped ++ [stop])) ++ (after ++ [list]) := by
      rw [← List.cons_append, frontEq]
      simp
    exact ring.stretch split
  · simp only [List.mem_append, List.mem_cons, List.not_mem_nil] at member ⊢
    tauto

/-- The downward scan from cursor `j` over a stretch of its circle. -/
theorem qsrtScanDown_eq (fuel : Nat) (flag : Bool) (i : α)
    (ring : IsRing links list (before ++ stop :: (skipped ++ after)))
    (at_j : ∃ back, after ++ [list] = j :: back)
    (keys : ∀ z ∈ before ++ stop :: (skipped ++ after), getVal z = some (key z))
    (skip : ∀ z ∈ skipped, (keyOrder qtype key).before pivot z)
    (stops : (keyOrder qtype key).before pivot stop = false) (enough : skipped.length < fuel) :
    qsrtScanDown getVal qtype links list i (key pivot) fuel j flag =
      some (stop, flag || decide (i ≠ list ∧ i ∈ j :: (skipped.reverse ++ [stop]))) := by
  obtain ⟨back, backEq⟩ := at_j
  refine qsrtScan_eq ?_ (fun z member => keys z ?_)
    (fun z member => skip z (List.mem_reverse.mp member)) stops (by simpa using enough)
  · have split : list :: (before ++ stop :: (skipped ++ after)) ++ [list] =
        (list :: before) ++ (stop :: (skipped ++ [j])) ++ back := by
      simp [backEq]
    have turned : j :: (skipped.reverse ++ [stop]) = (stop :: (skipped ++ [j])).reverse := by simp
    rw [turned, List.isChain_reverse]
    exact (ring.stretch split).imp fun a b linked => And.symm linked
  · simp only [List.mem_append, List.mem_cons, List.mem_reverse, List.not_mem_nil] at member ⊢
    tauto

end Scans

section Exchange

variable {α : Type} [DecidableEq α]
variable {links : Links α} {list x y z : α} {before inner after : List α}

/-- The exchange of `qsrt_partition` swaps two nodes, adjacent or not, and
writes only to their circle. -/
theorem qsrtSwap_ring
    (ring : IsRing links list (before ++ x :: (inner ++ y :: after))) :
    IsRing (qsrtSwap x y links) list (before ++ y :: (inner ++ x :: after)) ∧
      ∀ z ∉ list :: (before ++ x :: (inner ++ y :: after)),
        links.Agree (qsrtSwap x y links) z := by
  obtain ⟨⟨front, left, frontEq⟩, -⟩ := IsRing.cut list before []
  have nodup := ring.nodup
  have leftMem : left ∈ list :: before := frontEq ▸ by simp
  simp only [List.nodup_cons, List.mem_append, List.mem_cons, List.nodup_append] at nodup leftMem
  have removed : IsRing (cdsListDel x links) list ((before ++ inner ++ [y]) ++ after) := by
    simpa using cdsListDel_ring ring
  have moved : IsRing (cdsListAdd x y (cdsListDel x links)) list
      ((before ++ inner ++ [y]) ++ x :: after) := by
    refine cdsListAdd_ring removed ?_
      (show list :: (before ++ inner ++ [y]) = (list :: (before ++ inner)) ++ [y] by simp)
    simp only [List.mem_append, List.mem_cons]
    grind
  have movedAt : IsRing (cdsListAdd x y (cdsListDel x links)) list
      ((before ++ inner) ++ y :: (x :: after)) := by simpa using moved
  have cleared := cdsListDel_ring movedAt
  rw [List.append_assoc] at cleared
  rw [qsrtSwap, ring.prev_cut frontEq]
  constructor
  · refine cdsListAdd_ring cleared ?_ frontEq
    simp only [List.mem_append, List.mem_cons]
    grind
  · intro z outside
    simp only [List.mem_append, List.mem_cons] at outside
    have deleted : links.Agree (cdsListDel x links) z :=
      cdsListDel_other ring (by simp) (by simp only [List.mem_append, List.mem_cons]; grind)
    have added : Links.Agree _ (cdsListAdd x y (cdsListDel x links)) z :=
      cdsListAdd_other removed (by simp) (by simp only [List.mem_append, List.mem_cons]; grind)
        (by grind)
    have deleted' : Links.Agree _ (cdsListDel y _) z :=
      cdsListDel_other movedAt (by simp) (by simp only [List.mem_append, List.mem_cons]; grind)
    have added' : Links.Agree _ (cdsListAdd y left _) z :=
      cdsListAdd_other cleared (by simp only [List.mem_append, List.mem_cons]; grind)
        (by simp only [List.mem_append, List.mem_cons]; grind) (by grind)
    exact ((deleted.trans added).trans deleted').trans added'

end Exchange

section Partition

variable {α : Type}
variable {getVal : α → Option Int} {key : α → Int} {qtype : SortType}
variable {links : Links α} {list pivot i j : α} {left middle right : List α}

/-- Where the two cursors of `qsrt_partition` stand: on the head at first, and
afterwards on the innermost nodes already known to go left and right. -/
structure Cursors (before : α → α → Bool) (list pivot i j : α) (left middle right : List α) :
    Prop where
  atLeft : ∃ front, list :: left = front ++ [i]
  atRight : ∃ back, right ++ [list] = j :: back
  leftBound : ∀ z ∈ left, before pivot z = false
  rightBound : ∀ z ∈ right, before z pivot = false
  edges : (left ≠ [] ∧ right ≠ []) ∨ left = [] ∧ right = [] ∧ ∃ rest, middle = pivot :: rest

namespace Cursors

variable {skipped inner passed : List α} {x y : α} {before : α → α → Bool}

theorem left_mem (cursors : Cursors before list pivot i j left middle right) :
    i = list ∨ i ∈ left := by
  obtain ⟨front, frontEq⟩ := cursors.atLeft
  have member : i ∈ list :: left := frontEq ▸ by simp
  simpa using member

theorem right_mem (cursors : Cursors before list pivot i j left middle right) :
    j ∈ right ∨ j = list := by
  obtain ⟨back, backEq⟩ := cursors.atRight
  have member : j ∈ right ++ [list] := backEq ▸ by simp
  simpa using member

/-- A pass that skips nodes or meets one that sorts after the pivot is not the
first one. -/
theorem left_some (cursors : Cursors before list pivot i j left middle right)
    (irrefl : before pivot pivot = false)
    (moved : ∀ z ∈ middle.head?, before z pivot ∨ before pivot z) :
    left ≠ [] ∧ right ≠ [] := by
  rcases cursors.edges with edges | ⟨-, -, rest, rfl⟩
  · exact edges
  · have := moved pivot rfl
    simp [irrefl] at this

theorem exchange {order : Hoare.Order α}
    (cursors : Cursors order.before list pivot i j left
      (skipped ++ x :: (inner ++ y :: passed)) right)
    (up : ∀ z ∈ skipped, order.before z pivot) (stop : order.before x pivot = false)
    (down : ∀ z ∈ passed, order.before pivot z) (stopDown : order.before pivot y = false) :
    Cursors order.before list pivot y x (left ++ skipped ++ [y]) inner (x :: passed ++ right) where
  atLeft := ⟨list :: (left ++ skipped), by simp⟩
  atRight := ⟨passed ++ right ++ [list], by simp⟩
  leftBound := by
    have skippedBound := fun z member => order.asymm z pivot (up z member)
    have leftBound := cursors.leftBound
    simp only [List.mem_append, List.mem_singleton]
    grind
  rightBound := by
    have passedBound := fun z member => order.asymm pivot z (down z member)
    have rightBound := cursors.rightBound
    simp only [List.cons_append, List.mem_append, List.mem_cons]
    grind
  edges := .inl (by simp)

end Cursors

/-- A stretch that ends behind cursor `i` has a last node once the cursors have
left the head. -/
theorem last_of_some (some : left ≠ []) (skipped : List α) :
    ∃ front q, left ++ skipped = front ++ [q] := by
  rcases List.eq_nil_or_concat' (left ++ skipped) with equal | equal
  · simp_all
  · exact equal

variable [DecidableEq α] {limit fuel : Nat} {skipped inner rest passed : List α} {x y : α}

/-- The pass whose upward scan runs into the other cursor. -/
theorem qsrtPartitionLoop_through (fuel : Nat)
    (keys : ∀ z ∈ left ++ middle ++ right, getVal z = some (key z))
    (cursors : Cursors (keyOrder qtype key).before list pivot i j left middle right)
    (ring : IsRing links list (left ++ middle ++ right))
    (scanFuel : (left ++ middle ++ right).length < limit)
    (up : ∀ z ∈ middle, (keyOrder qtype key).before z pivot) :
    ∃ q, qsrtPartitionLoop getVal qtype list (key pivot) limit (fuel + 1) i j false links =
        some (q, links) ∧ (left ++ middle).getLast? = some q := by
  have irrefl := (keyOrder qtype key).irrefl pivot
  obtain ⟨leftSome, rightSome⟩ := cursors.left_some irrefl
    (fun z member => .inl (up z (List.mem_of_head? member)))
  obtain ⟨back, backEq⟩ := cursors.atRight
  obtain ⟨others, rfl⟩ : ∃ others, right = j :: others := by
    cases right with
    | nil => contradiction
    | cons first others => exact ⟨others, by simp_all⟩
  obtain ⟨front, q, endEq⟩ := last_of_some leftSome middle
  have bound : (keyOrder qtype key).before pivot q = false := by
    have member : q ∈ left ++ middle := by simp [endEq]
    rcases List.mem_append.mp member with member | member
    · exact cursors.leftBound q member
    · exact (keyOrder qtype key).asymm q pivot (up q member)
  have ringUp : IsRing links list (left ++ (middle ++ j :: others)) := by simpa using ring
  have ringDown : IsRing links list (front ++ q :: ([] ++ j :: others)) := by
    simpa [endEq] using ring
  have scanUp := qsrtScanUp_eq limit false j ringUp cursors.atLeft
    (fun z member => keys z (by simpa using member)) up (cursors.rightBound j (by simp))
    (by simp at scanFuel; omega)
  have scanDown := qsrtScanDown_eq limit true j ringDown
    ⟨others ++ [list], rfl⟩ (fun z member => keys z (by simpa [endEq] using member)) (by simp)
    bound (by simp at scanFuel ⊢; omega)
  have met : j ≠ list := by
    rintro rfl
    have nodup := ring.nodup
    simp at nodup
  rw [decide_eq_true (by simp [met])] at scanUp
  refine ⟨q, ?_, by simp [endEq]⟩
  simp only [qsrtPartitionLoop, scanUp, scanDown, Option.bind_eq_bind, Option.bind_some,
    Bool.or_true, Bool.true_or]
  rfl

/-- The upward scan of a pass stops in the middle without meeting `j`. -/
theorem qsrtScanUp_middle
    (keys : ∀ z ∈ left ++ (skipped ++ x :: rest) ++ right, getVal z = some (key z))
    (cursors : Cursors (keyOrder qtype key).before list pivot i j left (skipped ++ x :: rest) right)
    (ring : IsRing links list (left ++ (skipped ++ x :: rest) ++ right))
    (scanFuel : (left ++ (skipped ++ x :: rest) ++ right).length < limit)
    (up : ∀ z ∈ skipped, (keyOrder qtype key).before z pivot)
    (stop : (keyOrder qtype key).before x pivot = false) :
    qsrtScanUp getVal qtype links list j (key pivot) limit i false = some (x, false) := by
  have nodup := ring.nodup
  have leftMem := cursors.left_mem
  have rightMem := cursors.right_mem
  simp only [List.nodup_cons, List.mem_append, List.mem_cons, List.nodup_append] at nodup
  have ringUp : IsRing links list (left ++ (skipped ++ x :: (rest ++ right))) := by
    simpa using ring
  rw [qsrtScanUp_eq limit false j ringUp cursors.atLeft
    (fun z member => keys z (by simpa using member)) up stop
      (by simp at scanFuel; omega),
    decide_eq_false (by simp only [List.mem_append, List.mem_cons]; grind)]
  rfl

/-- The pass whose downward scan meets the node the upward scan stopped at. -/
theorem qsrtPartitionLoop_cross (fuel : Nat)
    (keys : ∀ z ∈ left ++ (skipped ++ x :: rest) ++ right, getVal z = some (key z))
    (cursors : Cursors (keyOrder qtype key).before list pivot i j left (skipped ++ x :: rest) right)
    (ring : IsRing links list (left ++ (skipped ++ x :: rest) ++ right))
    (scanFuel : (left ++ (skipped ++ x :: rest) ++ right).length < limit)
    (up : ∀ z ∈ skipped, (keyOrder qtype key).before z pivot)
    (stop : (keyOrder qtype key).before x pivot = false)
    (down : ∀ z ∈ rest, (keyOrder qtype key).before pivot z) :
    ∃ q, qsrtPartitionLoop getVal qtype list (key pivot) limit (fuel + 1) i j false links =
        some (q, links) ∧
      (Hoare.split (keyOrder qtype key).before pivot left (skipped ++ x :: rest) right).1.getLast? =
        some q := by
  have scanUp := qsrtScanUp_middle keys cursors ring scanFuel up stop
  have met : x ≠ list := by
    rintro rfl
    have nodup := ring.nodup
    simp at nodup
  rw [Hoare.split_cross up stop down]
  cases after : (keyOrder qtype key).before pivot x with
  | false =>
      have ringDown : IsRing links list ((left ++ skipped) ++ x :: (rest ++ right)) := by
        simpa using ring
      have scanDown := qsrtScanDown_eq limit false x ringDown
        cursors.atRight (fun z member => keys z (by simpa using member)) down after
        (by simp at scanFuel; omega)
      rw [decide_eq_true (by simp [met])] at scanDown
      refine ⟨x, ?_, by simp⟩
      simp only [qsrtPartitionLoop, scanUp, scanDown, Option.bind_eq_bind, Option.bind_some,
        Bool.or_true]
      rfl
  | true =>
      -- The scan goes on past the meeting point, into what is known to go left.
      obtain ⟨leftSome, rightSome⟩ := cursors.left_some ((keyOrder qtype key).irrefl pivot) (by
        cases skipped with
        | nil => simp [after]
        | cons first skipped => simp [up first])
      obtain ⟨front, q, endEq⟩ := last_of_some leftSome skipped
      have bound : (keyOrder qtype key).before pivot q = false := by
        have member : q ∈ left ++ skipped := by simp [endEq]
        rcases List.mem_append.mp member with member | member
        · exact cursors.leftBound q member
        · exact (keyOrder qtype key).asymm q pivot (up q member)
      have whole : left ++ (skipped ++ x :: rest) ++ right =
          front ++ q :: ((x :: rest) ++ right) := by
        rw [← List.append_assoc, endEq]
        simp
      have downAll : ∀ z ∈ x :: rest, (keyOrder qtype key).before pivot z := by
        simpa [after] using down
      have scanDown := qsrtScanDown_eq limit false x (whole ▸ ring)
        cursors.atRight (fun z member => keys z (whole ▸ member)) downAll bound
        (by simp at scanFuel ⊢; omega)
      rw [decide_eq_true (by simp [met])] at scanDown
      refine ⟨q, ?_, by simp [endEq]⟩
      simp only [qsrtPartitionLoop, scanUp, scanDown, Option.bind_eq_bind, Option.bind_some,
        Bool.or_true]
      rfl

/-- The pass that exchanges two nodes and goes on between them. -/
theorem qsrtPartitionLoop_exchange
    (keys : ∀ z ∈ left ++ (skipped ++ x :: (inner ++ y :: passed)) ++ right,
      getVal z = some (key z))
    (cursors : Cursors (keyOrder qtype key).before list pivot i j left
      (skipped ++ x :: (inner ++ y :: passed)) right)
    (ring : IsRing links list (left ++ (skipped ++ x :: (inner ++ y :: passed)) ++ right))
    (scanFuel : (left ++ (skipped ++ x :: (inner ++ y :: passed)) ++ right).length < limit)
    (up : ∀ z ∈ skipped, (keyOrder qtype key).before z pivot)
    (stop : (keyOrder qtype key).before x pivot = false)
    (down : ∀ z ∈ passed, (keyOrder qtype key).before pivot z)
    (stopDown : (keyOrder qtype key).before pivot y = false) :
    qsrtPartitionLoop getVal qtype list (key pivot) limit (fuel + 1) i j false links =
      qsrtPartitionLoop getVal qtype list (key pivot) limit fuel y x false
        (qsrtSwap x y links) := by
  have scanUp := qsrtScanUp_middle keys cursors ring scanFuel up stop
  have ringDown : IsRing links list
      ((left ++ skipped ++ x :: inner) ++ y :: (passed ++ right)) := by simpa using ring
  have scanDown := qsrtScanDown_eq limit false x ringDown cursors.atRight
    (fun z member => keys z (by simpa using member)) down stopDown (by simp at scanFuel; omega)
  have nodup := ring.nodup
  have rightMem := cursors.right_mem
  simp only [List.nodup_cons, List.mem_append, List.mem_cons, List.nodup_append] at nodup
  rw [decide_eq_false (by simp only [List.mem_append, List.mem_cons, List.mem_reverse]; grind)]
    at scanDown
  simp only [qsrtPartitionLoop, scanUp, scanDown, Option.bind_eq_bind, Option.bind_some,
    Bool.or_false]
  rfl

/-- The outer loop of `qsrt_partition` computes `Hoare.split` on the nodes. -/
theorem qsrtPartitionLoop_eq
    (keys : ∀ z ∈ left ++ middle ++ right, getVal z = some (key z))
    (cursors : Cursors (keyOrder qtype key).before list pivot i j left middle right)
    (ring : IsRing links list (left ++ middle ++ right))
    (scanFuel : (left ++ middle ++ right).length < limit) (loopFuel : middle.length < fuel) :
    ∃ q links', qsrtPartitionLoop getVal qtype list (key pivot) limit fuel i j false links =
        some (q, links') ∧
      (Hoare.split (keyOrder qtype key).before pivot left middle right).1.getLast? = some q ∧
      IsRing links' list ((Hoare.split (keyOrder qtype key).before pivot left middle right).1 ++
        (Hoare.split (keyOrder qtype key).before pivot left middle right).2) ∧
      ∀ z ∉ list :: (left ++ middle ++ right), links.Agree links' z := by
  obtain ⟨fuel, rfl⟩ : ∃ n, fuel = n + 1 := ⟨fuel - 1, by omega⟩
  induction left, middle, right using
    Hoare.pass_induction (keyOrder qtype key).before pivot generalizing links i j fuel with
  | through left middle right up =>
      obtain ⟨q, run, last⟩ := qsrtPartitionLoop_through fuel keys cursors ring scanFuel up
      rw [Hoare.split_through up]
      exact ⟨q, links, run, last, ring, fun z _ => .refl links z⟩
  | cross left skipped x rest right up stop down =>
      obtain ⟨q, run, last⟩ :=
        qsrtPartitionLoop_cross fuel keys cursors ring scanFuel up stop down
      refine ⟨q, links, run, last, ?_, fun z _ => .refl links z⟩
      rw [Hoare.split_cross up stop down]
      split <;> simpa using ring
  | exchange left skipped x inner y passed right up stop down stopDown ih =>
      have swapAt : IsRing links list
          ((left ++ skipped) ++ x :: (inner ++ y :: (passed ++ right))) := by simpa using ring
      obtain ⟨swapped, untouched⟩ := qsrtSwap_ring swapAt
      obtain ⟨fuel, rfl⟩ : ∃ n, fuel = n + 1 := ⟨fuel - 1, by simp at loopFuel; omega⟩
      rw [Hoare.split_exchange up stop down stopDown,
        qsrtPartitionLoop_exchange keys cursors ring scanFuel up stop down stopDown]
      obtain ⟨q, links', run, last, ring', frame⟩ := ih
        (fun z member => keys z (by simp only [List.mem_append, List.mem_cons] at member ⊢; tauto))
        (cursors.exchange up stop down stopDown) (by simpa using swapped)
        (by simp at scanFuel ⊢; omega) fuel (by simp at loopFuel; omega)
      refine ⟨q, links', run, last, ring', ?_⟩
      intro z outside
      simp only [List.mem_append, List.mem_cons, not_or] at outside
      exact (untouched z (by simp [outside])).trans (frame z (by simp [outside]))

/-- `qsrt_partition` computes `Hoare.split` with the first node as the pivot. -/
theorem qsrtPartition_eq (qtype : SortType) {first : α} {nodes : List α}
    (keys : ∀ z ∈ first :: nodes, getVal z = some (key z))
    (ring : IsRing links list (first :: nodes)) (enough : (first :: nodes).length < limit) :
    ∃ q links', qsrtPartition getVal qtype limit list links = some (q, links') ∧
      (Hoare.split (keyOrder qtype key).before first [] (first :: nodes) []).1.getLast? = some q ∧
      IsRing
        links' list ((Hoare.split (keyOrder qtype key).before first [] (first :: nodes) []).1 ++
        (Hoare.split (keyOrder qtype key).before first [] (first :: nodes) []).2) ∧
      ∀ z ∉ list :: first :: nodes, links.Agree links' z := by
  have start : Cursors (keyOrder qtype key).before list first list list [] (first :: nodes) [] := {
    atLeft := ⟨[], rfl⟩
    atRight := ⟨[], rfl⟩
    leftBound := by simp
    rightBound := by simp
    edges := .inr ⟨rfl, rfl, nodes, rfl⟩ }
  have here : links.next list = first := ring.next_head
  have pivotKey := keys first (by simp)
  obtain ⟨q, links', run, last, ring', frame⟩ := qsrtPartitionLoop_eq (by simpa using keys) start
    (by simpa using ring) (by simpa using enough) (by simpa using enough)
  refine ⟨q, links', ?_, last, ring', by simpa using frame⟩
  simp only [qsrtPartition, here, pivotKey, Option.bind_eq_bind, Option.bind_some]
  exact run

end Partition

section Halves

variable {α : Type} [DecidableEq α]
variable {links : Links α} {list head tail lastLow : α}
variable {low high : List α}

/-- The two temporary heads cut the circle behind `q`. -/
theorem qsrtSplit_ring (ring : IsRing links list (low ++ high)) (last : low.getLast? = some lastLow)
    (some : high ≠ []) (headFresh : head ∉ list :: (low ++ high))
    (tailFresh : tail ∉ list :: (low ++ high)) (apart : head ≠ tail) :
    IsRing (qsrtSplit list lastLow head tail links) head low ∧
      IsRing (qsrtSplit list lastLow head tail links) tail high ∧
      ∀ z ∉ head :: tail :: (low ++ high),
        links.Agree (qsrtSplit list lastLow head tail links) z := by
  obtain ⟨firstHigh, atFirstHigh⟩ : ∃ z, high.head? = Option.some z :=
    ⟨high.head some, List.head?_eq_some_head some⟩
  obtain ⟨lastHigh, atLastHigh⟩ : ∃ z, high.getLast? = Option.some z :=
    ⟨high.getLast some, List.getLast?_eq_some_getLast some⟩
  obtain ⟨firstLow, atFirstLow⟩ : ∃ z, low.head? = Option.some z := by
    cases low with
    | nil => simp at last
    | cons first rest => exact ⟨first, rfl⟩
  have listNext : links.next list = firstLow := by simp [ring.next_head, atFirstLow]
  have listPrev : links.prev list = lastHigh := by simp [ring.prev_head, atLastHigh]
  have lastNext : links.next lastLow = firstHigh := by
    obtain ⟨init, rfl⟩ := List.getLast?_eq_some_iff.mp last
    rw [List.append_assoc] at ring
    simp [ring.next_node, atFirstHigh]
  have nodup := ring.nodup
  have firstLowMem := List.mem_of_head? atFirstLow
  have lastLowMem := List.mem_of_getLast? last
  have firstHighMem := List.mem_of_head? atFirstHigh
  have lastHighMem := List.mem_of_getLast? atLastHigh
  simp only [List.nodup_cons, List.mem_append, List.mem_cons,
    List.nodup_append] at nodup headFresh tailFresh
  have apartHead : head ≠ list ∧ head ≠ lastLow ∧ head ≠ firstLow ∧ head ≠ firstHigh ∧
      head ≠ lastHigh := by grind
  have apartTail : tail ≠ list ∧ tail ≠ lastLow ∧ tail ≠ firstLow ∧ tail ≠ firstHigh ∧
      tail ≠ lastHigh ∧ tail ≠ head := by grind
  have nextEq (z : α) : (qsrtSplit list lastLow head tail links).next z =
      if z = lastHigh then tail else if z = lastLow then head else
      if z = tail then firstHigh else if z = head then firstLow else links.next z := by
    simp [qsrtSplit, listNext, listPrev, lastNext, apartHead, apartTail, apart, apartHead.2.1.symm,
      apartHead.1.symm]
  have prevEq (z : α) : (qsrtSplit list lastLow head tail links).prev z =
      if z = firstHigh then tail else if z = firstLow then head else
      if z = tail then lastHigh else if z = head then lastLow else links.prev z := by
    simp [qsrtSplit, listNext, listPrev, lastNext, apartHead, apartTail, apart, apartHead.2.1.symm,
      apartHead.1.symm]
  have lowPath : links.Path low :=
    ring.stretch (show list :: (low ++ high) ++ [list] = [list] ++ low ++ (high ++ [list]) by simp)
  have highPath : links.Path high :=
    ring.stretch (show list :: (low ++ high) ++ [list] = (list :: low) ++ high ++ [list] by simp)
  refine ⟨?_, ?_, ?_⟩
  · refine IsRing.of_ends lowPath ?_ atFirstLow last ?_ ?_ ⟨?_, ?_⟩ ⟨?_, ?_⟩
    · simp only [List.nodup_cons]
      grind
    · intro z member notLast
      rw [nextEq]
      grind
    · intro z member notFirst
      rw [prevEq]
      grind
    · rw [nextEq]
      grind
    · rw [prevEq]
      grind
    · rw [nextEq]
      grind
    · rw [prevEq]
      grind
  · refine IsRing.of_ends highPath ?_ atFirstHigh atLastHigh ?_ ?_ ⟨?_, ?_⟩ ⟨?_, ?_⟩
    · simp only [List.nodup_cons]
      grind
    · intro z member notLast
      rw [nextEq]
      grind
    · intro z member notFirst
      rw [prevEq]
      grind
    · rw [nextEq]
      grind
    · rw [prevEq]
      grind
    · rw [nextEq]
      grind
    · rw [prevEq]
      grind
  · intro z outside
    simp only [List.mem_cons, List.mem_append] at outside
    constructor
    · rw [nextEq]
      grind
    · rw [prevEq]
      grind

/-- The head takes back the nodes of two circles. -/
theorem qsrtJoin_ring (list : α) (lowRing : IsRing links head low)
    (highRing : IsRing links tail high) (lowSome : low ≠ []) (highSome : high ≠ [])
    (nodup : (list :: (low ++ high)).Nodup) (headFresh : head ∉ list :: (low ++ high))
    (tailFresh : tail ∉ list :: (low ++ high)) :
    IsRing (qsrtJoin list head tail links) list (low ++ high) ∧
      ∀ z ∉ list :: (low ++ high), links.Agree (qsrtJoin list head tail links) z := by
  obtain ⟨firstLow, atFirstLow⟩ : ∃ z, low.head? = some z :=
    ⟨low.head lowSome, List.head?_eq_some_head lowSome⟩
  obtain ⟨lastLow, atLastLow⟩ : ∃ z, low.getLast? = some z :=
    ⟨low.getLast lowSome, List.getLast?_eq_some_getLast lowSome⟩
  obtain ⟨firstHigh, atFirstHigh⟩ : ∃ z, high.head? = some z :=
    ⟨high.head highSome, List.head?_eq_some_head highSome⟩
  obtain ⟨lastHigh, atLastHigh⟩ : ∃ z, high.getLast? = some z :=
    ⟨high.getLast highSome, List.getLast?_eq_some_getLast highSome⟩
  have headNext : links.next head = firstLow := by simp [lowRing.next_head, atFirstLow]
  have headPrev : links.prev head = lastLow := by simp [lowRing.prev_head, atLastLow]
  have tailNext : links.next tail = firstHigh := by simp [highRing.next_head, atFirstHigh]
  have tailPrev : links.prev tail = lastHigh := by simp [highRing.prev_head, atLastHigh]
  have nodup' := nodup
  have firstLowMem := List.mem_of_head? atFirstLow
  have lastLowMem := List.mem_of_getLast? atLastLow
  have firstHighMem := List.mem_of_head? atFirstHigh
  have lastHighMem := List.mem_of_getLast? atLastHigh
  simp only [List.nodup_cons, List.mem_append, List.mem_cons, List.nodup_append]
    at nodup' headFresh tailFresh
  have apartHead : head ≠ list ∧ head ≠ lastLow ∧ head ≠ firstLow ∧ head ≠ firstHigh ∧
      head ≠ lastHigh := by grind
  have apartTail : tail ≠ list ∧ tail ≠ lastLow ∧ tail ≠ firstLow ∧ tail ≠ firstHigh ∧
      tail ≠ lastHigh := by grind
  have nextEq (z : α) : (qsrtJoin list head tail links).next z =
      if z = lastHigh then list else if z = lastLow then firstHigh else
      if z = list then firstLow else links.next z := by
    simp [qsrtJoin, headNext, headPrev, tailNext, tailPrev, apartHead, apartTail]
  have prevEq (z : α) : (qsrtJoin list head tail links).prev z =
      if z = list then lastHigh else if z = firstHigh then lastLow else
      if z = firstLow then list else links.prev z := by
    simp [qsrtJoin, headNext, headPrev, tailNext, tailPrev, apartHead, apartTail]
  have lowPath : (qsrtJoin list head tail links).Path low := by
    refine lowRing.nodes_path.congr_inner nodup'.2.1 atFirstLow atLastLow ?_ ?_
    · intro z member notLast
      rw [nextEq]
      grind
    · intro z member notFirst
      rw [prevEq]
      grind
  have highPath : (qsrtJoin list head tail links).Path high := by
    refine highRing.nodes_path.congr_inner nodup'.2.2.1 atFirstHigh atLastHigh ?_ ?_
    · intro z member notLast
      rw [nextEq]
      grind
    · intro z member notFirst
      rw [prevEq]
      grind
  have seam : (qsrtJoin list head tail links).Linked lastLow firstHigh := by
    constructor
    · rw [nextEq]
      grind
    · rw [prevEq]
      grind
  have front : (qsrtJoin list head tail links).Linked list firstLow := by
    constructor
    · rw [nextEq]
      grind
    · rw [prevEq]
      grind
  have back : (qsrtJoin list head tail links).Linked lastHigh list := by
    constructor
    · rw [nextEq]
      grind
    · rw [prevEq]
      grind
  constructor
  · refine IsRing.of_path (List.isChain_append.mpr ⟨lowPath, highPath, ?_⟩) nodup ?_ ?_ ?_
    · simpa [atLastLow, atFirstHigh] using seam
    · simpa [atFirstLow] using front
    · simpa [atLastHigh] using back
    · simp [lowSome]
  · intro z outside
    simp only [List.mem_cons, List.mem_append] at outside
    constructor
    · rw [nextEq]
      grind
    · rw [prevEq]
      grind

end Halves

section Quicksort

variable {α : Type} [DecidableEq α]
variable {getVal : α → Option Int} {key : α → Int} {qtype : SortType}
variable {list : α} {nodes : List α} {heap : ListHeap α} {malloc : Nat → α} {fuel : Nat}

theorem singleton_iff {links : Links α} (ring : IsRing links list nodes) :
    singleton list links = true ↔ nodes.length ≤ 1 := by
  match nodes, ring with
  | [], ring => simp [singleton, ring.next_head]
  | [first], ring =>
      have atHead : links.next first = list :=
        IsRing.next_node (show IsRing links list ([] ++ first :: []) from ring)
      simp [singleton, ring.next_head, atHead]
  | first :: second :: rest, ring =>
      have atSecond : links.next first = second :=
        IsRing.next_node (show IsRing links list ([] ++ first :: second :: rest) from ring)
      have nodup := ring.nodup
      simp only [List.nodup_cons, List.mem_cons, not_or] at nodup
      simp [singleton, ring.next_head, atSecond, Ne.symm nodup.1.2.1]

/-- What a call of `qsrt_quicksort` on a list with these nodes does: it sorts
the ring as `Hoare.sort` does, and besides the nodes and the head it writes only
to nodes it has allocated. -/
def QuicksortSpec (getVal : α → Option Int) (key : α → Int) (qtype : SortType)
    (malloc : Nat → α) (nodes : List α) : Prop :=
  ∀ (list : α) (heap : ListHeap α) (fuel : Nat), (∀ z ∈ nodes, getVal z = some (key z)) →
    IsRing heap.links list nodes → (∀ k, heap.brk ≤ k → malloc k ∉ list :: nodes) →
    nodes.length < fuel →
    ∃ heap', qsrtQuicksort getVal qtype malloc fuel list heap = some heap' ∧
      IsRing heap'.links list (Hoare.sort (keyOrder qtype key) nodes) ∧ heap.brk ≤ heap'.brk ∧
      ∀ z ∉ list :: nodes, (∀ k, heap.brk ≤ k → z ≠ malloc k) → heap.links.Agree heap'.links z

/-- Sorting the two halves under temporary heads and joining them. -/
theorem quicksort_halves (heap : ListHeap α) (fuel : Nat) {links : Links α} {q : α}
    {low high : List α} (injective : Function.Injective malloc)
    (lowSpec : QuicksortSpec getVal key qtype malloc low)
    (highSpec : QuicksortSpec getVal key qtype malloc high)
    (keys : ∀ z ∈ low ++ high, getVal z = some (key z)) (ring : IsRing links list (low ++ high))
    (last : low.getLast? = some q) (lowSome : low ≠ []) (highSome : high ≠ [])
    (fresh : ∀ k, heap.brk ≤ k → malloc k ∉ list :: (low ++ high)) (lowFuel : low.length < fuel)
    (highFuel : high.length < fuel) :
    ∃ lowHeap highHeap,
      qsrtQuicksort getVal qtype malloc fuel (malloc heap.brk)
        ⟨qsrtSplit list q (malloc heap.brk) (malloc (heap.brk + 1)) links, heap.brk + 2⟩ =
          some lowHeap ∧
      qsrtQuicksort getVal qtype malloc fuel (malloc (heap.brk + 1)) lowHeap = some highHeap ∧
      IsRing (qsrtJoin list (malloc heap.brk) (malloc (heap.brk + 1)) highHeap.links) list
        (Hoare.sort (keyOrder qtype key) low ++ Hoare.sort (keyOrder qtype key) high) ∧
      heap.brk ≤ highHeap.brk ∧
      ∀ z ∉ list :: (low ++ high), (∀ k, heap.brk ≤ k → z ≠ malloc k) →
        links.Agree (qsrtJoin list (malloc heap.brk) (malloc (heap.brk + 1)) highHeap.links) z := by
  have apart : malloc heap.brk ≠ malloc (heap.brk + 1) := fun equal => by
    have := injective equal
    omega
  have headFresh := fresh heap.brk (le_refl _)
  have tailFresh := fresh (heap.brk + 1) (by omega)
  obtain ⟨lowRing, highRing, splitFrame⟩ :=
    qsrtSplit_ring ring last highSome headFresh tailFresh apart
  have later (k n : Nat) (less : n < k) : malloc n ≠ malloc k := fun equal => by
    have := injective equal
    omega
  have nodup := ring.nodup
  simp only [List.nodup_cons, List.mem_append, List.nodup_append, List.mem_cons] at nodup fresh
  obtain ⟨lowHeap, lowRun, lowSorted, lowBrk, lowFrame⟩ := lowSpec _ ⟨_, heap.brk + 2⟩ fuel
    (fun z member => keys z (by simp [member])) lowRing
    (fun k bound => by
      have := later k heap.brk (by simp at bound; omega)
      have := fresh k (by simp at bound; omega)
      simp only [List.mem_cons]
      grind) lowFuel
  have highKept : IsRing lowHeap.links (malloc (heap.brk + 1)) high := by
    refine highRing.congr (fun z member => lowFrame z ?_ ?_)
    · simp only [List.mem_cons] at member ⊢
      grind
    · intro k bound
      have := later k (heap.brk + 1) (by simp at bound; omega)
      have := fresh k (by simp at bound; omega)
      simp only [List.mem_cons] at member
      grind
  obtain ⟨highHeap, highRun, highSorted, highBrk, highFrame⟩ := highSpec _ lowHeap fuel
    (fun z member => keys z (by simp [member])) highKept
    (fun k bound => by
      have := later k (heap.brk + 1) (by simp at lowBrk; omega)
      have := fresh k (by simp at lowBrk; omega)
      simp only [List.mem_cons]
      grind) highFuel
  have lowPerm := Hoare.sort_perm (keyOrder qtype key) low
  have highPerm := Hoare.sort_perm (keyOrder qtype key) high
  have lowKept : IsRing highHeap.links (malloc heap.brk) (Hoare.sort (keyOrder qtype key) low) := by
    refine lowSorted.congr (fun z member => highFrame z ?_ ?_)
    · simp only [List.mem_cons, lowPerm.mem_iff] at member ⊢
      grind
    · intro k bound
      have := later k heap.brk (by simp at lowBrk; omega)
      have := fresh k (by simp at lowBrk; omega)
      simp only [List.mem_cons, lowPerm.mem_iff] at member
      grind
  have bothIff (z : α) : z ∈ list :: (Hoare.sort (keyOrder qtype key) low ++
      Hoare.sort (keyOrder qtype key) high) ↔ z ∈ list :: (low ++ high) :=
    ((lowPerm.append highPerm).cons list).mem_iff
  obtain ⟨joined, joinFrame⟩ := qsrtJoin_ring list lowKept highSorted
    (fun equal => lowSome (by simpa [equal] using lowPerm))
    (fun equal => highSome (by simpa [equal] using highPerm))
    (((lowPerm.append highPerm).cons list).nodup_iff.mpr ring.nodup)
    (fun member => headFresh ((bothIff _).mp member))
    (fun member => tailFresh ((bothIff _).mp member))
  refine ⟨lowHeap, highHeap, lowRun, highRun, joined, by simp at lowBrk; omega, ?_⟩
  intro z outside notAllocated
  have notHead := notAllocated heap.brk (le_refl _)
  have notTail := notAllocated (heap.brk + 1) (by omega)
  simp only [List.mem_cons, List.mem_append, not_or] at outside
  have splitAgree := splitFrame z (by simp [outside, notHead, notTail])
  have lowAgree := lowFrame z (by simp [outside, notHead])
    (fun k bound => notAllocated k (by simp at bound; omega))
  have highAgree := highFrame z (by simp [outside, notTail])
    (fun k bound => notAllocated k (by simp at lowBrk; omega))
  have joinAgree := joinFrame z (by rw [bothIff]; simp [outside])
  exact ((splitAgree.trans lowAgree).trans highAgree).trans joinAgree

/-- `qsrt_quicksort` computes `Hoare.sort` on the nodes of its list. -/
theorem qsrtQuicksort_eq (qtype : SortType) (injective : Function.Injective malloc)
    (nodes : List α) : QuicksortSpec getVal key qtype malloc nodes := by
  induction nodes using Hoare.sort.induct (keyOrder qtype key) with
  | case1 =>
      intro list heap fuel keys ring fresh enough
      obtain ⟨fuel, rfl⟩ : ∃ n, fuel = n + 1 := ⟨fuel - 1, by omega⟩
      refine ⟨heap, ?_, by simpa [Hoare.sort] using ring, le_refl _, fun z _ _ => .refl _ z⟩
      simp [qsrtQuicksort, (singleton_iff ring).mpr]
  | case2 x =>
      intro list heap fuel keys ring fresh enough
      obtain ⟨fuel, rfl⟩ : ∃ n, fuel = n + 1 := ⟨fuel - 1, by omega⟩
      refine ⟨heap, ?_, by simpa [Hoare.sort] using ring, le_refl _, fun z _ _ => .refl _ z⟩
      simp [qsrtQuicksort, (singleton_iff ring).mpr]
  | case3 first second rest lowSpec highSpec =>
      intro list heap fuel keys ring fresh enough
      obtain ⟨fuel, rfl⟩ : ∃ n, fuel = n + 1 := ⟨fuel - 1, by omega⟩
      have several : singleton list heap.links = false := by
        rw [Bool.eq_false_iff, Ne, singleton_iff ring]
        simp
      have distinct := List.cons_ne_nil second rest
      obtain ⟨q, links, partitioned, last, split, partitionFrame⟩ :=
        qsrtPartition_eq qtype keys ring enough
      obtain ⟨lowSome, highSome⟩ :=
        Hoare.split_first_nonempty ((keyOrder qtype key).irrefl first) distinct
      obtain ⟨lowLength, highLength⟩ :=
        Hoare.split_first_length (keyOrder qtype key) first distinct
      have perm := Hoare.split_perm (keyOrder qtype key).before first []
        (first :: second :: rest) []
      rw [List.nil_append, List.append_nil] at perm
      have memIff (z : α) := perm.mem_iff (a := z)
      have consIff (z : α) := (perm.cons list).mem_iff (a := z)
      obtain ⟨lowHeap, highHeap, lowRun, highRun, joined, brk, frame⟩ :=
        quicksort_halves heap fuel injective lowSpec highSpec
          (fun z member => keys z ((memIff z).mp member)) split last lowSome highSome
          (fun k later member => fresh k later ((consIff _).mp member))
          (by omega) (by omega)
      rw [Hoare.sort]
      refine ⟨⟨qsrtJoin list (malloc heap.brk) (malloc (heap.brk + 1)) highHeap.links,
        highHeap.brk⟩,
        ?_, joined, brk, ?_⟩
      · simp [qsrtQuicksort, several, partitioned, lowRun, highRun]
      · intro z outside notAllocated
        exact (partitionFrame z outside).trans
          (frame z (fun member => outside ((consIff z).mp member)) notAllocated)

/-- The key function restricted to the element nodes of a list: it has no
answer for a head. -/
def elementKey (nodes : List α) (key : α → Int) (node : α) : Option Int :=
  if node ∈ nodes then some (key node) else none

/-- Nodes ordered by key in the direction of `qtype`. -/
def SortedBy (qtype : SortType) (key : α → Int) (nodes : List α) : Prop :=
  match qtype with
  | .asc => nodes.Pairwise fun a b => key a ≤ key b
  | .desc => nodes.Pairwise fun a b => key b ≤ key a

omit [DecidableEq α] in
theorem sortedBy_sort (qtype : SortType) (key : α → Int) (nodes : List α) :
    SortedBy qtype key (Hoare.sort (keyOrder qtype key) nodes) := by
  have sorted := Hoare.sort_sorted (keyOrder qtype key) nodes
  cases qtype <;> simpa [SortedBy, keyOrder, scansUp] using sorted

/-- `qsrt_quicksort` on a well-formed list terminates, asks only for keys of
element nodes, and leaves the same nodes sorted under the same head.  Fresh
nodes come from `malloc`, which never hands out a node twice. -/
theorem qsrtQuicksort_sorts_ring (qtype : SortType) (key : α → Int) (malloc : Nat → α)
    (injective : Function.Injective malloc) (list : α) (nodes : List α) (heap : ListHeap α)
    (ring : IsRing heap.links list nodes)
    (fresh : ∀ k, heap.brk ≤ k → malloc k ∉ list :: nodes)
    (fuel : Nat) (enough : nodes.length < fuel) :
    ∃ heap' sorted,
      qsrtQuicksort (elementKey nodes key) qtype malloc fuel list heap = some heap' ∧
      IsRing heap'.links list sorted ∧ sorted.Perm nodes ∧ SortedBy qtype key sorted := by
  have keys : ∀ z ∈ nodes, elementKey nodes key z = some (key z) := fun z member => by
    simp [elementKey, member]
  obtain ⟨heap', run, ring', -, -⟩ :=
    qsrtQuicksort_eq qtype injective nodes list heap fuel keys ring fresh enough
  exact ⟨heap', _, run, ring', Hoare.sort_perm _ nodes, sortedBy_sort qtype key nodes⟩

/-- Three nodes with the keys 2, 0 and 2 behind the head 0. -/
theorem qsrtQuicksort_sorts_three_nodes : ∃ heap' sorted,
      qsrtQuicksort (elementKey [1, 2, 3] fun node : Nat => (node % 2 : Int) * 2) .asc (· + 10) 4 0
        ⟨⟨fun x => (x + 1) % 4, fun x => (x + 3) % 4⟩, 0⟩ = some heap' ∧
      IsRing heap'.links 0 sorted ∧ sorted.Perm [1, 2, 3] ∧
      SortedBy .asc (fun node : Nat => (node % 2 : Int) * 2) sorted := by
  refine qsrtQuicksort_sorts_ring .asc _ (· + 10)
    (fun a b equal => by simpa using equal) 0 [1, 2, 3]
    ⟨⟨fun x => (x + 1) % 4, fun x => (x + 3) % 4⟩, 0⟩ ⟨by decide, ?_⟩ (fun k _ => by simp) 4
    (by decide)
  simp [Links.Path, Links.Linked]

end Quicksort

end BachScheduler
