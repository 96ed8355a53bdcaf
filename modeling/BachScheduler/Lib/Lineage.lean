import Mathlib.Data.Set.Card
import Mathlib.Logic.Relation
import Mathlib.Tactic.Ring

/-!
# Generations of instances in slots

Instances are numbered in the order in which they start.  The first `n` of them open the slots; each
later one takes over the slot of an instance that was live until then, and its identifier is that of
its predecessor plus `n`.  Then identifiers are never reused, an identifier tells the slot, and a
slot has at most one live instance, the latest of its line.  A live instance may retire its slot,
and then no other instance follows.
-/

namespace BachScheduler.Lineage

/-- The instances that have started, their identifiers, which of them are live, and which
one took over from which. -/
structure Line where
  born : Nat
  id : Nat → Int
  live : Nat → Prop
  heir : Nat → Nat → Prop

/-- The slot that an identifier tells. -/
def slot (base : Int) (n : Nat) (id : Int) : Int :=
  (id - base) % n

/-- The instances have come one after the other in each slot. -/
structure Line.Ordered (base : Int) (n : Nat) (line : Line) : Prop where
  roots : n ≤ line.born
  rootId : ∀ p < n, line.id p = base + p
  base_le : ∀ p < line.born, base ≤ line.id p
  distinct : ∀ p < line.born, ∀ q < line.born, line.id p = line.id q → p = q
  liveBorn : ∀ p, line.live p → p < line.born
  latest : ∀ p, line.live p → ∀ q < line.born, slot base n (line.id q) = slot base n (line.id p) →
    line.id q ≤ line.id p
  heirs : ∀ p q, line.heir p q → p < q ∧ q < line.born ∧ line.id q = n + line.id p
  parent : ∀ q < line.born, n ≤ q → ∃ p, line.heir p q

variable {base : Int} {n : Nat} {line next : Line} {p q : Nat}

theorem slot_add (id : Int) : slot base n (n + id) = slot base n id := by
  have shift : (n + id) - base = (id - base) + n := by ring
  rw [slot, slot, shift, Int.add_emod_right]

/-- Where an identifier is not below the base, truncated division tells the same slot. -/
theorem slot_eq_tmod {id : Int} (above : base ≤ id) : slot base n id = (id - base).tmod n :=
  (Int.tmod_eq_emod_of_nonneg (Int.sub_nonneg.mpr above)).symm

namespace Line.Ordered

/-- A slot has at most one live instance. -/
theorem live_unique (ordered : line.Ordered base n) (first : line.live p) (second : line.live q)
    (same : slot base n (line.id p) = slot base n (line.id q)) : p = q := by
  have pBorn := ordered.liveBorn p first
  have qBorn := ordered.liveBorn q second
  refine ordered.distinct p pBorn q qBorn (le_antisymm ?_ ?_)
  · exact ordered.latest q second p pBorn same
  · exact ordered.latest p first q qBorn same.symm

/-- The slot of an instance is that of the one it descends from. -/
theorem slot_of_descends (ordered : line.Ordered base n)
    (descends : Relation.ReflTransGen line.heir p q) :
    slot base n (line.id q) = slot base n (line.id p) := by
  induction descends with
  | refl => rfl
  | tail _ heir ih => rw [(ordered.heirs _ _ heir).2.2, slot_add, ih]

theorem slot_root (ordered : line.Ordered base n) (root : p < n) : slot base n (line.id p) = p := by
  rw [ordered.rootId p root, slot, add_sub_cancel_left]
  exact Int.emod_eq_of_lt (Int.natCast_nonneg p) (Int.ofNat_lt.mpr root)

/-- Every instance descends from one of the first. -/
theorem exists_root (ordered : line.Ordered base n) (born : p < line.born) :
    ∃ root < n, Relation.ReflTransGen line.heir root p := by
  induction p using Nat.strong_induction_on with
  | _ p ih =>
      by_cases root : p < n
      · exact ⟨p, root, .refl⟩
      · obtain ⟨old, heir⟩ := ordered.parent p born (Nat.not_lt.mp root)
        have below := (ordered.heirs old p heir).1
        obtain ⟨first, isRoot, descends⟩ := ih old below (below.trans born)
        exact ⟨first, isRoot, descends.tail heir⟩

/-- The slot of an instance is the number of one of the first. -/
theorem slot_range (ordered : line.Ordered base n) (born : p < line.born) :
    0 ≤ slot base n (line.id p) ∧ slot base n (line.id p) < n := by
  obtain ⟨root, isRoot, descends⟩ := ordered.exists_root born
  rw [ordered.slot_of_descends descends, ordered.slot_root isRoot]
  exact ⟨Int.natCast_nonneg root, Int.ofNat_lt.mpr isRoot⟩

/-- The first instances open the slots. -/
theorem start (born : line.born = n) (ids : ∀ p < n, line.id p = base + p)
    (live : ∀ p, line.live p → p < n) (none : ∀ p q, ¬ line.heir p q) : line.Ordered base n := by
  have opened : ∀ p < n, slot base n (line.id p) = p := fun p inside => by
    rw [ids p inside, slot, add_sub_cancel_left]
    exact Int.emod_eq_of_lt (Int.natCast_nonneg p) (Int.ofNat_lt.mpr inside)
  constructor
  case roots => exact born.ge
  case rootId => exact ids
  case base_le =>
    intro p inside
    have id := ids p (born ▸ inside)
    omega
  case distinct =>
    intro p pInside q qInside same
    have pId := ids p (born ▸ pInside)
    have qId := ids q (born ▸ qInside)
    omega
  case liveBorn => exact fun p isLive => born ▸ live p isLive
  case latest =>
    intro p isLive q qInside same
    rw [opened p (live p isLive), opened q (born ▸ qInside)] at same
    rw [Int.ofNat_inj.mp same]
  case heirs => exact fun p q heir => absurd heir (none p q)
  case parent => exact fun q inside notRoot => absurd inside (Nat.not_lt.mpr (born ▸ notRoot))

theorem fade (ordered : line.Ordered base n) (born : next.born = line.born)
    (ids : ∀ p < line.born, next.id p = line.id p) (fewer : ∀ p, next.live p → line.live p)
    (heirs : ∀ p q, next.heir p q ↔ line.heir p q) : next.Ordered base n := by
  constructor
  case roots => exact born ▸ ordered.roots
  case rootId =>
      exact fun p root => (ids p (root.trans_le ordered.roots)).trans (ordered.rootId p root)
  case base_le =>
    intro p inside
    rw [born] at inside
    rw [ids p inside]
    exact ordered.base_le p inside
  case distinct =>
    intro p pInside q qInside same
    rw [born] at pInside qInside
    rw [ids p pInside, ids q qInside] at same
    exact ordered.distinct p pInside q qInside same
  case liveBorn => exact fun p live => born ▸ ordered.liveBorn p (fewer p live)
  case latest =>
    intro p live q qInside same
    rw [born] at qInside
    have pInside := ordered.liveBorn p (fewer p live)
    rw [ids p pInside, ids q qInside] at same ⊢
    exact ordered.latest p (fewer p live) q qInside same
  case heirs =>
    intro p q heir
    obtain ⟨below, inside, id⟩ := ordered.heirs p q ((heirs p q).mp heir)
    exact ⟨below, born ▸ inside, by rw [ids q inside, ids p (below.trans inside), id]⟩
  case parent =>
    intro q inside notRoot
    obtain ⟨p, heir⟩ := ordered.parent q (born ▸ inside) notRoot
    exact ⟨p, (heirs p q).mpr heir⟩

theorem succeed (ordered : line.Ordered base n) (old : line.live p)
    (born : next.born = line.born + 1) (ids : ∀ q < line.born, next.id q = line.id q)
    (id : next.id line.born = n + line.id p)
    (live : ∀ q, next.live q → q = line.born ∨ line.live q ∧ q ≠ p)
    (heirs : ∀ x y, next.heir x y ↔ line.heir x y ∨ x = p ∧ y = line.born) :
    next.Ordered base n := by
  have pBorn := ordered.liveBorn p old
  have some : 0 < n := by
    obtain ⟨root, isRoot, -⟩ := ordered.exists_root pBorn
    exact (Nat.zero_le root).trans_lt isRoot
  have cases : ∀ q < next.born, q = line.born ∨ q < line.born := fun q inside => by omega
  have fresh : ∀ q < line.born, line.id q ≠ n + line.id p := fun q inside same => by
    have below := ordered.latest p old q inside (by rw [same, slot_add])
    omega
  constructor
  case roots => exact ordered.roots.trans (by omega)
  case rootId =>
      exact fun q root => (ids q (root.trans_le ordered.roots)).trans (ordered.rootId q root)
  case base_le =>
    intro q inside
    rcases cases q inside with rfl | inside
    · have above := ordered.base_le p pBorn
      omega
    · rw [ids q inside]
      exact ordered.base_le q inside
  case distinct =>
    intro q qInside r rInside same
    rcases cases q qInside with rfl | qInside
    · rcases cases r rInside with rfl | rInside
      · rfl
      · rw [id, ids r rInside] at same
        exact absurd same.symm (fresh r rInside)
    · rcases cases r rInside with rfl | rInside
      · rw [id, ids q qInside] at same
        exact absurd same (fresh q qInside)
      · rw [ids q qInside, ids r rInside] at same
        exact ordered.distinct q qInside r rInside same
  case liveBorn =>
    intro q isLive
    rcases live q isLive with rfl | ⟨isLive, -⟩
    · omega
    · exact (ordered.liveBorn q isLive).trans (by omega)
  case latest =>
    intro q isLive r rInside same
    rcases live q isLive with rfl | ⟨isLive, differs⟩
    · rcases cases r rInside with rfl | rInside
      · exact le_rfl
      · rw [id, ids r rInside, slot_add] at same
        rw [id, ids r rInside]
        have below := ordered.latest p old r rInside same
        omega
    · have qInside := ordered.liveBorn q isLive
      rcases cases r rInside with rfl | rInside
      · rw [id, ids q qInside, slot_add] at same
        exact absurd (ordered.live_unique isLive old same.symm) differs
      · rw [ids q qInside, ids r rInside] at same ⊢
        exact ordered.latest q isLive r rInside same
  case heirs =>
    intro x y heir
    rcases (heirs x y).mp heir with heir | ⟨rfl, rfl⟩
    · obtain ⟨below, inside, step⟩ := ordered.heirs x y heir
      exact ⟨below, inside.trans (by omega), by rw [ids y inside, ids x (below.trans inside), step]⟩
    · exact ⟨pBorn, by omega, by rw [id, ids x pBorn]⟩
  case parent =>
    intro q inside notRoot
    rcases cases q inside with rfl | inside
    · exact ⟨p, (heirs p line.born).mpr (.inr ⟨rfl, rfl⟩)⟩
    · obtain ⟨x, heir⟩ := ordered.parent q inside notRoot
      exact ⟨x, (heirs x q).mpr (.inl heir)⟩

end Line.Ordered

/-- The instances of `gone` have retired their slots, each its own, and none of these has a
live instance. -/
structure Line.Retired (base : Int) (n : Nat) (line : Line) (gone : List Nat) : Prop where
  born : ∀ p ∈ gone, p < line.born
  ended : ∀ p ∈ gone, ∀ q, line.live q → slot base n (line.id q) ≠ slot base n (line.id p)
  latest : ∀ p ∈ gone, ∀ q < line.born, slot base n (line.id q) = slot base n (line.id p) →
    line.id q ≤ line.id p
  nodup : gone.Nodup

namespace Line.Retired

variable {gone : List Nat}

theorem none (base : Int) (n : Nat) (line : Line) : line.Retired base n [] where
  born _ member := absurd member (by simp)
  ended _ member := absurd member (by simp)
  latest _ member := absurd member (by simp)
  nodup := List.nodup_nil

/-- Two instances have not retired the same slot. -/
theorem unique (retired : line.Retired base n gone) (ordered : line.Ordered base n)
    (first : p ∈ gone) (second : q ∈ gone)
    (same : slot base n (line.id p) = slot base n (line.id q)) : p = q := by
  have pBorn := retired.born p first
  have qBorn := retired.born q second
  refine ordered.distinct p pBorn q qBorn (le_antisymm ?_ ?_)
  · exact retired.latest q second p pBorn same
  · exact retired.latest p first q qBorn same.symm

/-- Some instances are no longer live. -/
theorem fade (retired : line.Retired base n gone) (born : next.born = line.born)
    (ids : ∀ p, next.id p = line.id p) (fewer : ∀ p, next.live p → line.live p) :
    next.Retired base n gone where
  born p member := born ▸ retired.born p member
  ended p member q live := by
    rw [ids, ids]
    exact retired.ended p member q (fewer q live)
  latest p member q inside := by
    rw [ids, ids]
    exact retired.latest p member q (born ▸ inside)
  nodup := retired.nodup

/-- A live instance retires its slot. -/
theorem retire (retired : line.Retired base n gone) (ordered : line.Ordered base n)
    (live : line.live p) (born : next.born = line.born) (ids : ∀ p, next.id p = line.id p)
    (fewer : ∀ q, next.live q → line.live q ∧ q ≠ p) : next.Retired base n (gone ++ [p]) := by
  have cases : ∀ q ∈ gone ++ [p], q ∈ gone ∨ q = p := fun q member => by simpa using member
  constructor
  case born =>
    intro q member
    rw [born]
    rcases cases q member with before | rfl
    · exact retired.born q before
    · exact ordered.liveBorn q live
  case ended =>
    intro q member r isLive
    rw [ids, ids]
    rcases cases q member with before | rfl
    · exact retired.ended q before r (fewer r isLive).1
    · exact fun same => (fewer r isLive).2 (ordered.live_unique (fewer r isLive).1 live same)
  case latest =>
    intro q member r inside
    rw [ids, ids]
    rw [born] at inside
    rcases cases q member with before | rfl
    · exact retired.latest q before r inside
    · exact ordered.latest q live r inside
  case nodup =>
    have fresh : p ∉ gone := fun before => retired.ended p before p live rfl
    simpa using retired.nodup.concat fresh

/-- The next instance takes over the slot of a live one. -/
theorem succeed (retired : line.Retired base n gone) (ordered : line.Ordered base n)
    (old : line.live p) (born : next.born = line.born + 1)
    (ids : ∀ q < line.born, next.id q = line.id q) (id : next.id line.born = n + line.id p)
    (live : ∀ q, next.live q → q = line.born ∨ line.live q) :
    next.Retired base n gone := by
  constructor
  case born =>
    intro q member
    have before := retired.born q member
    omega
  case ended =>
    intro q member r isLive
    rw [ids q (retired.born q member)]
    rcases live r isLive with rfl | before
    · rw [id, slot_add]
      exact retired.ended q member p old
    · rw [ids r (ordered.liveBorn r before)]
      exact retired.ended q member r before
  case latest =>
    intro q member r inside same
    rw [ids q (retired.born q member)] at same ⊢
    have cases : r = line.born ∨ r < line.born := by omega
    rcases cases with rfl | inside
    · rw [id, slot_add] at same
      exact absurd same (retired.ended q member p old)
    · rw [ids r inside] at same ⊢
      exact retired.latest q member r inside same
  case nodup => exact retired.nodup

/-- The slots that have not been retired, counted. -/
theorem ncard_left (retired : line.Retired base n gone) (ordered : line.Ordered base n) :
    (gone.length +
      Set.ncard {i : Nat | i < n ∧ ¬ ∃ p ∈ gone, slot base n (line.id p) = i} : Int) = n := by
  have slots : ∀ p ∈ gone, ((slot base n (line.id p)).toNat : Int) = slot base n (line.id p) :=
    fun p member =>
    Int.toNat_of_nonneg (ordered.slot_range (retired.born p member)).1
  let spent := gone.toFinset.image fun p => (slot base n (line.id p)).toNat
  have card : spent.card = gone.length := by
    rw [Finset.card_image_of_injOn, List.toFinset_card_of_nodup retired.nodup]
    intro p first q second same
    rw [List.coe_toFinset] at first second
    refine retired.unique ordered first second ?_
    exact (slots p first).symm.trans ((congrArg Int.ofNat same).trans (slots q second))
  have within : spent ⊆ Finset.range n := by
    intro i member
    obtain ⟨p, isGone, rfl⟩ := Finset.mem_image.mp member
    have range := ordered.slot_range (retired.born p (List.mem_toFinset.mp isGone))
    exact Finset.mem_range.mpr ((Int.toNat_lt range.1).mpr range.2)
  have left : {i : Nat | i < n ∧ ¬ ∃ p ∈ gone, slot base n (line.id p) = i} =
      (Finset.range n \ spent : Finset Nat) := by
    ext i
    rw [Finset.mem_coe, Finset.mem_sdiff, Finset.mem_range, Finset.mem_image, Set.mem_ofPred_eq]
    refine and_congr_right fun _ => not_congr (exists_congr fun p => ?_)
    rw [List.mem_toFinset]
    refine and_congr_right fun isGone => ?_
    rw [← slots p isGone, Int.ofNat_inj, Int.toNat_natCast]
  rw [left, Set.ncard_coe_finset, Finset.card_sdiff_of_subset within, Finset.card_range, card]
  have atMost := Finset.card_le_card within
  rw [card, Finset.card_range] at atMost
  omega

/-- As long as an instance is live, its slot is left. -/
theorem length_lt (retired : line.Retired base n gone) (ordered : line.Ordered base n)
    (live : line.live p) : gone.length < n := by
  have counted := retired.ncard_left ordered
  have range := ordered.slot_range (ordered.liveBorn p live)
  have inside : (slot base n (line.id p)).toNat ∈
      {i : Nat | i < n ∧ ¬ ∃ q ∈ gone, slot base n (line.id q) = i} := by
    refine ⟨(Int.toNat_lt range.1).mpr range.2, fun ⟨q, isGone, same⟩ => ?_⟩
    rw [Int.toNat_of_nonneg range.1] at same
    exact retired.ended q isGone p live same.symm
  have finite : {i : Nat | i < n ∧ ¬ ∃ q ∈ gone, slot base n (line.id q) = i}.Finite :=
    (Set.finite_lt_nat n).subset fun i member => member.1
  have some := (Set.ncard_pos finite).mpr ⟨_, inside⟩
  omega

end Line.Retired

end BachScheduler.Lineage
