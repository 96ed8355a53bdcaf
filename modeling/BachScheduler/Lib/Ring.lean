import Mathlib.Data.List.Chain
import Mathlib.Data.List.Nodup
import Mathlib.Logic.Function.Basic

/-!
# Circular doubly linked lists

A node is any value; its two link fields are two functions.  `IsRing` says that
a head node and a list of nodes are linked into one circle, forwards and
backwards.  The lemmas give the effect of the three link surgeries every
operation on such lists is made of: bridging over a stretch of nodes, hooking
one node in, and cutting a circle in two with a second head.
-/

namespace BachScheduler.Ring

variable {α : Type}

/-- The two link fields of every node. -/
structure Links (α : Type) where
  next : α → α
  prev : α → α

namespace Links

section Writes

variable [DecidableEq α]

/-- Store into the `next` field of one node. -/
def setNext (links : Links α) (node target : α) : Links α :=
  { links with next := Function.update links.next node target }

/-- Store into the `prev` field of one node. -/
def setPrev (links : Links α) (node target : α) : Links α :=
  { links with prev := Function.update links.prev node target }

@[simp] theorem setNext_next (links : Links α) (node target x : α) :
    (links.setNext node target).next x = if x = node then target else links.next x := by
  simp [setNext, Function.update_apply]

@[simp] theorem setNext_prev (links : Links α) (node target x : α) :
    (links.setNext node target).prev x = links.prev x := rfl

@[simp] theorem setPrev_prev (links : Links α) (node target x : α) :
    (links.setPrev node target).prev x = if x = node then target else links.prev x := by
  simp [setPrev, Function.update_apply]

@[simp] theorem setPrev_next (links : Links α) (node target x : α) :
    (links.setPrev node target).next x = links.next x := rfl

end Writes

/-- The two link fields of a node are the same in both states. -/
def Agree (links other : Links α) (x : α) : Prop :=
  other.next x = links.next x ∧ other.prev x = links.prev x

theorem Agree.refl (links : Links α) (x : α) : links.Agree links x :=
  ⟨rfl, rfl⟩

theorem Agree.trans {links middle other : Links α} {x : α}
    (first : links.Agree middle x) (second : middle.Agree other x) : links.Agree other x :=
  ⟨second.1.trans first.1, second.2.trans first.2⟩

/-- Two nodes follow each other, in both directions. -/
def Linked (links : Links α) (left right : α) : Prop :=
  links.next left = right ∧ links.prev right = left

/-- Every two neighbours of the list follow each other. -/
def Path (links : Links α) (nodes : List α) : Prop :=
  nodes.IsChain links.Linked

/-- A path only reads the `next` field of its nodes before the last and the
`prev` field of its nodes after the first. -/
theorem Path.congr {links other : Links α} {nodes : List α}
    (path : links.Path nodes)
    (nextEq : ∀ x ∈ nodes.dropLast, other.next x = links.next x)
    (prevEq : ∀ x ∈ nodes.tail, other.prev x = links.prev x) : other.Path nodes := by
  induction nodes with
  | nil => exact .nil
  | cons first rest ih =>
      cases rest with
      | nil => exact .singleton first
      | cons second rest =>
          have here := (List.isChain_cons_cons.mp path).1
          have later := (List.isChain_cons_cons.mp path).2
          refine List.isChain_cons_cons.mpr ⟨⟨?_, ?_⟩, ih later ?_ ?_⟩
          · rw [nextEq first (by simp)]
            exact here.1
          · rw [prevEq second (by simp)]
            exact here.2
          · intro x member
            exact nextEq x (by simp [member])
          · intro x member
            exact prevEq x (by simp only [List.tail_cons] at member ⊢; simp [member])

/-- A path without repetitions does not read the links that leave it. -/
theorem Path.congr_inner {links other : Links α} {nodes : List α} {first last : α}
    (path : links.Path nodes) (nodup : nodes.Nodup)
    (atFirst : nodes.head? = some first) (atLast : nodes.getLast? = some last)
    (nextEq : ∀ x ∈ nodes, x ≠ last → other.next x = links.next x)
    (prevEq : ∀ x ∈ nodes, x ≠ first → other.prev x = links.prev x) : other.Path nodes := by
  refine path.congr ?_ ?_
  · intro x member
    refine nextEq x (List.dropLast_subset nodes member) ?_
    rintro rfl
    rw [← List.dropLast_append_getLast? x atLast] at nodup
    simp only [List.nodup_append] at nodup
    exact nodup.2.2 x member x (by simp) rfl
  · intro x member
    refine prevEq x (List.mem_of_mem_tail member) ?_
    rintro rfl
    cases nodes with
    | nil => simp at atFirst
    | cons first rest => simp_all

/-- Bridging: linking the nodes on both sides of a stretch cuts it out. -/
theorem Path.bridge {links other : Links α} {front back : List α} {left right : α}
    (middle : List α)
    (path : links.Path (front ++ left :: (middle ++ right :: back)))
    (nextFresh : left ∉ front ++ (right :: back).dropLast)
    (prevFresh : right ∉ (front ++ [left]).tail ++ back)
    (nextEq : ∀ x, x ≠ left → other.next x = links.next x)
    (prevEq : ∀ x, x ≠ right → other.prev x = links.prev x)
    (bridge : other.Linked left right) :
    other.Path (front ++ left :: right :: back) := by
  have before : links.Path (front ++ [left]) :=
    List.IsChain.left_of_append
      (show List.IsChain _ (front ++ [left] ++ (middle ++ right :: back)) by
        simpa [Path] using path)
  have after : links.Path (right :: back) :=
    List.IsChain.right_of_append
      (show List.IsChain _ (front ++ left :: middle ++ right :: back) by simpa [Path] using path)
  refine List.isChain_append_cons_cons.mpr ⟨?_, bridge, ?_⟩
  · refine before.congr ?_ ?_
    · intro x member
      simp only [List.dropLast_concat] at member
      refine nextEq x ?_
      rintro rfl
      exact nextFresh (by simp [member])
    · intro x member
      refine prevEq x ?_
      rintro rfl
      exact prevFresh (by simp [member])
  · refine after.congr ?_ ?_
    · intro x member
      refine nextEq x ?_
      rintro rfl
      exact nextFresh (by simp [member])
    · intro x member
      simp only [List.tail_cons] at member
      refine prevEq x ?_
      rintro rfl
      exact prevFresh (by simp [member])

/-- Hooking in: linking a fresh node to two neighbours puts it between them. -/
theorem Path.hook {links other : Links α} {front back : List α} {left right node : α}
    (path : links.Path (front ++ left :: right :: back))
    (nextFresh : left ∉ front ++ (right :: back).dropLast)
    (prevFresh : right ∉ (front ++ [left]).tail ++ back)
    (fresh : node ∉ front ++ left :: right :: back)
    (nextEq : ∀ x, x ≠ left → x ≠ node → other.next x = links.next x)
    (prevEq : ∀ x, x ≠ right → x ≠ node → other.prev x = links.prev x)
    (linkedLeft : other.Linked left node) (linkedRight : other.Linked node right) :
    other.Path (front ++ left :: node :: right :: back) := by
  simp only [List.mem_append, List.mem_cons, not_or] at fresh
  obtain ⟨freshFront, freshLeft, freshRight, freshBack⟩ := fresh
  have before : links.Path (front ++ [left]) :=
    (List.isChain_append_cons_cons.mp path).1
  have after : links.Path (right :: back) :=
    (List.isChain_append_cons_cons.mp path).2.2
  refine List.isChain_append_cons_cons.mpr ⟨?_, linkedLeft, ?_⟩
  · refine before.congr ?_ ?_
    · intro x member
      simp only [List.dropLast_concat] at member
      refine nextEq x ?_ ?_ <;> rintro rfl
      · exact nextFresh (by simp [member])
      · exact freshFront member
    · intro x member
      refine prevEq x ?_ ?_ <;> rintro rfl
      · exact prevFresh (by simp [member])
      · have := List.mem_of_mem_tail member
        simp only [List.mem_append, List.mem_singleton] at this
        tauto
  · refine List.isChain_cons_cons.mpr ⟨linkedRight, after.congr ?_ ?_⟩
    · intro x member
      refine nextEq x ?_ ?_ <;> rintro rfl
      · exact nextFresh (by simp [member])
      · have := List.dropLast_subset _ member
        simp only [List.mem_cons] at this
        tauto
    · intro x member
      simp only [List.tail_cons] at member
      refine prevEq x ?_ ?_ <;> rintro rfl
      · exact prevFresh (by simp [member])
      · exact freshBack member

end Links

/-- The head and the nodes form one circle: every neighbour relation holds in
both directions and no node occurs twice. -/
structure IsRing (links : Links α) (head : α) (nodes : List α) : Prop where
  nodup : (head :: nodes).Nodup
  path : links.Path (head :: nodes ++ [head])

instance [DecidableEq α] (links : Links α) (head : α) (nodes : List α) :
    Decidable (IsRing links head nodes) :=
  have : DecidableRel links.Linked := fun left right =>
    inferInstanceAs (Decidable (links.next left = right ∧ links.prev right = left))
  have : Decidable (links.Path (head :: nodes ++ [head])) :=
    inferInstanceAs (Decidable (List.IsChain links.Linked _))
  decidable_of_iff ((head :: nodes).Nodup ∧ links.Path (head :: nodes ++ [head]))
    ⟨fun both => ⟨both.1, both.2⟩, fun ring => ⟨ring.nodup, ring.path⟩⟩

namespace IsRing

variable {links other : Links α} {head node left right : α}
variable {nodes nodes' before after front back : List α}

/-- A ring only reads the links of its head and its nodes. -/
theorem congr (ring : IsRing links head nodes)
    (same : ∀ x ∈ head :: nodes, links.Agree other x) : IsRing other head nodes where
  nodup := ring.nodup
  path := by
    refine ring.path.congr ?_ ?_
    · intro x member
      rw [List.dropLast_concat] at member
      exact (same x member).1
    · intro x member
      refine (same x ?_).2
      simp only [List.cons_append, List.tail_cons, List.mem_append,
        List.mem_cons] at member ⊢
      tauto

/-- Neighbours on the circle are linked to each other. -/
theorem linked (ring : IsRing links head nodes)
    (split : head :: nodes ++ [head] = front ++ left :: right :: back) :
    links.Linked left right := by
  have path := ring.path
  rw [split] at path
  exact (List.isChain_append_cons_cons.mp path).2.1

/-- Every stretch of the circle is a path. -/
theorem stretch (ring : IsRing links head nodes)
    (split : head :: nodes ++ [head] = front ++ nodes' ++ back) : links.Path nodes' := by
  have path := ring.path
  rw [split] at path
  exact (path.left_of_append).right_of_append

/-- Every place of a circle has a node on its left and one on its right. -/
theorem cut (head : α) (before after : List α) :
    (∃ front left, head :: before = front ++ [left]) ∧
      ∃ right back, after ++ [head] = right :: back := by
  constructor
  · rcases List.eq_nil_or_concat' (head :: before) with equal | ⟨front, left, equal⟩
    · exact absurd equal (by simp)
    · exact ⟨front, left, equal⟩
  · cases after with
    | nil => exact ⟨head, [], rfl⟩
    | cons first rest => exact ⟨first, rest ++ [head], rfl⟩

theorem prev_cut (ring : IsRing links head (before ++ node :: after))
    (frontEq : head :: before = front ++ [left]) : links.prev node = left := by
  have split : head :: (before ++ node :: after) ++ [head] =
      front ++ left :: node :: (after ++ [head]) := by
    rw [← List.cons_append, frontEq]
    simp
  exact (ring.linked split).2

theorem next_cut (ring : IsRing links head (before ++ node :: after))
    (backEq : after ++ [head] = right :: back) : links.next node = right := by
  have split : head :: (before ++ node :: after) ++ [head] =
      (head :: before) ++ node :: right :: back := by
    simp [backEq]
  exact (ring.linked split).1

/-- At a cut, the node on the left occurs nowhere else as a predecessor. -/
theorem left_fresh (middle : List α) (ring : IsRing links head (before ++ (middle ++ after)))
    (frontEq : head :: before = front ++ [left]) (backEq : after ++ [head] = right :: back) :
    left ∉ front ++ (right :: back).dropLast := by
  have nodup := ring.nodup
  rw [← List.cons_append, frontEq] at nodup
  rw [← backEq, List.dropLast_concat]
  simp only [List.append_assoc, List.singleton_append, List.nodup_append, List.nodup_cons,
    List.mem_cons, List.mem_append] at nodup ⊢
  grind

/-- At a cut, the node on the right occurs nowhere else as a successor. -/
theorem right_fresh (middle : List α) (ring : IsRing links head (before ++ (middle ++ after)))
    (frontEq : head :: before = front ++ [left]) (backEq : after ++ [head] = right :: back) :
    right ∉ (front ++ [left]).tail ++ back := by
  have nodup : (before ++ (middle ++ (after ++ [head]))).Nodup := by
    have rotated : (before ++ (middle ++ (after ++ [head]))).Perm
        (head :: (before ++ (middle ++ after))) := by
      have rotated : (before ++ (middle ++ after) ++ [head]).Perm
          ([head] ++ (before ++ (middle ++ after))) := List.perm_append_comm
      simpa using rotated
    exact rotated.nodup_iff.mpr ring.nodup
  rw [← frontEq, List.tail_cons]
  rw [backEq] at nodup
  simp only [List.nodup_append, List.nodup_cons, List.mem_cons, List.mem_append] at nodup ⊢
  grind

/-- Linking the two neighbours of a node to each other takes it out of the
circle. -/
theorem bridge (ring : IsRing links head (before ++ node :: after))
    (frontEq : head :: before = front ++ [left]) (backEq : after ++ [head] = right :: back)
    (nextEq : ∀ x, x ≠ left → other.next x = links.next x)
    (prevEq : ∀ x, x ≠ right → other.prev x = links.prev x)
    (bridge : other.Linked left right) :
    IsRing other head (before ++ after) where
  nodup := by
    have nodup := ring.nodup
    simp only [List.nodup_cons, List.mem_append, List.mem_cons, List.nodup_append] at nodup ⊢
    grind
  path := by
    have path : links.Path (head :: before ++ node :: (after ++ [head])) := by
      simpa using ring.path
    suffices other.Path (head :: before ++ (after ++ [head])) by simpa using this
    rw [frontEq, backEq, List.append_assoc] at path ⊢
    refine Links.Path.bridge [node] path ?_ ?_ nextEq prevEq bridge
    · exact left_fresh [node] ring frontEq backEq
    · exact right_fresh [node] ring frontEq backEq

/-- Linking a fresh node to two neighbours puts it between them. -/
theorem hook (ring : IsRing links head (before ++ after))
    (fresh : node ∉ head :: (before ++ after))
    (frontEq : head :: before = front ++ [left]) (backEq : after ++ [head] = right :: back)
    (nextEq : ∀ x, x ≠ left → x ≠ node → other.next x = links.next x)
    (prevEq : ∀ x, x ≠ right → x ≠ node → other.prev x = links.prev x)
    (linkedLeft : other.Linked left node) (linkedRight : other.Linked node right) :
    IsRing other head (before ++ node :: after) where
  nodup := by
    have nodup := ring.nodup
    simp only [List.nodup_cons, List.mem_append, List.mem_cons, List.nodup_append] at nodup fresh ⊢
    grind
  path := by
    have path : links.Path (head :: before ++ (after ++ [head])) := by
      simpa using ring.path
    suffices other.Path (head :: before ++ node :: (after ++ [head])) by simpa using this
    rw [frontEq, backEq, List.append_assoc] at path ⊢
    refine Links.Path.hook path ?_ ?_ ?_ nextEq prevEq linkedLeft linkedRight
    · exact left_fresh [] ring frontEq backEq
    · exact right_fresh [] ring frontEq backEq
    · have whole : front ++ left :: right :: back = head :: before ++ (after ++ [head]) := by
        rw [frontEq, backEq]
        simp
      rw [whole]
      simp only [List.mem_append, List.mem_cons] at fresh ⊢
      grind

/-- A stretch of a circle closes up under a head that its two ends are linked
to. -/
theorem of_path (path : links.Path nodes) (nodup : (head :: nodes).Nodup)
    (first : ∀ x ∈ nodes.head?, links.Linked head x)
    (last : ∀ x ∈ nodes.getLast?, links.Linked x head)
    (nonempty : nodes ≠ []) : IsRing links head nodes where
  nodup := nodup
  path := by
    refine List.isChain_cons.mpr ⟨?_, List.isChain_append.mpr ⟨path, .singleton head, ?_⟩⟩
    · cases nodes with
      | nil => contradiction
      | cons => exact first
    · intro x member y atHead
      rw [List.head?_singleton, Option.mem_some_iff] at atHead
      exact atHead ▸ last x member

/-- A path closes up under a new head that only the two ends are linked to. -/
theorem of_ends {first last : α} (path : links.Path nodes) (nodup : (head :: nodes).Nodup)
    (atFirst : nodes.head? = some first) (atLast : nodes.getLast? = some last)
    (nextEq : ∀ x ∈ nodes, x ≠ last → other.next x = links.next x)
    (prevEq : ∀ x ∈ nodes, x ≠ first → other.prev x = links.prev x)
    (firstLinked : other.Linked head first) (lastLinked : other.Linked last head) :
    IsRing other head nodes := by
  have nodesNodup := (List.nodup_cons.mp nodup).2
  refine IsRing.of_path (path.congr_inner nodesNodup atFirst atLast nextEq prevEq) nodup ?_ ?_ ?_
  · simpa [atFirst] using firstLinked
  · simpa [atLast] using lastLinked
  · rintro rfl
    simp at atFirst

theorem nodes_path (ring : IsRing links head nodes) : links.Path nodes :=
  (List.isChain_append.mp (List.isChain_cons.mp ring.path).2).1

/-- The empty ring: a head linked to itself. -/
theorem nil_iff : IsRing links head [] ↔ links.Linked head head := by
  constructor
  · intro ring
    exact ring.linked (show [head] ++ [head] = [] ++ head :: head :: [] from rfl)
  · intro self
    exact ⟨List.nodup_singleton head, List.isChain_pair.mpr self⟩

theorem next_head (ring : IsRing links head nodes) :
    links.next head = nodes.head?.getD head := by
  cases nodes with
  | nil => exact (nil_iff.mp ring).1
  | cons first rest =>
      have split : head :: (first :: rest) ++ [head] =
          [] ++ head :: first :: (rest ++ [head]) := rfl
      exact (ring.linked split).1

theorem prev_head (ring : IsRing links head nodes) :
    links.prev head = nodes.getLast?.getD head := by
  rcases List.eq_nil_or_concat' nodes with rfl | ⟨init, last, rfl⟩
  · exact (nil_iff.mp ring).2
  · have split : head :: (init ++ [last]) ++ [head] = (head :: init) ++ last :: head :: [] := by
      simp
    simpa using (ring.linked split).2

theorem next_node (ring : IsRing links head (before ++ node :: after)) :
    links.next node = after.head?.getD head := by
  cases after with
  | nil =>
      have split : head :: (before ++ [node]) ++ [head] =
          (head :: before) ++ node :: head :: [] := by simp
      exact (ring.linked split).1
  | cons second rest =>
      have split : head :: (before ++ node :: second :: rest) ++ [head] =
          (head :: before) ++ node :: second :: (rest ++ [head]) := by simp
      exact (ring.linked split).1

/-- What follows a stretch of nodes from the head on. -/
theorem next_front (ring : IsRing links head (before ++ after)) :
    links.next (before.getLast?.getD head) = after.head?.getD head := by
  rcases List.eq_nil_or_concat' before with rfl | ⟨init, last, rfl⟩
  · exact ring.next_head
  · rw [List.append_assoc] at ring
    simpa using ring.next_node

/-- The links determine the nodes of a ring. -/
theorem unique (first : IsRing links head nodes) (second : IsRing links head nodes') :
    nodes = nodes' := by
  suffices tails : ∀ before after after', IsRing links head (before ++ after) →
      IsRing links head (before ++ after') → after = after' from tails [] nodes nodes' first second
  intro before after
  induction after generalizing before with
  | nil =>
      intro after' first second
      have same := first.next_front.symm.trans second.next_front
      cases after' with
      | nil => rfl
      | cons node rest =>
          have same : head = node := same
          have fresh := (List.nodup_cons.mp second.nodup).1
          exact absurd (by simp [← same]) fresh
  | cons node rest ih =>
      intro after' first second
      have same := first.next_front.symm.trans second.next_front
      cases after' with
      | nil =>
          have same : node = head := same
          have fresh := (List.nodup_cons.mp first.nodup).1
          exact absurd (by simp [same]) fresh
      | cons node' rest' =>
          obtain rfl : node = node' := same
          rw [List.append_cons] at first second
          rw [ih _ _ first second]

end IsRing

end BachScheduler.Ring
