import BachScheduler.Lib.Ring

/-!
# The intrusive lists of `list.h`

The operations of `struct cds_list_head` on the two link fields, store by store
in the order of the source, and what each does to a circular list.
-/

namespace BachScheduler

open BachScheduler.Ring

section Operations

variable {α : Type} [DecidableEq α]

/-- `CDS_INIT_LIST_HEAD`. -/
def cdsInitListHead (ptr : α) (links : Links α) : Links α :=
  (links.setPrev ptr ptr).setNext ptr ptr

/-- `cds_list_add`: link `newp` behind `head`. -/
def cdsListAdd (newp head : α) (links : Links α) : Links α :=
  let links := links.setPrev (links.next head) newp
  let links := links.setNext newp (links.next head)
  let links := links.setPrev newp head
  links.setNext head newp

/-- `cds_list_add_tail`: link `newp` before `head`. -/
def cdsListAddTail (newp head : α) (links : Links α) : Links α :=
  let links := links.setNext (links.prev head) newp
  let links := links.setNext newp head
  let links := links.setPrev newp (links.prev head)
  links.setPrev head newp

/-- `__cds_list_del`: link two nodes to each other. -/
def cdsListDelBetween (prev next : α) (links : Links α) : Links α :=
  (links.setPrev next prev).setNext prev next

/-- `cds_list_del`. -/
def cdsListDel (elem : α) (links : Links α) : Links α :=
  cdsListDelBetween (links.prev elem) (links.next elem) links

/-- `cds_list_empty`. -/
def cdsListEmpty (head : α) (links : Links α) : Bool :=
  head = links.next head

end Operations

section Rings

variable {α : Type}
variable {links : Links α} {head node x : α} {nodes before after : List α}

variable [DecidableEq α]

theorem cdsInitListHead_ring : IsRing (cdsInitListHead head links) head [] :=
  IsRing.nil_iff.mpr ⟨by simp [cdsInitListHead], by simp [cdsInitListHead]⟩

theorem cdsInitListHead_other (other : x ≠ node) :
    links.Agree (cdsInitListHead node links) x := by
  simp [Links.Agree, cdsInitListHead, other]

theorem cdsListDel_ring (ring : IsRing links head (before ++ node :: after)) :
    IsRing (cdsListDel node links) head (before ++ after) := by
  obtain ⟨⟨front, left, frontEq⟩, right, back, backEq⟩ := IsRing.cut head before after
  have prevEq := ring.prev_cut frontEq
  have nextEq := ring.next_cut backEq
  refine ring.bridge frontEq backEq ?_ ?_ ⟨?_, ?_⟩
  · intro x other
    simp [cdsListDel, cdsListDelBetween, prevEq, other]
  · intro x other
    simp [cdsListDel, cdsListDelBetween, nextEq, other]
  · simp [cdsListDel, cdsListDelBetween, prevEq, nextEq]
  · simp [cdsListDel, cdsListDelBetween, prevEq, nextEq]

/-- Deleting a node of a circle writes only to that circle. -/
theorem cdsListDel_other (ring : IsRing links head nodes) (member : node ∈ nodes)
    (outside : x ∉ head :: nodes) :
    links.Agree (cdsListDel node links) x := by
  obtain ⟨before, after, rfl⟩ := List.append_of_mem member
  obtain ⟨⟨front, left, frontEq⟩, right, back, backEq⟩ := IsRing.cut head before after
  have leftMem : left ∈ head :: before := frontEq ▸ by simp
  have rightMem : right ∈ after ++ [head] := backEq ▸ by simp
  have notLeft : x ≠ left := by
    rintro rfl
    simp only [List.mem_cons, List.mem_append] at leftMem outside
    tauto
  have notRight : x ≠ right := by
    rintro rfl
    simp only [List.mem_cons, List.mem_append, List.not_mem_nil, or_false] at rightMem outside
    tauto
  simp [Links.Agree, cdsListDel, cdsListDelBetween, ring.prev_cut frontEq, ring.next_cut backEq,
    notLeft, notRight]

/-- A node linked only to itself can be deleted without any effect. -/
theorem cdsListDel_self (self : links.Linked node node) : cdsListDel node links = links := by
  obtain ⟨nextEq, prevEq⟩ := self
  cases links with
  | mk next prev =>
      simp only [cdsListDel, cdsListDelBetween, Links.setPrev, Links.setNext] at *
      simp [nextEq, prevEq]

/-- `cds_list_add` behind the last node of a stretch that starts at the head. -/
theorem cdsListAdd_ring {front : List α} {left : α}
    (ring : IsRing links head (before ++ after)) (fresh : node ∉ head :: (before ++ after))
    (frontEq : head :: before = front ++ [left]) :
    IsRing (cdsListAdd node left links) head (before ++ node :: after) := by
  obtain ⟨-, right, back, backEq⟩ := IsRing.cut head before after
  have split : head :: (before ++ after) ++ [head] = front ++ left :: right :: back := by
    rw [← List.cons_append, frontEq, List.append_assoc, List.append_assoc, backEq]
    rfl
  have nextEq : links.next left = right := (ring.linked split).1
  have leftMem : left ∈ head :: before := frontEq ▸ by simp
  have rightMem : right ∈ after ++ [head] := backEq ▸ by simp
  have notLeft : node ≠ left := by
    rintro rfl
    simp only [List.mem_cons, List.mem_append] at leftMem fresh
    tauto
  have notRight : node ≠ right := by
    rintro rfl
    simp only [List.mem_cons, List.mem_append, List.not_mem_nil, or_false] at rightMem fresh
    tauto
  refine ring.hook fresh frontEq backEq ?_ ?_ ⟨?_, ?_⟩ ⟨?_, ?_⟩
  · intro x otherLeft otherNode
    simp [cdsListAdd, otherLeft, otherNode]
  · intro x otherRight otherNode
    simp [cdsListAdd, nextEq, otherRight, otherNode]
  · simp [cdsListAdd]
  · simp [cdsListAdd]
  · simp [cdsListAdd, nextEq, notLeft]
  · simp [cdsListAdd, nextEq, notRight.symm]

theorem cdsListAdd_other {left : α} (ring : IsRing links head nodes) (member : left ∈ head :: nodes)
    (outside : x ∉ head :: nodes) (other : x ≠ node) :
    links.Agree (cdsListAdd node left links) x := by
  have nextMem : links.next left ∈ head :: nodes := by
    rcases List.mem_cons.mp member with rfl | member
    · rw [ring.next_head]
      cases nodes <;> simp
    · obtain ⟨before, after, rfl⟩ := List.append_of_mem member
      rw [ring.next_node]
      cases after <;> simp
  have notNext : x ≠ links.next left := by
    rintro rfl
    exact outside nextMem
  have notLeft : x ≠ left := by
    rintro rfl
    exact outside member
  simp [Links.Agree, cdsListAdd, notNext, notLeft, other]

/-- `cds_list_add_tail` appends to the list under `head`. -/
theorem cdsListAddTail_ring (ring : IsRing links head nodes) (fresh : node ∉ head :: nodes) :
    IsRing (cdsListAddTail node head links) head (nodes ++ [node]) := by
  obtain ⟨⟨front, left, frontEq⟩, -⟩ := IsRing.cut head nodes []
  have split : head :: nodes ++ [head] = front ++ left :: head :: [] := by
    rw [frontEq, List.append_assoc]
    rfl
  have prevEq : links.prev head = left := (ring.linked split).2
  have ring : IsRing links head (nodes ++ []) := by simpa using ring
  have leftMem : left ∈ head :: nodes := frontEq ▸ by simp
  have notHead : node ≠ head := by
    rintro rfl
    simp at fresh
  have notLeft : node ≠ left := by
    rintro rfl
    exact fresh leftMem
  refine ring.hook (by simpa using fresh) frontEq rfl ?_ ?_ ⟨?_, ?_⟩ ⟨?_, ?_⟩
  · intro x otherLeft otherNode
    simp [cdsListAddTail, prevEq, otherLeft, otherNode]
  · intro x otherHead otherNode
    simp [cdsListAddTail, otherHead, otherNode]
  · simp [cdsListAddTail, prevEq, notLeft.symm]
  · simp [cdsListAddTail, prevEq, notHead]
  · simp [cdsListAddTail]
  · simp [cdsListAddTail]

theorem cdsListAddTail_other (ring : IsRing links head nodes)
    (outside : x ∉ head :: nodes) (other : x ≠ node) :
    links.Agree (cdsListAddTail node head links) x := by
  have prevMem : links.prev head ∈ head :: nodes := by
    rw [ring.prev_head]
    cases equal : nodes.getLast? with
    | none => simp
    | some last => simp [List.mem_of_getLast? equal]
  have notPrev : x ≠ links.prev head := by
    rintro rfl
    exact outside prevMem
  have notHead : x ≠ head := by
    rintro rfl
    simp at outside
  simp [Links.Agree, cdsListAddTail, notPrev, notHead, other]

theorem cdsListEmpty_iff (ring : IsRing links head nodes) :
    cdsListEmpty head links = true ↔ nodes = [] := by
  have nodup := ring.nodup
  cases nodes with
  | nil => simp [cdsListEmpty, ring.next_head]
  | cons first rest =>
      simp only [List.nodup_cons, List.mem_cons, not_or] at nodup
      simp [cdsListEmpty, ring.next_head, nodup.1.1]

end Rings

end BachScheduler
