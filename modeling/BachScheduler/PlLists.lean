import BachScheduler.State

/-!
# Programs on lists

The lists of programs as circular lists of their `pl_node`s: the lists are disjoint,
and some programs are on no list and linked to themselves.  Each operation on a node
does what its name says to the lists of programs.
-/

namespace BachScheduler

open BachScheduler.Ring

/-- The programs behind each list head, in order. -/
abbrev Lists := Node → List ProgPtr

/-- The only occurrence in a list is erased. -/
theorem erase_middle {before after : List ProgPtr} {prog : ProgPtr}
    (nodup : (before ++ prog :: after).Nodup) :
    (before ++ prog :: after).erase prog = before ++ after := by
  have fresh : prog ∉ before := fun there =>
    (List.nodup_append.mp nodup).2.2 prog there prog (by simp) rfl
  rw [List.erase_append_right _ fresh, List.erase_cons_head]

namespace Lists

/-- Take a program off a list. -/
def drop (on : Lists) (head : Node) (prog : ProgPtr) : Lists :=
  Function.update on head ((on head).erase prog)

/-- Append a program to a list. -/
def push (on : Lists) (head : Node) (prog : ProgPtr) : Lists :=
  Function.update on head (on head ++ [prog])

/-- Move a program from one list to the end of another one. -/
def move (on : Lists) (source target : Node) (prog : ProgPtr) : Lists :=
  (on.drop source prog).push target prog

end Lists

/-- The circular lists behind `heads`.  Their programs have addresses below `bound`, and
those in `idle` are linked to themselves. -/
structure PlRings (heads : List Node) (bound : Nat) (links : Links Node) (on : Lists)
    (idle : List ProgPtr) : Prop where
  ring : ∀ head ∈ heads, IsRing links head ((on head).map Node.plNode)
  apart : ∀ head ∈ heads, ∀ other ∈ heads, ∀ prog ∈ on head, prog ∈ on other → head = other
  bounded : ∀ head ∈ heads, ∀ prog ∈ on head, prog < bound
  headNode : ∀ head ∈ heads, ∀ prog, head ≠ .plNode prog
  idleSelf : ∀ prog ∈ idle, links.Linked (.plNode prog) (.plNode prog)
  idleApart : ∀ prog ∈ idle, ∀ head ∈ heads, prog ∉ on head

/-- A program is on none of the lists. -/
def Lists.Off (on : Lists) (heads : List Node) (prog : ProgPtr) : Prop :=
  ∀ head ∈ heads, prog ∉ on head

namespace PlRings

variable {heads : List Node} {bound : Nat} {links : Links Node} {on : Lists}
variable {idle : List ProgPtr} {head target : Node} {prog : ProgPtr}

theorem empty (rings : ∀ head ∈ heads, IsRing links head [])
    (apart : ∀ head ∈ heads, ∀ prog, head ≠ .plNode prog) :
    PlRings heads bound links (fun _ => []) [] where
  ring := rings
  apart _ _ _ _ _ listed := absurd listed (by simp)
  bounded _ _ _ listed := absurd listed (by simp)
  headNode := apart
  idleSelf _ resting := absurd resting (by simp)
  idleApart _ resting := absurd resting (by simp)

theorem nodup (rings : PlRings heads bound links on idle) (member : head ∈ heads) :
    (on head).Nodup :=
  (List.nodup_cons.mp (rings.ring head member).nodup).2.of_map _

theorem length_le (rings : PlRings heads bound links on idle) (member : head ∈ heads) :
    (on head).length ≤ bound := by
  have subset : on head ⊆ List.range bound := fun prog listed =>
    List.mem_range.mpr (rings.bounded head member prog listed)
  simpa using ((rings.nodup member).subperm subset).length_le

theorem ring_congr (rings : PlRings heads bound links on idle) (member : head ∈ heads)
    {after : Links Node} (same : links.Agree after head)
    (others : ∀ prog ∈ on head, links.Agree after (.plNode prog)) :
    IsRing after head ((on head).map Node.plNode) := by
  refine (rings.ring head member).congr fun x place => ?_
  rcases List.mem_cons.mp place with rfl | place
  · exact same
  · obtain ⟨prog, listed, rfl⟩ := List.mem_map.mp place
    exact others prog listed

/-- The nodes of other lists lie outside of a list. -/
theorem outside (rings : PlRings heads bound links on idle) (member : head ∈ heads)
    {other : Node} (otherMember : other ∈ heads) (differs : other ≠ head) :
    other ∉ head :: (on head).map Node.plNode ∧
      ∀ prog ∈ on other, Node.plNode prog ∉ head :: (on head).map Node.plNode := by
  constructor
  · intro place
    rcases List.mem_cons.mp place with equal | place
    · exact differs equal
    · obtain ⟨prog, -, equal⟩ := List.mem_map.mp place
      exact rings.headNode other otherMember prog equal.symm
  · intro prog listed place
    rcases List.mem_cons.mp place with equal | place
    · exact rings.headNode head member prog equal.symm
    · obtain ⟨same, there, equal⟩ := List.mem_map.mp place
      cases equal
      exact differs (rings.apart other otherMember head member prog listed there)

/-- The node of a program on no list lies outside of every list. -/
theorem off_outside (rings : PlRings heads bound links on idle) (member : head ∈ heads)
    (off : prog ∉ on head) : Node.plNode prog ∉ head :: (on head).map Node.plNode := by
  intro place
  rcases List.mem_cons.mp place with equal | place
  · exact rings.headNode head member prog equal.symm
  · obtain ⟨same, there, equal⟩ := List.mem_map.mp place
    cases equal
    exact off there

/-- `cds_list_del` takes a program off its list. -/
theorem del (rings : PlRings heads bound links on idle) (member : head ∈ heads)
    (listed : prog ∈ on head) :
    PlRings heads bound (cdsListDel (.plNode prog) links) (on.drop head prog) idle ∧
      (on.drop head prog).Off heads prog := by
  have ring := rings.ring head member
  have node : Node.plNode prog ∈ (on head).map Node.plNode := List.mem_map_of_mem listed
  have frame : ∀ x, x ∉ head :: (on head).map Node.plNode →
      links.Agree (cdsListDel (.plNode prog) links) x :=
    fun x outside => cdsListDel_other ring node outside
  have subset : ∀ other, ∀ p ∈ on.drop head prog other, p ∈ on other := by
    intro other p there
    unfold Lists.drop at there
    by_cases equal : other = head
    · subst equal
      rw [Function.update_self] at there
      exact List.mem_of_mem_erase there
    · rwa [Function.update_of_ne equal] at there
  constructor
  · constructor
    case ring =>
      intro other otherMember
      by_cases equal : other = head
      · subst equal
        obtain ⟨before, after, split⟩ := List.append_of_mem listed
        have nodup := rings.nodup member
        rw [split] at ring nodup
        rw [List.map_append, List.map_cons] at ring
        have erased : (on other).erase prog = before ++ after := by
          rw [split, erase_middle nodup]
        simpa [Lists.drop, erased] using cdsListDel_ring ring
      · have outside := rings.outside member otherMember equal
        simp only [Lists.drop, Function.update_of_ne equal]
        exact rings.ring_congr otherMember (frame other outside.1)
          fun p there => frame _ (outside.2 p there)
    case apart =>
      intro first firstMember second secondMember p inFirst inSecond
      exact rings.apart first firstMember second secondMember p (subset _ _ inFirst)
        (subset _ _ inSecond)
    case bounded =>
        exact fun other otherMember p there => rings.bounded other otherMember p (subset _ _ there)
    case headNode => exact rings.headNode
    case idleSelf =>
      intro p resting
      have agree := frame _ (rings.off_outside member (rings.idleApart p resting head member))
      have self := rings.idleSelf p resting
      exact ⟨agree.1.trans self.1, agree.2.trans self.2⟩
    case idleApart => exact fun p resting other otherMember there =>
        rings.idleApart p resting other otherMember (subset _ _ there)
  · intro other otherMember there
    by_cases equal : other = head
    · subst equal
      rw [Lists.drop, Function.update_self] at there
      exact (rings.nodup member).not_mem_erase there
    · exact equal (rings.apart other otherMember head member prog (subset _ _ there) listed)

/-- `CDS_INIT_LIST_HEAD` on the node of a program that is on no list. -/
theorem init (rings : PlRings heads bound links on idle) (off : on.Off heads prog) :
    PlRings heads bound (cdsInitListHead (.plNode prog) links) on (prog :: idle) where
  ring other member :=
    rings.ring_congr member
      (cdsInitListHead_other (rings.headNode other member prog))
      fun p there => cdsInitListHead_other fun equal => by
        cases equal
        exact off other member there
  apart := rings.apart
  bounded := rings.bounded
  headNode := rings.headNode
  idleSelf := by
    intro p resting
    by_cases equal : p = prog
    · subst equal
      simp [Links.Linked, cdsInitListHead]
    · have resting := (List.mem_cons.mp resting).resolve_left equal
      have agree : links.Agree (cdsInitListHead (.plNode prog) links) (.plNode p) :=
        cdsInitListHead_other fun same => equal (by simpa using same)
      have self := rings.idleSelf p resting
      exact ⟨agree.1.trans self.1, agree.2.trans self.2⟩
  idleApart := by
    intro p resting other member
    rcases List.mem_cons.mp resting with rfl | resting
    · exact off other member
    · exact rings.idleApart p resting other member

/-- `cds_list_add_tail` of a program that is on no list. -/
theorem addTail (rings : PlRings heads bound links on idle) (member : target ∈ heads)
    (off : on.Off heads prog) (small : prog < bound) :
    PlRings heads bound (cdsListAddTail (.plNode prog) target links) (on.push target prog)
      (idle.filter (· ≠ prog)) := by
  have ring := rings.ring target member
  have fresh := rings.off_outside member (off target member)
  have frame : ∀ x, x ∉ target :: (on target).map Node.plNode → x ≠ .plNode prog →
      links.Agree (cdsListAddTail (.plNode prog) target links) x :=
    fun x outside other => cdsListAddTail_other ring outside other
  have mem : ∀ other p, p ∈ on.push target prog other ↔ p ∈ on other ∨ other = target ∧
      p = prog := by
    intro other p
    unfold Lists.push
    by_cases equal : other = target
    · subst equal
      simp
    · simp [equal]
  constructor
  case ring =>
    intro other otherMember
    by_cases equal : other = target
    · subst equal
      simpa [Lists.push] using cdsListAddTail_ring ring fresh
    · have outside := rings.outside member otherMember equal
      simp only [Lists.push, Function.update_of_ne equal]
      refine rings.ring_congr otherMember
        (frame other outside.1 (rings.headNode other otherMember prog))
        fun p there => frame _ (outside.2 p there) fun same => ?_
      cases same
      exact off other otherMember there
  case apart =>
    intro first firstMember second secondMember p inFirst inSecond
    rw [mem] at inFirst inSecond
    rcases inFirst with inFirst | ⟨atFirst, same⟩
    · rcases inSecond with inSecond | ⟨-, same⟩
      · exact rings.apart first firstMember second secondMember p inFirst inSecond
      · exact absurd (same ▸ inFirst) (off first firstMember)
    · rcases inSecond with inSecond | ⟨atSecond, -⟩
      · exact absurd (same ▸ inSecond) (off second secondMember)
      · exact atFirst.trans atSecond.symm
  case bounded =>
    intro other otherMember p there
    rcases (mem other p).mp there with there | ⟨-, rfl⟩
    · exact rings.bounded other otherMember p there
    · exact small
  case headNode => exact rings.headNode
  case idleSelf =>
    intro p resting
    obtain ⟨resting, differs⟩ := List.mem_filter.mp resting
    have agree := frame (.plNode p)
      (rings.off_outside member (rings.idleApart p resting target member))
      (by simpa using differs)
    have self := rings.idleSelf p resting
    exact ⟨agree.1.trans self.1, agree.2.trans self.2⟩
  case idleApart =>
    intro p resting other otherMember there
    obtain ⟨resting, differs⟩ := List.mem_filter.mp resting
    rcases (mem other p).mp there with there | ⟨-, rfl⟩
    · exact rings.idleApart p resting other otherMember there
    · simp at differs

/-- A program that rests is on no list, and its node can be deleted without any effect. -/
theorem del_idle (rings : PlRings heads bound links on idle) (resting : prog ∈ idle) :
    cdsListDel (.plNode prog) links = links ∧ on.Off heads prog :=
  ⟨cdsListDel_self (rings.idleSelf prog resting), rings.idleApart prog resting⟩

theorem forget (rings : PlRings heads bound links on idle) {fewer : List ProgPtr}
    (subset : fewer ⊆ idle) : PlRings heads bound links on fewer where
  ring := rings.ring
  apart := rings.apart
  bounded := rings.bounded
  headNode := rings.headNode
  idleSelf prog resting := rings.idleSelf prog (subset resting)
  idleApart prog resting := rings.idleApart prog (subset resting)

theorem grow (rings : PlRings heads bound links on idle) {more : Nat} (grows : bound ≤ more) :
    PlRings heads more links on idle where
  ring := rings.ring
  apart := rings.apart
  bounded head member prog listed := (rings.bounded head member prog listed).trans_le grows
  headNode := rings.headNode
  idleSelf := rings.idleSelf
  idleApart := rings.idleApart

/-- `CDS_INIT_LIST_HEAD` on a new head. -/
theorem addHead (rings : PlRings heads bound links on idle) {fresh : Node} (new : fresh ∉ heads)
    (notNode : ∀ prog, fresh ≠ .plNode prog) :
    PlRings (fresh :: heads) bound (cdsInitListHead fresh links)
      (Function.update on fresh []) idle := by
  have mem : ∀ other ∈ fresh :: heads, ∀ p ∈ Function.update on fresh [] other,
      other ∈ heads ∧ p ∈ on other := by
    intro other otherMember p there
    by_cases equal : other = fresh
    · subst equal
      simp at there
    · rw [Function.update_of_ne equal] at there
      exact ⟨(List.mem_cons.mp otherMember).resolve_left equal, there⟩
  constructor
  case ring =>
    intro other otherMember
    by_cases equal : other = fresh
    · subst equal
      rw [Function.update_self]
      exact cdsInitListHead_ring
    · rw [Function.update_of_ne equal]
      exact rings.ring_congr ((List.mem_cons.mp otherMember).resolve_left equal)
        (cdsInitListHead_other equal) fun p there => cdsInitListHead_other (notNode p).symm
  case apart =>
    intro first firstMember second secondMember p inFirst inSecond
    obtain ⟨firstMember, inFirst⟩ := mem first firstMember p inFirst
    obtain ⟨secondMember, inSecond⟩ := mem second secondMember p inSecond
    exact rings.apart first firstMember second secondMember p inFirst inSecond
  case bounded =>
    intro other otherMember p there
    obtain ⟨otherMember, there⟩ := mem other otherMember p there
    exact rings.bounded other otherMember p there
  case headNode =>
    intro other otherMember
    rcases List.mem_cons.mp otherMember with rfl | otherMember
    · exact notNode
    · exact rings.headNode other otherMember
  case idleSelf =>
    intro p resting
    have agree : links.Agree (cdsInitListHead fresh links) (.plNode p) :=
      cdsInitListHead_other (notNode p).symm
    have self := rings.idleSelf p resting
    exact ⟨agree.1.trans self.1, agree.2.trans self.2⟩
  case idleApart =>
    intro p resting other otherMember there
    obtain ⟨otherMember, there⟩ := mem other otherMember p there
    exact rings.idleApart p resting other otherMember there

/-- The programs of one list change their order. -/
theorem permute (rings : PlRings heads bound links on idle) (member : head ∈ heads)
    {after : Links Node} {progs : List ProgPtr} (perm : progs.Perm (on head))
    (ring : IsRing after head (progs.map Node.plNode)) (heap : ∀ k, Node.temp k ∉ heads)
    (frame : ∀ x ∉ head :: (on head).map Node.plNode, (∀ k, x ≠ .temp k) → links.Agree after x) :
    PlRings heads bound after (Function.update on head progs) idle := by
  have mem : ∀ other p, p ∈ Function.update on head progs other ↔ p ∈ on other := by
    intro other p
    by_cases equal : other = head
    · subst equal
      rw [Function.update_self, perm.mem_iff]
    · rw [Function.update_of_ne equal]
  constructor
  case ring =>
    intro other otherMember
    by_cases equal : other = head
    · subst equal
      rwa [Function.update_self]
    · have outside := rings.outside member otherMember equal
      rw [Function.update_of_ne equal]
      refine rings.ring_congr otherMember (frame other outside.1 fun k same => ?_)
        fun p there => frame _ (outside.2 p there) fun k => Node.noConfusion
      exact heap k (same ▸ otherMember)
  case apart =>
    intro first firstMember second secondMember p inFirst inSecond
    rw [mem] at inFirst inSecond
    exact rings.apart first firstMember second secondMember p inFirst inSecond
  case bounded =>
    intro other otherMember p there
    exact rings.bounded other otherMember p ((mem other p).mp there)
  case headNode => exact rings.headNode
  case idleSelf =>
    intro p resting
    have agree := frame _ (rings.off_outside member (rings.idleApart p resting head member))
      fun k => Node.noConfusion
    have self := rings.idleSelf p resting
    exact ⟨agree.1.trans self.1, agree.2.trans self.2⟩
  case idleApart =>
    intro p resting other otherMember there
    exact rings.idleApart p resting other otherMember ((mem other p).mp there)

/-- Some lists need not be remembered. -/
theorem restrict (rings : PlRings heads bound links on idle) {fewer : List Node} {other : Lists}
    (subset : fewer ⊆ heads) (same : ∀ head ∈ fewer, other head = on head) :
    PlRings fewer bound links other idle where
  ring head member := same head member ▸ rings.ring head (subset member)
  apart first firstMember second secondMember prog inFirst inSecond :=
    rings.apart first (subset firstMember) second (subset secondMember) prog
      (same first firstMember ▸ inFirst) (same second secondMember ▸ inSecond)
  bounded head member prog listed :=
    rings.bounded head (subset member) prog (same head member ▸ listed)
  headNode head member := rings.headNode head (subset member)
  idleSelf := rings.idleSelf
  idleApart prog resting head member listed :=
    rings.idleApart prog resting head (subset member) (same head member ▸ listed)

/-- `cds_list_del`, `CDS_INIT_LIST_HEAD` and `cds_list_add_tail` move a program to another list. -/
theorem move (rings : PlRings heads bound links on idle) {source : Node}
    (sourceMember : source ∈ heads) (targetMember : target ∈ heads) (listed : prog ∈ on source) :
    PlRings heads bound
      (cdsListAddTail (.plNode prog) target
        (cdsInitListHead (.plNode prog) (cdsListDel (.plNode prog) links)))
      (on.move source target prog) idle := by
  obtain ⟨dropped, off⟩ := rings.del sourceMember listed
  have pushed := (dropped.init off).addTail targetMember off
    (rings.bounded source sourceMember prog listed)
  refine pushed.forget fun p resting => ?_
  have differs : p ≠ prog := fun equal =>
    rings.idleApart p resting source sourceMember (equal ▸ listed)
  simp [resting, differs]

theorem cdsListEmpty_iff (rings : PlRings heads bound links on idle) (member : head ∈ heads) :
    cdsListEmpty head links = true ↔ on head = [] := by
  rw [BachScheduler.cdsListEmpty_iff (rings.ring head member), List.map_eq_nil_iff]

end PlRings

end BachScheduler
