import BachScheduler.Decision

/-!
# The programs before a decision

A decision starts with all programs on `progs_all`.  Such a state exists for programs
of any sizes and any measured characteristics.
-/

namespace BachScheduler

open BachScheduler.Ring

/-- The programs before a decision: all are on `progs_all`, and none is on `progs_sch`. -/
structure Population (progs : List ProgPtr) (st : ExecState) : Prop where
  all : IsRing st.links .progsAll (progs.map Node.plNode)
  sch : IsRing st.links .progsSch []
  allocated : ∀ prog ∈ progs, prog < st.progsAllocated

variable {progs : List ProgPtr} {st : ExecState}

/-- The decision that starts from a state. -/
def ExecState.decision (st : ExecState) : Decision where
  others := []
  bound := st.progsAllocated
  on := fun _ => []
  idle := []
  origin := view st
  traits := fun prog => (st.pds prog).traits
  noRest := by simp
  noTemp := by simp
  enough := le_refl _

theorem Population.at (population : Population progs st) : st.decision.At [] progs st where
  rings :=
    { ring := by
        intro head member
        rcases List.mem_cons.mp member with rfl | member
        · exact population.all
        · rw [List.mem_singleton.mp member]
          exact population.sch
      apart := by
        intro head member other otherMember prog listed there
        cases head <;> cases other <;> simp_all [Decision.lists, ExecState.decision]
      bounded := by
        intro head member prog listed
        cases head <;> simp_all [Decision.lists, ExecState.decision]
        exact population.allocated prog listed
      headNode := by
        intro head member prog
        cases head <;> simp_all [Decision.heads, ExecState.decision]
      idleSelf := by simp [ExecState.decision]
      idleApart := by simp [ExecState.decision] }
  viewed := rfl
  traits _ := rfl

section Populated

/-- The nodes of the programs below `n` in a row on `progs_all`. -/
def rowLinks (n : Nat) : Links Node :=
  (List.range n).foldl (fun links prog => cdsListAddTail (.plNode prog) .progsAll links)
    (cdsInitListHead .progsSch (cdsInitListHead .progsAll Env.still.freshLinks))

/-- A state with one program for each size on `progs_all`. -/
def ExecState.populated (sizes : List Int) (cpus : List Int) (monitorWnd progsNr : Int)
    (pd : ProgPtr → ProgData) : ExecState :=
  let st := ExecState.start Env.still cpus
  { st with
    links := rowLinks sizes.length
    progs := fun prog => { AffProg.blank with coresNeeded := sizes.getD prog 1 }
    pds := pd
    progsAllocated := sizes.length
    sched := { st.sched with monitorWnd := monitorWnd, progsNr := progsNr } }

/-- The first programs of the row. -/
def rowLists (k : Nat) : Lists
  | .progsAll => List.range k
  | _ => []

theorem rowLinks_rings (n k : Nat) (small : k ≤ n) :
    PlRings [.progsSch, .progsAll] n (rowLinks k) (rowLists k) [] := by
  induction k with
  | zero =>
      have none : PlRings [] n Env.still.freshLinks (fun _ => []) [] := by
        constructor <;> simp
      have all : PlRings [.progsAll] n _ _ [] := none.addHead (by simp) fun _ => Node.noConfusion
      have both : PlRings [.progsSch, .progsAll] n _ _ [] :=
        all.addHead (by simp) fun _ => Node.noConfusion
      refine both.restrict (List.Subset.refl _) fun head _ => ?_
      cases head <;> simp [rowLists, Function.update]
  | succ k ih =>
      have rings := ih (by omega)
      have off : (rowLists k).Off [.progsSch, .progsAll] k := by
        intro head member there
        cases head <;> simp [rowLists] at there
      have target : Node.progsAll ∈ [Node.progsSch, .progsAll] := by simp
      have added := rings.addTail target off small
      have row : rowLinks (k + 1) = cdsListAddTail (.plNode k) .progsAll (rowLinks k) := by
        simp [rowLinks, List.range_succ]
      rw [row]
      refine added.restrict (List.Subset.refl _) fun head _ => ?_
      cases head <;> simp [rowLists, Lists.push, List.range_succ]

theorem populated_population (sizes cpus : List Int) (monitorWnd progsNr : Int)
    (pd : ProgPtr → ProgData) :
    Population (List.range sizes.length)
      (ExecState.populated sizes cpus monitorWnd progsNr pd) := by
  have rings := rowLinks_rings sizes.length sizes.length le_rfl
  refine ⟨rings.ring .progsAll (by simp), rings.ring .progsSch (by simp), fun prog member => ?_⟩
  exact List.mem_range.mp member

end Populated

end BachScheduler
