import BachScheduler.Lib.Wp
import BachScheduler.PlLists

/-!
# Rules for the walks along a list

An invariant of a walk speaks about the programs that are still ahead.  The safe walk
asks for a circular list only where the body starts, so the body may take its program
off the list; the plain walk asks for it where the body ends.
-/

namespace BachScheduler

open BachScheduler.Ring Wp

variable {ρ : Type} {head : Node} {E : Stop → ExecState → Prop}

theorem when_pos {c : Prop} [Decidable c] {action : Exec Unit} (yes : c) : when c action = action :=
  if_pos yes

theorem when_neg {c : Prop} [Decidable c] {action : Exec Unit} (no : ¬ c) :
    when c action = Pure.pure () :=
  if_neg no

theorem readProg_run (prog : ProgPtr) (st : ExecState) :
    readProg prog st = .ok (st.progs prog) st := rfl

theorem readPd_run (prog : ProgPtr) (st : ExecState) : readPd prog st = .ok (st.pds prog) st := rfl

theorem readSched_run (st : ExecState) : readSched st = .ok st.sched st := rfl

theorem walkFuel_run (st : ExecState) : walkFuel st = .ok (st.progsAllocated + 1) st := rfl

theorem listEmpty_run (head : Node) (st : ExecState) :
    listEmpty head st = .ok (cdsListEmpty head st.links) st := rfl

theorem cdsListEntry_run (prog : ProgPtr) (st : ExecState) :
    cdsListEntry (.plNode prog) st = .ok prog st := rfl

/-- Where a walk stands: at the first program ahead, or back at the head. -/
def walkPos (head : Node) (ahead : List ProgPtr) : Node :=
  (ahead.map Node.plNode).head?.getD head

@[simp] theorem walkPos_nil : walkPos head [] = head := rfl

@[simp] theorem walkPos_cons (prog : ProgPtr) (ahead : List ProgPtr) :
    walkPos head (prog :: ahead) = .plNode prog := rfl

theorem next_head_walkPos {links : Links Node} {progs : List ProgPtr}
    (ring : IsRing links head (progs.map Node.plNode)) : links.next head = walkPos head progs :=
  ring.next_head

theorem next_walkPos {links : Links Node} {before after : List ProgPtr} {prog : ProgPtr}
    (ring : IsRing links head ((before ++ prog :: after).map Node.plNode)) :
    links.next (.plNode prog) = walkPos head after := by
  rw [List.map_append, List.map_cons] at ring
  exact ring.next_node

theorem plNode_ne_head {links : Links Node} {progs : List ProgPtr} {prog : ProgPtr}
    (ring : IsRing links head (progs.map Node.plNode)) (listed : prog ∈ progs) :
    Node.plNode prog ≠ head := by
  intro equal
  have nodup := ring.nodup
  rw [← equal] at nodup
  exact (List.nodup_cons.mp nodup).1 (List.mem_map_of_mem listed)

section Safe

variable {body : ProgPtr → ρ → Exec (ForInStep ρ)} {Q : ρ → ExecState → Prop}

/-- What the body of a loop leaves: the loop goes on with `next`, or ends with `done`. -/
def Leaves (next done : ρ → ExecState → Prop) : ForInStep ρ → ExecState → Prop
  | .yield acc, st => next acc st
  | .done acc, st => done acc st

theorem walkSafe_spec (I : List ProgPtr → ρ → ExecState → Prop)
    (ring : ∀ ahead acc st, I ahead acc st →
      ∃ before, IsRing st.links head ((before ++ ahead).map Node.plNode))
    (each : ∀ prog ahead acc st, I (prog :: ahead) acc st →
      wp (body prog acc) (Leaves (I ahead) Q) E st)
    (exit : ∀ acc st, I [] acc st → Q acc st)
    (ahead : List ProgPtr) : ∀ (fuel : Nat) (acc : ρ) (st : ExecState), ahead.length < fuel →
      I ahead acc st → wp (cdsListWalkSafe head body fuel (walkPos head ahead) acc) Q E st := by
  induction ahead with
  | nil =>
      intro fuel acc st enough inv
      obtain ⟨fuel, rfl⟩ : ∃ n, fuel = n + 1 := ⟨fuel - 1, by omega⟩
      rw [walkPos_nil, cdsListWalkSafe, if_pos rfl]
      exact exit acc st inv
  | cons prog ahead ih =>
      intro fuel acc st enough inv
      obtain ⟨fuel, rfl⟩ : ∃ n, fuel = n + 1 := ⟨fuel - 1, by omega⟩
      obtain ⟨before, ring⟩ := ring _ _ _ inv
      rw [walkPos_cons, cdsListWalkSafe, if_neg (plNode_ne_head ring (by simp))]
      refine Wp.bind_ok (cdsListEntry_run prog st) (Wp.bind_ok rfl ?_)
      refine Wp.bind (each prog ahead acc st inv) fun step st' left => ?_
      rw [next_walkPos ring]
      cases step with
      | done acc => exact left
      | yield acc => exact ih fuel acc st' (by simp at enough; omega) left

/-- The invariant rule for `cds_list_for_each_entry_safe`. -/
theorem forEachEntrySafe_spec (I : List ProgPtr → ρ → ExecState → Prop) {progs : List ProgPtr}
    {acc : ρ} {st : ExecState} (list : IsRing st.links head (progs.map Node.plNode))
    (short : progs.length ≤ st.progsAllocated)
    (ring : ∀ ahead acc st, I ahead acc st →
      ∃ before, IsRing st.links head ((before ++ ahead).map Node.plNode))
    (each : ∀ prog ahead acc st, I (prog :: ahead) acc st →
      wp (body prog acc) (Leaves (I ahead) Q) E st)
    (exit : ∀ acc st, I [] acc st → Q acc st) (start : I progs acc st) :
    wp (cdsListForEachEntrySafe head acc body) Q E st := by
  refine Wp.bind_ok (walkFuel_run st) (Wp.bind_ok rfl ?_)
  rw [next_head_walkPos list]
  exact walkSafe_spec I ring each exit progs _ _ _ (by omega) start

end Safe

section Leads

variable {I : ExecState → Prop} {body : ProgPtr → ρ → Exec (ForInStep ρ)}

theorem when_leads {c : Prop} [Decidable c] {action : Exec Unit} (leads : Leads I I action) :
    Leads I I (when c action) :=
  leads.ite (Leads.pure ())

theorem readPd_leads (prog : ProgPtr) : Leads I I (readPd prog) := fun _ start => start

theorem readProg_leads (prog : ProgPtr) : Leads I I (readProg prog) := fun _ start => start

theorem readSched_leads : Leads I I readSched := fun _ start => start

theorem cdsListEntry_leads (node : Node) : Leads I I (cdsListEntry node) := by
  cases node <;> first | exact Leads.pure _ | exact Leads.throw _

theorem cdsListFirst_leads (head : Node) : Leads I I (cdsListFirst head) :=
  Leads.get.bind fun _ => cdsListEntry_leads _

theorem orElseStop_leads {α : Type} (stop : Stop) (result : Option α) :
    Leads I I (orElseStop stop result) := by
  cases result with
  | none => exact Leads.throw _
  | some value => exact Leads.pure _

/-- What each round of a walk keeps, the walk keeps, whatever the list looks like. -/
theorem forEachEntrySafe_leads (head : Node) (acc : ρ)
    (each : ∀ prog acc, Leads I I (body prog acc)) :
    Leads I I (cdsListForEachEntrySafe head acc body) := by
  have walk : ∀ fuel pos acc, Leads I I (cdsListWalkSafe head body fuel pos acc) := by
    intro fuel
    induction fuel with
    | zero => exact fun _ _ => Leads.throw _
    | succ fuel ih =>
        intro pos acc
        refine (Leads.pure _).ite
          ((cdsListEntry_leads pos).bind fun prog => Leads.get.bind fun _ => ?_)
        refine (each prog acc).bind fun step => ?_
        cases step with
        | done acc => exact Leads.pure _
        | yield acc => exact ih _ acc
  exact Leads.get.bind fun _ => Leads.get.bind fun _ => walk _ _ _

theorem forEachEntry_leads (head : Node) {body : ProgPtr → Exec Unit}
    (each : ∀ prog, Leads I I (body prog)) :
    Leads I I (cdsListForEachEntry head body) := by
  have walk : ∀ fuel pos, Leads I I (cdsListWalk head body fuel pos) := by
    intro fuel
    induction fuel with
    | zero => exact fun _ => Leads.throw _
    | succ fuel ih =>
        intro pos
        refine (Leads.pure _).ite ((cdsListEntry_leads pos).bind fun prog => ?_)
        exact (each prog).bind fun _ => Leads.get.bind fun _ => ih _
  exact Leads.get.bind fun _ => Leads.get.bind fun _ => walk _ _

end Leads

section Plain

variable {body : ProgPtr → Exec Unit}

theorem walk_spec (I : List ProgPtr → List ProgPtr → ExecState → Prop)
    (ring : ∀ before ahead st, I before ahead st →
      IsRing st.links head ((before ++ ahead).map Node.plNode))
    (each : ∀ before prog ahead st, I before (prog :: ahead) st →
      wp (body prog) (fun _ st' => I (before ++ [prog]) ahead st') E st)
    (ahead : List ProgPtr) : ∀ (fuel : Nat) (before : List ProgPtr) (st : ExecState),
      ahead.length < fuel → I before ahead st →
      wp (cdsListWalk head body fuel (walkPos head ahead)) (fun _ st' => I (before ++ ahead) [] st')
        E st := by
  induction ahead with
  | nil =>
      intro fuel before st enough inv
      obtain ⟨fuel, rfl⟩ : ∃ n, fuel = n + 1 := ⟨fuel - 1, by omega⟩
      rw [walkPos_nil, cdsListWalk, if_pos rfl, List.append_nil]
      exact inv
  | cons prog ahead ih =>
      intro fuel before st enough inv
      obtain ⟨fuel, rfl⟩ : ∃ n, fuel = n + 1 := ⟨fuel - 1, by omega⟩
      rw [walkPos_cons, cdsListWalk, if_neg (plNode_ne_head (ring _ _ _ inv) (by simp))]
      refine Wp.bind_ok (cdsListEntry_run prog st) ?_
      refine Wp.bind (each before prog ahead st inv) fun _ st' inv' => Wp.bind_ok rfl ?_
      have list := ring _ _ _ inv'
      rw [List.append_assoc] at list
      rw [next_walkPos list]
      have rest := ih fuel (before ++ [prog]) st' (by simp at enough; omega) inv'
      rwa [List.append_assoc] at rest

/-- The invariant rule for `cds_list_for_each_entry`. -/
theorem forEachEntry_spec (I : List ProgPtr → List ProgPtr → ExecState → Prop)
    {progs : List ProgPtr} {st : ExecState} (list : IsRing st.links head (progs.map Node.plNode))
    (short : progs.length ≤ st.progsAllocated)
    (ring : ∀ before ahead st, I before ahead st →
      IsRing st.links head ((before ++ ahead).map Node.plNode))
    (each : ∀ before prog ahead st, I before (prog :: ahead) st →
      wp (body prog) (fun _ st' => I (before ++ [prog]) ahead st') E st)
    (start : I [] progs st) :
    wp (cdsListForEachEntry head body) (fun _ st' => I progs [] st') E st := by
  refine Wp.bind_ok (walkFuel_run st) (Wp.bind_ok rfl ?_)
  rw [next_head_walkPos list]
  exact walk_spec I ring each progs _ [] _ (by omega) start

end Plain

end BachScheduler
