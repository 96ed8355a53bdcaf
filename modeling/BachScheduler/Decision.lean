import BachScheduler.Core
import BachScheduler.ListWalk
import Mathlib.Algebra.BigOperators.Group.List.Basic
import Mathlib.Algebra.Ring.Int.Defs

/-!
# Scheduling decisions

What a decision does to the lists and to the core: programs move from `progs_all` to
`progs_sch` one after the other, and each gets the cores behind those of the programs
before it.
-/

namespace BachScheduler

open BachScheduler.Ring Wp

/-- The measured fields that the policies choose by. -/
structure Traits where
  ratio : Word64
  category : ClassType
  waitingTime : Word32
  sumMemReads : Word64
  llcAlone : Word32

def ProgData.traits (pd : ProgData) : Traits where
  ratio := pd.ratio
  category := pd.category
  waitingTime := pd.waitingTime
  sumMemReads := pd.sumMemReads
  llcAlone := pd.llcAlone

/-- A decision starts from lists, a view of the state and the traits of the programs.
`others` are the list heads besides `progs_all` and `progs_sch`. -/
structure Decision where
  others : List Node
  bound : Nat
  on : Lists
  idle : List ProgPtr
  origin : View
  traits : ProgPtr → Traits
  noRest : Node.rest ∉ others
  noTemp : ∀ k, Node.temp k ∉ others
  enough : bound ≤ origin.core.progsAllocated

namespace Core

/-- The cpus of a range of positions. -/
def cpusIn (core : Core) (rstart rend : Int) : List Int :=
  (List.range (rend - rstart).toNat).map fun k : Nat => core.cpuAt (rstart + (k : Int))

/-- A program gets its cores from position `rstart` on. -/
def assign (core : Core) (prog : ProgPtr) (rstart : Int) : Core :=
  let rend := rstart + (core.progs prog).coresNeeded
  let cpuset := core.cpusIn rstart rend
  ((core.note (.setCpuRange prog rstart rend)).modProg prog fun p =>
    { p with cpuset := cpuset }).modPd prog fun pd => { pd with cpu := cpuset.min?.getD 0 }

/-- Programs get their cores one after the other. -/
def assignAll (core : Core) (need : ProgPtr → Int) : List ProgPtr → Int → Core
  | [], _ => core
  | prog :: later, rstart => (core.assign prog rstart).assignAll need later (rstart + need prog)

@[simp] theorem assign_coresNeeded (core : Core) (prog other : ProgPtr) (rstart : Int) :
    ((core.assign prog rstart).progs other).coresNeeded = (core.progs other).coresNeeded := by
  by_cases equal : other = prog
  · subst equal
    simp [assign, modPd, modProg, note]
  · simp [assign, modPd, modProg, note, equal]

@[simp] theorem assignAll_coresNeeded (core : Core) (need : ProgPtr → Int) (progs : List ProgPtr)
    (other : ProgPtr) (rstart : Int) :
    ((core.assignAll need progs rstart).progs other).coresNeeded =
    (core.progs other).coresNeeded := by
  induction progs generalizing core rstart with
  | nil => rfl
  | cons prog later ih => rw [assignAll, ih, assign_coresNeeded]

@[simp] theorem assignAll_progsAllocated (core : Core) (need : ProgPtr → Int) (progs : List ProgPtr)
    (rstart : Int) : (core.assignAll need progs rstart).progsAllocated = core.progsAllocated := by
  induction progs generalizing core rstart with
  | nil => rfl
  | cons prog later ih => exact ih _ _

@[simp] theorem assignAll_sched (core : Core) (need : ProgPtr → Int) (progs : List ProgPtr)
    (rstart : Int) : (core.assignAll need progs rstart).sched = core.sched := by
  induction progs generalizing core rstart with
  | nil => rfl
  | cons prog later ih => exact ih _ _

theorem assignAll_concat (core : Core) (need : ProgPtr → Int) (progs : List ProgPtr)
    (prog : ProgPtr) (rstart : Int) :
    core.assignAll need (progs ++ [prog]) rstart =
      (core.assignAll need progs rstart).assign prog (rstart + (progs.map need).sum) := by
  induction progs generalizing core rstart with
  | nil => simp [assignAll]
  | cons first later ih =>
      rw [List.cons_append, assignAll, ih, assignAll, List.map_cons, List.sum_cons, add_assoc]

end Core

section Steps

/-- What `assignCores` does to the state, with all its fields. -/
def ExecState.assigned (st : ExecState) (prog : ProgPtr) (rstart : Int) : ExecState :=
  let rend := rstart + (st.progs prog).coresNeeded
  let cpuset := st.core.cpusIn rstart rend
  { st with
    progs := Function.update st.progs prog { st.progs prog with cpuset := cpuset }
    pds := Function.update st.pds prog { st.pds prog with cpu := cpuset.min?.getD 0 }
    log := st.log ++ [.setCpuRange prog rstart rend] }

theorem assignCores_run (prog : ProgPtr) (rstart : Int) (st : ExecState) :
    assignCores prog rstart st = .ok () (st.assigned prog rstart) := by
  change EStateM.Result.ok () _ = _
  simp only [ExecState.assigned]
  rw [Function.update_self]
  rfl

theorem view_assigned (prog : ProgPtr) (rstart : Int) (st : ExecState) :
    view (st.assigned prog rstart) = (view st).modCore fun core => core.assign prog rstart := by
  simp only [view, View.modCore, ExecState.assigned, Core.assign, Core.note,
    Core.modProg, Core.modPd, ExecState.core, View.mk.injEq, Core.mk.injEq, true_and, and_true]
  refine ⟨?_, ?_, rfl⟩
  · funext other
    by_cases equal : other = prog
    · subst equal
      simp [AffProg.core]
    · simp [equal]
  · funext other
    by_cases equal : other = prog
    · subst equal
      simp [AffProg.core, ProgData.core]
    · simp [equal]

theorem traits_assigned (prog : ProgPtr) (rstart : Int) (st : ExecState) (other : ProgPtr) :
    ((st.assigned prog rstart).pds other).traits = (st.pds other).traits := by
  by_cases equal : other = prog
  · subst equal
    simp [ExecState.assigned, ProgData.traits]
  · simp [ExecState.assigned, equal]

/-- What `elemMove2tail` does to the state. -/
def ExecState.moved (st : ExecState) (prog : ProgPtr) (toList : Node) : ExecState :=
  { st with
    links := cdsListAddTail (.plNode prog) toList
      (cdsInitListHead (.plNode prog) (cdsListDel (.plNode prog) st.links)) }

/-- What `writeResults` does to the state. -/
def ExecState.written (st : ExecState) : ExecState :=
  { st with
    sched :=
      if st.sched.resultsOpen then st.sched
      else { st.sched with closedWrites := st.sched.closedWrites + 1 } }

@[simp] theorem ExecState.written_pds (st : ExecState) : st.written.pds = st.pds := rfl

theorem writeResults_run (st : ExecState) : writeResults st = .ok () st.written := rfl

theorem elemMove2tail_run (prog : ProgPtr) (toList : Node) (st : ExecState) :
    elemMove2tail prog toList st = .ok () (st.moved prog toList) := rfl

end Steps

namespace Decision

variable {d : Decision} {among : List Node} {on : Lists} {assigned picked rest : List ProgPtr}
variable {st : ExecState} {prog : ProgPtr} {source target : Node}

/-- The heads of all lists. -/
def heads (d : Decision) : List Node :=
  .progsAll :: .progsSch :: d.others

/-- The cores that a program asks for. -/
def need (d : Decision) (prog : ProgPtr) : Int :=
  (d.origin.core.progs prog).coresNeeded

/-- The cores that some programs take together. -/
def cores (d : Decision) (progs : List ProgPtr) : Int :=
  (progs.map d.need).sum

/-- The lists once some programs were picked and the others rest. -/
def lists (d : Decision) (picked rest : List ProgPtr) : Lists
  | .progsAll => rest
  | .progsSch => picked
  | head => d.on head

/-- A state in the course of a decision: the programs are on the lists `on`, and those of
`assigned` have got their cores. -/
structure Has (d : Decision) (among : List Node) (on : Lists) (assigned : List ProgPtr)
    (st : ExecState) : Prop where
  rings : PlRings among d.bound st.links on d.idle
  viewed :
    view st = { d.origin with links := st.links, core := d.origin.core.assignAll d.need assigned 0 }
  traits : ∀ prog, (st.pds prog).traits = d.traits prog

/-- A state between two steps of a decision. -/
abbrev At (d : Decision) (picked rest : List ProgPtr) : ExecState → Prop :=
  d.Has d.heads (d.lists picked rest) picked

@[simp] theorem cores_nil : d.cores [] = 0 := rfl

theorem cores_concat : d.cores (picked ++ [prog]) = d.cores picked + d.need prog := by
  simp [cores]

namespace Has

theorem core (has : d.Has among on assigned st) :
    st.core = d.origin.core.assignAll d.need assigned 0 :=
  congrArg View.core has.viewed

theorem progsAllocated (has : d.Has among on assigned st) :
    st.progsAllocated = d.origin.core.progsAllocated := by
  have same := congrArg Core.progsAllocated has.core
  rwa [Core.assignAll_progsAllocated] at same

theorem short (has : d.Has among on assigned st) {head : Node} (member : head ∈ among) :
    (on head).length ≤ st.progsAllocated :=
  (has.rings.length_le member).trans (d.enough.trans has.progsAllocated.ge)

theorem sched (has : d.Has among on assigned st) : st.sched.core = d.origin.core.sched :=
  (congrArg Core.sched has.core).trans (Core.assignAll_sched ..)

theorem progsNr (has : d.Has among on assigned st) :
    st.sched.progsNr = d.origin.core.sched.progsNr :=
  congrArg SchedCore.progsNr has.sched

theorem monitorWnd (has : d.Has among on assigned st) :
    st.sched.monitorWnd = d.origin.core.sched.monitorWnd :=
  congrArg SchedCore.monitorWnd has.sched

theorem coresNeeded (has : d.Has among on assigned st) (prog : ProgPtr) :
    (st.progs prog).coresNeeded = d.need prog := by
  have same := congrArg (fun core => (core.progs prog).coresNeeded) has.core
  exact same.trans (Core.assignAll_coresNeeded ..)

theorem congr (has : d.Has among on assigned st) {fewer : List Node} {other : Lists}
    (subset : fewer ⊆ among) (same : ∀ head ∈ fewer, other head = on head) :
    d.Has fewer other assigned st where
  rings := has.rings.restrict subset same
  viewed := has.viewed
  traits := has.traits

theorem relink (has : d.Has among on assigned st) {others : List Node} {other : Lists}
    {st' : ExecState} (rings : PlRings others d.bound st'.links other d.idle)
    (same : view st' = { view st with links := st'.links }) (pds : st'.pds = st.pds) :
    d.Has others other assigned st' where
  rings := rings
  viewed := by rw [same, has.viewed]
  traits prog := by rw [pds, has.traits]

theorem written (has : d.Has among on assigned st) : d.Has among on assigned st.written :=
  has.relink has.rings (writeResults_quiet st) rfl

theorem move (has : d.Has among on assigned st) (sourceMember : source ∈ among)
    (targetMember : target ∈ among) (listed : prog ∈ on source) :
    d.Has among (on.move source target prog) assigned (st.moved prog target) :=
  has.relink (has.rings.move sourceMember targetMember listed) rfl rfl

theorem assign (has : d.Has among on assigned st) (prog : ProgPtr) :
    d.Has among on (assigned ++ [prog]) (st.assigned prog (d.cores assigned)) where
  rings := has.rings
  viewed := by
    rw [view_assigned, has.viewed, Core.assignAll_concat, zero_add]
    rfl
  traits other := (traits_assigned prog _ st other).trans (has.traits other)

end Has

theorem progsAll_mem : Node.progsAll ∈ d.heads := by simp [heads]

theorem progsSch_mem : Node.progsSch ∈ d.heads := by simp [heads]

@[simp] theorem lists_progsAll : d.lists picked rest .progsAll = rest := rfl

@[simp] theorem lists_progsSch : d.lists picked rest .progsSch = picked := rfl

@[simp] theorem update_progsAll (progs : List ProgPtr) :
    Function.update (d.lists picked rest) .progsAll progs = d.lists picked progs := by
  funext head
  cases head <;> simp [lists]

theorem move_lists (prog : ProgPtr) :
    (d.lists picked rest).move .progsAll .progsSch prog =
      d.lists (picked ++ [prog]) (rest.erase prog) := by
  funext head
  cases head <;> simp [Lists.move, Lists.push, Lists.drop, lists]

namespace At

theorem ring (here : d.At picked rest st) :
    IsRing st.links .progsAll (rest.map Node.plNode) := by
  simpa using here.rings.ring .progsAll progsAll_mem

theorem nodup (here : d.At picked rest st) : rest.Nodup := by
  simpa using here.rings.nodup progsAll_mem

theorem short (here : d.At picked rest st) : rest.length ≤ st.progsAllocated :=
  Has.short here progsAll_mem

theorem empty_iff (here : d.At picked rest st) :
    cdsListEmpty .progsAll st.links = true ↔ rest = [] := by
  rw [here.rings.cdsListEmpty_iff progsAll_mem, lists_progsAll]

theorem take (here : d.At picked rest st) (listed : prog ∈ rest) :
    d.At (picked ++ [prog]) (rest.erase prog)
      ((st.moved prog .progsSch).assigned prog (d.cores picked)) := by
  have moved := here.move progsAll_mem progsSch_mem (by simpa using listed)
  rw [move_lists] at moved
  exact moved.assign prog

theorem dispatch_run (here : d.At picked rest st) (listed : prog ∈ rest) :
    dispatch prog (d.cores picked) st = .ok (d.cores (picked ++ [prog]))
      ((st.written.moved prog .progsSch).assigned prog (d.cores picked)) := by
  have needs := (At.take here.written listed).coresNeeded prog
  rw [cores_concat, ← needs]
  simp only [dispatch, Bind.bind, EStateM.bind, writeResults_run, elemMove2tail_run,
    assignCores_run]
  rfl

end At

end Decision

end BachScheduler
