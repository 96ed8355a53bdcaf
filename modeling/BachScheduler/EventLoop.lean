import BachScheduler.Heap
import BachScheduler.ListWalk
import BachScheduler.Run

/-!
# The event loop

`select_ready_events` empties the heap up to the present, while the hook of the policy
pushes `qt_event` into it again.  The number of ready events falls with each round, since
`qt_event` comes back with a time in the future.
-/

namespace BachScheduler

open BachScheduler.Ring BinHeap Wp

section Order

variable {events later : EvntPtr → AffEvent} {heap : Heap EvntPtr} {xs : List EvntPtr}

/-- `aff_event_leq_ul` compares the seconds first. -/
theorem affEventLeqUl_iff (evnt other : EvntPtr) :
    affEventLeqUl events evnt other = true ↔
      (events evnt).tv.sec < (events other).tv.sec ∨
        (events evnt).tv.sec = (events other).tv.sec ∧
          (events evnt).tv.usec ≤ (events other).tv.usec := by
  unfold affEventLeqUl timercmpGt
  split <;> simp <;> omega

theorem affEventLeqUl_order (events : EvntPtr → AffEvent) :
    TotalPreorder (affEventLeqUl events) where
  total evnt other := by
    simp only [affEventLeqUl_iff]
    omega
  trans evnt middle other first second := by
    rw [affEventLeqUl_iff] at *
    omega

/-- The heap stays in order while events outside of it change. -/
theorem Heap.Valid.congr (valid : heap.Valid (affEventLeqUl events) xs)
    (same : ∀ evnt ∈ xs, later evnt = events evnt) : heap.Valid (affEventLeqUl later) xs where
  stores := valid.stores
  ordered := by
    intro k positive upper lower atUpper atLower
    have inOrder := valid.ordered k positive upper lower atUpper atLower
    unfold affEventLeqUl at inOrder ⊢
    rw [same upper (List.mem_of_getElem? atUpper), same lower (List.mem_of_getElem? atLower)]
    exact inOrder

end Order

section Loop

variable {qexpired : Timeval → Exec Unit} {now : Timeval} {E : Stop → ExecState → Prop}

theorem eventsHeapPush_spec {Q : Unit → ExecState → Prop} {st : ExecState} {xs : List EvntPtr}
    (evnt : EvntPtr) (valid : st.eventsHeap.Valid (affEventLeqUl st.events) xs)
    (pushed : ∀ heap ys, heap.Valid (affEventLeqUl st.events) ys → ys.Perm (evnt :: xs) →
      Q () { st with eventsHeap := heap }) :
    wp (eventsHeapPush evnt) Q E st := by
  obtain ⟨heap, ys, run, valid', perm⟩ := heapPush_eq (affEventLeqUl_order _) valid evnt
  refine Wp.bind_ok rfl ?_
  rw [run]
  exact pushed heap ys valid' perm

/-- What `next_wakeup` is left with. -/
def Woken (st : ExecState) (now : Timeval) (xs : List EvntPtr) (before after : Option Timeval) :
    Prop :=
  (xs = [] ∧ after = before) ∨
    ∃ first ∈ xs, (∀ other ∈ xs, affEventLeqUl st.events first other = true) ∧
      timercmpGt (st.events first).tv now = true ∧
      after = before.map fun _ => timersub (st.events first).tv now

/-- One round of `select_ready_events`: it ends, or it handles the event at the root. -/
theorem selectReadyEvents_round {st : ExecState} {xs : List EvntPtr} {nextWakeup : Option Timeval}
    {Q : Option Timeval → ExecState → Prop} (fuel : Nat)
    (valid : st.eventsHeap.Valid (affEventLeqUl st.events) xs)
    (ended : ∀ wakeup, Woken st now xs nextWakeup wakeup → Q wakeup st)
    (handled : ∀ evnt ys heap, (evnt :: ys).Perm xs →
      heapPop (affEventLeqUl st.events) st.eventsHeap = some (heap, some evnt) →
      heap.Valid (affEventLeqUl st.events) ys → timercmpGt (st.events evnt).tv now = false →
      (∀ other ∈ xs, affEventLeqUl st.events evnt other = true) →
      wp (do
        handleEvent qexpired evnt now
        selectReadyEvents qexpired now fuel nextWakeup) Q E { st with eventsHeap := heap }) :
    wp (selectReadyEvents qexpired now (fuel + 1) nextWakeup) Q E st := by
  refine Wp.bind_ok rfl ?_
  rw [heapPeek_eq valid]
  cases xs with
  | nil => exact Wp.bind_ok rfl (Wp.pure (ended _ (.inl ⟨rfl, rfl⟩)))
  | cons root rest =>
      have least : ∀ other ∈ root :: rest, affEventLeqUl st.events root other = true := by
        intro other member
        obtain ⟨k, atK⟩ := List.mem_iff_getElem?.mp member
        exact valid.ordered.root_least (affEventLeqUl_order _) rfl k atK
      refine Wp.bind_ok rfl (Wp.ite (fun late => Wp.pure ?_) fun ready => ?_)
      · exact ended _ (.inr ⟨root, List.mem_cons_self, least, late, rfl⟩)
      obtain ⟨heap, ys, popped, valid', perm⟩ :=
        heapPopAt_eq (affEventLeqUl_order _) valid (show (root :: rest)[0]? = some root from rfl)
      change wp (orElseStop .misuse (heapPopAt (affEventLeqUl st.events) st.eventsHeap 0) >>= _) _ _
        _
      rw [popped]
      refine Wp.bind_ok rfl (Wp.bind_ok rfl ?_)
      exact handled root ys heap perm popped valid' (by simpa using ready) least

/-- The rule for `select_ready_events`: `I n xs` speaks about a state with the events `xs`
in the heap, and `n` falls with each event handled. -/
theorem selectReadyEvents_rule (I : Nat → List EvntPtr → ExecState → Prop)
    (queue : ∀ n xs st, I n xs st → st.eventsHeap.Valid (affEventLeqUl st.events) xs)
    (step : ∀ n xs st evnt ys heap, I n xs st → (evnt :: ys).Perm xs →
      heapPop (affEventLeqUl st.events) st.eventsHeap = some (heap, some evnt) →
      heap.Valid (affEventLeqUl st.events) ys → timercmpGt (st.events evnt).tv now = false →
      (∀ other ∈ xs, affEventLeqUl st.events evnt other = true) →
      wp (handleEvent qexpired evnt now) (fun _ st' => ∃ m xs', m < n ∧ I m xs' st') E
        { st with eventsHeap := heap })
    (nextWakeup : Option Timeval) (fuel : Nat) :
    ∀ n xs st, n < fuel → I n xs st →
      wp (selectReadyEvents qexpired now fuel nextWakeup)
        (fun wakeup st' => ∃ m xs', I m xs' st' ∧ Woken st' now xs' nextWakeup wakeup) E st := by
  induction fuel with
  | zero => exact fun n _ _ enough _ => absurd enough (Nat.not_lt_zero n)
  | succ fuel ih =>
      intro n xs st enough inv
      refine selectReadyEvents_round fuel (queue n xs st inv)
        (fun wakeup woken => ⟨n, xs, inv, woken⟩) ?_
      intro evnt ys heap perm popped valid ready least
      refine Wp.bind (step n xs st evnt ys heap inv perm popped valid ready least) fun _ st' next =>
        ?_
      obtain ⟨m, xs', less, inv'⟩ := next
      exact ih m xs' st' (by omega) inv'

/-- What handling an event keeps, `select_ready_events` keeps while its fuel lasts. -/
theorem selectReadyEvents_keeps (I : List EvntPtr → ExecState → Prop)
    (queue : ∀ xs st, I xs st → st.eventsHeap.Valid (affEventLeqUl st.events) xs)
    (step : ∀ xs st evnt ys heap, I xs st → (evnt :: ys).Perm xs →
      heap.Valid (affEventLeqUl st.events) ys →
      timercmpGt (st.events evnt).tv now = false →
      wp (handleEvent qexpired evnt now) (fun _ st' => ∃ xs', I xs' st') E
        { st with eventsHeap := heap })
    (out : ∀ st, E .noFuel st) (nextWakeup : Option Timeval) (fuel : Nat) :
    ∀ xs st, I xs st →
      wp (selectReadyEvents qexpired now fuel nextWakeup) (fun _ st' => ∃ xs', I xs' st') E st := by
  induction fuel with
  | zero => exact fun _ st _ => out st
  | succ fuel ih =>
      intro xs st inv
      refine selectReadyEvents_round fuel (queue xs st inv) (fun _ _ => ⟨xs, inv⟩) ?_
      intro evnt ys heap perm _ valid ready _
      refine Wp.bind (step xs st evnt ys heap inv perm valid ready) fun _ st' next => ?_
      obtain ⟨xs', inv'⟩ := next
      exact ih xs' st' inv'

end Loop

section Drain

variable {qexpired : Timeval → Exec Unit} {now : Timeval} {E : Stop → ExecState → Prop}

/-- From `st`, the events of a list are popped and handled one after the other. -/
inductive Handles (qexpired : Timeval → Exec Unit) (now : Timeval) (st : ExecState) :
    List EvntPtr → ExecState → Prop
  | none : Handles qexpired now st [] st
  | next {handled : List EvntPtr} {before after : ExecState} {heap : Heap EvntPtr} {evnt : EvntPtr}
      (earlier : Handles qexpired now st handled before)
      (popped : heapPop (affEventLeqUl before.events) before.eventsHeap = some (heap, some evnt))
      (run : handleEvent qexpired evnt now { before with eventsHeap := heap } = .ok () after) :
      Handles qexpired now st (handled ++ [evnt]) after

/-- `evnt` comes off the heap of the events `xs`. -/
structure Pops (st : ExecState) (xs : List EvntPtr) (evnt : EvntPtr) (heap : Heap EvntPtr)
    (ys : List EvntPtr) : Prop where
  valid : st.eventsHeap.Valid (affEventLeqUl st.events) xs
  nodup : xs.Nodup
  perm : (evnt :: ys).Perm xs
  left : heap.Valid (affEventLeqUl st.events) ys

/-- `qt_event` has the time a quantum from now and is in the heap again; who arrives is as
before. -/
structure Retimed (now : Timeval) (st : ExecState) (xs : List EvntPtr) (st' : ExecState) :
    Prop where
  events : st'.events = Function.update st.events 0 { st.events 0 with tv := timeradd st.qt now }
  queued : ∃ ys, st'.eventsHeap.Valid (affEventLeqUl st'.events) ys ∧ ys.Perm (0 :: xs)
  qt : st'.qt = st.qt
  waitingNr : st'.waitingNr = st.waitingNr
  newNr : st'.newNr = st.newNr
  ring : ∀ nodes, IsRing st.links .pnewL nodes → IsRing st'.links .pnewL nodes

/-- Where `I` holds the hook gives `qt_event` the time a quantum from now and pushes it, or it
stops; both the hook and the arrival of a program keep `I`. -/
structure Retimes (I : ExecState → Prop) (qexpired : Timeval → Exec Unit) : Prop where
  quantum : ∀ now st xs heap ys, I st → Pops st xs 0 heap ys →
    wp (qexpired now) (fun _ st' => I st' ∧ Retimed now { st with eventsHeap := heap } ys st')
      (fun _ _ => True) { st with eventsHeap := heap }
  arrival : ∀ st xs evnt heap ys, I st → Pops st xs evnt heap ys → evnt ≠ 0 →
    wp (affProgWaitingNew (st.events evnt).prog) (fun _ st' => I st') (fun _ _ => True)
      { st with eventsHeap := heap }

/-- The hook has stopped the loop. -/
def Stopped (qexpired : Timeval → Exec Unit) (now : Timeval) (stop : Stop) (st : ExecState) :
    Prop :=
  ∃ before, qexpired now before = .error stop st

/-- When an event is due. -/
def ExecState.due (st : ExecState) (evnt : EvntPtr) : Int := (st.events evnt).tv.micros

/-- The arrivals among some events. -/
def arrivals (evnts : List EvntPtr) : List EvntPtr := evnts.filter (· ≠ 0)

/-- The programs whose arrival some events announce. -/
def ExecState.arriving (st : ExecState) (evnts : List EvntPtr) : List ProgPtr :=
  (arrivals evnts).map fun evnt => (st.events evnt).prog

/-- The heap holds the events `xs`: arrivals of different programs, and `qt_event` at most
once.  The programs `new` have arrived. -/
structure EventQueue (st : ExecState) (xs : List EvntPtr) (new : List ProgPtr) : Prop where
  valid : st.eventsHeap.Valid (affEventLeqUl st.events) xs
  nodup : xs.Nodup
  normal : ∀ evnt ∈ xs, (st.events evnt).tv.Normal
  quantum : (st.events 0).type = .qexpired
  newprog : ∀ evnt ∈ xs, evnt ≠ 0 → (st.events evnt).type = .newprog
  distinct : (new ++ st.arriving xs).Nodup
  ring : IsRing st.links .pnewL (new.map Node.plNode)

variable {st st' : ExecState} {xs ys handled rest : List EvntPtr} {new : List ProgPtr}
    {evnt : EvntPtr}

/-- Where the loop stands: the events `handled` came before the others of the heap. -/
structure Drained (qexpired : Timeval → Exec Unit) (now : Timeval) (st : ExecState)
    (xs : List EvntPtr) (new : List ProgPtr) (handled rest ys : List EvntPtr) (st' : ExecState) :
    Prop where
  handles : Handles qexpired now st handled st'
  split : (handled ++ rest).Perm xs
  ready : ∀ evnt ∈ handled, st.due evnt ≤ now.micros
  sorted : handled.Pairwise fun evnt other => st.due evnt ≤ st.due other
  before : ∀ evnt ∈ handled, ∀ other ∈ rest, st.due evnt ≤ st.due other
  events : st'.events =
    if 0 ∈ handled then Function.update st.events 0 { st.events 0 with tv := timeradd st.qt now }
    else st.events
  valid : st'.eventsHeap.Valid (affEventLeqUl st'.events) ys
  queued : ys.Perm (rest ++ if 0 ∈ handled then [0] else [])
  qt : st'.qt = st.qt
  waitingNr : st'.waitingNr = st.waitingNr - (arrivals handled).length
  newNr : st'.newNr = st.newNr + (arrivals handled).length
  ring : IsRing st'.links .pnewL ((new ++ st.arriving handled).map Node.plNode)

theorem EventQueue.drained (queue : EventQueue st xs new) :
    Drained qexpired now st xs new [] xs xs st where
  handles := .none
  split := .refl _
  ready := by simp
  sorted := .nil
  before := by simp
  events := rfl
  valid := queue.valid
  queued := by simp
  qt := rfl
  waitingNr := by simp [arrivals]
  newNr := by simp [arrivals]
  ring := by simpa [ExecState.arriving, arrivals] using queue.ring

namespace Drained

variable (drained : Drained qexpired now st xs new handled rest ys st')
    (queue : EventQueue st xs new)

include drained queue

theorem apart (here : evnt ∈ handled) : evnt ∉ rest :=
  fun there =>
      (List.nodup_append.mp (drained.split.nodup_iff.mpr queue.nodup)).2.2 evnt here evnt there rfl

theorem queued_nodup : ys.Nodup := by
  have nodup := List.nodup_append.mp (drained.split.nodup_iff.mpr queue.nodup)
  refine drained.queued.nodup_iff.mpr (List.nodup_append.mpr ⟨nodup.2.1, ?_, ?_⟩)
  · split <;> simp
  · intro early waits other again
    split at again
    · next quantum =>
        rw [List.mem_singleton.mp again]
        exact fun same => drained.apart queue quantum (same ▸ waits)
    · simp at again

theorem events_rest (waits : evnt ∈ rest) : st'.events evnt = st.events evnt := by
  rw [drained.events]
  split
  · next quantum =>
      have differs : evnt ≠ 0 := fun same => drained.apart queue quantum (same ▸ waits)
      rw [Function.update_of_ne differs]
  · rfl

theorem normal_rest (waits : evnt ∈ rest) : (st.events evnt).tv.Normal :=
  queue.normal evnt (drained.split.subset (List.mem_append_right _ waits))

omit queue in
theorem quantum_late (now_normal : now.Normal) (qt_normal : st.qt.Normal)
    (positive : 0 < st.qt.micros) (quantum : 0 ∈ handled) :
    timercmpGt (st'.events 0).tv now = true := by
  rw [drained.events, if_pos quantum, Function.update_self,
    timercmpGt_iff (timeradd_normal qt_normal now_normal) now_normal, timeradd_micros]
  omega

/-- Events that were not handled are compared by the times they had at first. -/
theorem due_le {other : EvntPtr} (waits : evnt ∈ rest) (waitsToo : other ∈ rest)
    (leq : affEventLeqUl st'.events evnt other = true) : st.due evnt ≤ st.due other := by
  unfold affEventLeqUl at leq
  rw [drained.events_rest queue waits, drained.events_rest queue waitsToo, Bool.not_eq_true'] at leq
  by_contra less
  have greater :=
    (timercmpGt_iff (drained.normal_rest queue waits) (drained.normal_rest queue waitsToo)).mpr
    (not_le.mp less)
  rw [greater] at leq
  exact absurd leq (by simp)

theorem root_rest (now_normal : now.Normal) (qt_normal : st.qt.Normal) (positive : 0 < st.qt.micros)
    (member : evnt ∈ ys) (ready : timercmpGt (st'.events evnt).tv now = false) :
    evnt ∈ rest ∧ st.due evnt ≤ now.micros := by
  have waits : evnt ∈ rest := by
    rcases List.mem_append.mp (drained.queued.subset member) with waits | again
    · exact waits
    split at again
    · next quantum =>
        rw [List.mem_singleton.mp again,
          drained.quantum_late now_normal qt_normal positive quantum] at ready
        exact absurd ready (by simp)
    · simp at again
  refine ⟨waits, ?_⟩
  by_contra late
  rw [drained.events_rest queue waits] at ready
  have greater := (timercmpGt_iff (drained.normal_rest queue waits) now_normal).mpr (not_le.mp late)
  rw [greater] at ready
  exact absurd ready (by simp)

/-- The programs of the events that wait have not arrived. -/
theorem fresh (waits : evnt ∈ rest) (arrival : evnt ≠ 0) :
    Node.plNode (st.events evnt).prog ∉
      Node.pnewL :: (new ++ st.arriving handled).map Node.plNode := by
  have perm : (st.arriving (handled ++ rest)).Perm (st.arriving xs) :=
    (drained.split.filter _).map _
  have nodup := (perm.append_left new).nodup_iff.mpr queue.distinct
  rw [ExecState.arriving, arrivals, List.filter_append, List.map_append,
    ← List.append_assoc] at nodup
  have later : (st.events evnt).prog ∈ st.arriving rest :=
    List.mem_map_of_mem (List.mem_filter.mpr ⟨waits, by simpa using arrival⟩)
  intro there
  rcases List.mem_cons.mp there with equal | there
  · exact Node.noConfusion equal
  · obtain ⟨prog, earlier, equal⟩ := List.mem_map.mp there
    cases equal
    exact (List.nodup_append.mp nodup).2.2 _ earlier _ later rfl

/-- What every event handled has in common: it comes next. -/
theorem order (waits : evnt ∈ rest) (due : st.due evnt ≤ now.micros)
    (least : ∀ other ∈ ys, affEventLeqUl st'.events evnt other = true) :
    (handled ++ [evnt] ++ rest.erase evnt).Perm xs ∧
      (∀ other ∈ handled ++ [evnt], st.due other ≤ now.micros) ∧
      (handled ++ [evnt]).Pairwise (fun evnt other => st.due evnt ≤ st.due other) ∧
      ∀ early ∈ handled ++ [evnt], ∀ other ∈ rest.erase evnt, st.due early ≤ st.due other := by
  refine ⟨?_, ?_, ?_, ?_⟩
  · rw [List.append_assoc]
    exact ((List.perm_cons_erase waits).symm.append_left handled).trans drained.split
  · intro other member
    rcases List.mem_append.mp member with member | member
    · exact drained.ready other member
    · rwa [List.mem_singleton.mp member]
  · refine List.pairwise_append.mpr
      ⟨drained.sorted, List.pairwise_singleton _ _, fun early member other last => ?_⟩
    rw [List.mem_singleton.mp last]
    exact drained.before early member evnt waits
  · intro early member other later
    have later := List.mem_of_mem_erase later
    rcases List.mem_append.mp member with member | member
    · exact drained.before early member other later
    · rw [List.mem_singleton.mp member]
      have queued : other ∈ ys := drained.queued.symm.subset (List.mem_append_left _ later)
      exact drained.due_le queue waits later (least other queued)

theorem step {heap : Heap EvntPtr} {ys' : List EvntPtr} {I : ExecState → Prop}
    (hook : Retimes I qexpired) (holds : I st') (now_normal : now.Normal) (qt_normal : st.qt.Normal)
    (positive : 0 < st.qt.micros) (perm : (evnt :: ys').Perm ys)
    (popped : heapPop (affEventLeqUl st'.events) st'.eventsHeap = some (heap, some evnt))
    (valid : heap.Valid (affEventLeqUl st'.events) ys')
    (ready : timercmpGt (st'.events evnt).tv now = false)
    (least : ∀ other ∈ ys, affEventLeqUl st'.events evnt other = true) :
    wp (handleEvent qexpired evnt now) (fun _ st'' => I st'' ∧
      ∃ ys'', Drained qexpired now st xs new (handled ++ [evnt]) (rest.erase evnt) ys'' st'')
      (Stopped qexpired now) { st' with eventsHeap := heap } := by
  obtain ⟨waits, due⟩ := drained.root_rest queue now_normal qt_normal positive
    (perm.subset List.mem_cons_self) ready
  obtain ⟨split, allReady, sorted, before⟩ := drained.order queue waits due least
  have queued : ys'.Perm (rest.erase evnt ++ if 0 ∈ handled then [0] else []) := by
    have both := perm.trans (drained.queued.trans ((List.perm_cons_erase waits).append_right _))
    exact both.cons_inv
  have pops : Pops st' ys evnt heap ys' := ⟨drained.valid, drained.queued_nodup queue, perm, valid⟩
  have event := drained.events_rest queue waits
  refine Wp.imp (Wp.returned (?_ : wp _ (fun _ st'' => I st'' ∧ ∃ ys'',
    st''.events = (if 0 ∈ handled ++ [evnt] then
      Function.update st.events 0 { st.events 0 with tv := timeradd st.qt now } else st.events) ∧
    st''.eventsHeap.Valid (affEventLeqUl st''.events) ys'' ∧
    ys''.Perm (rest.erase evnt ++ if 0 ∈ handled ++ [evnt] then [0] else []) ∧ st''.qt = st.qt ∧
    st''.waitingNr = st.waitingNr - (arrivals (handled ++ [evnt])).length ∧
    st''.newNr = st.newNr + (arrivals (handled ++ [evnt])).length ∧
    IsRing st''.links .pnewL ((new ++ st.arriving (handled ++ [evnt])).map Node.plNode))
      (Stopped qexpired now) _)) ?_
  · refine Wp.bind_ok rfl ?_
    by_cases quantum : evnt = 0
    · subst quantum
      have first : 0 ∉ handled := fun earlier => drained.apart queue earlier waits
      have events : st'.events = st.events := by rw [drained.events, if_neg first]
      have type : (st'.events 0).type = .qexpired := by rw [events, queue.quantum]
      simp only [type]
      have retimes := Wp.stopped (hook.quantum now st' ys heap ys' holds pops)
      refine Wp.mono retimes (fun _ st'' left => ?_) fun _ _ stops => ⟨_, stops.1⟩
      obtain ⟨holds', events', ⟨ys'', valid', queued'⟩, qt, waitingNr, newNr, ring⟩ := left
      have same : arrivals (handled ++ [0]) = arrivals handled := by simp [arrivals]
      rw [if_neg first, List.append_nil] at queued
      refine ⟨holds', ys'', ?_, valid', ?_, qt.trans drained.qt, ?_, ?_, ?_⟩
      · rw [events', if_pos (by simp)]
        simp [events, drained.qt]
      · rw [if_pos (by simp)]
        exact queued'.trans ((queued.cons 0).trans (List.perm_append_singleton _ _).symm)
      · rw [waitingNr, same, drained.waitingNr]
      · rw [newNr, same, drained.newNr]
      · have ring := ring _ drained.ring
        rwa [ExecState.arriving, same]
    · have type : (st'.events evnt).type = .newprog := by
        rw [event, queue.newprog evnt (split.subset (by simp)) quantum]
      simp only [type]
      have one : arrivals (handled ++ [evnt]) = arrivals handled ++ [evnt] := by
        simp [arrivals, quantum]
      have iff : (0 ∈ handled ++ [evnt]) = (0 ∈ handled) := by
        simp [Ne.symm quantum]
      refine ⟨hook.arrival st' ys evnt heap ys' holds pops quantum, ys', ?_, valid, ?_,
        drained.qt, ?_, ?_, ?_⟩
      · simp only [iff]
        exact drained.events
      · simpa only [iff] using queued
      · simp only [one, List.length_append, List.length_singleton]
        have counted := drained.waitingNr
        change st'.waitingNr - 1 = _
        push_cast
        omega
      · simp only [one, List.length_append, List.length_singleton]
        have counted := drained.newNr
        change st'.newNr + 1 = _
        push_cast
        omega
      · have ring := cdsListAddTail_ring drained.ring (drained.fresh queue waits quantum)
        rw [← event] at ring
        simpa [ExecState.arriving, one, event] using ring
  · intro _ st'' left
    obtain ⟨run, holds', ys'', events, valid', queued', qt, waitingNr, newNr, ring⟩ := left
    exact ⟨holds', ys'', drained.handles.next popped run, split, allReady, sorted, before, events,
      valid', queued', qt,
      waitingNr, newNr, ring⟩

end Drained

/-- What `select_ready_events` leaves: the events `handled` were handled, and `ys` is in the
heap. -/
structure Selected (qexpired : Timeval → Exec Unit) (now : Timeval) (st : ExecState)
    (xs : List EvntPtr) (new : List ProgPtr) (nextWakeup : Option Timeval)
    (handled ys : List EvntPtr) (wakeup : Option Timeval) (st' : ExecState) : Prop where
  handles : Handles qexpired now st handled st'
  exactly : handled.Perm (xs.filter fun evnt => st.due evnt ≤ now.micros)
  sorted : handled.Pairwise fun evnt other => st.due evnt ≤ st.due other
  valid : st'.eventsHeap.Valid (affEventLeqUl st'.events) ys
  left :
    ys.Perm (xs.filter (fun evnt => now.micros < st.due evnt) ++ if 0 ∈ handled then [0] else [])
  events : st'.events =
    if 0 ∈ handled then Function.update st.events 0 { st.events 0 with tv := timeradd st.qt now }
    else st.events
  waitingNr : st'.waitingNr = st.waitingNr - (arrivals handled).length
  newNr : st'.newNr = st.newNr + (arrivals handled).length
  ring : IsRing st'.links .pnewL ((new ++ st.arriving handled).map Node.plNode)
  untouched : ys = [] → wakeup = nextWakeup
  wakeup : ys ≠ [] → ∃ first ∈ ys, (∀ other ∈ ys, st'.due first ≤ st'.due other) ∧
    0 < st'.due first - now.micros ∧
    wakeup = nextWakeup.map (fun _ => timersub (st'.events first).tv now) ∧
    (timersub (st'.events first).tv now).Normal ∧
    (timersub (st'.events first).tv now).micros = st'.due first - now.micros

/-- Events that come back or have not come up have normalised times. -/
theorem Drained.normal (drained : Drained qexpired now st xs new handled rest ys st')
    (queue : EventQueue st xs new) (now_normal : now.Normal) (qt_normal : st.qt.Normal)
    (member : evnt ∈ ys) : (st'.events evnt).tv.Normal := by
  rcases List.mem_append.mp (drained.queued.subset member) with waits | again
  · rw [drained.events_rest queue waits]
    exact drained.normal_rest queue waits
  · split at again
    · next quantum =>
        rw [List.mem_singleton.mp again, drained.events, if_pos quantum, Function.update_self]
        exact timeradd_normal qt_normal now_normal
    · simp at again

/-- Where the loop ends, all ready events were handled. -/
theorem Drained.selected {nextWakeup wakeup : Option Timeval}
    (drained : Drained qexpired now st xs new handled rest ys st') (queue : EventQueue st xs new)
    (now_normal : now.Normal) (qt_normal : st.qt.Normal)
    (woken : Woken st' now ys nextWakeup wakeup) :
    Selected qexpired now st xs new nextWakeup handled ys wakeup st' := by
  have normal : ∀ evnt ∈ ys, (st'.events evnt).tv.Normal :=
    fun evnt member => drained.normal queue now_normal qt_normal member
  have le : ∀ evnt ∈ ys, ∀ other ∈ ys, affEventLeqUl st'.events evnt other = true →
      st'.due evnt ≤ st'.due other := by
    intro evnt member other otherMember leq
    unfold affEventLeqUl at leq
    by_contra less
    rw [(timercmpGt_iff (normal evnt member) (normal other otherMember)).mpr
      (not_le.mp less)] at leq
    exact absurd leq (by simp)
  have late : ∀ evnt ∈ ys, now.micros < st'.due evnt := by
    intro evnt member
    rcases woken with ⟨empty, -⟩ | ⟨first, firstMember, least, greater, -⟩
    · simp [empty] at member
    · have first_late := (timercmpGt_iff (normal first firstMember) now_normal).mp greater
      exact lt_of_lt_of_le first_late (le first firstMember evnt member (least evnt member))
  have rest_late : ∀ evnt ∈ rest, now.micros < st.due evnt := by
    intro evnt waits
    have later := late evnt (drained.queued.symm.subset (List.mem_append_left _ waits))
    rwa [ExecState.due, drained.events_rest queue waits] at later
  have none_ready : rest.filter (fun evnt => st.due evnt ≤ now.micros) = [] := by
    refine List.filter_eq_nil_iff.mpr fun evnt waits => ?_
    simpa using rest_late evnt waits
  have all_ready : handled.filter (fun evnt => st.due evnt ≤ now.micros) = handled :=
    List.filter_eq_self.mpr fun evnt member => by simpa using drained.ready evnt member
  have none_late : handled.filter (fun evnt => now.micros < st.due evnt) = [] := by
    refine List.filter_eq_nil_iff.mpr fun evnt member => ?_
    simpa using drained.ready evnt member
  have all_late : rest.filter (fun evnt => now.micros < st.due evnt) = rest :=
    List.filter_eq_self.mpr fun evnt waits => by simpa using rest_late evnt waits
  constructor
  case handles => exact drained.handles
  case exactly =>
    have perm := drained.split.filter fun evnt => st.due evnt ≤ now.micros
    rwa [List.filter_append, all_ready, none_ready, List.append_nil] at perm
  case sorted => exact drained.sorted
  case valid => exact drained.valid
  case left =>
    have perm := drained.split.filter fun evnt => now.micros < st.due evnt
    rw [List.filter_append, none_late, all_late, List.nil_append] at perm
    exact drained.queued.trans (perm.append_right _)
  case events => exact drained.events
  case waitingNr => exact drained.waitingNr
  case newNr => exact drained.newNr
  case ring => exact drained.ring
  case untouched =>
    intro empty
    rcases woken with ⟨-, same⟩ | ⟨first, member, -⟩
    · exact same
    · simp [empty] at member
  case wakeup =>
    intro several
    rcases woken with ⟨empty, -⟩ | ⟨first, member, least, -, same⟩
    · exact absurd empty several
    have later := late first member
    refine ⟨first, member, fun other otherMember =>
      le first member other otherMember (least other otherMember), ?_,
      same, timersub_normal (normal first member) now_normal, timersub_micros⟩
    omega

/-- `select_ready_events` with a hook that retimes `qt_event`: it ends, unless the hook stops it. -/
theorem EventQueue.selects {I : ExecState → Prop} (queue : EventQueue st xs new)
    (hook : Retimes I qexpired) (holds : I st) (now_normal : now.Normal) (qt_normal : st.qt.Normal)
    (positive : 0 < st.qt.micros) (nextWakeup : Option Timeval) :
    wp (selectReadyEvents qexpired now (heapSize st.eventsHeap + 1) nextWakeup)
      (fun wakeup st' => ∃ handled ys,
        Selected qexpired now st xs new nextWakeup handled ys wakeup st')
      (Stopped qexpired now) st := by
  refine Wp.imp (selectReadyEvents_rule (fun n ys st' => I st' ∧ ∃ handled rest, n = rest.length ∧
      Drained qexpired now st xs new handled rest ys st') ?_ ?_ nextWakeup _ xs.length xs st ?_
    ⟨holds, [], xs, rfl, queue.drained⟩) ?_
  · intro n ys st' inv
    obtain ⟨-, handled, rest, -, drained⟩ := inv
    exact drained.valid
  · intro n ys st' evnt ys' heap inv perm popped valid ready least
    obtain ⟨holds, handled, rest, rfl, drained⟩ := inv
    have waits := (drained.root_rest queue now_normal qt_normal positive
      (perm.subset List.mem_cons_self) ready).1
    refine Wp.imp
      (drained.step queue hook holds now_normal qt_normal positive perm popped valid ready least) ?_
    intro _ st'' next
    obtain ⟨holds', ys'', next⟩ := next
    refine ⟨_, ys'', ?_, holds', handled ++ [evnt], rest.erase evnt, rfl, next⟩
    have positive := List.length_pos_of_mem waits
    rw [List.length_erase_of_mem waits]
    omega
  · rw [heapSize_eq queue.valid]
    exact Nat.lt_succ_self _
  · intro wakeup st' ended
    obtain ⟨n, ys, ⟨-, handled, rest, -, drained⟩, woken⟩ := ended
    exact ⟨handled, ys, drained.selected queue now_normal qt_normal woken⟩

theorem rearm_spec {Q : Unit → ExecState → Prop} {st : ExecState} {xs : List EvntPtr}
    (valid : st.eventsHeap.Valid (affEventLeqUl st.events) xs) (outside : 0 ∉ xs)
    (armed : ∀ events heap ys, events =
        Function.update st.events 0 { st.events 0 with tv := timeradd st.qt now } →
      heap.Valid (affEventLeqUl events) ys → ys.Perm (0 :: xs) →
      Q () { st with events := events, eventsHeap := heap }) : wp (rearm now) Q E st := by
  refine Wp.bind_ok rfl ?_
  refine eventsHeapPush_spec 0 (valid.congr fun evnt member => ?_) fun heap ys valid' perm =>
    armed _ heap ys rfl valid' perm
  have differs : evnt ≠ 0 := fun same => outside (same ▸ member)
  exact Function.update_of_ne differs _ _

end Drain

end BachScheduler
