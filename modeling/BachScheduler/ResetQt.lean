import BachScheduler.EventLoop
import BachScheduler.HeapPopElem

/-!
# A quantum that starts again

When the main loop finds `reset_qt`, it gives `qt_event` another time while the event is
still in the heap, and then takes it out and pushes it.  Only `qt_event` is out of order
meanwhile.  A hole in its place is as good as any other, but in the last cell the event is
sifted up before the cell is cut off.
-/

namespace BachScheduler

open BinHeap

/-- What `main` does if `reset_qt` is set. -/
def resetQt : Exec Unit := do
  let now ← getNow
  modify fun st =>
    { st with
      events := Function.update st.events 0 { st.events 0 with tv := timeradd st.qt now } }
  let st ← get
  let popped ← orElseStop .misuse (heapPopElem (affEventLeqUl st.events) st.eventsHeap 0)
  modify fun st => { st with eventsHeap := popped.1 }
  eventsHeapPush 0

namespace ExecState

/-- What `get_now` returns next. -/
def nextNow (st : ExecState) : Timeval :=
  timersub (st.env.timeOfDay st.reads) st.tv0

/-- The events with the new time of `qt_event`. -/
def retimed (st : ExecState) : EvntPtr → AffEvent :=
  Function.update st.events 0 { st.events 0 with tv := timeradd st.qt st.nextNow }

/-- In the last cell of the heap, `qt_event` is not before its parent at its new time. -/
def QtRemovable (st : ExecState) : Prop :=
  ∀ pos up, pos + 1 = heapSize st.eventsHeap → st.eventsHeap.elems.load pos = some 0 → 0 < pos →
    st.eventsHeap.elems.load ((pos - 1) / 2) = some up →
      timercmpGt (st.events up).tv (timeradd st.qt st.nextNow) = false

end ExecState

/-- `main` leaves the heap in order, with `qt_event` at its new time once and the other events
as before. -/
def ResetsQt (st : ExecState) : Prop :=
  ∃ st', resetQt st = .ok () st' ∧
    (∃ ys, st'.eventsHeap.Valid (affEventLeqUl st'.events) ys) ∧
    (∀ evnt ≠ 0, st'.events evnt = st.events evnt ∧
      (heapElems st'.eventsHeap).count evnt = (heapElems st.eventsHeap).count evnt) ∧
    (st'.events 0).tv = timeradd st.qt st.nextNow ∧ (heapElems st'.eventsHeap).count 0 = 1

section Removal

variable {st : ExecState} {xs ys : List EvntPtr} {heap : Heap EvntPtr} {pos : Nat}
    {evnt last : EvntPtr}

theorem retimed_other (other : evnt ≠ 0) : st.retimed evnt = st.events evnt :=
  Function.update_of_ne other _ _

@[simp] theorem retimed_qt : (st.retimed 0).tv = timeradd st.qt st.nextNow := by
  simp [ExecState.retimed]

/-- An event that occurs once is at one position. -/
theorem at_one_position (once : xs.count evnt = 1) {k m : Nat} (atK : xs[k]? = some evnt)
    (atM : xs[m]? = some evnt) : k = m := by
  induction xs generalizing k m with
  | nil => simp at atK
  | cons head rest ih =>
      by_cases here : head = evnt
      · have gone : evnt ∉ rest := by
          rw [here, List.count_cons_self] at once
          exact List.count_eq_zero.mp (by omega)
        cases k with
        | zero =>
            cases m with
            | zero => rfl
            | succ m =>
                have inRest : rest[m]? = some evnt := atM
                exact absurd (List.mem_of_getElem? inRest) gone
        | succ k =>
            have inRest : rest[k]? = some evnt := atK
            exact absurd (List.mem_of_getElem? inRest) gone
      · rw [List.count_cons_of_ne here] at once
        cases k with
        | zero => exact absurd (Option.some_inj.mp atK) here
        | succ k =>
            cases m with
            | zero => exact absurd (Option.some_inj.mp atM) here
            | succ m => rw [ih once atK atM]

/-- Outside of the cell of `qt_event`, the new times are the old ones. -/
theorem inOrder_retimed (only : ∀ k, xs[k]? = some 0 → k = pos) (k m : Nat) (upper : k ≠ pos)
    (lower : m ≠ pos) (inOrder : InOrder (affEventLeqUl st.events) xs k m) :
    InOrder (affEventLeqUl st.retimed) xs k m := by
  intro a b atK atM
  have first : a ≠ 0 := fun equal => upper (only k (equal ▸ atK))
  have second : b ≠ 0 := fun equal => lower (only m (equal ▸ atM))
  have before := inOrder a b atK atM
  unfold affEventLeqUl at before ⊢
  rw [retimed_other first, retimed_other second]
  exact before

/-- The rest of `main` after the removal: the result holds what the removal has left, and
`qt_event`. -/
theorem resetQt_pushes {ret : Bool}
    (popped : heapPopElem (affEventLeqUl st.retimed) st.eventsHeap 0 = some (heap, ret))
    (valid : heap.Valid (affEventLeqUl st.retimed) ys) :
    ∃ st' zs, resetQt st = .ok () st' ∧ st'.events = st.retimed ∧
      st'.eventsHeap.Valid (affEventLeqUl st.retimed) zs ∧ zs.Perm (0 :: ys) := by
  have spec : Wp.wp resetQt (fun _ st' => st'.events = st.retimed ∧
      ∃ zs, st'.eventsHeap.Valid (affEventLeqUl st.retimed) zs ∧ zs.Perm (0 :: ys))
      (fun _ _ => False) st := by
    refine Wp.bind_ok rfl (Wp.bind_ok rfl (Wp.bind_ok rfl ?_))
    change Wp.wp (orElseStop .misuse (heapPopElem (affEventLeqUl st.retimed) st.eventsHeap 0) >>= _)
      _ _ _
    rw [popped]
    refine Wp.bind_ok rfl (Wp.bind_ok rfl (eventsHeapPush_spec 0 valid ?_))
    intro heap' zs valid' perm
    exact ⟨rfl, zs, valid', perm⟩
  cases run : resetQt st with
  | ok a st' =>
      obtain ⟨events, zs, valid', perm⟩ := (Wp.of_ok run).mp spec
      exact ⟨st', zs, rfl, events, valid', perm⟩
  | error stop st' => exact absurd ((Wp.of_error run).mp spec) id

/-- Events without `qt_event` stay in order. -/
theorem ordered_retimed (ordered : Ordered (affEventLeqUl st.events) xs) (gone : 0 ∉ xs) :
    Ordered (affEventLeqUl st.retimed) xs := by
  intro k positive a b atUpper atLower
  have first : a ≠ 0 := fun equal => gone (equal ▸ List.mem_of_getElem? atUpper)
  have second : b ≠ 0 := fun equal => gone (equal ▸ List.mem_of_getElem? atLower)
  have before := ordered k positive a b atUpper atLower
  unfold affEventLeqUl at before ⊢
  rw [retimed_other first, retimed_other second]
  exact before

/-- Before the last cell, the removal takes out `qt_event`. -/
theorem heapPopElem_inner (valid : st.eventsHeap.Valid (affEventLeqUl st.events) (xs ++ [last]))
    (once : (xs ++ [last]).count 0 = 1) (other : last ≠ 0) :
    ∃ heap ret ys, heapPopElem (affEventLeqUl st.retimed) st.eventsHeap 0 = some (heap, ret) ∧
      heap.Valid (affEventLeqUl st.retimed) ys ∧ (0 :: ys).Perm (xs ++ [last]) := by
  have inside : xs.count 0 = 1 := by
    simpa [List.count_append, List.count_cons_of_ne other] using once
  have member : 0 ∈ xs := List.count_pos_iff.mp (by omega)
  obtain ⟨pos, atPos, others⟩ := first_occurrence member
  obtain ⟨less, _⟩ := List.getElem?_eq_some_iff.mp atPos
  have hole : DownHole (affEventLeqUl st.retimed) xs pos :=
    (valid.ordered.left.downHole (affEventLeqUl_order _) pos).congr
      (inOrder_retimed fun k atK => at_one_position inside atK atPos)
  obtain ⟨heap, ys, popped, valid', perm⟩ :=
    heapPopAt_hole (affEventLeqUl_order _) valid.stores hole atPos
  have found : heapPopElem (affEventLeqUl st.retimed) st.eventsHeap 0 =
      (heapPopAt (affEventLeqUl st.retimed) st.eventsHeap pos).map
        fun popped => (popped.1, popped.2.isSome) := by
    refine heapPopElem_found valid.stores (by rwa [List.getElem?_append_left less]) fun k before =>
      ?_
    rw [List.getElem?_append_left (by omega)]
    exact others k before
  rw [popped] at found
  exact ⟨heap, true, ys, found, valid', perm⟩

/-- `qt_event` is found in the last cell. -/
theorem heapPopElem_end (stores : st.eventsHeap.Stores (xs ++ [0])) (gone : 0 ∉ xs) :
    heapPopElem (affEventLeqUl st.retimed) st.eventsHeap 0 =
      (heapPopAt (affEventLeqUl st.retimed) st.eventsHeap xs.length).map
        fun popped => (popped.1, popped.2.isSome) := by
  refine heapPopElem_found stores (by simp) fun k before => ?_
  rw [List.getElem?_append_left before]
  exact fun atK => gone (List.mem_of_getElem? atK)

/-- In the last cell, `qt_event` is taken out if it is not before its parent. -/
theorem heapPopElem_last (valid : st.eventsHeap.Valid (affEventLeqUl st.events) (xs ++ [0]))
    (gone : 0 ∉ xs) (removable : st.QtRemovable) :
    ∃ heap ret ys, heapPopElem (affEventLeqUl st.retimed) st.eventsHeap 0 = some (heap, ret) ∧
      heap.Valid (affEventLeqUl st.retimed) ys ∧ (0 :: ys).Perm (xs ++ [0]) := by
  have size := heapSize_eq valid
  rw [List.length_append, List.length_singleton] at size
  have behind : 0 < xs.length →
      InOrder (affEventLeqUl st.retimed) (xs ++ [0]) (parent xs.length) xs.length := by
    intro positive up low atUpper atLower
    obtain rfl : 0 = low := by simpa using atLower
    have less := parent_lt positive
    have early := removable xs.length up size.symm (load_stored valid atLower) positive
      (load_stored valid atUpper)
    rw [List.getElem?_append_left less] at atUpper
    have other : up ≠ 0 := fun equal => gone (equal ▸ List.mem_of_getElem? atUpper)
    unfold affEventLeqUl
    rw [retimed_other other, retimed_qt, early]
    rfl
  obtain ⟨heap, popped, stores⟩ := heapPopAt_last valid.stores behind
  have found := heapPopElem_end valid.stores gone
  rw [popped] at found
  exact ⟨heap, true, xs, found, ⟨stores, ordered_retimed valid.ordered.left gone⟩,
    (List.perm_append_singleton 0 xs).symm⟩

/-- In the last cell, `qt_event` changes places with a parent that is later, which is lost. -/
theorem heapPopElem_lost (valid : st.eventsHeap.Valid (affEventLeqUl st.events) (xs ++ [0]))
    (gone : 0 ∉ xs) (stuck : ¬ st.QtRemovable) :
    ∃ heap ret up ys, heapPopElem (affEventLeqUl st.retimed) st.eventsHeap 0 = some (heap, ret) ∧
      heap.Valid (affEventLeqUl st.retimed) ys ∧ up ≠ 0 ∧ (up :: ys).Perm (xs ++ [0]) := by
  unfold ExecState.QtRemovable at stuck
  push Not at stuck
  obtain ⟨pos, up, last, -, positive, loaded, late⟩ := stuck
  have size := heapSize_eq valid
  rw [List.length_append, List.length_singleton] at size
  obtain rfl : pos = xs.length := by omega
  have less := parent_lt positive
  have atParent : xs[parent xs.length]? = some xs[parent xs.length] := List.getElem?_eq_getElem less
  have stored := load_stored valid
    (show (xs ++ [0])[parent xs.length]? = some xs[parent xs.length] by
    rw [List.getElem?_append_left less, atParent])
  obtain rfl : up = xs[parent xs.length] := Option.some_inj.mp (loaded.symm.trans stored)
  have other : xs[parent xs.length] ≠ 0 := fun equal => gone (equal ▸ List.mem_of_getElem? atParent)
  have before : affEventLeqUl st.retimed xs[parent xs.length] 0 = false := by
    unfold affEventLeqUl
    rw [retimed_other other, retimed_qt]
    simpa using late
  obtain ⟨heap, ys, popped, valid', perm⟩ := heapPopAt_lost (affEventLeqUl_order _) valid.stores
    (ordered_retimed valid.ordered.left gone) positive atParent before
  have found := heapPopElem_end valid.stores gone
  rw [popped] at found
  exact ⟨heap, true, _, ys, found, valid', other, perm⟩

end Removal

section Reset

variable {st : ExecState} {xs : List EvntPtr}

/-- Resetting the quantum does its task exactly if `qt_event` is not in the last cell of the
heap, or not before its parent there. -/
theorem resetQt_iff (valid : st.eventsHeap.Valid (affEventLeqUl st.events) xs)
    (once : (heapElems st.eventsHeap).count 0 = 1) : ResetsQt st ↔ st.QtRemovable := by
  have elems := heapElems_eq valid
  rw [elems, Multiset.coe_count] at once
  rcases List.eq_nil_or_concat' xs with rfl | ⟨init, last, rfl⟩
  · simp at once
  constructor
  · rintro ⟨st', run, -, -, -, kept⟩
    by_contra stuck
    by_cases atEnd : last = 0
    · subst atEnd
      have gone : 0 ∉ init := by
        rw [List.count_append, List.count_singleton_self] at once
        exact List.count_eq_zero.mp (by omega)
      obtain ⟨heap, ret, up, ys, popped, valid', other, perm⟩ := heapPopElem_lost valid gone stuck
      obtain ⟨st'', zs, run', events, valid'', perm'⟩ := resetQt_pushes popped valid'
      obtain rfl : st'' = st' := by
        rw [run] at run'
        cases run'
        rfl
      rw [heapElems_eq valid'', Multiset.coe_count, perm'.count_eq, List.count_cons_self] at kept
      have twice := perm.count_eq 0
      rw [List.count_cons_of_ne other, once] at twice
      omega
    · refine stuck fun pos up isLast loaded => ?_
      have size := heapSize_eq valid
      rw [List.length_append, List.length_singleton] at size
      obtain rfl : pos = init.length := by omega
      rw [load_stored valid (show (init ++ [last])[init.length]? = some last by simp)] at loaded
      exact absurd (Option.some_inj.mp loaded) atEnd
  · intro removable
    have removed : ∃ heap ret ys, heapPopElem (affEventLeqUl st.retimed) st.eventsHeap 0 =
        some (heap, ret) ∧
        heap.Valid (affEventLeqUl st.retimed) ys ∧ (0 :: ys).Perm (init ++ [last]) := by
      by_cases atEnd : last = 0
      · subst atEnd
        have gone : 0 ∉ init := by
          rw [List.count_append, List.count_singleton_self] at once
          exact List.count_eq_zero.mp (by omega)
        exact heapPopElem_last valid gone removable
      · exact heapPopElem_inner valid once atEnd
    obtain ⟨heap, ret, ys, popped, valid', perm⟩ := removed
    obtain ⟨st', zs, run, events, valid'', perm'⟩ := resetQt_pushes popped valid'
    have total : zs.Perm (init ++ [last]) := perm'.trans perm
    refine ⟨st', run, ⟨zs, events ▸ valid''⟩, fun evnt other => ⟨?_, ?_⟩, ?_, ?_⟩
    · rw [events, retimed_other other]
    · rw [heapElems_eq valid'', elems, Multiset.coe_count, Multiset.coe_count, total.count_eq]
    · rw [events, retimed_qt]
    · rw [heapElems_eq valid'', Multiset.coe_count, total.count_eq, once]

/-- A program starts after ten seconds, and the quantum ends right after it.  The clock has
been set back to zero. -/
def ExecState.quantumLast : ExecState :=
  { ExecState.start .still [] with
    events := fun evnt =>
      if evnt = 0 then ⟨.qexpired, ⟨10, 100000⟩, 0⟩ else ⟨.newprog, ⟨10, 0⟩, 0⟩
    eventsHeap := ⟨[some 1, some 0], 2, 2, 1⟩ }

theorem quantumLast_valid :
    ExecState.quantumLast.eventsHeap.Valid (affEventLeqUl ExecState.quantumLast.events) [1, 0] where
  stores := ⟨⟨[], rfl⟩, rfl, rfl, by decide⟩
  ordered := by
    intro k positive a b atUpper atLower
    have inside := List.getElem?_eq_some_iff.mp atLower |>.1
    obtain rfl : k = 1 := by
      simp only [List.length_cons, List.length_nil] at inside
      omega
    obtain rfl : 1 = a := by simpa [parent] using atUpper
    obtain rfl : 0 = b := by simpa using atLower
    decide

theorem resetQt_iff_quantumLast :
    ResetsQt ExecState.quantumLast ↔ ExecState.quantumLast.QtRemovable :=
  resetQt_iff quantumLast_valid (by decide)

/-- The program is lost, and `qt_event` is in the heap twice. -/
theorem resetQt_loses_event : ¬ ∀ (st : ExecState) (xs : List EvntPtr),
      st.eventsHeap.Valid (affEventLeqUl st.events) xs → (heapElems st.eventsHeap).count 0 = 1 →
        ResetsQt st := by
  intro always
  obtain ⟨st', run, -, others, -⟩ := always _ _ quantumLast_valid (by decide)
  obtain ⟨st'', run', lost⟩ := Wp.exists_of_returnsWith (by decide +kernel :
    Wp.returnsWith resetQt .quantumLast (fun st => (heapElems st.eventsHeap).count 1 = 0) = true)
  obtain rfl : st'' = st' := by
    rw [run] at run'
    cases run'
    rfl
  have kept := (others 1 (by decide)).2
  rw [of_decide_eq_true lost] at kept
  exact absurd kept (by decide)

end Reset

end BachScheduler
