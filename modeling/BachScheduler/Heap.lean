import BachScheduler.Dynarray
import BachScheduler.Lib.HeapOrder
import Mathlib.Data.Multiset.AddSub

/-!
# The binary heap of `heap.c`

The comparison is an argument of the operations instead of the field `leq_fn`,
because the executor's comparison reads the events the elements point to.  An
operation has no result where it would exit or read a cell that holds no element;
loops carry fuel.  A return value of 0 together with an untouched `*ret` is
`none`, and a return value of 1 is `some` of what is stored to `*ret`.
-/

namespace BachScheduler

open BinHeap

/-- `struct heap`, without its function pointers. -/
abbrev Heap (α : Type) := Dynarray α

section Operations

variable {α : Type} (leq : α → α → Bool)

/-- `heap_init`. -/
def heapInit : Heap α :=
  dynarrayCreate 128

/-- `heap_size`. -/
def heapSize (heap : Heap α) : Nat :=
  dynarraySize heap

/-- The loop of `siftdown` and the store behind it. -/
def siftdownLoop (elem : α) : Nat → Nat → Buffer α → Option (Buffer α)
  | 0, _, _ => none
  | fuel + 1, pos, h =>
      if pos > 0 then do
        let parentpos := (pos - 1) / 2
        let parent ← h.load parentpos
        if leq parent elem then
          h.store pos elem
        else do
          let h ← h.store pos parent
          siftdownLoop elem fuel parentpos h
      else
        h.store pos elem

/-- `siftdown`. -/
def siftdown (heap : Heap α) (pos : Nat) (elem : α) : Option (Heap α) := do
  let _ ← dynarrayGet heap 0
  let h ← siftdownLoop leq elem (pos + 1) pos heap.elems
  some { heap with elems := h }

/-- `heap_push`. -/
def heapPush (heap : Heap α) (elem : α) : Option (Heap α) := do
  let (heap, _) ← dynarrayAlloc heap
  let size := dynarraySize heap
  siftdown leq heap (size - 1) elem

/-- `heap_peek`. -/
def heapPeek (heap : Heap α) : Option (Option α) :=
  if dynarraySize heap = 0 then
    some none
  else do
    let _ ← dynarrayGet heap 0
    let ret ← heap.elems.load 0
    some (some ret)

/-- The loop of `__heap_pop`, which moves the hole down to a leaf. -/
def heapPopLoop (size : Nat) : Nat → Nat → Buffer α → Option (Nat × Buffer α)
  | 0, _, _ => none
  | fuel + 1, pos, h =>
      let chPos := 2 * pos + 1
      let rchPos := chPos + 1
      if chPos ≥ size then
        some (pos, h)
      else do
        let chPos ←
          if rchPos < size then do
            let right ← h.load rchPos
            let left ← h.load chPos
            some (if leq right left then rchPos else chPos)
          else
            some chPos
        let child ← h.load chPos
        let h ← h.store pos child
        heapPopLoop size fuel chPos h

/-- `__heap_pop`: remove the element at a position. -/
def heapPopAt (heap : Heap α) (pos : Nat) : Option (Heap α × Option α) :=
  let size := dynarraySize heap
  if size = 0 || pos ≥ size then
    some (heap, none)
  else do
    let _ ← dynarrayGet heap 0
    let ret ← heap.elems.load pos
    let last ← heap.elems.load (size - 1)
    let size := size - 1
    let (pos, h) ← heapPopLoop leq size (size + 1) pos heap.elems
    let heap ← siftdown leq { heap with elems := h } pos last
    some (dynarrayDealloc heap, some ret)

/-- `heap_pop`. -/
def heapPop (heap : Heap α) : Option (Heap α × Option α) :=
  heapPopAt leq heap 0

end Operations

section Buffers

variable {α : Type} {h : Buffer α} {xs : List α} {spare : List (Option α)}
variable {pos k : Nat} {elem a : α}

theorem load_of_cells (cells : h.set pos (some elem) = xs.map some ++ spare) (other : k ≠ pos)
    (atK : xs[k]? = some a) : h.load k = some a := by
  have inside := List.getElem?_eq_some_iff.mp atK |>.1
  have same : h[k]? = (xs.map some ++ spare)[k]? := by
    rw [← cells, List.getElem?_set_ne (Ne.symm other)]
  rw [Buffer.load, same, List.getElem?_append_left (by simpa using inside), List.getElem?_map, atK]
  rfl

theorem store_of_cells (cells : h.set pos (some elem) = xs.map some ++ spare)
    (inside : pos < xs.length) (a : α) :
    h.store pos a = some (h.set pos (some a)) ∧
      h.set pos (some a) = (xs.set pos a).map some ++ spare := by
  have length := congrArg List.length cells
  simp only [List.length_set, List.length_append, List.length_map] at length
  constructor
  · rw [Buffer.store, if_pos (by omega)]
  · have twice : h.set pos (some a) = (h.set pos (some elem)).set pos (some a) := by
      rw [List.set_set]
    rw [twice, cells, List.set_append_left _ _ (by simpa using inside), List.map_set]

/-- Moving the hole: the element of another cell goes into it. -/
theorem move_of_cells {other : Nat} (cells : h.set pos (some elem) = xs.map some ++ spare)
    (inside : pos < xs.length) (insideOther : other < xs.length) (a : α) :
    (h.set pos (some a)).set other (some elem) =
    (exchange xs pos other elem a).map some ++ spare := by
  rw [(store_of_cells cells inside a).2, List.set_append_left _ _ (by simpa using insideOther),
    exchange, ← List.map_set]

/-- A list read from a buffer is also read with its own element in a hole. -/
theorem cells_of_list (cells : h = xs.map some ++ spare) (atPos : xs[pos]? = some elem) :
    h.set pos (some elem) = xs.map some ++ spare := by
  obtain ⟨inside, rfl⟩ := List.getElem?_eq_some_iff.mp atPos
  rw [cells, List.set_append_left _ _ (by simpa using inside), ← List.map_set,
    List.set_getElem_self]

end Buffers

section Correctness

variable {α : Type} {leq : α → α → Bool} {h : Buffer α} {xs : List α}
variable {spare : List (Option α)} {pos fuel : Nat} {elem : α}

/-- `siftdown` moves its element up to where it is in order. -/
theorem siftdownLoop_eq (order : TotalPreorder leq)
    (cells : h.set pos (some elem) = xs.map some ++ spare) (atPos : xs[pos]? = some elem)
    (hole : UpHole leq xs pos) (enough : pos < fuel) :
    ∃ h' ys, siftdownLoop leq elem fuel pos h = some h' ∧ h' = ys.map some ++ spare ∧
      ys.Perm xs ∧ Ordered leq ys := by
  induction fuel generalizing h xs pos with
  | zero => omega
  | succ fuel ih =>
      have inside := List.getElem?_eq_some_iff.mp atPos |>.1
      have stay : h.store pos elem = some (h.set pos (some elem)) :=
        (store_of_cells cells inside elem).1
      by_cases root : pos = 0
      · subst root
        exact ⟨_, xs, by simp [siftdownLoop, stay], cells, .refl xs, hole.finish (by omega)⟩
      · have positive : 0 < pos := by omega
        have less := parent_lt positive
        obtain ⟨up, atParent⟩ : ∃ up, xs[parent pos]? = some up :=
          ⟨_, List.getElem?_eq_getElem (by omega)⟩
        have loaded : h.load ((pos - 1) / 2) = some up := load_of_cells cells (by omega) atParent
        cases answer : leq up elem with
        | true =>
            refine ⟨_, xs, ?_, cells, .refl xs, hole.finish ?_⟩
            · simp [siftdownLoop, positive, loaded, answer, stay]
            · intro _ a b atUpper atLower
              rw [atParent, Option.some_inj] at atUpper
              rw [atPos, Option.some_inj] at atLower
              exact atUpper ▸ atLower ▸ answer
        | false =>
            have before : leq elem up := by
              rcases order.total elem up with before | behind
              · exact before
              · rw [answer] at behind
                contradiction
            have stored := store_of_cells cells inside up
            have insideParent : parent pos < xs.length := by omega
            obtain ⟨h', ys, run, cells', perm, ordered⟩ :=
              ih (move_of_cells cells inside insideParent up)
                (by simp [exchange, insideParent]) (hole.move order positive atPos atParent before)
                (show parent pos < fuel by omega)
            refine ⟨h', ys, ?_, cells', perm.trans (exchange_perm atPos atParent), ordered⟩
            simp only [siftdownLoop, positive, if_true, loaded, answer, stored.1,
              Option.bind_eq_bind, Option.bind_some]
            exact run

/-- An element that is behind its parent stays where it is. -/
theorem siftdownLoop_stay (cells : h.set pos (some elem) = xs.map some ++ spare)
    (atPos : xs[pos]? = some elem) (behind : 0 < pos → InOrder leq xs (parent pos) pos)
    (enough : 0 < fuel) : siftdownLoop leq elem fuel pos h = some (h.set pos (some elem)) := by
  obtain ⟨fuel, rfl⟩ : ∃ n, fuel = n + 1 := ⟨fuel - 1, by omega⟩
  have inside := List.getElem?_eq_some_iff.mp atPos |>.1
  have stay : h.store pos elem = some (h.set pos (some elem)) :=
    (store_of_cells cells inside elem).1
  by_cases root : pos = 0
  · subst root
    simp [siftdownLoop, stay]
  · have positive : 0 < pos := by omega
    have less := parent_lt positive
    obtain ⟨up, atParent⟩ : ∃ up, xs[parent pos]? = some up :=
      ⟨_, List.getElem?_eq_getElem (by omega)⟩
    have loaded : h.load ((pos - 1) / 2) = some up := load_of_cells cells (by omega) atParent
    simp [siftdownLoop, positive, loaded, behind positive up elem atParent atPos, stay]

/-- `siftdown` stores nothing behind the position it starts from. -/
theorem siftdownLoop_above {h' : Buffer α} {k : Nat} (above : pos < k)
    (run : siftdownLoop leq elem fuel pos h = some h') : h'[k]? = h[k]? := by
  have apart {cells stored : Buffer α} {place : Nat} {a : α} (other : place < k)
      (store : cells.store place a = some stored) : stored[k]? = cells[k]? := by
    unfold Buffer.store at store
    split at store
    · rw [← Option.some_inj.mp store, List.getElem?_set_ne (by omega)]
    · contradiction
  induction fuel generalizing h pos with
  | zero => simp [siftdownLoop] at run
  | succ fuel ih =>
      rw [siftdownLoop] at run
      split at run
      · obtain ⟨up, _, run⟩ := Option.bind_eq_some_iff.mp run
        split at run
        · exact apart above run
        · obtain ⟨moved, store, run⟩ := Option.bind_eq_some_iff.mp run
          rw [ih (by omega) run, apart above store]
      · exact apart above run

/-- The child that the loop of `__heap_pop` moves up. -/
theorem heapPopLoop_child (order : TotalPreorder leq)
    (cells : h.set pos (some elem) = xs.map some ++ spare) (inner : 2 * pos + 1 < xs.length) :
    ∃ child low, 0 < child ∧ parent child = pos ∧ xs[child]? = some low ∧
      (∀ k, 0 < k → parent k = pos → InOrder leq xs child k) ∧
      ∀ fuel, heapPopLoop leq xs.length (fuel + 1) pos h =
        heapPopLoop leq xs.length fuel child (h.set pos (some low)) := by
  obtain ⟨left, atLeft⟩ : ∃ left, xs[2 * pos + 1]? = some left :=
    ⟨_, List.getElem?_eq_getElem inner⟩
  have loadLeft : h.load (2 * pos + 1) = some left := load_of_cells cells (by omega) atLeft
  have leftChild : parent (2 * pos + 1) = pos := (parent_eq_iff (by omega)).mpr (.inl rfl)
  have rightChild : parent (2 * pos + 2) = pos := (parent_eq_iff (by omega)).mpr (.inr rfl)
  have storeAt (a : α) := (store_of_cells cells (by omega : pos < xs.length) a).1
  by_cases both : 2 * pos + 2 < xs.length
  · obtain ⟨right, atRight⟩ : ∃ right, xs[2 * pos + 2]? = some right :=
      ⟨_, List.getElem?_eq_getElem both⟩
    have loadRight : h.load (2 * pos + 1 + 1) = some right := load_of_cells cells (by omega) atRight
    cases answer : leq right left with
    | true =>
        refine ⟨2 * pos + 2, right, by omega, rightChild, atRight, ?_, ?_⟩
        · intro k positive isChild a b atUpper atLower
          rw [atRight, Option.some_inj] at atUpper
          rcases (parent_eq_iff positive).mp isChild with rfl | rfl
          · rw [atLeft, Option.some_inj] at atLower
            exact atUpper ▸ atLower ▸ answer
          · rw [atRight, Option.some_inj] at atLower
            exact atUpper ▸ atLower ▸ order.refl right
        · intro fuel
          have go : ¬ xs.length ≤ 2 * pos + 1 := by omega
          have goRight : 2 * pos + 1 + 1 < xs.length := both
          simp [heapPopLoop, go, goRight, loadRight, loadLeft, answer, storeAt]
    | false =>
        refine ⟨2 * pos + 1, left, by omega, leftChild, atLeft, ?_, ?_⟩
        · intro k positive isChild a b atUpper atLower
          rw [atLeft, Option.some_inj] at atUpper
          rcases (parent_eq_iff positive).mp isChild with rfl | rfl
          · rw [atLeft, Option.some_inj] at atLower
            exact atUpper ▸ atLower ▸ order.refl left
          · rw [atRight, Option.some_inj] at atLower
            have := order.total left right
            grind
        · intro fuel
          have go : ¬ xs.length ≤ 2 * pos + 1 := by omega
          have goRight : 2 * pos + 1 + 1 < xs.length := both
          simp [heapPopLoop, go, goRight, loadRight, loadLeft, answer, storeAt]
  · refine ⟨2 * pos + 1, left, by omega, leftChild, atLeft, ?_, ?_⟩
    · intro k positive isChild a b atUpper atLower
      have inside := List.getElem?_eq_some_iff.mp atLower |>.1
      rcases (parent_eq_iff positive).mp isChild with rfl | rfl
      · rw [atUpper, Option.some_inj] at atLower
        exact atLower ▸ order.refl a
      · omega
    · intro fuel
      have go : ¬ xs.length ≤ 2 * pos + 1 := by omega
      have noRight : ¬ 2 * pos + 1 + 1 < xs.length := by omega
      simp [heapPopLoop, go, noRight, loadLeft, storeAt]

/-- The loop of `__heap_pop` moves the hole to a leaf. -/
theorem heapPopLoop_eq (fuel : Nat) (order : TotalPreorder leq)
    (cells : h.set pos (some elem) = xs.map some ++ spare) (inside : pos < xs.length)
    (atPos : xs[pos]? = some elem) (hole : DownHole leq xs pos) (enough : xs.length < fuel + pos) :
    ∃ pos' h' ys, heapPopLoop leq xs.length fuel pos h = some (pos', h') ∧
      h'.set pos' (some elem) = ys.map some ++ spare ∧ ys[pos']? = some elem ∧
      ys.Perm xs ∧ UpHole leq ys pos' := by
  induction fuel generalizing h xs pos with
  | zero => omega
  | succ fuel ih =>
      by_cases leaf : xs.length ≤ 2 * pos + 1
      · exact ⟨pos, h, xs, by simp [heapPopLoop, leaf], cells, atPos, .refl xs, hole.leaf leaf⟩
      · obtain ⟨child, low, positive, isChild, atChild, least, step⟩ :=
          heapPopLoop_child order cells (by omega)
        have insideChild := List.getElem?_eq_some_iff.mp atChild |>.1
        have less := parent_lt positive
        have length : (exchange xs pos child elem low).length = xs.length := by simp [exchange]
        obtain ⟨pos', h', ys, run, cells', at', perm, up⟩ :=
          ih (move_of_cells cells inside insideChild low) (by omega)
            (by simp [exchange, insideChild]) (hole.move positive isChild atPos atChild least)
            (by omega)
        rw [length] at run
        exact ⟨pos', h', ys, by rw [step, run], cells', at',
          perm.trans (exchange_perm atPos atChild), up⟩

/-- The heap stores the elements `xs`, each behind its parent. -/
structure Heap.Valid (leq : α → α → Bool) (heap : Heap α) (xs : List α) : Prop where
  stores : heap.Stores xs
  ordered : Ordered leq xs

variable {heap : Heap α} {a : α}

theorem heapInit_valid (leq : α → α → Bool) : Heap.Valid leq (heapInit : Heap α) [] where
  stores := .create (by decide)
  ordered := by
    intro k _ a b _ atLower
    simp at atLower

theorem heapSize_eq (valid : heap.Valid leq xs) : heapSize heap = xs.length :=
  valid.stores.size

theorem dynarrayGet_first (valid : heap.Valid leq xs) (some_ : xs ≠ []) :
    dynarrayGet heap 0 = some 0 := by
  have := List.length_pos_iff.mpr some_
  simp [dynarrayGet, valid.stores.size]
  omega

theorem load_of_stores (stores : heap.Stores xs) (atPos : xs[pos]? = some a) :
    heap.elems.load pos = some a := by
  obtain ⟨spare, cells⟩ := stores.cells
  have inside := List.getElem?_eq_some_iff.mp atPos |>.1
  rw [Buffer.load, cells, List.getElem?_append_left (by simpa using inside),
    List.getElem?_map, atPos]
  rfl

theorem load_stored (valid : heap.Valid leq xs) (atPos : xs[pos]? = some a) :
    heap.elems.load pos = some a :=
  load_of_stores valid.stores atPos

/-- `heap_push` adds its element. -/
theorem heapPush_eq (order : TotalPreorder leq) (valid : heap.Valid leq xs) (elem : α) :
    ∃ heap' ys, heapPush leq heap elem = some heap' ∧ heap'.Valid leq ys ∧
      ys.Perm (elem :: xs) := by
  obtain ⟨grown, alloc, nextIdx, capacity, grain, cell, spare, cells⟩ := valid.stores.alloc
  have hole : grown.elems.set xs.length (some elem) = (xs ++ [elem]).map some ++ spare := by
    rw [cells, List.set_append_right _ _ (by simp)]
    simp
  obtain ⟨h', ys, run, cells', perm, ordered⟩ := siftdownLoop_eq order hole (by simp)
    (valid.ordered.append_hole elem) (Nat.lt_succ_self xs.length)
  have grownLength := congrArg List.length hole
  have cellsLength := congrArg List.length cells'
  have ysLength := perm.length_eq
  simp only [List.length_set, List.length_append, List.length_map, List.length_singleton]
    at grownLength cellsLength ysLength
  refine ⟨{ grown with elems := h' }, ys, ?_, ⟨⟨⟨spare, cells'⟩, ?_, ?_, grain⟩, ordered⟩,
    perm.trans List.perm_append_comm⟩
  · have get : dynarrayGet grown 0 = some 0 := by simp [dynarrayGet, nextIdx]
    simp [heapPush, alloc, dynarraySize, nextIdx, siftdown, get, run]
  · simp only [nextIdx]
    omega
  · simp only [capacity]
    omega

theorem heapPeek_eq (valid : heap.Valid leq xs) : heapPeek heap = some xs.head? := by
  cases xs with
  | nil => simp [heapPeek, dynarraySize, valid.stores.size]
  | cons root rest =>
      have loaded := load_stored valid (show (root :: rest)[0]? = some root from rfl)
      have get := dynarrayGet_first valid (List.cons_ne_nil root rest)
      simp [heapPeek, dynarraySize, valid.stores.size, get, loaded]

/-- `__heap_pop` refuses a position outside the heap. -/
theorem heapPopAt_outside (valid : heap.Valid leq xs) (outside : xs.length ≤ pos) :
    heapPopAt leq heap pos = some (heap, none) := by
  simp [heapPopAt, dynarraySize, valid.stores.size, outside]

/-- The last element can be taken out without moving any other, if it is behind its parent. -/
theorem heapPopAt_last {last : α} (stores : heap.Stores (xs ++ [last]))
    (behind : 0 < xs.length → InOrder leq (xs ++ [last]) (parent xs.length) xs.length) :
    ∃ heap', heapPopAt leq heap xs.length = some (heap', some last) ∧ heap'.Stores xs := by
  obtain ⟨spare, cells⟩ := stores.cells
  have atLast : (xs ++ [last])[xs.length]? = some last := by simp
  have loaded := load_of_stores stores atLast
  have unchanged : heap.elems.set xs.length (some last) = heap.elems := by
    rw [cells_of_list cells atLast, cells]
  have stay : siftdownLoop leq last (xs.length + 1) xs.length heap.elems = some heap.elems := by
    rw [siftdownLoop_stay (cells_of_list cells atLast) atLast behind (by omega), unchanged]
  have size := stores.size
  rw [List.length_append, List.length_singleton] at size
  refine ⟨dynarrayDealloc heap, ?_, ⟨some last :: spare, ?_⟩, ?_, stores.capacity, stores.grain⟩
  · have childless : xs.length ≤ 2 * xs.length + 1 := by omega
    simp [heapPopAt, dynarraySize, size, dynarrayGet, loaded, heapPopLoop, siftdown,
      stay, childless, dynarrayDealloc]
  · simp [dynarrayDealloc, cells]
  · simp [dynarrayDealloc, size]

/-- An element before the last one is replaced by elements from below it, and the last
element takes the place that this leaves.  The element itself may be out of order. -/
theorem heapPopAt_hole (order : TotalPreorder leq) {last : α} (stores : heap.Stores (xs ++ [last]))
    (hole : DownHole leq xs pos) (atPos : xs[pos]? = some a) :
    ∃ heap' ys, heapPopAt leq heap pos = some (heap', some a) ∧ heap'.Valid leq ys ∧
      (a :: ys).Perm (xs ++ [last]) := by
  obtain ⟨inside, rfl⟩ := List.getElem?_eq_some_iff.mp atPos
  obtain ⟨spare, cells⟩ := stores.cells
  have size := stores.size
  rw [List.length_append, List.length_singleton] at size
  have loaded := load_of_stores stores (show (xs ++ [last])[pos]? = some xs[pos] by
    rw [List.getElem?_append_left inside, atPos])
  have loadedLast := load_of_stores stores (show (xs ++ [last])[xs.length]? = some last by simp)
  have cellsHole : heap.elems.set pos (some last) =
      (xs.set pos last).map some ++ (some last :: spare) := by
    have flat : heap.elems = xs.map some ++ (some last :: spare) := by simp [cells]
    rw [flat, List.set_append_left _ _ (by simpa using inside), List.map_set]
  obtain ⟨pos', h', ys, descend, cells', atPos', perm, up⟩ := heapPopLoop_eq (xs.length + 1)
    order cellsHole (by simpa using inside) (by simp [inside]) (hole.set last) (by simp; omega)
  obtain ⟨h'', zs, ascend, cells'', perm', ordered⟩ :=
    siftdownLoop_eq order cells' atPos' up (Nat.lt_succ_self pos')
  rw [List.length_set] at descend
  have total := (perm'.trans perm).length_eq
  rw [List.length_set] at total
  have capacity : heap.elemsNr = h''.length := by
    have before := congrArg List.length cellsHole
    have after := congrArg List.length cells''
    simp only [List.length_set, List.length_append, List.length_map] at before after
    rw [stores.capacity]
    omega
  refine ⟨dynarrayDealloc { heap with elems := h'' }, zs, ?_,
    ⟨⟨⟨_, cells''⟩, ?_, capacity, stores.grain⟩, ordered⟩, ?_⟩
  · have go : ¬ xs.length + 1 ≤ pos := by omega
    simp [heapPopAt, dynarraySize, size, go, dynarrayGet, loaded, loadedLast, descend, siftdown,
      ascend, dynarrayDealloc]
  · simp [dynarrayDealloc, size, total]
  · calc (xs[pos] :: zs).Perm (xs[pos] :: xs.set pos last) := (perm'.trans perm).cons _
      List.Perm _ (xs[pos] :: last :: xs.eraseIdx pos) :=
          (List.set_perm_cons_eraseIdx inside last).cons _
      List.Perm _ (last :: xs[pos] :: xs.eraseIdx pos) := .swap _ _ _
      List.Perm _ (last :: xs) := (List.getElem_cons_eraseIdx_perm inside).cons last
      List.Perm _ (xs ++ [last]) := (List.perm_append_singleton last xs).symm

/-- A last element that is before its parent changes places with it, so the parent is cut off
instead. -/
theorem heapPopAt_lost (order : TotalPreorder leq) {last up : α}
    (stores : heap.Stores (xs ++ [last])) (ordered : Ordered leq xs) (positive : 0 < xs.length)
    (atParent : xs[parent xs.length]? = some up) (before : leq up last = false) :
    ∃ heap' ys, heapPopAt leq heap xs.length = some (heap', some last) ∧ heap'.Valid leq ys ∧
      (up :: ys).Perm (xs ++ [last]) := by
  obtain ⟨spare, cells⟩ := stores.cells
  have atLast : (xs ++ [last])[xs.length]? = some last := by simp
  have loaded := load_of_stores stores atLast
  have size := stores.size
  rw [List.length_append, List.length_singleton] at size
  obtain ⟨h', zs, ascend, cells', perm, ordered'⟩ :=
    siftdownLoop_eq order (cells_of_list cells atLast) atLast (ordered.append_hole last)
      (Nat.lt_succ_self xs.length)
  have total := perm.length_eq
  rw [List.length_append, List.length_singleton] at total
  -- the first step stores the parent into the last cell, and no later step reaches it
  have cell : h'[xs.length]? = some (some up) := by
    have less := parent_lt positive
    have loadedUp : heap.elems.load ((xs.length - 1) / 2) = some up := by
      refine load_of_stores stores ?_
      rw [List.getElem?_append_left (show (xs.length - 1) / 2 < xs.length from less)]
      exact atParent
    have stored := store_of_cells (cells_of_list cells atLast) (by simp) up
    have rest := ascend
    simp only [siftdownLoop, positive, if_true, loadedUp, before, stored.1, Option.bind_eq_bind,
      Option.bind_some] at rest
    rw [siftdownLoop_above less rest, List.getElem?_set_self]
    simp [cells]
  have atEnd : zs[xs.length]? = some up := by
    rw [cells', List.getElem?_append_left (by simp [total]), List.getElem?_map] at cell
    simpa using cell
  obtain ⟨ys, d, rfl⟩ : ∃ ys d, zs = ys ++ [d] := by
    refine (List.eq_nil_or_concat' zs).resolve_left ?_
    rintro rfl
    simp at total
  have shorter : ys.length = xs.length := by simpa using total
  obtain rfl : d = up := by
    rw [← shorter] at atEnd
    simpa using atEnd
  refine ⟨dynarrayDealloc { heap with elems := h' }, ys, ?_,
    ⟨⟨⟨some d :: spare, by simp [dynarrayDealloc, cells']⟩, by
      simp [dynarrayDealloc, size, shorter], ?_,
      stores.grain⟩, ordered'.left⟩, (List.perm_append_singleton d ys).symm.trans perm⟩
  · have childless : xs.length ≤ 2 * xs.length + 1 := by omega
    simp [heapPopAt, dynarraySize, size, dynarrayGet, loaded, heapPopLoop, siftdown,
      ascend, childless, dynarrayDealloc]
  · have lengths := congrArg List.length cells'
    simp only [List.length_append, List.length_map, List.length_singleton, shorter] at lengths
    have capacity := stores.capacity
    rw [cells] at capacity
    simp only [List.length_append, List.length_map, List.length_singleton] at capacity
    simp only [dynarrayDealloc]
    omega

/-- `__heap_pop` removes the element at its position. -/
theorem heapPopAt_eq (order : TotalPreorder leq) (valid : heap.Valid leq xs)
    (atPos : xs[pos]? = some a) :
    ∃ heap' ys, heapPopAt leq heap pos = some (heap', some a) ∧ heap'.Valid leq ys ∧
      (a :: ys).Perm xs := by
  rcases List.eq_nil_or_concat' xs with rfl | ⟨init, last, rfl⟩
  · simp at atPos
  · by_cases inner : pos < init.length
    · exact heapPopAt_hole order valid.stores (valid.ordered.left.downHole order pos)
        (by rwa [List.getElem?_append_left inner] at atPos)
    · have inside := List.getElem?_eq_some_iff.mp atPos |>.1
      rw [List.length_append, List.length_singleton] at inside
      obtain rfl : pos = init.length := by omega
      obtain rfl : last = a := by simpa using atPos
      obtain ⟨heap', run, stores'⟩ := heapPopAt_last valid.stores fun positive =>
        valid.ordered _ positive
      exact ⟨heap', init, run, ⟨stores', valid.ordered.left⟩,
        (List.perm_append_singleton last init).symm⟩

end Correctness

end BachScheduler
