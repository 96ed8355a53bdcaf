import BachScheduler.Heap
import Mathlib.Data.List.ReduceOption

/-!
# Runs of heap operations

Any sequence of operations on a heap that starts empty: no operation leaves the
array or reads an unwritten cell, and after each of them the heap is in order
and stores exactly what was pushed and not yet returned.
-/

namespace BachScheduler

open BinHeap

variable {α : Type}

/-- One call of an operation of `heap.h`. -/
inductive HeapOp (α : Type) where
  | push (elem : α)
  | peek
  | pop
  | popAt (pos : Nat)

/-- A heap together with the elements pushed so far and those returned by a
removal so far. -/
structure HeapRun (α : Type) where
  heap : Heap α
  pushed : Multiset α
  returned : Multiset α

/-- The elements in the used cells of the array. -/
def heapElems (heap : Heap α) : Multiset α :=
  (heap.elems.take heap.nextIdx).reduceOption

namespace HeapRun

/-- The state after `heap_init`. -/
def start : HeapRun α where
  heap := heapInit
  pushed := 0
  returned := 0

/-- Record what a removal returned. -/
def remove (run : HeapRun α) (result : Heap α × Option α) : HeapRun α :=
  { run with heap := result.1, returned := result.2.toList + run.returned }

/-- One operation. -/
def step (leq : α → α → Bool) (run : HeapRun α) : HeapOp α → Option (HeapRun α)
  | .push elem => do
      let heap ← heapPush leq run.heap elem
      some { run with heap := heap, pushed := elem ::ₘ run.pushed }
  | .peek => do
      let _ ← heapPeek run.heap
      some run
  | .pop => (heapPop leq run.heap).map run.remove
  | .popAt pos => (heapPopAt leq run.heap pos).map run.remove

/-- A sequence of operations. -/
def runs (leq : α → α → Bool) (ops : List (HeapOp α)) : Option (HeapRun α) :=
  ops.foldlM (step leq) start

/-- The heap is valid, and nothing is lost or made up. -/
def Balanced (leq : α → α → Bool) (run : HeapRun α) : Prop :=
  ∃ xs, run.heap.Valid leq xs ∧ (xs : Multiset α) + run.returned = run.pushed

end HeapRun

section Runs

variable {leq : α → α → Bool} {heap : Heap α} {xs : List α} {run : HeapRun α}

theorem heapElems_eq (valid : heap.Valid leq xs) : heapElems heap = xs := by
  obtain ⟨spare, cells⟩ := valid.stores.cells
  have taken : heap.elems.take heap.nextIdx = xs.map some := by
    rw [cells, valid.stores.size]
    simp
  simp [heapElems, taken, List.reduceOption]

/-- A removal takes exactly the element at its position. -/
theorem heapPopAt_removes {pos : Nat} {a : α} (order : TotalPreorder leq)
    (valid : heap.Valid leq xs) (atPos : xs[pos]? = some a) :
    ∃ heap', heapPopAt leq heap pos = some (heap', some a) ∧
      heapElems heap = a ::ₘ heapElems heap' := by
  obtain ⟨heap', ys, popped, valid', perm⟩ := heapPopAt_eq order valid atPos
  refine ⟨heap', popped, ?_⟩
  rw [heapElems_eq valid, heapElems_eq valid', Multiset.cons_coe, Multiset.coe_eq_coe]
  exact perm.symm

theorem remove_balanced {pos : Nat} (order : TotalPreorder leq)
    (balanced : run.Balanced leq) :
    ∃ next, (heapPopAt leq run.heap pos).map run.remove = some next ∧ next.Balanced leq := by
  obtain ⟨xs, valid, equal⟩ := balanced
  by_cases inside : pos < xs.length
  · obtain ⟨heap', ys, popped, valid', perm⟩ :=
      heapPopAt_eq order valid (List.getElem?_eq_getElem inside)
    refine ⟨run.remove (heap', some xs[pos]), by rw [popped]; rfl, ys, valid', ?_⟩
    calc (ys : Multiset α) + ({xs[pos]} + run.returned)
        = ((xs[pos] :: ys : List α) : Multiset α) + run.returned := by
          rw [Multiset.singleton_add, Multiset.add_cons, ← Multiset.cons_coe, Multiset.cons_add]
      _ = run.pushed := by rw [Multiset.coe_eq_coe.mpr perm, equal]
  · refine ⟨run.remove (run.heap, none), by rw [heapPopAt_outside valid (by omega)]; rfl, xs,
      valid, ?_⟩
    simpa [HeapRun.remove] using equal

theorem step_balanced (order : TotalPreorder leq) (balanced : run.Balanced leq) (op : HeapOp α) :
    ∃ next, run.step leq op = some next ∧ next.Balanced leq := by
  cases op with
  | push elem =>
      obtain ⟨xs, valid, equal⟩ := balanced
      obtain ⟨heap', ys, pushed, valid', perm⟩ := heapPush_eq order valid elem
      refine ⟨{ run with heap := heap', pushed := elem ::ₘ run.pushed },
        by rw [HeapRun.step, pushed]; rfl, ys, valid', ?_⟩
      calc (ys : Multiset α) + run.returned = ((elem :: xs : List α) : Multiset α) +
          run.returned := by
            rw [Multiset.coe_eq_coe.mpr perm]
        _ = elem ::ₘ run.pushed := by rw [← Multiset.cons_coe, Multiset.cons_add, equal]
  | peek =>
      obtain ⟨xs, valid, equal⟩ := balanced
      exact ⟨run, by simp [HeapRun.step, heapPeek_eq valid], xs, valid, equal⟩
  | pop => exact remove_balanced order balanced
  | popAt pos => exact remove_balanced order balanced

theorem runs_balanced (order : TotalPreorder leq) (ops : List (HeapOp α)) :
    ∃ run, HeapRun.runs leq ops = some run ∧ run.Balanced leq := by
  have steps (run : HeapRun α) (balanced : run.Balanced leq) :
      ∃ last, ops.foldlM (HeapRun.step leq) run = some last ∧ last.Balanced leq := by
    induction ops generalizing run with
    | nil => exact ⟨run, rfl, balanced⟩
    | cons op ops ih =>
        obtain ⟨next, stepped, nextBalanced⟩ := step_balanced order balanced op
        simpa [stepped] using ih next nextBalanced
  exact steps .start ⟨[], heapInit_valid leq, rfl⟩

/-- In every state that a sequence of operations leads to, each element is behind
its parent, the heap stores what was pushed and not returned, and the operations
return what they promise. -/
theorem heap_runs_in_order (order : TotalPreorder leq) (ops : List (HeapOp α)) :
    ∃ run, HeapRun.runs leq ops = some run ∧
      (∀ k, 0 < k → k < heapSize run.heap → ∃ up low, run.heap.elems.load ((k - 1) / 2) = some up ∧
        run.heap.elems.load k = some low ∧ leq up low) ∧
      heapElems run.heap + run.returned = run.pushed ∧
      (heapSize run.heap = 0 →
        heapPeek run.heap = some none ∧ heapPop leq run.heap = some (run.heap, none)) ∧
      (0 < heapSize run.heap → ∃ least heap', heapPeek run.heap = some (some least) ∧
        heapPop leq run.heap = some (heap', some least) ∧
        (∀ elem ∈ heapElems run.heap, leq least elem) ∧
        heapElems run.heap = least ::ₘ heapElems heap') ∧
      (∀ pos < heapSize run.heap, ∃ elem heap', run.heap.elems.load pos = some elem ∧
        heapPopAt leq run.heap pos = some (heap', some elem) ∧
        heapElems run.heap = elem ::ₘ heapElems heap') ∧
      ∀ pos, heapSize run.heap ≤ pos → heapPopAt leq run.heap pos = some (run.heap, none) := by
  obtain ⟨run, ran, xs, valid, equal⟩ := runs_balanced order ops
  rw [← heapElems_eq valid] at equal
  have size := heapSize_eq valid
  have refused (pos : Nat) (outside : heapSize run.heap ≤ pos) :
      heapPopAt leq run.heap pos = some (run.heap, none) :=
    heapPopAt_outside valid (size ▸ outside)
  refine ⟨run, ran, ?_, equal, ?_, ?_, ?_, refused⟩
  · intro k positive inside
    have less := parent_lt positive
    have atK := List.getElem?_eq_getElem (size ▸ inside : k < xs.length)
    have atParent := List.getElem?_eq_getElem (by omega : parent k < xs.length)
    exact ⟨_, _, load_stored valid atParent, load_stored valid atK,
      valid.ordered k positive _ _ atParent atK⟩
  · intro empty
    obtain rfl : xs = [] := List.eq_nil_of_length_eq_zero (size ▸ empty)
    exact ⟨heapPeek_eq valid, refused 0 (by omega)⟩
  · intro some_
    have atRoot := List.getElem?_eq_getElem (size ▸ some_ : 0 < xs.length)
    obtain ⟨heap', popped, removed⟩ := heapPopAt_removes order valid atRoot
    refine ⟨xs[0], heap', ?_, popped, ?_, removed⟩
    · rw [heapPeek_eq valid, List.head?_eq_getElem?, atRoot]
    · intro elem member
      rw [heapElems_eq valid, Multiset.mem_coe] at member
      obtain ⟨k, atK⟩ := List.mem_iff_getElem?.mp member
      exact valid.ordered.root_least order atRoot k atK
  · intro pos inside
    have atPos := List.getElem?_eq_getElem (size ▸ inside : pos < xs.length)
    obtain ⟨heap', popped, removed⟩ := heapPopAt_removes order valid atPos
    exact ⟨_, heap', load_stored valid atPos, popped, removed⟩

/-- Pushing three numbers, one of them twice, and removing from the middle. -/
theorem heap_runs_in_order_numbers :
    ∃ run, HeapRun.runs (fun a b : Nat => decide (a ≤ b))
        [.push 5, .push 3, .push 5, .popAt 1, .peek, .pop] = some run ∧
      (∀ k, 0 < k → k < heapSize run.heap → ∃ up low, run.heap.elems.load ((k - 1) / 2) = some up ∧
        run.heap.elems.load k = some low ∧ decide (up ≤ low)) ∧
      heapElems run.heap + run.returned = run.pushed := by
  have order : TotalPreorder fun a b : Nat => decide (a ≤ b) :=
    ⟨fun a b => by simpa using Nat.le_total a b, fun a b c => by simpa using Nat.le_trans⟩
  obtain ⟨run, ran, ordered, equal, -⟩ :=
    heap_runs_in_order order [.push 5, .push 3, .push 5, .popAt 1, .peek, .pop]
  exact ⟨run, ran, ordered, equal⟩

end Runs

end BachScheduler
