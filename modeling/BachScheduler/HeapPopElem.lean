import BachScheduler.HeapRun
import Mathlib.Data.Nat.Find

/-!
# Removing an element that is looked up

`heap_pop_elem` searches the array for its element and removes it from where it is.  The
search asks for the first cell before it looks at the size, which an empty heap does not
have.
-/

namespace BachScheduler

open BinHeap

section Operations

variable {α : Type} [DecidableEq α] (leq : α → α → Bool)

/-- The loop of `heap_pop_elem` over the last `left` positions. -/
def heapPopElemLoop (heap : Heap α) (elem : α) (size : Nat) : Nat → Option (Heap α × Bool)
  | 0 => some (heap, false)
  | left + 1 => do
      let pos := size - (left + 1)
      let stored ← heap.elems.load pos
      if elem = stored then do
        let (heap, ret) ← heapPopAt leq heap pos
        some (heap, ret.isSome)
      else
        heapPopElemLoop heap elem size left

/-- `heap_pop_elem`. -/
def heapPopElem (heap : Heap α) (elem : α) : Option (Heap α × Bool) := do
  let size := dynarraySize heap
  let _ ← dynarrayGet heap 0
  heapPopElemLoop leq heap elem size size

end Operations

section Search

variable {α : Type} [DecidableEq α] {leq : α → α → Bool} {heap : Heap α} {xs : List α} {elem : α}

/-- Positions that hold other elements are passed over. -/
theorem heapPopElemLoop_skip (stores : heap.Stores xs) {pos : Nat} (inside : pos ≤ xs.length)
    (others : ∀ k < pos, xs[k]? ≠ some elem) :
    heapPopElemLoop leq heap elem xs.length xs.length =
      heapPopElemLoop leq heap elem xs.length (xs.length - pos) := by
  induction pos with
  | zero => rfl
  | succ pos ih =>
      rw [ih (by omega) fun k less => others k (by omega)]
      obtain ⟨left, more⟩ : ∃ left, xs.length - pos = left + 1 := ⟨xs.length - pos - 1, by omega⟩
      have here : xs.length - (left + 1) = pos := by omega
      have rest : xs.length - (pos + 1) = left := by omega
      have atPos : xs[pos]? = some xs[pos] := List.getElem?_eq_getElem (by omega)
      have other : elem ≠ xs[pos] := by
        intro equal
        exact others pos (by omega) (equal ▸ atPos)
      simp [more, rest, heapPopElemLoop, here, load_of_stores stores atPos, other]

theorem heapPopElem_empty (stores : heap.Stores ([] : List α)) :
    heapPopElem leq heap elem = none := by
  simp [heapPopElem, dynarrayGet, stores.size]

theorem heapPopElem_missing (stores : heap.Stores xs) (some_ : xs ≠ []) (missing : elem ∉ xs) :
    heapPopElem leq heap elem = some (heap, false) := by
  have size := stores.size
  have positive := List.length_pos_iff.mpr some_
  have others : ∀ k < xs.length, xs[k]? ≠ some elem :=
    fun k _ atK => missing (List.mem_of_getElem? atK)
  have none_left : heapPopElemLoop leq heap elem xs.length xs.length = some (heap, false) := by
    rw [heapPopElemLoop_skip stores (Nat.le_refl _) others, Nat.sub_self]
    rfl
  have first : ¬ xs.length = 0 := by omega
  simp [heapPopElem, dynarraySize, dynarrayGet, size, first, none_left]

/-- The first occurrence of an element is removed. -/
theorem heapPopElem_found (stores : heap.Stores xs) {pos : Nat} (atPos : xs[pos]? = some elem)
    (others : ∀ k < pos, xs[k]? ≠ some elem) :
    heapPopElem leq heap elem = (heapPopAt leq heap pos).map fun popped =>
      (popped.1, popped.2.isSome) := by
  have size := stores.size
  obtain ⟨inside, _⟩ := List.getElem?_eq_some_iff.mp atPos
  obtain ⟨left, more⟩ : ∃ left, xs.length - pos = left + 1 := ⟨xs.length - pos - 1, by omega⟩
  have here : xs.length - (left + 1) = pos := by omega
  have first : ¬ xs.length = 0 := by omega
  have skipped : heapPopElemLoop leq heap elem xs.length xs.length =
      heapPopElemLoop leq heap elem xs.length (left + 1) := by
    rw [heapPopElemLoop_skip stores (by omega) others, more]
  cases popped : heapPopAt leq heap pos <;>
    simp [heapPopElem, dynarraySize, dynarrayGet, size, first, skipped, heapPopElemLoop, here,
      load_of_stores stores atPos, popped]

/-- A stored element has a first occurrence. -/
theorem first_occurrence (member : elem ∈ xs) :
    ∃ pos : Nat, xs[pos]? = some elem ∧ ∀ k < pos, xs[k]? ≠ some elem := by
  have found : ∃ pos : Nat, xs[pos]? = some elem := List.mem_iff_getElem?.mp member
  exact ⟨Nat.find found, Nat.find_spec found, fun k less => Nat.find_min found less⟩

end Search

section Runs

variable {α : Type} [DecidableEq α] {leq : α → α → Bool} {heap : Heap α} {xs : List α}

/-- `heap_pop_elem` returns: 1 without one occurrence of a stored element, 0 with nothing
changed otherwise. -/
def PopsElem (leq : α → α → Bool) (heap : Heap α) (elem : α) : Prop :=
  ∃ heap' ret, heapPopElem leq heap elem = some (heap', ret) ∧
    (elem ∈ heapElems heap → ret = true ∧ heapElems heap = elem ::ₘ heapElems heap' ∧
      ∃ ys, heap'.Valid leq ys) ∧
    (elem ∉ heapElems heap → ret = false ∧ heap' = heap)

theorem popsElem_iff (order : TotalPreorder leq) (valid : heap.Valid leq xs) (elem : α) :
    PopsElem leq heap elem ↔ heapSize heap ≠ 0 := by
  rw [heapSize_eq valid, ne_eq, List.length_eq_zero_iff]
  constructor
  · rintro ⟨heap', ret, returned, -⟩ rfl
    rw [heapPopElem_empty valid.stores] at returned
    contradiction
  · intro some_
    unfold PopsElem
    rw [heapElems_eq valid, Multiset.mem_coe]
    by_cases member : elem ∈ xs
    · obtain ⟨pos, atPos, others⟩ := first_occurrence member
      obtain ⟨heap', ys, popped, valid', perm⟩ := heapPopAt_eq order valid atPos
      refine ⟨heap', true, by rw [heapPopElem_found valid.stores atPos others, popped]; rfl, ?_,
        fun missing => absurd member missing⟩
      intro _
      refine ⟨rfl, ?_, ys, valid'⟩
      rw [heapElems_eq valid', Multiset.cons_coe, Multiset.coe_eq_coe]
      exact perm.symm
    · exact ⟨heap, false, heapPopElem_missing valid.stores some_ member,
        fun stored => absurd stored member, fun _ => ⟨rfl, rfl⟩⟩

/-- After any sequence of operations, `heap_pop_elem` does its task on every element exactly
if the heap is not empty. -/
theorem heap_pop_elem_unless_empty (order : TotalPreorder leq) (ops : List (HeapOp α)) :
    ∃ run, HeapRun.runs leq ops = some run ∧
      ∀ elem, PopsElem leq run.heap elem ↔ heapSize run.heap ≠ 0 := by
  obtain ⟨run, ran, xs, valid, -⟩ := runs_balanced order ops
  exact ⟨run, ran, popsElem_iff order valid⟩

/-- Three numbers, one of which is popped again. -/
theorem heap_pop_elem_unless_empty_numbers :
    ∃ run, HeapRun.runs (fun a b : Nat => decide (a ≤ b))
      [.push 5, .push 3, .push 4, .pop] = some run ∧
      ∀ elem, PopsElem (fun a b : Nat => decide (a ≤ b)) run.heap elem ↔ heapSize run.heap ≠ 0 :=
  heap_pop_elem_unless_empty
    ⟨fun a b => by simpa using Nat.le_total a b, fun a b c => by simpa using Nat.le_trans⟩ _

/-- A heap whose only element was popped again: looking up an element ends the program. -/
theorem heap_pop_elem_exits_on_empty :
    ¬ ∀ ops : List (HeapOp Nat), ∃ run, HeapRun.runs (fun a b => decide (a ≤ b)) ops = some run ∧
      ∀ elem, PopsElem (fun a b => decide (a ≤ b)) run.heap elem := by
  intro pops
  obtain ⟨run, ran, all⟩ := pops [.push 5, .pop]
  obtain ⟨heap', ret, returned, -⟩ := all 5
  have exits : (HeapRun.runs (fun a b : Nat => decide (a ≤ b)) [.push 5, .pop]).map
      (fun run => (heapPopElem (fun a b => decide (a ≤ b)) run.heap 5).isSome) = some false := by
    decide +kernel
  rw [ran] at exits
  simp [returned] at exits

end Runs

end BachScheduler
