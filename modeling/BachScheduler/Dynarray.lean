import Mathlib.Data.List.Basic
import Mathlib.Tactic.Common

/-!
# The growing array of `dynarray.c`

The buffer is a list of cells; a cell that has been allocated but not written
yet is `none`.  Pointers into the buffer are indices, and an access that the
code exits on, or that lies outside the buffer, has no result.
-/

namespace BachScheduler

/-- The memory behind `elems`. -/
abbrev Buffer (α : Type) := List (Option α)

namespace Buffer

variable {α : Type}

/-- `realloc`: keep the cells that still fit, leave the new ones unwritten. -/
def realloc (buffer : Buffer α) (nr : Nat) : Buffer α :=
  buffer.take nr ++ List.replicate (nr - buffer.length) none

/-- Load a cell. -/
def load (buffer : Buffer α) (k : Nat) : Option α :=
  buffer[k]?.join

/-- Store into a cell. -/
def store (buffer : Buffer α) (k : Nat) (elem : α) : Option (Buffer α) :=
  if k < buffer.length then some (buffer.set k (some elem)) else none

end Buffer

/-- `struct dynarray`, without the size of an element. -/
structure Dynarray (α : Type) where
  elems : Buffer α
  elemsNr : Nat
  nextIdx : Nat
  allocGrain : Nat

variable {α : Type}

/-- `dynarray_create`. -/
def dynarrayCreate (allocGrain : Nat) : Dynarray α where
  elems := List.replicate allocGrain none
  elemsNr := allocGrain
  nextIdx := 0
  allocGrain := allocGrain

/-- `dynarray_size`. -/
def dynarraySize (da : Dynarray α) : Nat :=
  da.nextIdx

/-- `dynarray_get`: the address of an element; the program exits on an index
that is out of bounds. -/
def dynarrayGet (da : Dynarray α) (idx : Nat) : Option Nat :=
  if idx ≥ da.nextIdx then none else some idx

/-- `dynarray_get_last`. -/
def dynarrayGetLast (da : Dynarray α) : Option Nat :=
  dynarrayGet da (da.nextIdx - 1)

/-- `dynarray_expand`. -/
def dynarrayExpand (da : Dynarray α) : Dynarray α :=
  { da with
    elemsNr := da.elemsNr + da.allocGrain
    elems := da.elems.realloc (da.elemsNr + da.allocGrain) }

/-- `dynarray_alloc`: make room for one more element and return its address. -/
def dynarrayAlloc (da : Dynarray α) : Option (Dynarray α × Nat) :=
  let da := if da.nextIdx ≥ da.elemsNr then dynarrayExpand da else da
  let da := { da with nextIdx := da.nextIdx + 1 }
  (dynarrayGetLast da).map fun last => (da, last)

/-- `dynarray_dealloc`. -/
def dynarrayDealloc (da : Dynarray α) : Dynarray α :=
  { da with nextIdx := da.nextIdx - 1 }

/-- The array stores exactly `xs`, and its bookkeeping is consistent. -/
structure Dynarray.Stores (da : Dynarray α) (xs : List α) : Prop where
  cells : ∃ spare, da.elems = xs.map some ++ spare
  size : da.nextIdx = xs.length
  capacity : da.elemsNr = da.elems.length
  grain : 0 < da.allocGrain

namespace Dynarray.Stores

variable {da : Dynarray α} {xs : List α}

theorem create {allocGrain : Nat} (grain : 0 < allocGrain) :
    (dynarrayCreate allocGrain : Dynarray α).Stores [] where
  cells := ⟨List.replicate allocGrain none, rfl⟩
  size := rfl
  capacity := by simp [dynarrayCreate]
  grain := grain

theorem unique {ys : List α} (stores : da.Stores xs) (again : da.Stores ys) : xs = ys := by
  obtain ⟨spare, equal⟩ := stores.cells
  obtain ⟨spare', equal'⟩ := again.cells
  have length : xs.length = ys.length := stores.size.symm.trans again.size
  have same := List.append_inj_left (equal.symm.trans equal') (by simpa using length)
  exact List.map_injective_iff.mpr (fun _ _ => Option.some.inj) same

theorem fits (stores : da.Stores xs) : xs.length ≤ da.elems.length := by
  obtain ⟨spare, equal⟩ := stores.cells
  simp [equal]

/-- Growing never moves the stored elements. -/
theorem expand (stores : da.Stores xs) : (dynarrayExpand da).Stores xs where
  cells := by
    obtain ⟨spare, equal⟩ := stores.cells
    refine ⟨spare ++ List.replicate da.allocGrain none, ?_⟩
    have whole : da.elems.take (da.elemsNr + da.allocGrain) = da.elems :=
      List.take_of_length_le (by rw [stores.capacity]; omega)
    have more : da.elemsNr + da.allocGrain - da.elems.length = da.allocGrain := by
      rw [stores.capacity]
      omega
    rw [dynarrayExpand, Buffer.realloc, whole, more, equal, List.append_assoc]
  size := stores.size
  capacity := by
    simp only [dynarrayExpand, Buffer.realloc, List.length_append, List.length_take,
      List.length_replicate, stores.capacity]
    omega
  grain := stores.grain

theorem alloc (stores : da.Stores xs) :
    ∃ da', dynarrayAlloc da = some (da', xs.length) ∧ da'.nextIdx = xs.length + 1 ∧
      da'.elemsNr = da'.elems.length ∧ 0 < da'.allocGrain ∧
      ∃ cell spare, da'.elems = xs.map some ++ cell :: spare := by
  have room : ∃ grown : Dynarray α, grown.Stores xs ∧ xs.length < grown.elems.length ∧
      grown = if da.nextIdx ≥ da.elemsNr then dynarrayExpand da else da := by
    by_cases full : da.nextIdx ≥ da.elemsNr
    · refine ⟨dynarrayExpand da, stores.expand, ?_, by simp [full]⟩
      have := stores.fits
      have := stores.grain
      simp only [dynarrayExpand, Buffer.realloc, List.length_append, List.length_take,
        List.length_replicate, stores.capacity]
      omega
    · refine ⟨da, stores, ?_, by simp [full]⟩
      rw [stores.size, stores.capacity] at full
      omega
  obtain ⟨grown, grownStores, space, equal⟩ := room
  refine ⟨{ grown with nextIdx := grown.nextIdx + 1 }, ?_, ?_, grownStores.capacity,
    grownStores.grain, ?_⟩
  · simp [dynarrayAlloc, ← equal, dynarrayGetLast, dynarrayGet, grownStores.size]
  · simp [grownStores.size]
  · obtain ⟨spare, cells⟩ := grownStores.cells
    cases spare with
    | nil => simp [cells] at space
    | cons cell spare => exact ⟨cell, spare, cells⟩

end Dynarray.Stores

end BachScheduler
