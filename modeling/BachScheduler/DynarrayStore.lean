import BachScheduler.Dynarray
import Mathlib.Data.BitVec

/-!
# The growing array in machine words

`dynarray.c` once more, now with `unsigned long` for its sizes and with the bytes of its buffer.
Where the product of two sizes, an index or the padding of an alignment does not fit, the words
wrap around as they do in C.  A use of memory behind the buffer is a fault.
-/

namespace BachScheduler

/-- The ways in which an operation does not return. -/
inductive DynarrayStop where
  | exit
  | outOfBounds
  | noFuel
  deriving DecidableEq, Repr

/-- Which allocations succeed, by the number of the call and the size. -/
abbrev Mallocs := Nat → BitVec 64 → Bool

/-- `struct dynarray`; `allocs` is the number of allocations so far. -/
structure DynarrayStore where
  elems : Buffer UInt8
  elemsNr : BitVec 64
  elemSize : BitVec 64
  nextIdx : BitVec 64
  allocGrain : BitVec 64
  allocs : Nat

namespace DynarrayStore

section Operations

variable (mallocs : Mallocs)

/-- `da->elems = realloc(da->elems, da->elem_size*da->elems_nr)`. -/
def realloc (da : DynarrayStore) : Except DynarrayStop DynarrayStore :=
  let size := da.elemSize * da.elemsNr
  if mallocs da.allocs size then
    .ok { da with elems := da.elems.realloc size.toNat, allocs := da.allocs + 1 }
  else
    .error .exit

/-- `dynarray_create`. -/
def dynarrayCreate (elemSize allocGrain : BitVec 64) : Except DynarrayStop DynarrayStore :=
  if mallocs 0 40 then
    realloc mallocs
      { elems := []
        elemsNr := allocGrain
        elemSize := elemSize
        nextIdx := 0
        allocGrain := allocGrain
        allocs := 1 }
  else
    .error .exit

/-- `dynarray_init_frombuff`. -/
def dynarrayInitFrombuff (elemSize allocGrain : BitVec 64) (elems : Buffer UInt8)
    (elemsNr : BitVec 64) : Except DynarrayStop DynarrayStore :=
  if mallocs 0 40 then
    let da : DynarrayStore :=
      { elems := elems
        elemsNr := elemsNr
        elemSize := elemSize
        nextIdx := elemsNr
        allocGrain := allocGrain
        allocs := 1 }
    let rem := elemsNr % allocGrain
    if rem ≠ 0 then
      realloc mallocs { da with elemsNr := da.elemsNr + rem }
    else
      .ok da
  else
    .error .exit

/-- `dynarray_get`: the address of an element, from the start of the buffer on. -/
def dynarrayGet (da : DynarrayStore) (idx : BitVec 64) : Except DynarrayStop (BitVec 64) :=
  if idx ≥ da.nextIdx then .error .exit else .ok (da.elemSize * idx)

/-- `dynarray_get_last`. -/
def dynarrayGetLast (da : DynarrayStore) : Except DynarrayStop (BitVec 64) :=
  da.dynarrayGet (da.nextIdx - 1)

/-- `dynarray_expand`. -/
def dynarrayExpand (da : DynarrayStore) : Except DynarrayStop DynarrayStore :=
  realloc mallocs { da with elemsNr := da.elemsNr + da.allocGrain }

/-- `dynarray_alloc`. -/
def dynarrayAlloc (da : DynarrayStore) : Except DynarrayStop (DynarrayStore × BitVec 64) := do
  let da ← if da.nextIdx ≥ da.elemsNr then dynarrayExpand mallocs da else .ok da
  let da := { da with nextIdx := da.nextIdx + 1 }
  let ret ← da.dynarrayGetLast
  .ok (da, ret)

/-- `dynarray_dealloc`. -/
def dynarrayDealloc (da : DynarrayStore) : DynarrayStore :=
  { da with nextIdx := da.nextIdx - 1 }

/-- The loops `while (da->next_idx + nr >= da->elems_nr)`. -/
def expandWhile (needed : BitVec 64) : Nat → DynarrayStore → Except DynarrayStop DynarrayStore
  | 0, _ => .error .noFuel
  | fuel + 1, da =>
      if needed ≥ da.elemsNr then do
        let da ← dynarrayExpand mallocs da
        expandWhile needed fuel da
      else
        .ok da

/-- After as many rounds `elems_nr` has had all its values, and the loop does not end. -/
def rounds : Nat := 2 ^ 64 + 1

/-- `dynarray_alloc_nr`. -/
def dynarrayAllocNr (da : DynarrayStore) (nr : BitVec 64) :
    Except DynarrayStop (DynarrayStore × BitVec 64) := do
  let da ← expandWhile mallocs (da.nextIdx + nr) rounds da
  let idx := da.nextIdx
  let da := { da with nextIdx := da.nextIdx + nr }
  let ret ← da.dynarrayGet idx
  .ok (da, ret)

/-- `dynarray_align`. -/
def dynarrayAlign (da : DynarrayStore) (align : BitVec 64) : Except DynarrayStop DynarrayStore := do
  let nrPadd : BitVec 32 := ((align - (da.nextIdx &&& (align - 1))) &&& (align - 1)).setWidth 32
  let da ← expandWhile mallocs (da.nextIdx + nrPadd.signExtend 64) rounds da
  .ok { da with nextIdx := da.nextIdx + nrPadd.signExtend 64 }

/-- `dynarray_dealloc_nr`. -/
def dynarrayDeallocNr (da : DynarrayStore) (nr : BitVec 64) : Except DynarrayStop DynarrayStore :=
  if da.nextIdx < nr then .error .exit else .ok { da with nextIdx := da.nextIdx - nr }

/-- `dynarray_dealloc_all`. -/
def dynarrayDeallocAll (da : DynarrayStore) : DynarrayStore :=
  { da with nextIdx := 0 }

/-- `dynarray_size`. -/
def dynarraySize (da : DynarrayStore) : BitVec 64 :=
  da.nextIdx

/-- The caller stores an element at the address that `dynarray_get` returns. -/
def write (da : DynarrayStore) (idx : BitVec 64) (elem : Nat → UInt8) :
    Except DynarrayStop DynarrayStore := do
  let addr ← da.dynarrayGet idx
  if addr.toNat + da.elemSize.toNat ≤ da.elems.length then
    let inside (k : Nat) : Bool := addr.toNat ≤ k && k < addr.toNat + da.elemSize.toNat
    .ok { da with elems :=
      da.elems.mapIdx fun k cell => if inside k then some (elem (k - addr.toNat)) else cell }
  else
    .error .outOfBounds

end Operations

/-- The capacity at which the loops end, if nothing wraps around. -/
def grown (da : DynarrayStore) (needed : Nat) : Nat :=
  if needed < da.elemsNr.toNat then da.elemsNr.toNat
  else
    da.elemsNr.toNat + ((needed - da.elemsNr.toNat) / da.allocGrain.toNat + 1) * da.allocGrain.toNat

/-- The buffer has room for `elems_nr` elements, and these are a multiple of the grain. -/
structure Sized (da : DynarrayStore) : Prop where
  elemSize : 0 < da.elemSize.toNat
  grain : 0 < da.allocGrain.toNat
  multiple : da.allocGrain.toNat ∣ da.elemsNr.toNat
  fits : da.elemSize.toNat * da.elemsNr.toNat < 2 ^ 64
  whole : da.elems.length = da.elemSize.toNat * da.elemsNr.toNat

/-- `da'` is `da` with a buffer that may be larger. -/
structure Grows (da da' : DynarrayStore) : Prop where
  sized : da'.Sized
  elemSize : da'.elemSize = da.elemSize
  nextIdx : da'.nextIdx = da.nextIdx
  allocGrain : da'.allocGrain = da.allocGrain
  more : da.elemsNr.toNat ≤ da'.elemsNr.toNat
  kept : ∀ k < da.elems.length, da'.elems.load k = da.elems.load k

end DynarrayStore

/-- The operation returns a result with the property, or the process exits. -/
def ReturnsOrExits {α : Type} (post : α → Prop) : Except DynarrayStop α → Prop
  | .ok result => post result
  | .error stop => stop = .exit

theorem ReturnsOrExits.bind {α β : Type} {post : α → Prop} {post' : β → Prop}
    {run : Except DynarrayStop α} {rest : α → Except DynarrayStop β}
    (first : ReturnsOrExits post run)
    (second : ∀ result, post result → ReturnsOrExits post' (rest result)) :
    ReturnsOrExits post' (run >>= rest) := by
  cases run with
  | ok result => exact second result first
  | error stop => exact first

theorem ReturnsOrExits.imp {α : Type} {post post' : α → Prop} {run : Except DynarrayStop α}
    (first : ReturnsOrExits post run) (second : ∀ result, post result → post' result) :
    ReturnsOrExits post' run := by
  cases run with
  | ok result => exact second result first
  | error stop => exact first

namespace Buffer

variable {α : Type} {buffer : Buffer α} {nr k : Nat}

@[simp] theorem length_realloc : (buffer.realloc nr).length = nr := by
  simp only [realloc, List.length_append, List.length_take, List.length_replicate]
  omega

theorem load_realloc (old : k < buffer.length) (fits : k < nr) :
    (buffer.realloc nr).load k = buffer.load k := by
  rw [load, load, realloc, List.getElem?_append_left, List.getElem?_take_of_lt fits]
  rw [List.length_take]
  omega

theorem load_mapIdx {change : Nat → Option α → Option α} (inside : k < buffer.length) :
    Buffer.load (buffer.mapIdx change) k = change k (buffer.load k) := by
  rw [load, load, List.getElem?_mapIdx, List.getElem?_eq_getElem inside]
  rfl

end Buffer

namespace DynarrayStore

variable {mallocs : Mallocs} {da da' : DynarrayStore} {needed : BitVec 64} {fuel : Nat}

theorem Grows.refl (sized : da.Sized) : da.Grows da :=
  ⟨sized, rfl, rfl, rfl, Nat.le_refl _, fun _ _ => rfl⟩

theorem Grows.trans {da'' : DynarrayStore} (first : da.Grows da') (second : da'.Grows da'')
    (sized : da.Sized) : da.Grows da'' where
  sized := second.sized
  elemSize := second.elemSize.trans first.elemSize
  nextIdx := second.nextIdx.trans first.nextIdx
  allocGrain := second.allocGrain.trans first.allocGrain
  more := first.more.trans second.more
  kept k inside := by
    have larger : da.elems.length ≤ da'.elems.length := by
      rw [sized.whole, first.sized.whole, first.elemSize]
      exact Nat.mul_le_mul_left _ first.more
    rw [second.kept k (Nat.lt_of_lt_of_le inside larger), first.kept k inside]

/-- `dynarray_expand`, if the size of the new buffer fits. -/
theorem dynarrayExpand_grows (sized : da.Sized)
    (fits : da.elemSize.toNat * (da.elemsNr.toNat + da.allocGrain.toNat) < 2 ^ 64) :
    ReturnsOrExits (fun da' => da.Grows da' ∧
      da'.elemsNr.toNat = da.elemsNr.toNat + da.allocGrain.toNat)
      (dynarrayExpand mallocs da) := by
  have small : da.elemsNr.toNat + da.allocGrain.toNat < 2 ^ 64 :=
    Nat.lt_of_le_of_lt (Nat.le_mul_of_pos_left _ sized.elemSize) fits
  have number : (da.elemsNr + da.allocGrain).toNat = da.elemsNr.toNat + da.allocGrain.toNat := by
    rw [BitVec.toNat_add, Nat.mod_eq_of_lt small]
  have size : (da.elemSize * (da.elemsNr + da.allocGrain)).toNat =
      da.elemSize.toNat * (da.elemsNr.toNat + da.allocGrain.toNat) := by
    rw [BitVec.toNat_mul, number, Nat.mod_eq_of_lt fits]
  unfold dynarrayExpand realloc
  dsimp only
  split
  · refine ⟨⟨⟨sized.elemSize, sized.grain, ?_, ?_, ?_⟩, rfl, rfl, rfl, ?_, fun k inside => ?_⟩,
      number⟩
    · rw [number]
      exact (Nat.dvd_add_iff_left (Nat.dvd_refl _)).mp sized.multiple
    · rw [number]
      exact fits
    · rw [Buffer.length_realloc, size, number]
    · rw [number]
      exact Nat.le_add_right _ _
    · refine Buffer.load_realloc inside ?_
      rw [size]
      rw [sized.whole] at inside
      exact Nat.lt_of_lt_of_le inside (Nat.mul_le_mul_left _ (Nat.le_add_right _ _))
  · rfl

theorem le_grown (full : ¬ needed.toNat < da.elemsNr.toNat) :
    da.elemsNr.toNat + da.allocGrain.toNat ≤ da.grown needed.toNat := by
  rw [grown, if_neg full, Nat.add_mul, Nat.one_mul]
  omega

theorem lt_grown (sized : da.Sized) (needed : Nat) : needed < da.grown needed := by
  rw [grown]
  split
  · assumption
  · have rest := Nat.div_add_mod (needed - da.elemsNr.toNat) da.allocGrain.toNat
    have below := Nat.mod_lt (needed - da.elemsNr.toNat) sized.grain
    rw [Nat.add_mul, Nat.one_mul, Nat.mul_comm _ da.allocGrain.toNat]
    omega

/-- One round of a loop ends at the same capacity. -/
theorem grown_expand (sized : da.Sized) (grows : da.Grows da')
    (full : ¬ needed.toNat < da.elemsNr.toNat)
    (number : da'.elemsNr.toNat = da.elemsNr.toNat + da.allocGrain.toNat) :
    da'.grown needed.toNat = da.grown needed.toNat := by
  have positive := sized.grain
  rw [grown, grown, if_neg full, number, grows.allocGrain]
  generalize da.elemsNr.toNat = elemsNr at *
  generalize da.allocGrain.toNat = grain at *
  split
  · have zero : (needed.toNat - elemsNr) / grain = 0 := Nat.div_eq_of_lt (by omega)
    rw [zero, Nat.zero_add, Nat.one_mul]
  · have step : (needed.toNat - elemsNr) / grain = (needed.toNat - (elemsNr + grain)) /
        grain + 1 := by
      rw [← Nat.add_div_right _ positive]
      congr 1
      omega
    have product := Nat.succ_mul ((needed.toNat - (elemsNr + grain)) / grain + 1) grain
    rw [step, product]
    omega

/-- The loops end with room for what is needed, if the size of the last buffer fits. -/
theorem expandWhile_grows (sized : da.Sized)
    (fits : da.elemSize.toNat * da.grown needed.toNat < 2 ^ 64)
    (enough : needed.toNat + 1 - da.elemsNr.toNat < fuel) :
    ReturnsOrExits (fun da' => da.Grows da' ∧ needed.toNat < da'.elemsNr.toNat)
      (expandWhile mallocs needed fuel da) := by
  induction fuel generalizing da with
  | zero => omega
  | succ fuel ih =>
      rw [expandWhile]
      split
      · next full =>
          have notBelow : ¬ needed.toNat < da.elemsNr.toNat :=
            Nat.not_lt.mpr (BitVec.le_def.mp full)
          have last : da.elemSize.toNat * (da.elemsNr.toNat + da.allocGrain.toNat) < 2 ^ 64 :=
            Nat.lt_of_le_of_lt (Nat.mul_le_mul_left _ (le_grown notBelow)) fits
          refine (dynarrayExpand_grows sized last).bind fun da' ⟨grows, number⟩ => ?_
          have same := grown_expand sized grows notBelow number
          have grain := sized.grain
          refine (ih grows.sized ?_ (by omega)).imp fun da'' ⟨grows', room⟩ =>
            ⟨grows.trans grows' sized, room⟩
          rw [same, grows.elemSize]
          exact fits
      · next room => exact ⟨.refl sized, Nat.not_le.mp fun le => room (BitVec.le_def.mpr le)⟩

end DynarrayStore

end BachScheduler
