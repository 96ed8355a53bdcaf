import BachScheduler.DynarrayRuns

/-!
# The array and its words

The array of the event heap counts its elements with natural numbers and holds them in cells; that
of `DynarrayStore` has 64-bit sizes and bytes.  As long as the sizes fit into words, every sequence
of operations does the same to both.
-/

namespace BachScheduler

variable {α : Type} {bytes : α → Nat → UInt8} {size : Nat} {da : Dynarray α} {store : DynarrayStore}

/-- The words and bytes of `store` are those of `da`, whose elements consist of `size` bytes. -/
structure Dynarray.InWords (bytes : α → Nat → UInt8) (size : Nat) (da : Dynarray α)
    (store : DynarrayStore) : Prop where
  sized : store.Sized
  elemSize : store.elemSize.toNat = size
  elemsNr : store.elemsNr.toNat = da.elemsNr
  nextIdx : store.nextIdx.toNat = da.nextIdx
  allocGrain : store.allocGrain.toNat = da.allocGrain
  capacity : da.elemsNr = da.elems.length
  nextLe : da.nextIdx ≤ da.elemsNr
  cells : ∀ idx elem, da.elems.load idx = some elem → ∀ j < size,
    store.elems.load (size * idx + j) = some (bytes elem j)

theorem DynarrayStore.Sized.resized (sized : store.Sized) (next : BitVec 64) :
    Sized { store with nextIdx := next } :=
  ⟨sized.elemSize, sized.grain, sized.multiple, sized.fits, sized.whole⟩

section Cells

variable {buffer : Buffer α} {k nr : Nat} {elem : α}

theorem Buffer.lt_of_load (loaded : buffer.load k = some elem) : k < buffer.length := by
  rw [Buffer.load, Option.join_eq_some_iff] at loaded
  exact (List.getElem?_eq_some_iff.mp loaded).1

theorem Buffer.load_replicate : Buffer.load (List.replicate nr none) k ≠ some elem := by
  rw [Buffer.load, ne_eq, Option.join_eq_some_iff, List.getElem?_replicate]
  split <;> simp

theorem Buffer.load_of_realloc (loaded : (buffer.realloc nr).load k = some elem) :
    buffer.load k = some elem := by
  by_cases old : k < buffer.length
  · have fits := lt_of_load loaded
    rw [length_realloc] at fits
    rwa [load_realloc old fits] at loaded
  · rw [Buffer.load, realloc, List.getElem?_append_right (by simp; omega)] at loaded
    exact absurd loaded load_replicate

end Cells

namespace Dynarray.InWords

theorem create (mallocs : Mallocs) {elemSize allocGrain : BitVec 64} (positive : 0 < elemSize.toNat)
    (grain : 0 < allocGrain.toNat) (fits : elemSize.toNat * allocGrain.toNat < 2 ^ 64) :
    ReturnsOrExits
      (fun store => (dynarrayCreate allocGrain.toNat).InWords bytes elemSize.toNat store)
      (DynarrayStore.dynarrayCreate mallocs elemSize allocGrain) := by
  have whole : (elemSize * allocGrain).toNat = elemSize.toNat * allocGrain.toNat := by
    rw [BitVec.toNat_mul, Nat.mod_eq_of_lt fits]
  unfold DynarrayStore.dynarrayCreate DynarrayStore.realloc
  dsimp only
  split
  · split
    · refine ⟨⟨positive, grain, Nat.dvd_refl _, fits, ?_⟩, rfl, rfl, rfl, rfl, ?_, Nat.zero_le _,
        fun idx elem loaded => absurd loaded Buffer.load_replicate⟩
      · rw [Buffer.length_realloc, whole]
      · exact List.length_replicate.symm
    · rfl
  · rfl

variable (inWords : da.InWords bytes size store)

include inWords

/-- Both refuse the same indices, and every other address is `elem_size` times the index. -/
theorem get (idx : BitVec 64) :
    dynarrayGet da idx.toNat = none ∧ store.dynarrayGet idx = .error .exit ∨
      dynarrayGet da idx.toNat = some idx.toNat ∧ ∃ addr, store.dynarrayGet idx = .ok addr ∧
        addr.toNat = size * idx.toNat ∧ addr.toNat + size ≤ store.elems.length := by
  have bound : idx ≥ store.nextIdx ↔ idx.toNat ≥ da.nextIdx := by
    rw [ge_iff_le, BitVec.le_def, inWords.nextIdx]
  by_cases outside : idx.toNat ≥ da.nextIdx
  · exact .inl ⟨if_pos outside, if_pos (bound.mpr outside)⟩
  · have fits := inWords.sized.fits
    have inside : idx.toNat + 1 ≤ store.elemsNr.toNat := by
      have := inWords.nextLe
      have := inWords.elemsNr
      omega
    have room := Nat.mul_le_mul_left size inside
    rw [Nat.mul_succ] at room
    rw [inWords.elemSize] at fits
    have address : (store.elemSize * idx).toNat = size * idx.toNat := by
      rw [BitVec.toNat_mul, inWords.elemSize, Nat.mod_eq_of_lt (by omega)]
    refine .inr ⟨if_neg outside, _, if_neg (mt bound.mp outside), address, ?_⟩
    rw [address, inWords.sized.whole, inWords.elemSize]
    exact room

theorem expand (mallocs : Mallocs) (fits : size * (da.elemsNr + da.allocGrain) < 2 ^ 64) :
    ReturnsOrExits (fun store' => (dynarrayExpand da).InWords bytes size store')
      (store.dynarrayExpand mallocs) := by
  rw [← inWords.elemsNr, ← inWords.allocGrain, ← inWords.elemSize] at fits
  refine (DynarrayStore.dynarrayExpand_grows inWords.sized fits).imp fun store' expanded => ?_
  obtain ⟨grows, number⟩ := expanded
  refine ⟨grows.sized, ?_, ?_, ?_, ?_, ?_, ?_, fun idx elem loaded j below => ?_⟩
  · rw [grows.elemSize, inWords.elemSize]
  · rw [number, inWords.elemsNr, inWords.allocGrain]
    rfl
  · rw [grows.nextIdx, inWords.nextIdx]
    rfl
  · rw [grows.allocGrain, inWords.allocGrain]
    rfl
  · exact Buffer.length_realloc.symm
  · exact inWords.nextLe.trans (Nat.le_add_right _ _)
  · have known := inWords.cells idx elem (Buffer.load_of_realloc loaded) j below
    rw [grows.kept _ (Buffer.lt_of_load known)]
    exact known

/-- `dynarray_alloc` returns the address of the same element. -/
theorem alloc (mallocs : Mallocs) (fits : size * (da.elemsNr + da.allocGrain) < 2 ^ 64) :
    ∃ da', dynarrayAlloc da = some (da', da.nextIdx) ∧
      ReturnsOrExits (fun result => da'.InWords bytes size result.1 ∧
        result.2.toNat = size * da.nextIdx) (store.dynarrayAlloc mallocs) := by
  let grown := if da.nextIdx ≥ da.elemsNr then dynarrayExpand da else da
  have nextIdx : grown.nextIdx = da.nextIdx := by
    dsimp only [grown]
    split <;> rfl
  have bound : store.nextIdx ≥ store.elemsNr ↔ da.nextIdx ≥ da.elemsNr := by
    rw [ge_iff_le, BitVec.le_def, inWords.nextIdx, inWords.elemsNr]
  have room : ReturnsOrExits
      (fun store' => grown.InWords bytes size store' ∧ grown.nextIdx < grown.elemsNr)
      (if store.nextIdx ≥ store.elemsNr then DynarrayStore.dynarrayExpand mallocs store
        else .ok store) := by
    dsimp only [grown]
    by_cases full : da.nextIdx ≥ da.elemsNr
    · rw [if_pos full, if_pos (bound.mpr full)]
      refine (inWords.expand mallocs fits).imp fun store' inWords' => ⟨inWords', ?_⟩
      have grain := inWords.sized.grain
      have allocGrain := inWords.allocGrain
      have nextLe := inWords.nextLe
      simp only [dynarrayExpand]
      omega
    · rw [if_neg full, if_neg (mt bound.mp full)]
      exact ⟨inWords, Nat.not_le.mp full⟩
  have last : dynarrayGetLast { grown with nextIdx := grown.nextIdx + 1 } = some da.nextIdx := by
    rw [← nextIdx]
    exact if_neg (Nat.not_succ_le_self _)
  refine ⟨{ grown with nextIdx := grown.nextIdx + 1 }, congrArg (Option.map _) last, ?_⟩
  rw [DynarrayStore.Tracks.dynarrayAlloc_eq]
  refine room.bind fun store' grows => ?_
  obtain ⟨inWords', room⟩ := grows
  have more : (store'.nextIdx + 1).toNat = grown.nextIdx + 1 := by
    have bound := store'.elemsNr.isLt
    have elemsNr := inWords'.elemsNr
    have one : (1 : BitVec 64).toNat = 1 := rfl
    rw [BitVec.toNat_add, one, inWords'.nextIdx, Nat.mod_eq_of_lt (by omega)]
  have wider : InWords bytes size { grown with nextIdx := grown.nextIdx + 1 }
      { store' with nextIdx := store'.nextIdx + 1 } :=
    ⟨inWords'.sized.resized _, inWords'.elemSize, inWords'.elemsNr, more, inWords'.allocGrain,
      inWords'.capacity, room, inWords'.cells⟩
  have idx : (store'.nextIdx + 1 - 1).toNat = da.nextIdx := by
    rw [BitVec.add_sub_cancel, inWords'.nextIdx, nextIdx]
  dsimp only
  rcases wider.get (store'.nextIdx + 1 - 1) with ⟨-, run⟩ | ⟨-, addr, run, address, -⟩
  · rw [DynarrayStore.dynarrayGetLast, run]
    rfl
  · rw [DynarrayStore.dynarrayGetLast, run]
    rw [idx] at address
    exact ⟨wider, address⟩

theorem dealloc (some : 0 < da.nextIdx) :
    (dynarrayDealloc da).InWords bytes size store.dynarrayDealloc where
  sized := inWords.sized.resized _
  elemSize := inWords.elemSize
  elemsNr := inWords.elemsNr
  nextIdx := by
    have bound := store.nextIdx.isLt
    have one : (1 : BitVec 64).toNat = 1 := rfl
    have nextIdx := inWords.nextIdx
    rw [DynarrayStore.dynarrayDealloc, BitVec.toNat_sub, one, dynarrayDealloc]
    dsimp only
    omega
  allocGrain := inWords.allocGrain
  capacity := inWords.capacity
  nextLe := (Nat.sub_le _ _).trans inWords.nextLe
  cells := inWords.cells

/-- A store into a cell is a store of its bytes at the address of the element. -/
theorem write {idx : BitVec 64} (inside : idx.toNat < da.nextIdx) (elem : α) :
    ∃ elems store', da.elems.store idx.toNat elem = some elems ∧
      store.write idx (bytes elem) = .ok store' ∧
      InWords bytes size { da with elems := elems } store' := by
  have room : idx.toNat < da.elems.length := by
    have := inWords.nextLe
    have := inWords.capacity
    omega
  rcases inWords.get idx with ⟨outside, -⟩ | ⟨-, addr, run, address, fits⟩
  · rw [dynarrayGet, if_neg (Nat.not_le.mpr inside)] at outside
    cases outside
  have wrote : store.write idx (bytes elem) = .ok { store with
      elems := store.elems.mapIdx fun k cell =>
        if addr.toNat ≤ k && k < addr.toNat + store.elemSize.toNat
        then some (bytes elem (k - addr.toNat)) else cell } := by
    rw [DynarrayStore.write, run]
    exact if_pos (inWords.elemSize ▸ fits)
  have sized := inWords.sized
  refine ⟨_, _, if_pos room, wrote, ⟨⟨sized.elemSize, sized.grain, sized.multiple, sized.fits, ?_⟩,
    inWords.elemSize, inWords.elemsNr, inWords.nextIdx, inWords.allocGrain, ?_, inWords.nextLe,
    fun other value loaded j below => ?_⟩⟩
  · rw [List.length_mapIdx]
    exact sized.whole
  · rw [List.length_set]
    exact inWords.capacity
  rw [Buffer.load, List.getElem?_set] at loaded
  by_cases same : idx.toNat = other
  · subst same
    rw [if_pos rfl, if_pos room] at loaded
    cases loaded
    rw [Buffer.load_mapIdx (by omega), address, inWords.elemSize]
    simp [below]
  · rw [if_neg same] at loaded
    have known := inWords.cells other value loaded j below
    have outside := DynarrayStore.Tracks.apart same below
    rw [Buffer.load_mapIdx (Buffer.lt_of_load known), known, address, inWords.elemSize]
    simp only [Bool.and_eq_true, decide_eq_true_eq, if_neg outside]

end Dynarray.InWords

section Runs

/-- One use of the array by the heap. -/
inductive CellOp (α : Type) where
  | alloc
  | dealloc
  | write (idx : BitVec 64) (elem : α)

namespace CellOp

/-- The use of the array of cells. -/
def step (da : Dynarray α) : CellOp α → Option (Dynarray α)
  | .alloc => (dynarrayAlloc da).map Prod.fst
  | .dealloc => some (dynarrayDealloc da)
  | .write idx elem => (da.elems.store idx.toNat elem).map fun elems => { da with elems := elems }

/-- The same use of the array of bytes. -/
def inWords (bytes : α → Nat → UInt8) : CellOp α → DynarrayOp
  | .alloc => .alloc
  | .dealloc => .dealloc
  | .write idx elem => .write idx (bytes elem)

/-- What a use has to meet. -/
def Fits (size : Nat) (da : Dynarray α) : CellOp α → Prop
  | .alloc => size * (da.elemsNr + da.allocGrain) < 2 ^ 64
  | .dealloc => 0 < da.nextIdx
  | .write idx _ => idx.toNat < da.nextIdx

/-- A sequence of uses each of which meets it. -/
def AllFit (size : Nat) : List (CellOp α) → Dynarray α → Prop
  | [], _ => True
  | op :: ops, da => op.Fits size da ∧ ∀ da', op.step da = some da' → AllFit size ops da'

end CellOp

theorem Dynarray.InWords.step (inWords : da.InWords bytes size store) (mallocs : Mallocs)
    {op : CellOp α} (fits : op.Fits size da) :
    ∃ da', op.step da = some da' ∧
      ReturnsOrExits (fun store' => da'.InWords bytes size store')
        ((op.inWords bytes).step mallocs store) := by
  cases op with
  | alloc =>
      obtain ⟨da', run, allocs⟩ := inWords.alloc mallocs fits
      exact ⟨da', congrArg (Option.map Prod.fst) run, allocs.bind fun result after => after.1⟩
  | dealloc => exact ⟨_, rfl, inWords.dealloc fits⟩
  | write idx elem =>
      obtain ⟨elems, store', stored, wrote, after⟩ := inWords.write fits elem
      refine ⟨_, congrArg (Option.map _) stored, ?_⟩
      rw [CellOp.inWords, DynarrayOp.step, wrote]
      exact after

/-- Whatever the heap does to its array, it does to the words, if they suffice. -/
theorem Dynarray.InWords.steps {ops : List (CellOp α)} (inWords : da.InWords bytes size store)
    (mallocs : Mallocs) (all : CellOp.AllFit size ops da) :
    ReturnsOrExits
      (fun store' => ∃ da', ops.foldlM CellOp.step da = some da' ∧ da'.InWords bytes size store')
      (DynarrayOp.steps mallocs (ops.map (CellOp.inWords bytes)) store) := by
  induction ops generalizing da store with
  | nil => exact ⟨da, rfl, inWords⟩
  | cons op ops ih =>
      obtain ⟨fits, rest⟩ := all
      obtain ⟨da₁, run, first⟩ := inWords.step mallocs fits
      rw [List.foldlM_cons, run, List.map_cons, DynarrayOp.steps]
      exact first.bind fun store₁ inWords₁ => ih inWords₁ (rest da₁ run)

/-- From `dynarray_create` on, both arrays go through the same sequence. -/
theorem cellOps_inWords (mallocs : Mallocs) {elemSize allocGrain : BitVec 64}
    {ops : List (CellOp α)} (positive : 0 < elemSize.toNat) (grain : 0 < allocGrain.toNat)
    (fits : elemSize.toNat * allocGrain.toNat < 2 ^ 64)
    (all : CellOp.AllFit elemSize.toNat ops (dynarrayCreate allocGrain.toNat)) :
    ReturnsOrExits
      (fun store => ∃ da, ops.foldlM CellOp.step (dynarrayCreate allocGrain.toNat) = some da ∧
        da.InWords bytes elemSize.toNat store)
      (runDynarray mallocs (.create elemSize allocGrain) (ops.map (CellOp.inWords bytes))) :=
  (Dynarray.InWords.create mallocs positive grain fits).bind fun _ inWords =>
    inWords.steps mallocs all

end Runs

end BachScheduler
