import BachScheduler.DynarrayStore
import BachScheduler.Lib.Words

/-!
# Runs of array operations

A sequence of operations on a growing array keeps its books: the size is the number of elements
that were allocated and not given back, and these lie in the buffer and keep their values.  What
the sizes have to meet for this is said step by step.
-/

namespace BachScheduler

/-- One call of an operation of `dynarray.h`; the argument of `align` is a power of two.  Between
the calls the caller stores elements. -/
inductive DynarrayOp where
  | alloc
  | allocNr (nr : BitVec 64)
  | align (log : Fin 64)
  | dealloc
  | deallocNr (nr : BitVec 64)
  | deallocAll
  | write (idx : BitVec 64) (elem : Nat → UInt8)

/-- A call of one of the two constructors; a buffer consists of the bytes `content`. -/
inductive DynarrayStart where
  | create (elemSize allocGrain : BitVec 64)
  | initFrombuff (elemSize allocGrain : BitVec 64) (content : Nat → UInt8) (elemsNr : BitVec 64)

/-- The number of elements that an alignment adds. -/
def padding (size align : Nat) : Nat :=
  (align - size % align) % align

/-- The elements that are allocated, with their values as far as they were stored. -/
abbrev Elements := List (Option (Nat → UInt8))

namespace DynarrayOp

/-- One operation. -/
def step (mallocs : Mallocs) (da : DynarrayStore) : DynarrayOp → Except DynarrayStop DynarrayStore
  | .alloc => do
      let (da, _) ← da.dynarrayAlloc mallocs
      .ok da
  | .allocNr nr => do
      let (da, _) ← da.dynarrayAllocNr mallocs nr
      .ok da
  | .align log => da.dynarrayAlign mallocs (BitVec.twoPow 64 log)
  | .dealloc => .ok da.dynarrayDealloc
  | .deallocNr nr => da.dynarrayDeallocNr nr
  | .deallocAll => .ok da.dynarrayDeallocAll
  | .write idx elem => da.write idx elem

/-- A sequence of operations. -/
def steps (mallocs : Mallocs) : List DynarrayOp → DynarrayStore → Except DynarrayStop DynarrayStore
  | [], da => .ok da
  | op :: ops, da => do
      let da ← op.step mallocs da
      steps mallocs ops da

/-- What an operation does to the elements. -/
def track (xs : Elements) : DynarrayOp → Elements
  | .alloc => xs ++ [none]
  | .allocNr nr => xs ++ List.replicate nr.toNat none
  | .align log => xs ++ List.replicate (padding xs.length (2 ^ log.val)) none
  | .dealloc => xs.dropLast
  | .deallocNr nr => xs.take (xs.length - nr.toNat)
  | .deallocAll => []
  | .write idx elem => xs.set idx.toNat (some elem)

/-- What an operation has to meet: nothing is taken from an empty array, the size in bytes of each
buffer fits into a word, and a padding into an `int`. -/
def Fits (da : DynarrayStore) : DynarrayOp → Prop
  | .alloc => da.elemSize.toNat * da.grown da.nextIdx.toNat < 2 ^ 64
  | .allocNr nr =>
      da.nextIdx.toNat + nr.toNat < 2 ^ 64 →
        da.elemSize.toNat * da.grown (da.nextIdx.toNat + nr.toNat) < 2 ^ 64
  | .align log =>
      padding da.nextIdx.toNat (2 ^ log.val) < 2 ^ 31 ∧
        da.elemSize.toNat *
          da.grown (da.nextIdx.toNat + padding da.nextIdx.toNat (2 ^ log.val)) < 2 ^ 64
  | .dealloc => 0 < da.nextIdx.toNat
  | _ => True

/-- Each operation of a run meets it. -/
def AllFit (mallocs : Mallocs) : List DynarrayOp → DynarrayStore → Prop
  | [], _ => True
  | op :: ops, da => op.Fits da ∧ ∀ da', op.step mallocs da = .ok da' → AllFit mallocs ops da'

end DynarrayOp

namespace DynarrayStart

/-- The size of an element. -/
def elemSize : DynarrayStart → BitVec 64
  | .create elemSize _ => elemSize
  | .initFrombuff elemSize _ _ _ => elemSize

/-- The growth grain. -/
def allocGrain : DynarrayStart → BitVec 64
  | .create _ allocGrain => allocGrain
  | .initFrombuff _ allocGrain _ _ => allocGrain

/-- The call of the constructor. -/
def run (mallocs : Mallocs) : DynarrayStart → Except DynarrayStop DynarrayStore
  | .create elemSize allocGrain => DynarrayStore.dynarrayCreate mallocs elemSize allocGrain
  | .initFrombuff elemSize allocGrain content elemsNr =>
      let elems := (List.range (elemSize.toNat * elemsNr.toNat)).map fun k => some (content k)
      DynarrayStore.dynarrayInitFrombuff mallocs elemSize allocGrain elems elemsNr

/-- The elements that the array has at first. -/
def elements : DynarrayStart → Elements
  | .create _ _ => []
  | .initFrombuff elemSize _ content elemsNr =>
      (List.range elemsNr.toNat).map fun idx => some fun j => content (elemSize.toNat * idx + j)

/-- What a constructor has to meet: the size of the buffer in bytes fits into a word, and twice what
is left over beyond a multiple of the grain is a multiple of it. -/
def Fits : DynarrayStart → Prop
  | .create elemSize allocGrain => elemSize.toNat * allocGrain.toNat < 2 ^ 64
  | .initFrombuff elemSize allocGrain _ elemsNr =>
      allocGrain.toNat ∣ 2 * (elemsNr.toNat % allocGrain.toNat) ∧
        elemSize.toNat * (elemsNr.toNat + elemsNr.toNat % allocGrain.toNat) < 2 ^ 64

end DynarrayStart

/-- A run from one of the constructors on. -/
def runDynarray (mallocs : Mallocs) (start : DynarrayStart) (ops : List DynarrayOp) :
    Except DynarrayStop DynarrayStore := do
  let da ← start.run mallocs
  DynarrayOp.steps mallocs ops da

/-- The books of the array are in order: its elements are `xs`, and they lie in the buffer. -/
structure DynarrayStore.InOrder (da : DynarrayStore) (xs : Elements) : Prop where
  nextLe : da.nextIdx ≤ da.elemsNr
  multiple : da.allocGrain.toNat ∣ da.elemsNr.toNat
  size : da.dynarraySize.toNat = xs.length
  values : ∀ (idx : Nat) elem, xs[idx]? = some (some elem) → ∀ j < da.elemSize.toNat,
    da.elems.load (da.elemSize.toNat * idx + j) = some (elem j)
  inside : ∀ idx addr, da.dynarrayGet idx = .ok addr →
    addr.toNat = da.elemSize.toNat * idx.toNat ∧ addr.toNat + da.elemSize.toNat ≤ da.elems.length

/-- As long as the process has not exited, the books are in order. -/
def StaysInOrder (mallocs : Mallocs) (start : DynarrayStart) (ops : List DynarrayOp) : Prop :=
  ReturnsOrExits (fun da => da.InOrder (ops.foldl DynarrayOp.track start.elements))
    (runDynarray mallocs start ops)

/-- The array has the elements `xs`, in a buffer with room for them. -/
structure DynarrayStore.Tracks (da : DynarrayStore) (xs : Elements) : Prop where
  sized : da.Sized
  nextLe : da.nextIdx.toNat ≤ da.elemsNr.toNat
  size : da.nextIdx.toNat = xs.length
  values : ∀ (idx : Nat) elem, xs[idx]? = some (some elem) → ∀ j < da.elemSize.toNat,
    da.elems.load (da.elemSize.toNat * idx + j) = some (elem j)

namespace DynarrayStore.Tracks

variable {mallocs : Mallocs} {da da' : DynarrayStore} {xs ys : Elements} {idx : BitVec 64}

/-- The bytes of an element lie in the buffer. -/
theorem byte_lt (tracks : da.Tracks xs) {idx j : Nat} (known : idx < xs.length)
    (inside : j < da.elemSize.toNat) :
    da.elemSize.toNat * idx + j < da.elems.length := by
  have below : idx + 1 ≤ da.elemsNr.toNat := by
    have := tracks.nextLe
    have := tracks.size
    omega
  have whole := Nat.mul_le_mul_left da.elemSize.toNat below
  rw [Nat.mul_add, Nat.mul_one] at whole
  rw [tracks.sized.whole]
  omega

/-- `dynarray_get` returns exactly the addresses of the elements. -/
theorem get (tracks : da.Tracks xs) (idx : BitVec 64) :
    (idx.toNat < xs.length ∧ (da.elemSize * idx).toNat = da.elemSize.toNat * idx.toNat ∧
        da.elemSize.toNat * idx.toNat + da.elemSize.toNat ≤ da.elems.length ∧
        da.dynarrayGet idx = .ok (da.elemSize * idx)) ∨
      (xs.length ≤ idx.toNat ∧ da.dynarrayGet idx = .error .exit) := by
  rw [← tracks.size]
  by_cases outside : idx ≥ da.nextIdx
  · exact .inr ⟨BitVec.le_def.mp outside, by rw [dynarrayGet, if_pos outside]⟩
  · have below : idx.toNat < da.nextIdx.toNat := Nat.not_le.mp fun le =>
      outside (BitVec.le_def.mpr le)
    have room := tracks.nextLe
    have whole : da.elemSize.toNat * (idx.toNat + 1) ≤ da.elemSize.toNat * da.elemsNr.toNat :=
      Nat.mul_le_mul_left _ (by omega)
    have fits := tracks.sized.fits
    rw [Nat.mul_add, Nat.mul_one] at whole
    refine .inl ⟨below, ?_, ?_, by rw [dynarrayGet, if_neg outside]⟩
    · rw [BitVec.toNat_mul, Nat.mod_eq_of_lt (by omega)]
    · rw [tracks.sized.whole]
      exact whole

theorem inOrder (tracks : da.Tracks xs) : da.InOrder xs where
  nextLe := BitVec.le_def.mpr tracks.nextLe
  multiple := tracks.sized.multiple
  size := tracks.size
  values := tracks.values
  inside idx addr found := by
    rcases tracks.get idx with ⟨-, exact_, inside, run⟩ | ⟨-, run⟩
    · rw [run] at found
      cases found
      rw [exact_]
      exact ⟨rfl, inside⟩
    · rw [run] at found
      contradiction

/-- The array gets another size, after its buffer may have grown: no element gets another value. -/
theorem resize (tracks : da.Tracks xs) (grows : da.Grows da') {next : BitVec 64}
    (old : ∀ (idx : Nat) elem, ys[idx]? = some (some elem) → xs[idx]? = some (some elem))
    (size : next.toNat = ys.length) (room : next.toNat ≤ da'.elemsNr.toNat) :
    Tracks { da' with nextIdx := next } ys where
  sized := ⟨grows.sized.elemSize, grows.sized.grain, grows.sized.multiple, grows.sized.fits,
    grows.sized.whole⟩
  nextLe := room
  size := size
  values idx elem known j inside := by
    have before := old idx elem known
    have inside' : j < da.elemSize.toNat := grows.elemSize ▸ inside
    have byte := tracks.byte_lt (List.getElem?_eq_some_iff.mp before).1 inside'
    dsimp only
    rw [grows.elemSize, grows.kept _ byte]
    exact tracks.values idx elem before j inside'

theorem append_old {n idx : Nat} {elem : Nat → UInt8}
    (known : (xs ++ List.replicate n none)[idx]? = some (some elem)) :
    xs[idx]? = some (some elem) := by
  rw [List.getElem?_append] at known
  split at known
  · exact known
  · simp [List.getElem?_replicate] at known

theorem take_old {n idx : Nat} {elem : Nat → UInt8} (known : (xs.take n)[idx]? = some (some elem)) :
    xs[idx]? = some (some elem) := by
  rw [List.getElem?_take] at known
  split at known
  · exact known
  · contradiction

/-- The bytes of one element are not those of another. -/
theorem apart {size i idx j : Nat} (other : i ≠ idx) (below : j < size) :
    ¬ (size * i ≤ size * idx + j ∧ size * idx + j < size * i + size) := by
  rcases Nat.lt_or_gt_of_ne other with less | more
  · have whole := Nat.mul_le_mul_left size (Nat.succ_le_of_lt less)
    rw [Nat.mul_succ] at whole
    omega
  · have whole := Nat.mul_le_mul_left size (Nat.succ_le_of_lt more)
    rw [Nat.mul_succ] at whole
    omega

theorem write (tracks : da.Tracks xs) (idx : BitVec 64) (elem : Nat → UInt8) :
    ReturnsOrExits (fun da' => da'.Tracks (xs.set idx.toNat (some elem))) (da.write idx elem) := by
  rcases tracks.get idx with ⟨known, address, inside, run⟩ | ⟨-, run⟩
  · rw [DynarrayStore.write, run]
    dsimp only [Bind.bind, Except.bind]
    rw [address, if_pos inside]
    refine ⟨⟨tracks.sized.elemSize, tracks.sized.grain, tracks.sized.multiple,
      tracks.sized.fits, ?_⟩,
      tracks.nextLe, ?_, fun idx' elem' found j below => ?_⟩
    · rw [List.length_mapIdx]
      exact tracks.sized.whole
    · rw [List.length_set]
      exact tracks.size
    · dsimp only at below ⊢
      rw [List.getElem?_set] at found
      split at found
      · next same =>
          subst same
          cases found
          rw [Buffer.load_mapIdx (tracks.byte_lt known below)]
          simp [below]
      · next other =>
          have byte := tracks.byte_lt (List.getElem?_eq_some_iff.mp found).1 below
          rw [Buffer.load_mapIdx byte, tracks.values idx' elem' found j below]
          have outside := apart other below
          simp only [Bool.and_eq_true, decide_eq_true_eq, if_neg outside]
  · rw [DynarrayStore.write, run]
    rfl

theorem dynarrayAlloc_eq : da.dynarrayAlloc mallocs =
    (if da.nextIdx ≥ da.elemsNr then dynarrayExpand mallocs da else .ok da) >>= fun da' =>
      let da' := { da' with nextIdx := da'.nextIdx + 1 }
      da'.dynarrayGetLast >>= fun ret => .ok (da', ret) := by
  rw [dynarrayAlloc]
  split <;> rfl

theorem alloc (tracks : da.Tracks xs) (fits : DynarrayOp.alloc.Fits da) :
    ReturnsOrExits (fun result => result.1.Tracks (xs ++ [none])) (da.dynarrayAlloc mallocs) := by
  have room : ReturnsOrExits (fun da' => da.Grows da' ∧ da.nextIdx.toNat < da'.elemsNr.toNat)
      (if da.nextIdx ≥ da.elemsNr then dynarrayExpand mallocs da else .ok da) := by
    split
    · next full =>
        have notBelow : ¬ da.nextIdx.toNat < da.elemsNr.toNat :=
          Nat.not_lt.mpr (BitVec.le_def.mp full)
        have last := Nat.lt_of_le_of_lt (Nat.mul_le_mul_left _ (le_grown notBelow)) fits
        have nextLe := tracks.nextLe
        have grain := tracks.sized.grain
        exact (dynarrayExpand_grows tracks.sized last).imp fun da' ⟨grows, number⟩ =>
          ⟨grows, by omega⟩
    · next room => exact ⟨.refl tracks.sized, Nat.not_le.mp fun le => room (BitVec.le_def.mpr le)⟩
  rw [dynarrayAlloc_eq]
  refine room.bind fun da' ⟨grows, room⟩ => ?_
  have more : (da.nextIdx + 1).toNat = da.nextIdx.toNat + 1 := by
    have bound := da'.elemsNr.isLt
    have one : (1 : BitVec 64).toNat = 1 := rfl
    rw [BitVec.toNat_add, one, Nat.mod_eq_of_lt (by omega)]
  have tracks' : Tracks { da' with nextIdx := da.nextIdx + 1 } (xs ++ List.replicate 1 none) := by
    refine tracks.resize grows (fun idx elem => append_old) ?_ ?_
    · rw [more, List.length_append, List.length_replicate, tracks.size]
    · rw [more]
      exact room
  dsimp only
  rw [grows.nextIdx]
  rcases tracks'.get (da.nextIdx + 1 - 1) with ⟨-, -, -, run⟩ | ⟨-, run⟩
  · rw [dynarrayGetLast, run]
    exact tracks'
  · rw [dynarrayGetLast, run]
    rfl

/-- `dynarray_alloc_nr` adds `nr` elements; a size that wraps around makes `dynarray_get` exit. -/
theorem allocNr (tracks : da.Tracks xs) {nr : BitVec 64} (fits : (DynarrayOp.allocNr nr).Fits da) :
    ReturnsOrExits (fun result => result.1.Tracks (xs ++ List.replicate nr.toNat none))
      (da.dynarrayAllocNr mallocs nr) := by
  have bound := da.nextIdx.isLt
  have bound' := nr.isLt
  have last : da.elemSize.toNat * da.grown (da.nextIdx + nr).toNat < 2 ^ 64 := by
    rw [BitVec.toNat_add]
    by_cases wraps : da.nextIdx.toNat + nr.toNat < 2 ^ 64
    · rw [Nat.mod_eq_of_lt wraps]
      exact fits wraps
    · have nextLe := tracks.nextLe
      rw [grown, if_pos (by omega)]
      exact tracks.sized.fits
  refine (expandWhile_grows tracks.sized last ?_).bind fun da' expanded => ?_
  · have := (da.nextIdx + nr).isLt
    rw [rounds]
    omega
  obtain ⟨grows, room⟩ := expanded
  dsimp only
  rw [grows.nextIdx]
  by_cases outside : da.nextIdx ≥ da.nextIdx + nr
  · rw [dynarrayGet, if_pos outside]
    rfl
  · have more : da.nextIdx.toNat < (da.nextIdx + nr).toNat :=
      Nat.not_le.mp fun le => outside (BitVec.le_def.mpr le)
    rw [dynarrayGet, if_neg outside]
    refine tracks.resize grows (fun idx elem => append_old) ?_ (Nat.le_of_lt room)
    rw [List.length_append, List.length_replicate, ← tracks.size]
    rw [BitVec.toNat_add] at more ⊢
    omega

theorem align (tracks : da.Tracks xs) {log : Fin 64} (fits : (DynarrayOp.align log).Fits da) :
    ReturnsOrExits
      (fun da' => da'.Tracks (xs ++ List.replicate (padding xs.length (2 ^ log.val)) none))
      (da.dynarrayAlign mallocs (BitVec.twoPow 64 log.val)) := by
  obtain ⟨small, last⟩ := fits
  have word := Words.toNat_missing da.nextIdx log
  rw [← padding] at word
  unfold dynarrayAlign
  dsimp only
  generalize (BitVec.twoPow 64 log.val - (da.nextIdx &&& (BitVec.twoPow 64 log.val - 1))) &&&
    (BitVec.twoPow 64 log.val - 1) = missing at *
  rw [← tracks.size]
  rw [← word] at small last ⊢
  have kept := Words.toNat_signExtend_setWidth (v := 32) (by omega)
    (by omega : 2 * missing.toNat < 2 ^ 32)
  have fitsWord : da.nextIdx.toNat + missing.toNat < 2 ^ 64 :=
    (lt_grown tracks.sized _).trans_le
      (Nat.le_trans (Nat.le_mul_of_pos_left _ tracks.sized.elemSize) last.le)
  have sum :
      (da.nextIdx + (missing.setWidth 32).signExtend 64).toNat =
        da.nextIdx.toNat + missing.toNat := by
    rw [BitVec.toNat_add, kept, Nat.mod_eq_of_lt fitsWord]
  refine (expandWhile_grows tracks.sized (sum ▸ last) ?_).bind fun da' ⟨grows, room⟩ => ?_
  · rw [sum, rounds]
    omega
  rw [grows.nextIdx]
  refine tracks.resize grows (fun idx elem => append_old) ?_ (Nat.le_of_lt room)
  rw [sum, List.length_append, List.length_replicate, tracks.size]

end DynarrayStore.Tracks

/-- One operation keeps the books in order. -/
theorem DynarrayOp.step_tracks {mallocs : Mallocs} {da : DynarrayStore} {xs : Elements}
    {op : DynarrayOp} (tracks : da.Tracks xs) (fits : op.Fits da) :
    ReturnsOrExits (fun da' => da'.Tracks (op.track xs)) (op.step mallocs da) := by
  have size := tracks.size
  have nextLe := tracks.nextLe
  cases op with
  | alloc => exact (tracks.alloc fits).bind fun result after => after
  | allocNr nr => exact (tracks.allocNr fits).bind fun result after => after
  | align log => exact tracks.align fits
  | dealloc =>
      have less : (da.nextIdx - 1).toNat = da.nextIdx.toNat - 1 := by
        have positive : 0 < da.nextIdx.toNat := fits
        have bound := da.nextIdx.isLt
        have one : (1 : BitVec 64).toNat = 1 := rfl
        rw [BitVec.toNat_sub, one]
        omega
      refine tracks.resize (.refl tracks.sized) (fun idx elem known => ?_) ?_ ?_
      · rw [track, List.dropLast_eq_take] at known
        exact DynarrayStore.Tracks.take_old known
      · rw [less, track, List.length_dropLast, size]
      · rw [less]
        omega
  | deallocNr nr =>
      rw [step, DynarrayStore.dynarrayDeallocNr]
      split
      · rfl
      · next enough =>
          have le : nr.toNat ≤ da.nextIdx.toNat := Nat.not_lt.mp fun less =>
            enough (BitVec.lt_def.mpr less)
          have less : (da.nextIdx - nr).toNat = da.nextIdx.toNat - nr.toNat := by
            have bound := da.nextIdx.isLt
            rw [BitVec.toNat_sub]
            omega
          refine tracks.resize (.refl
            tracks.sized) (fun idx elem known => DynarrayStore.Tracks.take_old known) ?_ ?_
          · rw [less, track, List.length_take, size]
            omega
          · rw [less]
            omega
  | deallocAll =>
      exact tracks.resize (.refl tracks.sized) (fun idx elem known => by cases known)
        rfl (Nat.zero_le _)
  | write idx elem => exact tracks.write idx elem

theorem DynarrayOp.steps_tracks {mallocs : Mallocs} {ops : List DynarrayOp} {da : DynarrayStore}
    {xs : Elements} (tracks : da.Tracks xs) (all : AllFit mallocs ops da) :
    ReturnsOrExits (fun da' => da'.Tracks (ops.foldl track xs)) (steps mallocs ops da) := by
  induction ops generalizing da xs with
  | nil => exact tracks
  | cons op ops ih =>
      obtain ⟨fits, rest⟩ := all
      have first : ReturnsOrExits (fun da' => da'.Tracks (op.track xs)) (op.step mallocs da) :=
        step_tracks tracks fits
      rw [steps]
      cases run : op.step mallocs da with
      | ok da' =>
          rw [run] at first
          exact ih first (rest da' run)
      | error stop =>
          rw [run] at first
          exact first

theorem DynarrayStart.load_content {size nr k : Nat} {content : Nat → UInt8}
    (inside : k < size * nr) :
    Buffer.load ((List.range (size * nr)).map fun k => some (content k)) k = some (content k) := by
  simp [Buffer.load, inside]

/-- The buffer of `dynarray_init_frombuff`, once it has its size, has the elements that were
given. -/
theorem DynarrayStart.tracks_content {da : DynarrayStore} {content : Nat → UInt8} {nr : Nat}
    (sized : da.Sized) (next : da.nextIdx.toNat = nr) (room : nr ≤ da.elemsNr.toNat)
    (kept : ∀ k < da.elemSize.toNat * nr, da.elems.load k = some (content k)) :
    da.Tracks ((List.range nr).map fun idx => some fun j => content (da.elemSize.toNat * idx + j))
      where
  sized := sized
  nextLe := next ▸ room
  size := by simp [next]
  values idx elem known j inside := by
    rw [List.getElem?_map] at known
    by_cases below : idx < nr
    · rw [List.getElem?_range below] at known
      cases known
      have whole := Nat.mul_le_mul_left da.elemSize.toNat (Nat.succ_le_of_lt below)
      rw [Nat.mul_succ] at whole
      exact kept _ (by omega)
    · rw [List.getElem?_eq_none (by simpa using below)] at known
      contradiction

theorem DynarrayStart.create_tracks {mallocs : Mallocs} {elemSize allocGrain : BitVec 64}
    (positive : 0 < elemSize.toNat) (grain : 0 < allocGrain.toNat)
    (fits : elemSize.toNat * allocGrain.toNat < 2 ^ 64) :
    ReturnsOrExits (fun da => da.Tracks [])
      (DynarrayStore.dynarrayCreate mallocs elemSize allocGrain) := by
  have size : (elemSize * allocGrain).toNat = elemSize.toNat * allocGrain.toNat := by
    rw [BitVec.toNat_mul, Nat.mod_eq_of_lt fits]
  unfold DynarrayStore.dynarrayCreate DynarrayStore.realloc
  dsimp only
  split
  · split
    · refine ⟨⟨positive, grain, Nat.dvd_refl _, fits, ?_⟩, Nat.zero_le _, rfl, fun idx elem known =>
        ?_⟩
      · rw [Buffer.length_realloc, size]
      · cases known
    · rfl
  · rfl

/-- `rem` more elements are a multiple of the grain again, if twice `rem` is one. -/
theorem DynarrayStart.dvd_add_rem {nr grain : Nat} (twice : grain ∣ 2 * (nr % grain)) :
    grain ∣ nr + nr % grain := by
  have parts := Nat.div_add_mod nr grain
  have sum : nr + nr % grain = grain * (nr / grain) + 2 * (nr % grain) := by omega
  rw [sum]
  exact Nat.dvd_add (Nat.dvd_mul_right _ _) twice

theorem DynarrayStart.initFrombuff_tracks {mallocs : Mallocs}
    {elemSize allocGrain elemsNr : BitVec 64} {content : Nat → UInt8}
    (positive : 0 < elemSize.toNat) (grain : 0 < allocGrain.toNat)
    (fits : (initFrombuff elemSize allocGrain content elemsNr).Fits) :
    ReturnsOrExits (fun da => da.Tracks (initFrombuff elemSize allocGrain content elemsNr).elements)
      ((initFrombuff elemSize allocGrain content elemsNr).run mallocs) := by
  obtain ⟨multiple, last⟩ := fits
  have rest : (elemsNr % allocGrain).toNat = elemsNr.toNat % allocGrain.toNat := BitVec.toNat_umod
  unfold run DynarrayStore.dynarrayInitFrombuff DynarrayStore.realloc
  dsimp only
  split
  · split
    · have small : elemsNr.toNat + elemsNr.toNat % allocGrain.toNat < 2 ^ 64 :=
        Nat.lt_of_le_of_lt (Nat.le_mul_of_pos_left _ positive) last
      have number : (elemsNr + elemsNr % allocGrain).toNat =
          elemsNr.toNat + elemsNr.toNat % allocGrain.toNat := by
        rw [BitVec.toNat_add, rest, Nat.mod_eq_of_lt small]
      have size : (elemSize * (elemsNr + elemsNr % allocGrain)).toNat =
          elemSize.toNat * (elemsNr.toNat + elemsNr.toNat % allocGrain.toNat) := by
        rw [BitVec.toNat_mul, number, Nat.mod_eq_of_lt last]
      split
      · refine tracks_content ⟨positive, grain, ?_, ?_, ?_⟩ rfl ?_ fun k inside => ?_
        · rw [number]
          exact dvd_add_rem multiple
        · rw [number]
          exact last
        · rw [Buffer.length_realloc, size, number]
        · rw [number]
          exact Nat.le_add_right _ _
        · dsimp only at inside ⊢
          rw [Buffer.load_realloc, load_content inside]
          · simpa using inside
          · rw [size]
            exact Nat.lt_of_lt_of_le inside (Nat.mul_le_mul_left _ (Nat.le_add_right _ _))
      · rfl
    · next whole =>
        have zero : elemsNr.toNat % allocGrain.toNat = 0 := by
          rw [← rest, Decidable.not_not.mp whole]
          rfl
        rw [zero, Nat.add_zero] at last
        refine tracks_content ⟨positive, grain, Nat.dvd_of_mod_eq_zero zero, last, ?_⟩
          rfl (Nat.le_refl _)
          fun k inside => load_content inside
        simp
  · rfl

theorem DynarrayStart.run_tracks {mallocs : Mallocs} {start : DynarrayStart}
    (elemSize : 0 < start.elemSize.toNat) (grain : 0 < start.allocGrain.toNat) (fits : start.Fits) :
    ReturnsOrExits (fun da => da.Tracks start.elements) (start.run mallocs) := by
  cases start with
  | create => exact create_tracks elemSize grain fits
  | initFrombuff => exact initFrombuff_tracks elemSize grain fits

/-- As long as the process has not exited, the books are in order, if each step meets its
condition. -/
theorem dynarray_stays_in_order (mallocs : Mallocs) (start : DynarrayStart) (ops : List DynarrayOp)
    (elemSize : 0 < start.elemSize.toNat) (grain : 0 < start.allocGrain.toNat) (fits : start.Fits)
    (all : ∀ da, start.run mallocs = .ok da → DynarrayOp.AllFit mallocs ops da) :
    StaysInOrder mallocs start ops := by
  have first : ReturnsOrExits (fun da => da.Tracks start.elements) (start.run mallocs) :=
    DynarrayStart.run_tracks elemSize grain fits
  rw [StaysInOrder, runDynarray]
  cases run : start.run mallocs with
  | ok da =>
      rw [run] at first
      exact (DynarrayOp.steps_tracks first (all da run)).imp fun da' tracks => tracks.inOrder
  | error stop =>
      rw [run] at first
      exact first

theorem dynarray_stays_in_order_four :
    StaysInOrder (fun _ _ => true) (.create 2 1) [.alloc, .write 0 fun _ => 7, .alloc, .dealloc] :=
  dynarray_stays_in_order _ _ _ (by decide) (by decide) (by unfold DynarrayStart.Fits; decide)
    fun da created => by
    cases created
    refine ⟨?_, fun da run => ?_⟩
    · unfold DynarrayOp.Fits
      decide
    cases run
    refine ⟨trivial, fun da run => ?_⟩
    cases run
    refine ⟨?_, fun da run => ?_⟩
    · unfold DynarrayOp.Fits
      decide
    cases run
    refine ⟨?_, fun da run => trivial⟩
    unfold DynarrayOp.Fits
    decide

/-- `dynarray_dealloc` on an empty array leaves its size at the largest word. -/
theorem dynarrayDealloc_empty :
    ¬ ∀ (mallocs : Mallocs) (start : DynarrayStart) (ops : List DynarrayOp),
      0 < start.elemSize.toNat →
      0 < start.allocGrain.toNat → StaysInOrder mallocs start ops := by
  intro inOrder
  have books := inOrder (fun _ _ => true) (.create 1 1) [.dealloc] (by decide) (by decide)
  have nextLe : (0#64 - 1) ≤ 1#64 := books.nextLe
  exact absurd nextLe (by decide)

end BachScheduler
