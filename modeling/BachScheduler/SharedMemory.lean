import BachScheduler.Lib.Bytes
import BachScheduler.State

/-!
# The shared memory of a program

The executor and the hooks in a program share a page.  Each value in it has its place, and
both sides read and write it by accessors that take the place as an offset.
-/

namespace BachScheduler

open Bytes

/-- `AFF_SHM_SIZE`. -/
def affShmSize : Nat := 4096

/-- `CACHE_LINE_SIZE`. -/
def cacheLineSize : Nat := 64

section Offsets

/-- `sizeof(uint32_t)`. -/
def sizeofUint32 : Nat := 4

/-- `sizeof(unsigned long)`. -/
def sizeofUl : Nat := 8

def fdAppOff : Nat := 0
def fdExecutorOff : Nat := fdAppOff + sizeofUint32
def cpusArchOff : Nat := fdExecutorOff + sizeofUint32
def cpusAssignedOff : Nat := cpusArchOff + sizeofUint32
def appHandlerOff : Nat := cpusAssignedOff + sizeofUint32
def appPidOff : Nat := appHandlerOff + sizeofUl
def executorEndOff : Nat := appPidOff + sizeofUint32
def cpusRequestedOff : Nat := cacheLineSize

end Offsets

section Accessors

def affShmSetUint32 (shm : Memory) (x : Word32) (offset : Nat) : Memory := store shm offset x

def affShmGetUint32 (shm : Memory) (offset : Nat) : Word32 := load 32 shm offset

def affShmSetUl (shm : Memory) (x : Word64) (offset : Nat) : Memory := store shm offset x

def affShmGetUl (shm : Memory) (offset : Nat) : Word64 := load 64 shm offset

def affShmSetFdApp (shm : Memory) (x : Word32) : Memory := affShmSetUint32 shm x fdAppOff

def affShmGetFdApp (shm : Memory) : Word32 := affShmGetUint32 shm fdAppOff

def affShmSetFdExecutor (shm : Memory) (x : Word32) : Memory := affShmSetUint32 shm x fdExecutorOff

def affShmGetFdExecutor (shm : Memory) : Word32 := affShmGetUint32 shm fdExecutorOff

def affShmSetCpusArch (shm : Memory) (x : Word32) : Memory := affShmSetUint32 shm x cpusArchOff

def affShmGetCpusArch (shm : Memory) : Word32 := affShmGetUint32 shm cpusArchOff

def affShmSetCpusAssigned (shm : Memory) (x : Word32) :
    Memory := affShmSetUint32 shm x cpusAssignedOff

def affShmGetCpusAssigned (shm : Memory) : Word32 := affShmGetUint32 shm cpusAssignedOff

def affShmSetAppHandler (shm : Memory) (x : Word64) : Memory := affShmSetUl shm x appHandlerOff

def affShmGetAppHandler (shm : Memory) : Word64 := affShmGetUl shm appHandlerOff

def affShmSetCpusRequested (shm : Memory) (x : Word32) :
    Memory := affShmSetUint32 shm x cpusRequestedOff

def affShmGetCpusRequested (shm : Memory) : Word32 := affShmGetUint32 shm cpusRequestedOff

def affShmSetAppPid (shm : Memory) (x : Word32) : Memory := affShmSetUint32 shm x appPidOff

def affShmGetAppPid (shm : Memory) : Word32 := affShmGetUint32 shm appPidOff

end Accessors

/-- What is in the shared memory, as both sides see it. -/
@[ext] structure ShmView where
  fdApp : Word32
  fdExecutor : Word32
  cpusArch : Word32
  cpusAssigned : Word32
  appHandler : Word64
  appPid : Word32
  cpusRequested : Word32
  deriving DecidableEq, Repr

/-- Everything that the accessors find. -/
def shmView (shm : Memory) : ShmView where
  fdApp := affShmGetFdApp shm
  fdExecutor := affShmGetFdExecutor shm
  cpusArch := affShmGetCpusArch shm
  cpusAssigned := affShmGetCpusAssigned shm
  appHandler := affShmGetAppHandler shm
  appPid := affShmGetAppPid shm
  cpusRequested := affShmGetCpusRequested shm

section View

variable (shm : Memory)

@[simp] theorem affShmGetFdApp_eq : affShmGetFdApp shm = (shmView shm).fdApp := rfl
@[simp] theorem affShmGetFdExecutor_eq : affShmGetFdExecutor shm = (shmView shm).fdExecutor := rfl
@[simp] theorem affShmGetCpusArch_eq : affShmGetCpusArch shm = (shmView shm).cpusArch := rfl
@[simp] theorem affShmGetCpusAssigned_eq :
    affShmGetCpusAssigned shm = (shmView shm).cpusAssigned := rfl
@[simp] theorem affShmGetAppHandler_eq : affShmGetAppHandler shm = (shmView shm).appHandler := rfl
@[simp] theorem affShmGetAppPid_eq : affShmGetAppPid shm = (shmView shm).appPid := rfl
@[simp] theorem affShmGetCpusRequested_eq :
    affShmGetCpusRequested shm = (shmView shm).cpusRequested := rfl

end View

/-- The writes to the shared memory, by either side. -/
inductive ShmWrite where
  | fdApp (x : Word32)
  | fdExecutor (x : Word32)
  | cpusArch (x : Word32)
  | cpusAssigned (x : Word32)
  | appHandler (x : Word64)
  | appPid (x : Word32)
  | cpusRequested (x : Word32)
  deriving DecidableEq, Repr

namespace ShmWrite

/-- The call of the accessor. -/
def run : ShmWrite → Memory → Memory
  | .fdApp x, shm => affShmSetFdApp shm x
  | .fdExecutor x, shm => affShmSetFdExecutor shm x
  | .cpusArch x, shm => affShmSetCpusArch shm x
  | .cpusAssigned x, shm => affShmSetCpusAssigned shm x
  | .appHandler x, shm => affShmSetAppHandler shm x
  | .appPid x, shm => affShmSetAppPid shm x
  | .cpusRequested x, shm => affShmSetCpusRequested shm x

/-- What a write is meant to do. -/
def apply : ShmWrite → ShmView → ShmView
  | .fdApp x, shown => { shown with fdApp := x }
  | .fdExecutor x, shown => { shown with fdExecutor := x }
  | .cpusArch x, shown => { shown with cpusArch := x }
  | .cpusAssigned x, shown => { shown with cpusAssigned := x }
  | .appHandler x, shown => { shown with appHandler := x }
  | .appPid x, shown => { shown with appPid := x }
  | .cpusRequested x, shown => { shown with cpusRequested := x }

/-- Where a write goes, and how many bytes it has. -/
def place : ShmWrite → Nat × Nat
  | .fdApp _ => (fdAppOff, sizeofUint32)
  | .fdExecutor _ => (fdExecutorOff, sizeofUint32)
  | .cpusArch _ => (cpusArchOff, sizeofUint32)
  | .cpusAssigned _ => (cpusAssignedOff, sizeofUint32)
  | .appHandler _ => (appHandlerOff, sizeofUl)
  | .appPid _ => (appPidOff, sizeofUint32)
  | .cpusRequested _ => (cpusRequestedOff, sizeofUint32)

end ShmWrite

section Views

variable {shm : Memory} {w : Nat} {pos offset : Nat}

/-- A 32-bit value that is not at the place of a write stays. -/
theorem getUint32_apart (x : BitVec w) (apart : pos + w / 8 ≤ offset ∨ offset + 4 ≤ pos) :
    affShmGetUint32 (store shm pos x) offset = affShmGetUint32 shm offset :=
  load_store_apart x apart

theorem getUl_apart (x : BitVec w) (apart : pos + w / 8 ≤ offset ∨ offset + 8 ≤ pos) :
    affShmGetUl (store shm pos x) offset = affShmGetUl shm offset :=
  load_store_apart x apart

theorem getUint32_set (x : Word32) : affShmGetUint32 (store shm offset x) offset = x :=
  load_store (by decide) x

theorem getUl_set (x : Word64) : affShmGetUl (store shm offset x) offset = x :=
  load_store (by decide) x

/-- Each accessor changes its own value and no other. -/
theorem shmView_run (write : ShmWrite) (shm : Memory) :
    shmView (write.run shm) = write.apply (shmView shm) := by
  cases write <;> ext1 <;>
    simp (disch := decide)
      only [shmView, ShmWrite.run, ShmWrite.apply, affShmSetFdApp, affShmGetFdApp,
        affShmSetFdExecutor, affShmGetFdExecutor, affShmSetCpusArch, affShmGetCpusArch,
          affShmSetCpusAssigned, affShmGetCpusAssigned, affShmSetAppHandler, affShmGetAppHandler,
            affShmSetAppPid, affShmGetAppPid,
      affShmSetCpusRequested, affShmGetCpusRequested, affShmSetUint32, affShmSetUl,
        getUint32_set, getUl_set,
      getUint32_apart, getUl_apart]

@[simp] theorem shmView_setFdApp (shm : Memory) (x : Word32) :
    shmView (affShmSetFdApp shm x) = { shmView shm with fdApp := x } := shmView_run (.fdApp x) shm

@[simp] theorem shmView_setFdExecutor (shm : Memory) (x : Word32) :
    shmView (affShmSetFdExecutor shm x) = { shmView shm with fdExecutor := x } :=
  shmView_run (.fdExecutor x) shm

@[simp] theorem shmView_setCpusArch (shm : Memory) (x : Word32) :
    shmView (affShmSetCpusArch shm x) = { shmView shm with cpusArch := x } :=
  shmView_run (.cpusArch x) shm

@[simp] theorem shmView_setCpusAssigned (shm : Memory) (x : Word32) :
    shmView (affShmSetCpusAssigned shm x) = { shmView shm with cpusAssigned := x } :=
  shmView_run (.cpusAssigned x) shm

@[simp] theorem shmView_setAppHandler (shm : Memory) (x : Word64) :
    shmView (affShmSetAppHandler shm x) = { shmView shm with appHandler := x } :=
  shmView_run (.appHandler x) shm

@[simp] theorem shmView_setAppPid (shm : Memory) (x : Word32) :
    shmView (affShmSetAppPid shm x) = { shmView shm with appPid := x } :=
  shmView_run (.appPid x) shm

@[simp] theorem shmView_setCpusRequested (shm : Memory) (x : Word32) :
    shmView (affShmSetCpusRequested shm x) = { shmView shm with cpusRequested := x } :=
  shmView_run (.cpusRequested x) shm

/-- A write stays within its place. -/
theorem run_outside (write : ShmWrite) (shm : Memory) {k : Nat}
    (outside : k < write.place.1 ∨ write.place.1 + write.place.2 ≤ k) :
    write.run shm k = shm k := by
  cases write <;> exact store_outside _ outside

/-- Every place lies in the page, and those of the executor lie in its first cache line. -/
theorem place_le (write : ShmWrite) : write.place.1 + write.place.2 ≤ affShmSize ∧
    ((∀ x, write ≠ .cpusRequested x) → write.place.1 + write.place.2 ≤ cacheLineSize) := by
  have inPage : write.place.1 + write.place.2 ≤ affShmSize := by
    cases write <;> simp only [ShmWrite.place] <;> decide
  refine ⟨inPage, fun own => ?_⟩
  cases write with
  | cpusRequested x => exact absurd rfl (own x)
  | _ =>
      simp only [ShmWrite.place]
      decide

/-- Whatever both sides write, in whatever order, the accessors show the last value of each kind,
the page is not left, and the value of the application has a cache line of its own. -/
theorem shm_shows_writes (writes : List ShmWrite) (shm : Memory) :
    shmView (writes.foldl (fun shm write => write.run shm) shm) =
        writes.foldl (fun shown write => write.apply shown) (shmView shm) ∧
      (∀ k, affShmSize ≤ k → writes.foldl (fun shm write => write.run shm) shm k = shm k) ∧
      ((∀ x, .cpusRequested x ∉ writes) → ∀ k, cacheLineSize ≤ k →
        writes.foldl (fun shm write => write.run shm) shm k = shm k) := by
  induction writes generalizing shm with
  | nil => exact ⟨rfl, fun _ _ => rfl, fun _ _ _ => rfl⟩
  | cons write later ih =>
      obtain ⟨shown, page, line⟩ := ih (write.run shm)
      refine ⟨?_, fun k behind => ?_, fun none k behind => ?_⟩
      · rw [List.foldl_cons, shown, shmView_run, List.foldl_cons]
      · rw [List.foldl_cons, page k behind]
        exact run_outside write shm (.inr ((place_le write).1.trans behind))
      · rw [List.foldl_cons, line (fun x member => none x (List.mem_cons_of_mem _ member)) k behind]
        have own : ∀ x, write ≠ .cpusRequested x := fun x same => none x (same ▸ List.mem_cons_self)
        exact run_outside write shm (.inr (((place_le write).2 own).trans behind))

end Views

end BachScheduler
