import BachScheduler.HashStore
import Mathlib

/-!
# Runs of hash table operations

The hash table is a finite map: any sequence of operations on a new table replies as the map
does, and the chains hold exactly the entries of the map.  The one exception is `hash_swap`,
which keeps buckets in an `int`.
-/

namespace BachScheduler

open Chain

/-- One call of an operation of `hash.h`. -/
inductive HashOp where
  | insert (key val : BitVec 64)
  | lookup (key : BitVec 64)
  | delete (key : BitVec 64)
  | swap (key1 key2 : BitVec 64)

/-- What a call returns. -/
inductive HashReply where
  | nothing
  | val (val : BitVec 64)
  | status (status : Int)
  deriving DecidableEq

/-- A finite map from keys to values. -/
abbrev KeyMap := BitVec 64 → Option (BitVec 64)

namespace HashOp

/-- One operation on the table. -/
def step (allocator : Allocator) (store : HashStore) : HashOp → Option (HashStore × HashReply)
  | .insert key val => do
      let store ← store.hashInsert allocator key val
      some (store, .nothing)
  | .lookup key => do
      let val ← store.hashLookup key
      some (store, .val val)
  | .delete key => do
      let (store, val) ← store.hashDelete key
      some (store, .val val)
  | .swap key1 key2 => do
      let (store, status) ← store.hashSwap key1 key2
      some (store, .status status)

/-- A sequence of operations on the table. -/
def steps (allocator : Allocator) : List HashOp → HashStore → Option (HashStore × List HashReply)
  | [], store => some (store, [])
  | op :: ops, store => do
      let (store, reply) ← op.step allocator store
      let (store, replies) ← steps allocator ops store
      some (store, reply :: replies)

/-- One operation on the map. -/
def apply (map : KeyMap) : HashOp → KeyMap × HashReply
  | .insert key val => (Function.update map key (some val), .nothing)
  | .lookup key => (map, .val ((map key).getD hashEntryNotfound))
  | .delete key => (Function.update map key none, .val ((map key).getD hashEntryNotfound))
  | .swap key1 key2 =>
      match map key1, map key2 with
      | some val1, some val2 =>
          (Function.update (Function.update map key1 (some val2)) key2 (some val1), .status 0)
      | _, _ => (map, .status (-1))

/-- A sequence of operations on the map. -/
def applyAll : List HashOp → KeyMap → KeyMap × List HashReply
  | [], map => (map, [])
  | op :: ops, map =>
      let (map, reply) := op.apply map
      let (map, replies) := applyAll ops map
      (map, reply :: replies)

/-- The buckets that a swap looks into fit into an `int`. -/
def Fits (size : Nat) (map : KeyMap) : HashOp → Prop
  | .swap key1 key2 => key1.toNat % size < 2 ^ 31 ∧ (map key1 ≠ none → key2.toNat % size < 2 ^ 31)
  | _ => True

/-- So they do for each swap of a sequence. -/
def AllFit (size : Nat) : List HashOp → KeyMap → Prop
  | [], _ => True
  | op :: ops, map => op.Fits size map ∧ AllFit size ops (op.apply map).1

end HashOp

/-- The chains of the table hold the entries of the map: each key once, and in its bucket. -/
structure HashStore.Holds (store : HashStore) (nodes : Nat → List Nat) (map : KeyMap) : Prop where
  chained : ∀ bucket < store.size.toNat, Chained store.next (store.table bucket) (nodes bucket)
  inBucket : ∀ bucket, ∀ curr ∈ nodes bucket, (store.hashFn (store.mem curr).key).toNat = bucket
  nodup : ∀ bucket, (nodes bucket).Nodup
  once : ∀ bucket, ∀ curr ∈ nodes bucket, ∀ bucket', ∀ other ∈ nodes bucket',
    (store.mem curr).key = (store.mem other).key → curr = other
  holds : ∀ key val, map key = some val ↔
    ∃ bucket < store.size.toNat, ∃ curr ∈ nodes bucket, (store.mem curr).key = key ∧
      (store.mem curr).val = val
  live : ∀ curr, curr ∈ store.live ↔ ∃ bucket < store.size.toNat, curr ∈ nodes bucket

/-- The operations on a new table reply as those on an empty map, and leave its entries. -/
def BehavesAsMap (allocator : Allocator) (size : BitVec 32) (ops : List HashOp) : Prop :=
  ∃ store nodes, HashOp.steps allocator ops (.hashInit size) =
    some (store, (HashOp.applyAll ops fun _ => none).2) ∧
    store.Holds nodes (HashOp.applyAll ops fun _ => none).1

section Runs

variable {allocator : Allocator} {store : HashStore} {nodes : Nat → List Nat}
    {hash : Hash (BitVec 64)}
variable {map : KeyMap} {ops : List HashOp}

/-- The map shows the values that the chains have for its keys. -/
def MapOf (hash : Hash (BitVec 64)) (map : KeyMap) : Prop :=
  ∀ key : BitVec 64, map key = hashLookup hash key.toNat

theorem MapOf.insert (mapOf : MapOf hash map) (key val : BitVec 64) :
    MapOf (hashInsert hash key.toNat val) (Function.update map key (some val)) := by
  intro other
  rw [hashLookup_insert, Function.update_apply, mapOf other]
  simp only [BitVec.toNat_inj]

theorem MapOf.delete (mapOf : MapOf hash map) (key : BitVec 64) :
    MapOf (hashDelete hash key.toNat).2 (Function.update map key none) := by
  intro other
  rw [hashLookup_delete, Function.update_apply, mapOf other]
  simp only [BitVec.toNat_inj]

/-- A swap of the table is a swap of the map. -/
theorem MapOf.swap (mapOf : MapOf hash map) (key1 key2 : BitVec 64) :
    (HashOp.apply map (.swap key1 key2)).2 = .status (hashSwap hash key1.toNat key2.toNat).2 ∧
      MapOf (hashSwap hash key1.toNat key2.toNat).1 (HashOp.apply map (.swap key1 key2)).1 := by
  have first := mapOf key1
  have second := mapOf key2
  rw [HashOp.apply, hashSwap]
  cases found1 : hashLookup hash key1.toNat with
  | none =>
      rw [found1] at first
      rw [first]
      exact ⟨rfl, mapOf⟩
  | some val1 =>
      rw [found1] at first
      cases found2 : hashLookup hash key2.toNat with
      | none =>
          rw [found2] at second
          rw [first, second]
          exact ⟨rfl, mapOf⟩
      | some val2 =>
          rw [found2] at second
          rw [first, second]
          exact ⟨rfl, (mapOf.insert key1 val2).insert key2 val1⟩

/-- One operation replies as the map does, and so do the ones after it. -/
theorem step_refines (rep : Represents store nodes hash) (positive : store.size ≠ 0)
    (mapOf : MapOf hash map) (op : HashOp) (fits : op.Fits store.size.toNat map) :
    ∃ store' nodes' hash', op.step allocator store = some (store', (op.apply map).2) ∧
      store'.size = store.size ∧ Represents store' nodes' hash' ∧ MapOf hash' (op.apply map).1 := by
  cases op with
  | insert key val =>
      obtain ⟨store', nodes', run, size, rep'⟩ := hashInsert_refines rep positive allocator key val
      refine ⟨store', nodes', _, ?_, size, rep', mapOf.insert key val⟩
      rw [HashOp.step, run]
      rfl
  | lookup key =>
      refine ⟨store, nodes, hash, ?_, rfl, rep, mapOf⟩
      rw [HashOp.step, hashLookup_refines rep positive key, HashOp.apply, mapOf key]
      rfl
  | delete key =>
      obtain ⟨store', nodes', run, size, rep'⟩ := hashDelete_refines rep positive key
      refine ⟨store', nodes', _, ?_, size, rep', mapOf.delete key⟩
      rw [HashOp.step, run, HashOp.apply, mapOf key]
      rfl
  | swap key1 key2 =>
      obtain ⟨reply, mapOf'⟩ := mapOf.swap key1 key2
      obtain ⟨inside, inside'⟩ := fits
      rw [← rep.size] at inside inside'
      rw [mapOf key1] at inside'
      obtain ⟨store', run, size, rep'⟩ := hashSwap_refines rep positive inside inside'
      refine ⟨store', nodes, _, ?_, size, rep', mapOf'⟩
      rw [HashOp.step, run, reply]
      rfl

/-- A swap whose buckets do not fit leaves the table. -/
theorem step_outside (rep : Represents store nodes hash) (positive : store.size ≠ 0)
    (mapOf : MapOf hash map) (op : HashOp) (fits : ¬ op.Fits store.size.toNat map) :
    op.step allocator store = none := by
  cases op with
  | swap key1 key2 =>
      rw [HashOp.Fits, mapOf key1, ← rep.size] at fits
      rw [HashOp.step, hashSwap_outside rep positive fits]
      rfl
  | insert key val => exact absurd trivial fits
  | lookup key => exact absurd trivial fits
  | delete key => exact absurd trivial fits

/-- The chains hold the entries of the map that they show. -/
theorem Represents.holds (rep : Represents store nodes hash) (positive : store.size ≠ 0)
    (mapOf : MapOf hash map) : store.Holds nodes map := by
  have inTable {bucket curr : Nat} (member : curr ∈ nodes bucket) : bucket < store.size.toNat := by
    rw [← rep.bucket_eq member]
    exact (HashStore.bucket_eq positive).2
  refine ⟨fun bucket _ => rep.chained bucket, fun bucket curr member => ?_, fun bucket =>
    (rep.nodup bucket).2,
    fun bucket curr member bucket' other among same => ?_, fun key val => ?_, fun curr => ?_⟩
  · rw [HashStore.toNat_hashFn]
    exact rep.bucket_eq member
  · have equal : bucket' = bucket := by rw [← rep.bucket_eq member, ← rep.bucket_eq among, same]
    exact rep.key_inj member (equal ▸ among) same
  · rw [mapOf key]
    rcases rep.walk_cases key with ⟨node, member, here, -, -, -, found⟩ | ⟨absent, -, notFound⟩
    · rw [found, Option.some_inj]
      constructor
      · rintro rfl
        exact ⟨_, inTable member, node, member, here, rfl⟩
      · rintro ⟨bucket, -, curr, among, here', rfl⟩
        have equal : bucket = hashFn hash key.toNat := by
          rw [← rep.bucket_eq among, ← rep.bucket_eq member, here, here']
        rw [rep.key_inj member (equal ▸ among) (here.trans here'.symm)]
    · rw [notFound]
      refine iff_of_false (by simp) ?_
      rintro ⟨bucket, -, curr, among, here, -⟩
      have equal : bucket = hashFn hash key.toNat := by
        rw [← rep.bucket_eq among, here, hashFn, rep.size]
      exact absent curr (equal ▸ among) here
  · rw [rep.live]
    constructor
    · rintro ⟨bucket, member⟩
      exact ⟨bucket, inTable member, member⟩
    · rintro ⟨bucket, -, member⟩
      exact ⟨bucket, member⟩

/-- From any state on, a sequence of operations replies as the map does exactly if its swaps fit. -/
theorem steps_iff (rep : Represents store nodes hash) (positive : store.size ≠ 0)
    (mapOf : MapOf hash map) : (∃ store' nodes', HashOp.steps allocator ops store =
      some (store', (HashOp.applyAll ops map).2) ∧
        store'.Holds nodes' (HashOp.applyAll ops map).1) ↔
          HashOp.AllFit store.size.toNat ops map := by
  induction ops generalizing store nodes hash map with
  | nil => exact ⟨fun _ => trivial, fun _ => ⟨store, nodes, rfl, rep.holds positive mapOf⟩⟩
  | cons op ops ih =>
      rw [HashOp.AllFit, HashOp.steps]
      by_cases fits : op.Fits store.size.toNat map
      · obtain ⟨store₁, nodes₁, hash₁, run, size, rep₁, mapOf₁⟩ :=
          @step_refines allocator _ _ _ _ rep positive mapOf op fits
        rw [and_iff_right fits, ← size, ← ih rep₁ (size ▸ positive) mapOf₁, run]
        simp only [bind, Option.bind, HashOp.applyAll]
        cases HashOp.steps allocator ops store₁ with
        | none => simp
        | some result => simp only [Option.some_inj, Prod.ext_iff, List.cons_inj_right]
      · rw [step_outside rep positive mapOf op fits]
        refine iff_of_false ?_ fun both => fits both.1
        rintro ⟨store', nodes', run, -⟩
        contradiction

/-- The table behaves as a map exactly if every swap looks into buckets that fit into an `int`. -/
theorem hash_behaves_as_map_iff (allocator : Allocator) (size : BitVec 32) (positive : size ≠ 0)
    (ops : List HashOp) :
    BehavesAsMap allocator size ops ↔ HashOp.AllFit size.toNat ops fun _ => none :=
  steps_iff (hashInit_represents size) positive fun _ => rfl

/-- An allocator that takes the first address above all others. -/
def Allocator.above : Allocator where
  malloc _ live := live.sup id + 1
  fresh _ live member := by
    have below : live.sup id + 1 ≤ live.sup id := Finset.le_sup (f := id) member
    omega
  nonnull _ _ := Nat.succ_ne_zero _

theorem hash_behaves_as_map_two :
    BehavesAsMap .above 2 [.insert 1 10, .insert 3 30, .swap 1 3, .delete 1, .lookup 3] :=
  (hash_behaves_as_map_iff .above 2 (by decide) _).mpr (by simp [HashOp.AllFit, HashOp.Fits])

/-- The bucket 2^31 is negative as an `int`. -/
theorem hashSwap_negative :
    ¬ ∀ (allocator : Allocator) (size : BitVec 32) (ops : List HashOp), size ≠ 0 →
    BehavesAsMap allocator size ops := by
  intro behaves
  obtain ⟨store, nodes, run, -⟩ :=
    behaves .above 0x80000001#32 [.swap 0x80000000#64 0#64] (by decide)
  have outside : HashOp.steps .above [.swap 0x80000000#64 0#64] (.hashInit 0x80000001#32) =
      none := by rfl
  rw [outside] at run
  contradiction

end Runs

end BachScheduler
