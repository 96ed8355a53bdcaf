import BachScheduler.Hash
import BachScheduler.Lib.Chained
import Mathlib.Data.BitVec
import Mathlib.Data.Finset.Card
import Mathlib.Data.Finset.Insert

/-!
# The entries of the hash table in memory

`hash.c` with its pointers: the table refers to the first entry of each chain, and the entries
to the next ones.  A use of memory that is not allocated, or of a bucket outside of the table,
is a fault.  The functions compute with chains what `Hash` says.
-/

namespace BachScheduler

open Chain

/-- `hash_entry_t`. -/
structure HashEntry where
  key : BitVec 64
  val : BitVec 64
  next : Nat

/-- What `malloc` may do: the addresses in use and the number of the call decide. -/
structure Allocator where
  malloc : Nat → Finset Nat → Nat
  fresh : ∀ n live, malloc n live ∉ live
  nonnull : ∀ n live, malloc n live ≠ 0

/-- `hash_t` and the memory of its entries; address 0 is `NULL`. -/
structure HashStore where
  size : BitVec 32
  table : Nat → Nat
  mem : Nat → HashEntry
  live : Finset Nat
  allocs : Nat

/-- `HASH_ENTRY_NOTFOUND`. -/
def hashEntryNotfound : BitVec 64 := ~~~0#64

namespace HashStore

section Operations

/-- `hash_init`. -/
def hashInit (size : BitVec 32) : HashStore where
  size := size
  table := fun _ => 0
  mem := fun _ => ⟨0, 0, 0⟩
  live := ∅
  allocs := 0

/-- `hash_fn`. -/
def hashFn (hash : HashStore) (key : BitVec 64) : BitVec 64 :=
  key % hash.size.setWidth 64

/-- The conversion to `unsigned int`. -/
def bucket (hash : HashStore) (key : BitVec 64) : Int :=
  ((hash.hashFn key).setWidth 32).toNat

/-- The conversion to `int`, in `hash_swap`. -/
def intBucket (hash : HashStore) (key : BitVec 64) : Int :=
  ((hash.hashFn key).setWidth 32).toInt

/-- `hash->table[bucket]`. -/
def tableAt (hash : HashStore) (bucket : Int) : Option Nat :=
  if 0 ≤ bucket ∧ bucket < hash.size.toNat then some (hash.table bucket.toNat) else none

/-- An entry that a pointer refers to. -/
def load (hash : HashStore) (curr : Nat) : Option HashEntry :=
  if curr ∈ hash.live then some (hash.mem curr) else none

/-- `curr->val = val`. -/
def setVal (hash : HashStore) (curr : Nat) (val : BitVec 64) : HashStore :=
  { hash with mem := Function.update hash.mem curr { hash.mem curr with val := val } }

/-- `prev->next = next`. -/
def setNext (hash : HashStore) (prev next : Nat) : HashStore :=
  { hash with mem := Function.update hash.mem prev { hash.mem prev with next := next } }

/-- The walk to the entry of a key, or to `NULL`. -/
def walk (hash : HashStore) (key : BitVec 64) : Nat → Nat → Option Nat
  | 0, _ => none
  | fuel + 1, curr =>
      if curr = 0 then
        some 0
      else do
        let entry ← hash.load curr
        if entry.key = key then some curr else hash.walk key fuel entry.next

/-- The walk of `hash_delete`, which remembers the entry before. -/
def walkPrev (hash : HashStore) (key : BitVec 64) : Nat → Nat → Nat → Option (Nat × Nat)
  | 0, _, _ => none
  | fuel + 1, prev, curr =>
      if curr = 0 then
        some (prev, 0)
      else do
        let entry ← hash.load curr
        if entry.key = key then some (prev, curr) else hash.walkPrev key fuel curr entry.next

/-- No chain is longer than the memory in use. -/
def rounds (hash : HashStore) : Nat := hash.live.card + 1

/-- `hash_insert`. -/
def hashInsert (allocator : Allocator) (hash : HashStore) (key val : BitVec 64) :
    Option HashStore := do
  let bucket := hash.bucket key
  let head ← hash.tableAt bucket
  let curr ← hash.walk key hash.rounds head
  if curr ≠ 0 then
    some (hash.setVal curr val)
  else
    let newEntry := allocator.malloc hash.allocs hash.live
    some { hash with
      table := Function.update hash.table bucket.toNat newEntry
      mem := Function.update hash.mem newEntry ⟨key, val, head⟩
      live := insert newEntry hash.live
      allocs := hash.allocs + 1 }

/-- `hash_lookup`. -/
def hashLookup (hash : HashStore) (key : BitVec 64) : Option (BitVec 64) := do
  let head ← hash.tableAt (hash.bucket key)
  let curr ← hash.walk key hash.rounds head
  if curr = 0 then
    some hashEntryNotfound
  else do
    let entry ← hash.load curr
    some entry.val

/-- `hash_delete`. -/
def hashDelete (hash : HashStore) (key : BitVec 64) : Option (HashStore × BitVec 64) := do
  let bucket := hash.bucket key
  let head ← hash.tableAt bucket
  let (prev, curr) ← hash.walkPrev key hash.rounds head head
  if curr = 0 then
    some (hash, hashEntryNotfound)
  else do
    let entry ← hash.load curr
    let hash ←
      if curr = head then
        some { hash with table := Function.update hash.table bucket.toNat entry.next }
      else do
        let _ ← hash.load prev
        some (hash.setNext prev entry.next)
    some ({ hash with live := hash.live.erase curr }, entry.val)

/-- `hash_swap`. -/
def hashSwap (hash : HashStore) (key1 key2 : BitVec 64) : Option (HashStore × Int) := do
  let head1 ← hash.tableAt (hash.intBucket key1)
  let entry1 ← hash.walk key1 hash.rounds head1
  if entry1 = 0 then
    some (hash, -1)
  else do
    let head2 ← hash.tableAt (hash.intBucket key2)
    let entry2 ← hash.walk key2 hash.rounds head2
    if entry2 = 0 then
      some (hash, -1)
    else do
      let tmp ← hash.load entry1
      let other ← hash.load entry2
      let hash := hash.setVal entry1 other.val
      some (hash.setVal entry2 tmp.val, 0)

end Operations

/-- The successor of each entry. -/
def next (hash : HashStore) (curr : Nat) : Nat := (hash.mem curr).next

/-- The key and the value of an entry. -/
def entry (hash : HashStore) (curr : Nat) :
    Nat × BitVec 64 := ((hash.mem curr).key.toNat, (hash.mem curr).val)

end HashStore

/-- `hash_swap` on the chains, with its status. -/
def hashSwap {β : Type} (hash : Hash β) (key1 key2 : Nat) : Hash β × Int :=
  match hashLookup hash key1, hashLookup hash key2 with
  | some val1, some val2 => (hashInsert (hashInsert hash key1 val2) key2 val1, 0)
  | _, _ => (hash, -1)

/-- Each key of the table is in its bucket. -/
def Hash.Hashed {β : Type} (hash : Hash β) : Prop :=
  ∀ bucket, ∀ entry ∈ hash.table bucket, hashFn hash entry.1 = bucket

/-- The memory stores the chains of `hash`: `nodes` are their entries, and no others are in use. -/
structure Represents (store : HashStore) (nodes : Nat → List Nat) (hash : Hash (BitVec 64)) :
    Prop where
  size : hash.size = store.size.toNat
  chained : ∀ bucket, Chained store.next (store.table bucket) (nodes bucket)
  live : ∀ curr, curr ∈ store.live ↔ ∃ bucket, curr ∈ nodes bucket
  entries : ∀ bucket, (nodes bucket).map store.entry = hash.table bucket
  hashed : hash.Hashed

section Hashed

variable {β : Type} {hash : Hash β} {key : Nat} {val : β} {chain : List (Nat × β)}

theorem mem_chainInsert {entry : Nat × β} (member : entry ∈ chainInsert key val chain) :
    entry.1 = key ∨ entry ∈ chain := by
  unfold chainInsert at member
  split at member
  · obtain ⟨old, among, rfl⟩ := List.mem_map.mp member
    split
    · exact .inl rfl
    · exact .inr among
  · rcases List.mem_cons.mp member with rfl | among
    · exact .inl rfl
    · exact .inr among

theorem Hash.Hashed.insert (hashed : hash.Hashed) (key : Nat) (val : β) :
    (hashInsert hash key val).Hashed := by
  intro bucket entry member
  by_cases here : bucket = hashFn hash key
  · subst here
    simp only [hashInsert, Function.update_self] at member
    rcases mem_chainInsert member with same | old
    · exact congrArg (hashFn hash) same
    · exact hashed _ entry old
  · simp only [hashInsert, Function.update_of_ne here] at member
    exact hashed bucket entry member

theorem Hash.Hashed.delete (hashed : hash.Hashed) (key : Nat) : (hashDelete hash key).2.Hashed := by
  intro bucket entry member
  by_cases here : bucket = hashFn hash key
  · subst here
    simp only [hashDelete, Function.update_self] at member
    exact hashed _ entry (List.mem_of_mem_eraseP member)
  · simp only [hashDelete, Function.update_of_ne here] at member
    exact hashed bucket entry member

end Hashed

section Walks

variable {store : HashStore} {nodes : Nat → List Nat} {hash : Hash (BitVec 64)}
    {key val : BitVec 64}
variable {chain front back : List Nat} {curr prev node fuel : Nat}

/-- The walk finds the first entry of the key. -/
theorem HashStore.walk_eq (chained : Chained store.next curr chain)
    (live : ∀ node ∈ chain, node ∈ store.live) (enough : chain.length < fuel) :
    store.walk key fuel curr = some
      ((chain.find? fun node => (store.mem node).key = key).getD 0) := by
  induction chain generalizing curr fuel with
  | nil =>
      obtain ⟨fuel, rfl⟩ : ∃ n, fuel = n + 1 :=
        ⟨fuel - 1, by simp only [List.length_nil] at enough; omega⟩
      rw [Chained.nil_iff.mp chained, walk, if_pos rfl]
      rfl
  | cons node chain ih =>
      obtain ⟨fuel, rfl⟩ : ∃ n, fuel = n + 1 :=
        ⟨fuel - 1, by rw [List.length_cons] at enough; omega⟩
      obtain ⟨rfl, some_, rest⟩ := chained
      rw [List.forall_mem_cons] at live
      rw [List.length_cons] at enough
      rw [walk, if_neg some_, load, if_pos live.1]
      simp only [bind, Option.bind]
      by_cases here : (store.mem curr).key = key
      · rw [if_pos here, List.find?_cons_of_pos (by simpa using here)]
        rfl
      · rw [if_neg here, List.find?_cons_of_neg (by simpa using here)]
        exact ih rest live.2 (by omega)

/-- The walk of `hash_delete` that finds no entry. -/
theorem HashStore.walkPrev_none (chained : Chained store.next curr chain)
    (live : ∀ node ∈ chain, node ∈ store.live) (enough : chain.length < fuel)
    (absent : ∀ node ∈ chain, (store.mem node).key ≠ key) :
    ∃ last, store.walkPrev key fuel prev curr = some (last, 0) := by
  induction chain generalizing prev curr fuel with
  | nil =>
      obtain ⟨fuel, rfl⟩ : ∃ n, fuel = n + 1 :=
        ⟨fuel - 1, by simp only [List.length_nil] at enough; omega⟩
      exact ⟨prev, by rw [walkPrev, if_pos (Chained.nil_iff.mp chained)]⟩
  | cons node chain ih =>
      obtain ⟨fuel, rfl⟩ : ∃ n, fuel = n + 1 :=
        ⟨fuel - 1, by rw [List.length_cons] at enough; omega⟩
      obtain ⟨rfl, some_, rest⟩ := chained
      rw [List.forall_mem_cons] at live absent
      rw [List.length_cons] at enough
      rw [walkPrev, if_neg some_, load, if_pos live.1]
      simp only [bind, Option.bind, if_neg absent.1]
      exact ih rest live.2 (by omega) absent.2

/-- The walk of `hash_delete` that finds an entry, and the one before it. -/
theorem HashStore.walkPrev_some (chained : Chained store.next curr (front ++ node :: back))
    (live : ∀ other ∈ front ++ node :: back, other ∈ store.live)
    (enough : (front ++ node :: back).length < fuel)
    (before : ∀ other ∈ front, (store.mem other).key ≠ key) (here : (store.mem node).key = key) :
    store.walkPrev key fuel prev curr = some (front.getLast?.getD prev, node) := by
  induction front generalizing prev curr fuel with
  | nil =>
      obtain ⟨fuel, rfl⟩ : ∃ n, fuel = n + 1 := ⟨fuel - 1, by rw [List.nil_append] at enough; omega⟩
      obtain ⟨rfl, some_, -⟩ := chained
      rw [List.nil_append, List.forall_mem_cons] at live
      rw [walkPrev, if_neg some_, load, if_pos live.1]
      simp only [bind, Option.bind, if_pos here]
      rfl
  | cons first front ih =>
      rw [List.cons_append, List.length_cons] at enough
      obtain ⟨fuel, rfl⟩ : ∃ n, fuel = n + 1 := ⟨fuel - 1, by omega⟩
      obtain ⟨rfl, some_, rest⟩ := chained
      rw [List.cons_append, List.forall_mem_cons] at live
      rw [List.forall_mem_cons] at before
      rw [walkPrev, if_neg some_, load, if_pos live.1]
      simp only [bind, Option.bind, if_neg before.1]
      rw [List.getLast?_cons, Option.getD_some]
      exact ih rest live.2 (Nat.lt_of_succ_lt_succ enough) before.2

end Walks

section Buckets

variable {store : HashStore} {key : BitVec 64}

theorem HashStore.toNat_hashFn (store : HashStore) (key : BitVec 64) :
    (store.hashFn key).toNat = key.toNat % store.size.toNat := by
  have small := store.size.isLt
  rw [hashFn, BitVec.toNat_umod, BitVec.toNat_setWidth,
    Nat.mod_eq_of_lt (by omega : store.size.toNat < 2 ^ 64)]

theorem HashStore.bucket_eq (positive : store.size ≠ 0) :
    ((store.hashFn key).setWidth 32).toNat = key.toNat % store.size.toNat ∧
      key.toNat % store.size.toNat < store.size.toNat := by
  have small := store.size.isLt
  have some_ : 0 < store.size.toNat := by
    rcases Nat.eq_zero_or_pos store.size.toNat with zero | positive'
    · exact absurd (BitVec.eq_of_toNat_eq zero) positive
    · exact positive'
  have below := Nat.mod_lt key.toNat some_
  rw [BitVec.toNat_setWidth, toNat_hashFn]
  exact ⟨Nat.mod_eq_of_lt (by omega), below⟩

theorem HashStore.tableAt_bucket (positive : store.size ≠ 0) :
    store.tableAt (store.bucket key) = some (store.table (key.toNat % store.size.toNat)) := by
  obtain ⟨value, below⟩ := @bucket_eq _ key positive
  rw [tableAt, bucket, value, if_pos ⟨Int.natCast_nonneg _, Int.ofNat_lt.mpr below⟩,
    Int.toNat_natCast]

/-- As an `int`, the bucket is in the table unless it is too large. -/
theorem HashStore.tableAt_intBucket (positive : store.size ≠ 0) :
    store.tableAt (store.intBucket key) =
      if key.toNat % store.size.toNat < 2 ^ 31 then some
        (store.table (key.toNat % store.size.toNat))
      else none := by
  obtain ⟨value, below⟩ := @bucket_eq _ key positive
  have small := store.size.isLt
  rw [tableAt, intBucket, BitVec.toInt_eq_toNat_cond, value]
  by_cases fits : key.toNat % store.size.toNat < 2 ^ 31
  · have same : 2 * (key.toNat % store.size.toNat) < 2 ^ 32 := by omega
    rw [if_pos same, if_pos fits, if_pos ⟨Int.natCast_nonneg _, Int.ofNat_lt.mpr below⟩,
      Int.toNat_natCast]
  · have wraps : ¬ 2 * (key.toNat % store.size.toNat) < 2 ^ 32 := by omega
    rw [if_neg wraps, if_neg fits, if_neg (by omega)]

end Buckets

namespace Represents

variable {store : HashStore} {nodes : Nat → List Nat} {hash : Hash (BitVec 64)}
    {key val : BitVec 64}
variable {curr other bucket : Nat}

theorem nodup (rep : Represents store nodes hash) (bucket : Nat) :
    ((nodes bucket).map fun curr => (store.mem curr).key.toNat).Nodup ∧ (nodes bucket).Nodup := by
  have distinct := hash.distinct bucket
  rw [← rep.entries, List.map_map] at distinct
  exact ⟨distinct, distinct.of_map⟩

theorem bucket_eq (rep : Represents store nodes hash) (member : curr ∈ nodes bucket) :
    (store.mem curr).key.toNat % store.size.toNat = bucket := by
  have among : store.entry curr ∈ hash.table bucket := by
    rw [← rep.entries]
    exact List.mem_map_of_mem member
  have inBucket := rep.hashed bucket _ among
  rwa [hashFn, rep.size] at inBucket

theorem key_inj (rep : Represents store nodes hash) (member : curr ∈ nodes bucket)
    (among : other ∈ nodes bucket) (same : (store.mem curr).key = (store.mem other).key) :
    curr = other :=
  List.inj_on_of_nodup_map (rep.nodup bucket).1 member among (congrArg BitVec.toNat same)

theorem length_lt (rep : Represents store nodes hash) (bucket : Nat) :
    (nodes bucket).length < store.rounds := by
  have inside : (nodes bucket).toFinset ⊆ store.live := by
    intro curr member
    exact (rep.live curr).mpr ⟨bucket, List.mem_toFinset.mp member⟩
  have card := Finset.card_le_card inside
  rw [List.toFinset_card_of_nodup (rep.nodup bucket).2] at card
  exact Nat.lt_succ_of_le card

theorem lookup_entries (store : HashStore) (key : BitVec 64) (chain : List Nat) :
    (chain.map store.entry).lookup key.toNat =
      (chain.find? fun node => (store.mem node).key = key).map fun node =>
      (store.mem node).val := by
  induction chain with
  | nil => rfl
  | cons node chain ih =>
      rw [List.map_cons, lookup_cons_eq, ih]
      by_cases here : (store.mem node).key = key
      · rw [List.find?_cons_of_pos (by simpa using here), if_pos (by rw [HashStore.entry, here])]
        rfl
      · have differs : key.toNat ≠ (store.entry node).1 := fun same =>
          here (BitVec.eq_of_toNat_eq same.symm)
        rw [List.find?_cons_of_neg (by simpa using here), if_neg differs]

/-- The walk finds the entry of a key that the table holds. -/
theorem walk_cases (rep : Represents store nodes hash) (key : BitVec 64) :
    (∃ node ∈ nodes (hashFn hash key.toNat), (store.mem node).key = key ∧ node ≠ 0 ∧
      node ∈ store.live ∧
        store.walk key store.rounds (store.table (hashFn hash key.toNat)) = some node ∧
        hashLookup hash key.toNat = some (store.mem node).val) ∨
      (∀ node ∈ nodes (hashFn hash key.toNat), (store.mem node).key ≠ key) ∧
        store.walk key store.rounds (store.table (hashFn hash key.toNat)) = some 0 ∧
        hashLookup hash key.toNat = none := by
  have walk : store.walk key store.rounds (store.table (hashFn hash key.toNat)) = _ :=
    HashStore.walk_eq (rep.chained _) (fun node member => (rep.live node).mpr ⟨_, member⟩)
      (rep.length_lt _)
  have lookup := lookup_entries store key (nodes (hashFn hash key.toNat))
  rw [rep.entries] at lookup
  rw [hashLookup, lookup, walk]
  cases found : (nodes (hashFn hash key.toNat)).find? fun node => (store.mem node).key = key with
  | none =>
      refine .inr ⟨fun node member => ?_, rfl, rfl⟩
      simpa using List.find?_eq_none.mp found node member
  | some node =>
      have member := List.mem_of_find?_eq_some found
      have here : (store.mem node).key = key := by simpa using List.find?_some found
      exact .inl ⟨node, member, here, (rep.chained _).ne_zero node member,
        (rep.live node).mpr ⟨_, member⟩, rfl, rfl⟩

/-- The entry of a key that is there gets a new value. -/
theorem setVal (rep : Represents store nodes hash) (member : curr ∈ nodes (hashFn hash key.toNat))
    (here : (store.mem curr).key = key) (val : BitVec 64) :
    Represents (store.setVal curr val) nodes (hashInsert hash key.toNat val) where
  size := rep.size
  chained bucket := by
    refine (rep.chained bucket).congr fun node _ => ?_
    by_cases same : node = curr
    · subst same
      simp only [HashStore.next, HashStore.setVal, Function.update_self]
    · simp only [HashStore.next, HashStore.setVal, Function.update_of_ne same]
  live := rep.live
  entries bucket := by
    have other (node : Nat) (differs : node ≠ curr) :
        (store.setVal curr val).entry node = store.entry node := by
      simp only [HashStore.entry, HashStore.setVal, Function.update_of_ne differs]
    by_cases inBucket : bucket = hashFn hash key.toNat
    · have known : key.toNat ∈ (hash.table bucket).map Prod.fst := by
        rw [← rep.entries, List.map_map, inBucket]
        exact List.mem_map.mpr ⟨curr, member, congrArg BitVec.toNat here⟩
      simp only [hashInsert, ← inBucket, Function.update_self]
      rw [chainInsert, if_pos known, ← rep.entries, List.map_map]
      refine List.map_congr_left fun node among => ?_
      by_cases same : node = curr
      · subst same
        simp only [HashStore.entry, HashStore.setVal, Function.update_self, Function.comp_apply,
          here, if_true]
      · have differs : (store.entry node).1 ≠ key.toNat := by
          intro sameKey
          refine same (rep.key_inj among (inBucket ▸ member) ?_)
          rw [here]
          exact BitVec.eq_of_toNat_eq sameKey
        rw [other node same, Function.comp_apply, if_neg differs]
    · simp only [hashInsert, Function.update_of_ne inBucket]
      rw [← rep.entries]
      refine List.map_congr_left fun node among => other node ?_
      rintro rfl
      exact inBucket ((rep.bucket_eq among).symm.trans (by rw [here, hashFn, rep.size]))
  hashed := rep.hashed.insert _ _

/-- A new entry in front of its chain. -/
theorem push (rep : Represents store nodes hash) {new : Nat} (fresh : new ∉ store.live)
    (nonnull : new ≠ 0)
    (absent : ∀ node ∈ nodes (hashFn hash key.toNat), (store.mem node).key ≠ key) (val : BitVec 64)
    (allocs : Nat) :
    Represents
      { store with
        table := Function.update store.table (hashFn hash key.toNat) new
        mem := Function.update store.mem new ⟨key, val, store.table (hashFn hash key.toNat)⟩
        live := insert new store.live
        allocs := allocs }
      (Function.update nodes (hashFn hash key.toNat) (new :: nodes (hashFn hash key.toNat)))
      (hashInsert hash key.toNat val) := by
  have outside (bucket : Nat) : new ∉ nodes bucket := fun member =>
    fresh ((rep.live new).mpr ⟨bucket, member⟩)
  have differs {bucket node : Nat} (member : node ∈ nodes bucket) : node ≠ new := by
    rintro rfl
    exact outside bucket member
  constructor
  case size => exact rep.size
  case hashed => exact rep.hashed.insert _ _
  case chained =>
    intro bucket
    by_cases here : bucket = hashFn hash key.toNat
    · subst here
      dsimp only
      rw [Function.update_self, Function.update_self]
      refine ((rep.chained _).push (outside _) nonnull).congr fun node member => ?_
      by_cases same : node = new
      · subst same
        simp only [HashStore.next, Function.update_self]
      · simp only [HashStore.next, Function.update_of_ne same]
    · dsimp only
      rw [Function.update_of_ne here, Function.update_of_ne here]
      refine (rep.chained bucket).congr fun node member => ?_
      simp only [HashStore.next, Function.update_of_ne (differs member)]
  case live =>
    intro curr
    rw [Finset.mem_insert, rep.live]
    constructor
    · rintro (rfl | ⟨bucket, member⟩)
      · exact ⟨_, by rw [Function.update_self]; exact List.mem_cons_self⟩
      · refine ⟨bucket, ?_⟩
        by_cases here : bucket = hashFn hash key.toNat
        · subst here
          rw [Function.update_self]
          exact List.mem_cons_of_mem _ member
        · rwa [Function.update_of_ne here]
    · rintro ⟨bucket, member⟩
      by_cases here : bucket = hashFn hash key.toNat
      · subst here
        rw [Function.update_self, List.mem_cons] at member
        exact member.imp_right fun member => ⟨_, member⟩
      · rw [Function.update_of_ne here] at member
        exact .inr ⟨bucket, member⟩
  case entries =>
    intro bucket
    by_cases here : bucket = hashFn hash key.toNat
    · have unknown : key.toNat ∉ (hash.table bucket).map Prod.fst := by
        rw [← rep.entries, List.map_map, here]
        intro member
        obtain ⟨node, among, same⟩ := List.mem_map.mp member
        exact absent node among (BitVec.eq_of_toNat_eq same)
      simp only [hashInsert, ← here, Function.update_self]
      rw [chainInsert, if_neg unknown, List.map_cons, ← rep.entries]
      congr 1
      · simp only [HashStore.entry, Function.update_self]
      · exact List.map_congr_left fun node member => by
          simp only [HashStore.entry, Function.update_of_ne (differs member)]
    · simp only [hashInsert, Function.update_of_ne here]
      rw [← rep.entries]
      exact List.map_congr_left fun node member => by
        simp only [HashStore.entry, Function.update_of_ne (differs member)]

/-- An entry is taken out of its chain and freed. -/
theorem erase (rep : Represents store nodes hash) {front back : List Nat} {node : Nat}
    {store' : HashStore} (split : nodes (hashFn hash key.toNat) = front ++ node :: back)
    (here : (store.mem node).key = key) (size : store'.size = store.size)
    (live : store'.live = store.live.erase node)
    (entry : ∀ curr, store'.entry curr = store.entry curr)
    (chained : ∀ bucket, Chained store'.next (store'.table bucket)
      (Function.update nodes (hashFn hash key.toNat) (front ++ back) bucket)) :
    Represents store' (Function.update nodes (hashFn hash key.toNat) (front ++ back))
      (hashDelete hash key.toNat).2 where
  size := rep.size.trans (congrArg BitVec.toNat size.symm)
  chained := chained
  live curr := by
    have nodup := (rep.nodup (hashFn hash key.toNat)).2
    have member : node ∈ nodes (hashFn hash key.toNat) := by
      rw [split]
      exact List.mem_append_right _ List.mem_cons_self
    rw [split, List.nodup_middle, List.nodup_cons] at nodup
    rw [live, Finset.mem_erase, rep.live]
    constructor
    · rintro ⟨differs, bucket, among⟩
      refine ⟨bucket, ?_⟩
      by_cases inBucket : bucket = hashFn hash key.toNat
      · subst inBucket
        rw [split, List.mem_append, List.mem_cons] at among
        rw [Function.update_self, List.mem_append]
        exact among.imp_right fun among => among.resolve_left differs
      · rwa [Function.update_of_ne inBucket]
    · rintro ⟨bucket, among⟩
      by_cases inBucket : bucket = hashFn hash key.toNat
      · subst inBucket
        rw [Function.update_self] at among
        refine ⟨fun same => nodup.1 (same ▸ among), hashFn hash key.toNat, ?_⟩
        rw [split, List.mem_append, List.mem_cons]
        exact (List.mem_append.mp among).imp_right Or.inr
      · rw [Function.update_of_ne inBucket] at among
        refine ⟨?_, bucket, among⟩
        rintro rfl
        exact inBucket ((rep.bucket_eq among).symm.trans (rep.bucket_eq member))
  entries bucket := by
    rw [List.map_congr_left fun curr _ => entry curr]
    by_cases inBucket : bucket = hashFn hash key.toNat
    · have before : ∀ other ∈ front, (store.mem other).key ≠ key := by
        intro other among same
        have nodup := (rep.nodup (hashFn hash key.toNat)).2
        have first : other ∈ nodes (hashFn hash key.toNat) := split ▸ List.mem_append_left _ among
        have second : node ∈ nodes (hashFn hash key.toNat) :=
          split ▸ List.mem_append_right _ List.mem_cons_self
        rw [split, List.nodup_middle, List.nodup_cons] at nodup
        exact nodup.1
          (rep.key_inj first second (same.trans here.symm) ▸ List.mem_append_left _ among)
      simp only [hashDelete, ← inBucket, Function.update_self]
      rw [chainDelete, ← rep.entries, inBucket, split, List.map_append, List.map_append,
        List.eraseP_append_right]
      · rw [List.map_cons, List.eraseP_cons_of_pos (by simp [HashStore.entry, here])]
      · intro old member
        obtain ⟨other, among, rfl⟩ := List.mem_map.mp member
        exact fun same => before other among (BitVec.eq_of_toNat_eq (of_decide_eq_true same))
    · simp only [hashDelete, Function.update_of_ne inBucket]
      exact rep.entries bucket
  hashed := rep.hashed.delete _

end Represents

section Refinement

variable {store : HashStore} {nodes : Nat → List Nat} {hash : Hash (BitVec 64)}
    {key val : BitVec 64}

/-- The table is in memory as it is when nothing was inserted. -/
theorem hashInit_represents (size : BitVec 32) :
    Represents (HashStore.hashInit size) (fun _ => []) (hashInit size.toNat) where
  size := rfl
  chained _ := rfl
  live curr := by simp [HashStore.hashInit]
  entries _ := rfl
  hashed _ _ member := by contradiction

theorem tableAt_key (rep : Represents store nodes hash) (positive : store.size ≠ 0)
    (key : BitVec 64) :
    store.tableAt (store.bucket key) = some (store.table (hashFn hash key.toNat)) ∧
      (store.bucket key).toNat = hashFn hash key.toNat := by
  rw [HashStore.tableAt_bucket positive, hashFn, rep.size, HashStore.bucket,
    (HashStore.bucket_eq positive).1,
    Int.toNat_natCast]
  exact ⟨rfl, rfl⟩

theorem hashInsert_refines (rep : Represents store nodes hash) (positive : store.size ≠ 0)
    (allocator : Allocator) (key val : BitVec 64) :
    ∃ store' nodes', store.hashInsert allocator key val = some store' ∧ store'.size = store.size ∧
      Represents store' nodes' (hashInsert hash key.toNat val) := by
  obtain ⟨atHead, number⟩ := tableAt_key rep positive key
  rcases rep.walk_cases key with ⟨node, member, here, some_, -, walk, -⟩ | ⟨absent, walk, -⟩
  · refine ⟨store.setVal node val, nodes, ?_, rfl, rep.setVal member here val⟩
    rw [HashStore.hashInsert, atHead]
    simp only [bind, Option.bind, walk]
    rw [if_pos some_]
  · refine ⟨_, _, ?_, ?_, rep.push (allocator.fresh store.allocs store.live)
      (allocator.nonnull store.allocs store.live) absent val (store.allocs + 1)⟩
    · rw [HashStore.hashInsert, atHead]
      simp only [bind, Option.bind, walk, number]
      rfl
    · rfl

theorem hashLookup_refines (rep : Represents store nodes hash) (positive : store.size ≠ 0)
    (key : BitVec 64) :
    store.hashLookup key = some ((hashLookup hash key.toNat).getD hashEntryNotfound) := by
  obtain ⟨atHead, -⟩ := tableAt_key rep positive key
  rw [HashStore.hashLookup, atHead]
  rcases rep.walk_cases key with ⟨node, -, -, some_, live, walk, found⟩ | ⟨-, walk, notFound⟩
  · simp only [bind, Option.bind, walk]
    rw [if_neg some_, HashStore.load, if_pos live, found]
    rfl
  · simp only [bind, Option.bind, walk, if_true]
    rw [notFound]
    rfl

theorem hashDelete_absent {β : Type} {hash : Hash β} {key : Nat}
    (absent : hashLookup hash key = none) :
    (hashDelete hash key).2 = hash := by
  have same : chainDelete key (hash.table (hashFn hash key)) = hash.table (hashFn hash key) := by
    refine List.eraseP_of_forall_not fun entry member => ?_
    rw [hashLookup, lookup_none_iff] at absent
    have differs : entry.1 ≠ key := fun equal => absent (List.mem_map.mpr ⟨entry, member, equal⟩)
    simpa using differs
  simp only [hashDelete, same, Function.update_eq_self]

theorem HashStore.next_setNext (store : HashStore) (prev next : Nat) :
    (store.setNext prev next).next = Function.update store.next prev next := by
  funext other
  by_cases same : other = prev
  · subst same
    simp only [HashStore.next, HashStore.setNext, Function.update_self]
  · simp only [HashStore.next, HashStore.setNext, Function.update_of_ne same]

theorem HashStore.entry_setNext (store : HashStore) (prev next other : Nat) :
    (store.setNext prev next).entry other = store.entry other := by
  by_cases same : other = prev
  · subst same
    simp only [HashStore.entry, HashStore.setNext, Function.update_self]
  · simp only [HashStore.entry, HashStore.setNext, Function.update_of_ne same]

/-- `hash_delete`, at the head of a chain and inside of it. -/
theorem hashDelete_refines (rep : Represents store nodes hash) (positive : store.size ≠ 0)
    (key : BitVec 64) :
    ∃ store' nodes', store.hashDelete key =
      some (store', (hashLookup hash key.toNat).getD hashEntryNotfound) ∧
      store'.size = store.size ∧ Represents store' nodes' (hashDelete hash key.toNat).2 := by
  obtain ⟨atHead, number⟩ := tableAt_key rep positive key
  have chained := rep.chained (hashFn hash key.toNat)
  have alive : ∀ curr ∈ nodes (hashFn hash key.toNat), curr ∈ store.live := fun curr member =>
    (rep.live curr).mpr ⟨_, member⟩
  have enough := rep.length_lt (hashFn hash key.toNat)
  rcases rep.walk_cases key with ⟨node, member, here, some_, live, -, found⟩ | ⟨absent, -, notFound⟩
  · obtain ⟨front, back, split⟩ := List.append_of_mem member
    have nodup := (rep.nodup (hashFn hash key.toNat)).2
    have before : ∀ other ∈ front, (store.mem other).key ≠ key := by
      intro other among same
      have first : other ∈ nodes (hashFn hash key.toNat) := split ▸ List.mem_append_left _ among
      obtain rfl := rep.key_inj first member (same.trans here.symm)
      rw [split, List.nodup_middle, List.nodup_cons] at nodup
      exact nodup.1 (List.mem_append_left _ among)
    rw [split] at chained alive enough nodup
    have walk (prev : Nat) := @HashStore.walkPrev_some _ _ _ _ _ prev _ _ chained alive
      enough before here
    have heads := chained.head_eq
    have apart {bucket other : Nat} (outside : bucket ≠ hashFn hash key.toNat)
        (among : other ∈ nodes bucket) :
        other ∉ nodes (hashFn hash key.toNat) := fun there =>
      outside ((rep.bucket_eq among).symm.trans (rep.bucket_eq there))
    rcases List.eq_nil_or_concat' front with rfl | ⟨front, prev, rfl⟩
    · -- the head of the chain: the table refers to the next entry
      refine ⟨{ store with
        table := Function.update store.table (hashFn hash key.toNat) (store.next node)
        live := store.live.erase node }, _, ?_, rfl,
          rep.erase split here rfl rfl (fun _ => rfl) fun bucket => ?_⟩
      · have first : node = store.table (hashFn hash key.toNat) := (heads.1 rfl).symm
        rw [HashStore.hashDelete, atHead]
        simp only [bind, Option.bind, walk]
        rw [if_neg some_, HashStore.load, if_pos live]
        simp only [if_pos first, number, found]
        rfl
      · by_cases inBucket : bucket = hashFn hash key.toNat
        · subst inBucket
          simp only [Function.update_self]
          exact chained.2.2
        · simp only [Function.update_of_ne inBucket]
          exact rep.chained bucket
    · -- an inner entry: the one before it refers to the next entry
      have prevIn : prev ∈ nodes (hashFn hash key.toNat) := by
        rw [split]
        simp
      rw [List.append_assoc, List.singleton_append] at chained nodup
      refine ⟨{ store.setNext prev (store.next node) with live := store.live.erase node }, _, ?_,
        rfl,
        rep.erase split here rfl rfl (store.entry_setNext prev _) fun bucket => ?_⟩
      · have inner : node ≠ store.table (hashFn hash key.toNat) := by
          intro first
          have nodup' := (rep.nodup (hashFn hash key.toNat)).2
          rw [split, List.nodup_middle, List.nodup_cons] at nodup'
          exact nodup'.1 (List.mem_append_left _ (first ▸ heads.2 (by simp)))
        rw [HashStore.hashDelete, atHead]
        simp only [bind, Option.bind, walk]
        rw [if_neg some_, HashStore.load, if_pos live]
        simp only [if_neg inner, List.getLast?_append, List.getLast?_singleton, Option.some_or,
          Option.getD_some,
          HashStore.load, if_pos ((rep.live prev).mpr ⟨_, prevIn⟩), found]
        rfl
      · change Chained (store.setNext prev (store.next node)).next (store.table bucket) _
        rw [HashStore.next_setNext]
        by_cases inBucket : bucket = hashFn hash key.toNat
        · subst inBucket
          rw [Function.update_self, List.append_assoc]
          exact chained.unlink nodup
        · rw [Function.update_of_ne inBucket]
          refine (rep.chained bucket).congr fun other among => Function.update_of_ne ?_ _ _
          rintro rfl
          exact apart inBucket among prevIn
  · have walks (prev : Nat) := @HashStore.walkPrev_none _ _ _ _ prev _ chained alive enough absent
    obtain ⟨last, walk⟩ := walks (store.table (hashFn hash key.toNat))
    refine ⟨store, nodes, ?_, rfl, by rwa [hashDelete_absent notFound]⟩
    rw [HashStore.hashDelete, atHead]
    simp only [bind, Option.bind, walk, if_true]
    rw [notFound]
    rfl

/-- Where `hash_swap` finds its heads. -/
theorem tableAt_int (rep : Represents store nodes hash) (positive : store.size ≠ 0)
    (key : BitVec 64) :
    store.tableAt (store.intBucket key) =
      if hashFn hash key.toNat < 2 ^ 31 then some
        (store.table (hashFn hash key.toNat)) else none := by
  rw [HashStore.tableAt_intBucket positive, hashFn, rep.size]

theorem HashStore.key_setVal (store : HashStore) (curr other : Nat) (val : BitVec 64) :
    ((store.setVal curr val).mem other).key = (store.mem other).key := by
  by_cases same : other = curr
  · subst same
    simp only [HashStore.setVal, Function.update_self]
  · simp only [HashStore.setVal, Function.update_of_ne same]

/-- A bucket that is negative as an `int` is outside of the table. -/
theorem hashSwap_outside (rep : Represents store nodes hash) (positive : store.size ≠ 0)
    {key1 key2 : BitVec 64}
    (outside : ¬ (hashFn hash key1.toNat < 2 ^ 31 ∧
      (hashLookup hash key1.toNat ≠ none → hashFn hash key2.toNat < 2 ^ 31))) :
    store.hashSwap key1 key2 = none := by
  rw [HashStore.hashSwap, tableAt_int rep positive, tableAt_int rep positive]
  by_cases inside : hashFn hash key1.toNat < 2 ^ 31
  · rw [if_pos inside]
    rw [not_and] at outside
    have second := outside inside
    rw [Classical.not_imp] at second
    rcases rep.walk_cases key1 with ⟨node, -, -, some_, -, walk, -⟩ | ⟨-, -, notFound⟩
    · simp only [bind, Option.bind, walk]
      rw [if_neg some_, if_neg second.2]
    · exact absurd notFound second.1
  · rw [if_neg inside]
    rfl

/-- `hash_swap`, when the buckets are in the table. -/
theorem hashSwap_refines (rep : Represents store nodes hash) (positive : store.size ≠ 0)
    {key1 key2 : BitVec 64} (inside : hashFn hash key1.toNat < 2 ^ 31)
    (inside' : hashLookup hash key1.toNat ≠ none → hashFn hash key2.toNat < 2 ^ 31) :
    ∃ store', store.hashSwap key1 key2 = some (store', (hashSwap hash key1.toNat key2.toNat).2) ∧
      store'.size = store.size ∧
        Represents store' nodes (hashSwap hash key1.toNat key2.toNat).1 := by
  rw [HashStore.hashSwap, tableAt_int rep positive, tableAt_int rep positive, if_pos inside]
  rcases rep.walk_cases key1 with ⟨node1, member1, here1, some1, live1, walk1, found1⟩ | ⟨-,
    walk1, notFound1⟩
  · rw [if_pos (inside' (by rw [found1]; exact Option.some_ne_none _))]
    simp only [bind, Option.bind, walk1, if_neg some1]
    rcases rep.walk_cases key2 with ⟨node2, member2, here2, some2, live2, walk2, found2⟩ | ⟨-,
      walk2, notFound2⟩
    · have rep₁ := rep.setVal member1 here1 (store.mem node2).val
      have here2' := (store.key_setVal node1 node2 (store.mem node2).val).trans here2
      refine ⟨(store.setVal node1 (store.mem node2).val).setVal node2 (store.mem node1).val, ?_,
        rfl, ?_⟩
      · simp only [walk2, if_neg some2, HashStore.load, if_pos live1, if_pos live2]
        rw [hashSwap, found1, found2]
      · rw [hashSwap, found1, found2]
        exact rep₁.setVal member2 here2' (store.mem node1).val
    · refine ⟨store, ?_, rfl, ?_⟩
      · simp only [walk2, if_true]
        rw [hashSwap, found1, notFound2]
      · rw [hashSwap, found1, notFound2]
        exact rep
  · refine ⟨store, ?_, rfl, ?_⟩
    · simp only [bind, Option.bind, walk1, if_true]
      rw [hashSwap, notFound1]
    · rw [hashSwap, notFound1]
      exact rep

end Refinement

end BachScheduler
