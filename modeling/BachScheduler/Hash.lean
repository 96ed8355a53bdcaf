import Mathlib.Data.List.Nodup
import Mathlib.Logic.Function.Basic

/-!
# The hash table of `hash.c`

A table of chains.  No key occurs twice in a chain: the structure carries this,
since `hash_insert` replaces the value of a key it finds.  `HASH_ENTRY_NOTFOUND`
is `none`.
-/

namespace BachScheduler

/-- `hash_t`: the chain of each bucket holds keys and values. -/
structure Hash (β : Type) where
  size : Nat
  table : Nat → List (Nat × β)
  distinct : ∀ bucket, ((table bucket).map Prod.fst).Nodup

section Operations

variable {β : Type}

/-- `hash_init`. -/
def hashInit (size : Nat) : Hash β where
  size := size
  table := fun _ => []
  distinct := fun _ => List.nodup_nil

/-- `hash_fn`. -/
def hashFn (hash : Hash β) (key : Nat) : Nat :=
  key % hash.size

/-- A chain after `hash_insert`: a known key gets the new value in place, a new
one goes to the front. -/
def chainInsert (key : Nat) (val : β) (chain : List (Nat × β)) : List (Nat × β) :=
  if key ∈ chain.map Prod.fst then
    chain.map fun entry => if entry.1 = key then (key, val) else entry
  else
    (key, val) :: chain

/-- A chain after `hash_delete`. -/
def chainDelete (key : Nat) (chain : List (Nat × β)) : List (Nat × β) :=
  chain.eraseP fun entry => entry.1 = key

theorem chainInsert_distinct {key : Nat} {val : β} {chain : List (Nat × β)}
    (distinct : (chain.map Prod.fst).Nodup) :
    ((chainInsert key val chain).map Prod.fst).Nodup := by
  unfold chainInsert
  split
  · have same :
        ((chain.map fun entry => if entry.1 = key then (key, val) else entry).map Prod.fst) =
        chain.map Prod.fst := by
      rw [List.map_map]
      apply List.map_congr_left
      intro entry _
      by_cases equal : entry.1 = key <;> simp [equal]
    exact same ▸ distinct
  · next fresh => exact List.nodup_cons.mpr ⟨fresh, distinct⟩

theorem chainDelete_distinct {key : Nat} {chain : List (Nat × β)}
    (distinct : (chain.map Prod.fst).Nodup) :
    ((chainDelete key chain).map Prod.fst).Nodup :=
  distinct.sublist (List.eraseP_sublist.map _)

theorem update_distinct {table : Nat → List (Nat × β)} {bucket : Nat} {chain : List (Nat × β)}
    (distinct : ∀ bucket, ((table bucket).map Prod.fst).Nodup)
    (changed : (chain.map Prod.fst).Nodup) (other : Nat) :
    ((Function.update table bucket chain other).map Prod.fst).Nodup := by
  by_cases equal : other = bucket
  · subst equal
    simpa using changed
  · simpa [equal] using distinct other

/-- `hash_insert`. -/
def hashInsert (hash : Hash β) (key : Nat) (val : β) : Hash β :=
  let bucket := hashFn hash key
  { hash with
    table := Function.update hash.table bucket (chainInsert key val (hash.table bucket))
    distinct := update_distinct hash.distinct (chainInsert_distinct (hash.distinct bucket)) }

/-- `hash_lookup`. -/
def hashLookup (hash : Hash β) (key : Nat) : Option β :=
  (hash.table (hashFn hash key)).lookup key

/-- `hash_delete`: the value of the key, and the table without it. -/
def hashDelete (hash : Hash β) (key : Nat) : Option β × Hash β :=
  let bucket := hashFn hash key
  (hashLookup hash key,
    { hash with
      table := Function.update hash.table bucket (chainDelete key (hash.table bucket))
      distinct := update_distinct hash.distinct (chainDelete_distinct (hash.distinct bucket)) })

end Operations

section Lookup

variable {β : Type} {hash : Hash β} {key other : Nat} {val : β} {chain : List (Nat × β)}

theorem lookup_cons_eq (entry : Nat × β) (chain : List (Nat × β)) :
    (entry :: chain).lookup other = if other =
    entry.1 then some entry.2 else chain.lookup other := by
  rw [List.lookup_cons]
  by_cases equal : other = entry.1
  · simp [equal]
  · rw [beq_false_of_ne equal, if_neg equal]

theorem lookup_none_iff : chain.lookup key = none ↔ key ∉ chain.map Prod.fst := by
  induction chain with
  | nil => simp
  | cons entry chain ih =>
      rw [lookup_cons_eq]
      by_cases equal : key = entry.1 <;> simp [equal, ih]

theorem lookup_replace_self (member : key ∈ chain.map Prod.fst) :
    (chain.map fun entry => if entry.1 = key then (key, val) else entry).lookup key = some val := by
  induction chain with
  | nil => simp at member
  | cons entry chain ih =>
      rw [List.map_cons, lookup_cons_eq]
      rw [List.map_cons, List.mem_cons] at member
      by_cases equal : entry.1 = key
      · simp [equal]
      · have differs : key ≠ entry.1 := fun same => equal same.symm
        simp [equal, differs, ih (member.resolve_left differs)]

theorem lookup_replace_other (differs : other ≠ key) :
    (chain.map fun entry => if entry.1 = key then (key, val) else entry).lookup other =
      chain.lookup other := by
  induction chain with
  | nil => rfl
  | cons entry chain ih =>
      rw [List.map_cons, lookup_cons_eq, lookup_cons_eq, ih]
      by_cases equal : entry.1 = key <;> simp [equal, differs]

theorem lookup_chainInsert : (chainInsert key val chain).lookup other = if other =
    key then some val else chain.lookup other := by
  unfold chainInsert
  split
  · next member =>
      by_cases wanted : other = key
      · rw [wanted, lookup_replace_self member, if_pos rfl]
      · rw [lookup_replace_other wanted, if_neg wanted]
  · exact lookup_cons_eq _ _

theorem lookup_chainDelete (distinct : (chain.map Prod.fst).Nodup) :
    (chainDelete key chain).lookup other = if other = key then none else chain.lookup other := by
  induction chain with
  | nil => simp [chainDelete]
  | cons entry chain ih =>
      rw [List.map_cons, List.nodup_cons] at distinct
      unfold chainDelete at ih ⊢
      by_cases equal : entry.1 = key
      · rw [List.eraseP_cons_of_pos (by simpa using equal), lookup_cons_eq]
        by_cases wanted : other = key
        · rw [wanted, if_pos rfl, lookup_none_iff, ← equal]
          exact distinct.1
        · simp [equal, wanted]
      · rw [List.eraseP_cons_of_neg (by simpa using equal), lookup_cons_eq, lookup_cons_eq,
          ih distinct.2]
        have differs : key ≠ entry.1 := fun same => equal same.symm
        by_cases wanted : other = key <;> simp [wanted, differs]

@[simp] theorem hashLookup_init (size : Nat) : hashLookup (hashInit size : Hash β) key = none := rfl

@[simp] theorem hashLookup_insert :
    hashLookup (hashInsert hash key val) other = if other = key then some val else hashLookup
      hash other := by
  unfold hashLookup hashInsert hashFn
  by_cases bucket : other % hash.size = key % hash.size
  · simp only [bucket, Function.update_self, lookup_chainInsert]
  · have differs : other ≠ key := fun equal => bucket (equal ▸ rfl)
    simp [Function.update_of_ne bucket, differs]

@[simp] theorem hashDelete_fst : (hashDelete hash key).1 = hashLookup hash key := rfl

@[simp] theorem hashLookup_delete :
    hashLookup (hashDelete hash key).2 other = if other =
      key then none else hashLookup hash other := by
  unfold hashLookup hashDelete hashFn
  by_cases bucket : other % hash.size = key % hash.size
  · simp only [bucket, Function.update_self, lookup_chainDelete (hash.distinct _)]
  · have differs : other ≠ key := fun equal => bucket (equal ▸ rfl)
    simp [Function.update_of_ne bucket, differs]

end Lookup

end BachScheduler
