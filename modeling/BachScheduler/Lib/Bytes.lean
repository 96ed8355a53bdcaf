import Mathlib.Data.BitVec
import Mathlib.Data.Nat.Digits.Defs
import Mathlib.Tactic.Common

/-!
# Words in a memory of bytes

A word lies in the memory with its lowest byte first.  A store is seen by every load of the
same word, and by no load of another one that it does not overlap.
-/

namespace BachScheduler.Bytes

/-- A memory of bytes. -/
abbrev Memory := Nat → BitVec 8

variable {v w : Nat} {memory later : Memory} {pos other : Nat}

/-- The memory after a word was stored. -/
def store (memory : Memory) (pos : Nat) (x : BitVec w) : Memory := fun k =>
  if pos ≤ k ∧ k < pos + w / 8 then BitVec.ofNat 8 (x.toNat / 256 ^ (k - pos)) else memory k

/-- The word at a position. -/
def load (w : Nat) (memory : Memory) (pos : Nat) : BitVec w :=
  BitVec.ofNat w (Nat.ofDigits 256 ((List.range (w / 8)).map fun k => (memory (pos + k)).toNat))

/-- The lowest digits of a number. -/
theorem ofDigits_digits (b x n : Nat) :
    Nat.ofDigits b ((List.range n).map fun k => x / b ^ k % b) = x % b ^ n := by
  induction n with
  | zero => simp [Nat.mod_one]
  | succ n ih =>
      rw [List.range_succ, List.map_append, Nat.ofDigits_append, ih, Nat.pow_succ, Nat.mod_mul]
      simp

/-- The bytes that a store does not reach stay as they are. -/
theorem store_outside (x : BitVec w) {k : Nat} (outside : k < pos ∨ pos + w / 8 ≤ k) :
    store memory pos x k = memory k := by
  unfold store
  rw [if_neg (by omega)]

/-- A load sees the bytes of its word only. -/
theorem load_congr (same : ∀ k, pos ≤ k → k < pos + w / 8 → later k = memory k) :
    load w later pos = load w memory pos := by
  have bytes : ((List.range (w / 8)).map fun k => (later (pos + k)).toNat) =
      (List.range (w / 8)).map fun k => (memory (pos + k)).toNat := by
    refine List.map_congr_left fun k member => ?_
    have inside := List.mem_range.mp member
    rw [same _ (Nat.le_add_right _ _) (Nat.add_lt_add_left inside pos)]
  rw [load, bytes, load]

theorem load_store (whole : 8 ∣ w) (x : BitVec w) : load w (store memory pos x) pos = x := by
  have bytes : ((List.range (w / 8)).map fun k => (store memory pos x (pos + k)).toNat) =
      (List.range (w / 8)).map fun k => x.toNat / 256 ^ k % 256 := by
    refine List.map_congr_left fun k member => ?_
    have inside := List.mem_range.mp member
    unfold store
    rw [if_pos (by omega), BitVec.toNat_ofNat, Nat.add_sub_cancel_left]
  have width : 256 ^ (w / 8) = 2 ^ w := by
    rw [show 256 = 2 ^ 8 from rfl, ← Nat.pow_mul, Nat.mul_div_cancel' whole]
  rw [load, bytes, ofDigits_digits, width, Nat.mod_eq_of_lt x.isLt, BitVec.ofNat_toNat,
    BitVec.setWidth_eq]

theorem load_store_apart (x : BitVec v) (apart : pos + v / 8 ≤ other ∨ other + w / 8 ≤ pos) :
    load w (store memory pos x) other = load w memory other :=
  load_congr fun k low high => store_outside x (by omega)

end BachScheduler.Bytes
