import Mathlib.Data.List.Nodup
import Mathlib.Logic.Function.Basic

/-!
# Singly linked lists

Each cell has the address of the next one, and 0 ends the list.  `Chained` says that a head
leads through a list of cells.  A cell is put in front or taken out by one store.
-/

namespace BachScheduler.Chain

/-- The cells `nodes` follow one another from `head` on. -/
def Chained (next : Nat → Nat) : Nat → List Nat → Prop
  | head, [] => head = 0
  | head, node :: nodes => head = node ∧ node ≠ 0 ∧ Chained next (next node) nodes

variable {next next' : Nat → Nat} {head new prev node : Nat} {nodes front back : List Nat}

namespace Chained

theorem nil_iff : Chained next head [] ↔ head = 0 := Iff.rfl

theorem cons_iff : Chained next head (node :: nodes) ↔
    head = node ∧ node ≠ 0 ∧ Chained next (next node) nodes :=
  Iff.rfl

/-- Only the cells themselves are read. -/
theorem congr (chained : Chained next head nodes) (same : ∀ node ∈ nodes, next' node = next node) :
    Chained next' head nodes := by
  induction nodes generalizing head with
  | nil => exact chained
  | cons node nodes ih =>
      rw [cons_iff] at chained
      rw [List.forall_mem_cons] at same
      refine ⟨chained.1, chained.2.1, ?_⟩
      rw [same.1]
      exact ih chained.2.2 same.2

theorem ne_zero (chained : Chained next head nodes) : ∀ node ∈ nodes, node ≠ 0 := by
  induction nodes generalizing head with
  | nil => simp
  | cons node nodes ih => exact List.forall_mem_cons.mpr ⟨chained.2.1, ih chained.2.2⟩

/-- The cell that the head refers to. -/
theorem head_eq (chained : Chained next head (front ++ node :: back)) :
    (front = [] → head = node) ∧ (front ≠ [] → head ∈ front) := by
  cases front with
  | nil => exact ⟨fun _ => chained.1, fun nonempty => absurd rfl nonempty⟩
  | cons first front =>
      exact ⟨fun empty => by contradiction, fun _ => chained.1 ▸ List.mem_cons_self⟩

theorem push (chained : Chained next head nodes) (outside : new ∉ nodes) (some_ : new ≠ 0) :
    Chained (Function.update next new head) new (new :: nodes) := by
  refine ⟨rfl, some_, ?_⟩
  rw [Function.update_self]
  refine chained.congr fun node member => Function.update_of_ne ?_ _ _
  rintro rfl
  exact outside member

theorem unlink (chained : Chained next head (front ++ prev :: node :: back))
    (nodup : (front ++ prev :: node :: back).Nodup) :
    Chained (Function.update next prev (next node)) head (front ++ prev :: back) := by
  induction front generalizing head with
  | nil =>
      obtain ⟨first, some_, second, -, rest⟩ := chained
      rw [List.nil_append, List.nodup_cons, List.mem_cons, not_or] at nodup
      refine ⟨first, some_, ?_⟩
      rw [Function.update_self]
      refine rest.congr fun other member => Function.update_of_ne ?_ _ _
      rintro rfl
      exact nodup.1.2 member
  | cons first front ih =>
      obtain ⟨here, some_, rest⟩ := chained
      rw [List.cons_append, List.nodup_cons, List.mem_append, not_or, List.mem_cons,
        not_or] at nodup
      refine ⟨here, some_, ?_⟩
      rw [Function.update_of_ne nodup.1.2.1]
      exact ih rest nodup.2

end Chained

end BachScheduler.Chain
