import Mathlib.Data.Finset.Card
import Mathlib.Data.List.MinMax

/-!
# Serving by seniority

A line is served in rounds.  Each round serves the element that is in line since the longest
time, the first one among those, and whatever else it likes; those it has served go to the
end and are in line since later than the others.  What stands before an element only gets
less until it is served, so no element is passed over as often as the line is long.
-/

namespace BachScheduler.Seniority

/-- Elements in the order in which they stand, and since when each of them does. -/
structure Line (α τ : Type*) where
  order : List α
  nodup : order.Nodup
  since : α → τ

variable {α τ : Type*} [LinearOrder τ] {line next : Line α τ} {served : List α} {a b : α}

/-- One element stands before another one: it is older, or as old and earlier in the order. -/
def Line.Before (line : Line α τ) (a b : α) : Prop :=
  line.since a < line.since b ∨ line.since a = line.since b ∧ [a, b].Sublist line.order

theorem Line.Before.ne (before : line.Before a b) : a ≠ b := by
  intro same
  subst same
  rcases before with older | ⟨-, twice⟩
  · exact lt_irrefl _ older
  · have nodup := line.nodup.sublist twice
    simp at nodup

variable [DecidableEq α]

namespace Line

/-- The element that is served first stands before every other one. -/
theorem before_of_argmin (oldest : line.order.argmin line.since = some a) (listed : b ∈ line.order)
    (differ : a ≠ b) : line.Before a b := by
  have least : line.since a ≤ line.since b := List.le_of_mem_argmin listed oldest
  rcases least.lt_or_eq with older | same
  · exact .inl older
  · have earlier := (List.mem_argmin_iff.mp oldest).2.2 b listed same.ge
    refine .inr ⟨same, ?_⟩
    have start : line.order.idxOf a < line.order.length :=
      List.idxOf_lt_length_iff.mpr (List.argmin_mem oldest)
    have later : b ∈ line.order.drop (line.order.idxOf a + 1) := by
      have position : b ∈ line.order.drop (line.order.idxOf a) := by
        rw [List.mem_drop_iff_getElem]
        have inside := List.idxOf_lt_length_iff.mpr listed
        refine ⟨line.order.idxOf b - line.order.idxOf a, by omega, ?_⟩
        simp [earlier]
      rw [List.drop_eq_getElem_cons start, List.getElem_idxOf start] at position
      exact (List.mem_cons.mp position).resolve_left differ.symm
    have pair : [a, b].Sublist (line.order.drop (line.order.idxOf a)) := by
      rw [List.drop_eq_getElem_cons start, List.getElem_idxOf start]
      exact (List.singleton_sublist.mpr later).cons_cons a
    exact pair.trans (List.drop_sublist ..)

instance (line : Line α τ) (a b : α) : Decidable (line.Before a b) :=
  inferInstanceAs (Decidable (_ ∨ _))

/-- The elements that stand before one. -/
def ahead (line : Line α τ) (b : α) : Finset α :=
  line.order.toFinset.filter (line.Before · b)

theorem mem_ahead : a ∈ line.ahead b ↔ a ∈ line.order ∧ line.Before a b := by
  rw [ahead, Finset.mem_filter, List.mem_toFinset]

/-- How many elements stand before one. -/
def rank (line : Line α τ) (b : α) : Nat :=
  (line.ahead b).card

theorem rank_lt_length (listed : b ∈ line.order) : line.rank b < line.order.length := by
  rw [← List.toFinset_card_of_nodup line.nodup]
  apply Finset.card_lt_card
  apply (Finset.filter_ssubset ..).mpr
  exact ⟨b, List.mem_toFinset.mpr listed, fun before => before.ne rfl⟩

end Line

/-- A round of service. -/
structure Round (line next : Line α τ) (served : List α) : Prop where
  listed : ∀ a ∈ served, a ∈ line.order
  oldest : ∀ a, line.order.argmin line.since = some a → a ∈ served
  order : next.order = line.order.filter (· ∉ served) ++ served
  rest : ∀ a ∈ line.order, a ∉ served → next.since a = line.since a
  younger : ∀ a ∈ served, ∀ b ∈ line.order, b ∉ served → next.since b < next.since a

namespace Round

theorem mem_order (round : Round line next served) : a ∈ next.order ↔ a ∈ line.order := by
  rw [round.order, List.mem_append, List.mem_filter, decide_eq_true_eq]
  constructor
  · intro member
    exact member.elim And.left (round.listed a)
  · intro listed
    by_cases again : a ∈ served
    · exact .inr again
    · exact .inl ⟨listed, again⟩

/-- What stands before an element after a round in which it was passed over stood before it. -/
theorem before (round : Round line next served) (listed : b ∈ line.order) (passed : b ∉ served)
    (member : a ∈ next.order) (before : next.Before a b) : a ∉ served ∧ line.Before a b := by
  have stays : a ∉ served := fun again => by
    have younger := round.younger a again b listed passed
    rcases before with older | ⟨same, -⟩
    · exact lt_asymm younger older
    · exact younger.ne same.symm
  refine ⟨stays, ?_⟩
  unfold Line.Before at before ⊢
  rw [round.rest a (round.mem_order.mp member) stays, round.rest b listed passed,
    round.order] at before
  refine before.imp_right fun equal => ⟨equal.1, ?_⟩
  have kept : [a, b].Sublist (line.order.filter (· ∉ served)) := by
    refine equal.2.of_sublist_append_left fun other inside => ?_
    rcases List.mem_cons.mp inside with rfl | inside
    · exact stays
    · rwa [List.mem_singleton.mp inside]
  exact kept.trans List.filter_sublist

/-- An element that is passed over moves forward. -/
theorem rank_lt (round : Round line next served) (listed : b ∈ line.order) (passed : b ∉ served) :
    next.rank b < line.rank b := by
  obtain ⟨first, oldest⟩ : ∃ first, line.order.argmin line.since = some first :=
    Option.ne_none_iff_exists'.mp (List.argmin_eq_none.not.mpr (List.ne_nil_of_mem listed))
  have again := round.oldest first oldest
  have ahead : line.Before first b :=
    Line.before_of_argmin oldest listed fun same => passed (same ▸ again)
  have fewer : next.ahead b ⊆ line.ahead b := by
    intro a member
    rw [Line.mem_ahead] at member ⊢
    exact ⟨round.mem_order.mp member.1, (round.before listed passed member.1 member.2).2⟩
  apply Finset.card_lt_card
  apply (Finset.ssubset_iff_of_subset fewer).mpr
  refine ⟨first, Line.mem_ahead.mpr ⟨List.argmin_mem oldest, ahead⟩, fun member => ?_⟩
  have member := Line.mem_ahead.mp member
  exact (round.before listed passed member.1 member.2).1 again

/-- A round leaves the line as long as it was. -/
theorem order_length (round : Round line next served) : next.order.length = line.order.length := by
  rw [← List.toFinset_card_of_nodup next.nodup, ← List.toFinset_card_of_nodup line.nodup]
  exact congrArg Finset.card (Finset.ext fun a => by simp [round.mem_order])

end Round

section Runs

/-- How often something was passed over since it was served last, or since the start. -/
def passedOver {ρ : Type*} (serves : ρ → Bool) (rounds : List ρ) : Nat :=
  rounds.foldl (fun count round => if serves round then 0 else count + 1) 0

/-- Rounds one after the other, by what each of them serves. -/
inductive Served : Line α τ → List (List α) → Prop where
  | none (line : Line α τ) : Served line []
  | round {line next : Line α τ} {served : List α} {later : List (List α)} :
      Round line next served → Served next later → Served line (served :: later)

/-- What was counted and what is ahead stay below the length of the line. -/
theorem Served.counts {rounds : List (List α)} (run : Served line rounds) (listed : b ∈ line.order)
    {count : Nat} (bound : count + line.rank b < line.order.length) :
    rounds.foldl (fun count served => if (b ∈ served : Bool) then 0 else count + 1) count <
      line.order.length := by
  induction run generalizing count with
  | none line => exact (Nat.le_add_right ..).trans_lt bound
  | @round line next served later round run ih =>
      have there := round.mem_order.mpr listed
      have same := round.order_length
      rw [← same, List.foldl_cons]
      apply ih there
      by_cases again : b ∈ served
      · rw [if_pos (decide_eq_true again), Nat.zero_add]
        exact Line.rank_lt_length there
      · have forward := round.rank_lt listed again
        rw [if_neg (by simpa using again)]
        omega

/-- No element is passed over as often as the line is long. -/
theorem Served.passedOver_lt {rounds : List (List α)} (run : Served line rounds)
    (listed : b ∈ line.order) : passedOver (fun served => b ∈ served) rounds < line.order.length :=
  run.counts listed (by simpa using Line.rank_lt_length listed)

/-- Counting the same rounds in two ways. -/
theorem passedOver_congr {ρ σ : Type*} {first : ρ → Bool} {second : σ → Bool} {rounds : List ρ}
    {others : List σ}
    (same : List.Forall₂ (fun round other => first round = second other) rounds others) :
    passedOver first rounds = passedOver second others := by
  suffices every : ∀ count,
      rounds.foldl (fun count round => if first round then 0 else count + 1) count =
      others.foldl (fun count round => if second round then 0 else count + 1) count from every 0
  induction same with
  | nil => exact fun _ => rfl
  | cons equal _ ih =>
      intro count
      rw [List.foldl_cons, List.foldl_cons, equal]
      exact ih _

end Runs

end BachScheduler.Seniority
