import BachScheduler.Lib.Wp
import BachScheduler.State
import Mathlib.Data.List.Count
import Mathlib.Data.List.Nodup

/-!
# Notifications of the applications

`handle_prog_notifications` reads the handles that blocked applications have written to
the pipe of the executor, lets the policy rebalance, and writes a reply to each of them.
The descriptors of the replies are kept in an array of 16, and the loop is bounded by the
size of this array in bytes.
-/

namespace BachScheduler

open Wp

section Server

/-- `sizeof(int)`. -/
def sizeofInt : Nat := 4

/-- The number of elements of `prog_fds`. -/
def progFdsLength : Nat := 16

/-- `sizeof(prog_fds)`. -/
def sizeofProgFds : Nat := progFdsLength * sizeofInt

/-- The reply pipe of each program, `pipe[1]`; every program has one of its own. -/
structure ReplyPipes where
  fd : ProgPtr → Nat
  distinct : Function.Injective fd

/-- The hooks of a policy, over whatever the policy works with. -/
structure NotifyHooks (σ : Type) where
  progChanged : Option (ProgPtr → Nat → σ → Bool × σ)
  rebalance : σ → σ

/-- What the executor does that others can see. -/
inductive NotifyAction where
  | rebalanced
  | replied (fd : Nat)
  deriving DecidableEq, Repr

/-- The executor as far as notifications go: the data of the policy, the cpus requested in
the shared memory of each program, the handles in the pipe, the array, and what was done. -/
structure NotifyState (σ : Type) where
  sched : σ
  requested : ProgPtr → Nat
  queued : List ProgPtr
  progFds : Vector Nat progFdsLength
  trace : List NotifyAction

/-- An access behind the end of `prog_fds`. -/
structure Overrun where
  index : Nat
  deriving DecidableEq, Repr

variable {σ : Type}

abbrev Notify (σ : Type) := EStateM Overrun (NotifyState σ)

/-- `prog_fds[cnt] = fd`. -/
def storeFd (cnt fd : Nat) : Notify σ Unit := do
  if inside : cnt < progFdsLength then
    modify fun st => { st with progFds := st.progFds.set cnt fd inside }
  else
    throw ⟨cnt⟩

/-- `prog_fds[cnt]`. -/
def loadFd (cnt : Nat) : Notify σ Nat := do
  let st ← get
  if inside : cnt < progFdsLength then
    return st.progFds.get ⟨cnt, inside⟩
  else
    throw ⟨cnt⟩

/-- The call of the hook `prog_changed`, if there is one. -/
def callProgChanged (hooks : NotifyHooks σ) (prog : ProgPtr) (nrThreads : Nat) (rebal : Bool) :
    Notify σ Bool := do
  match hooks.progChanged with
  | none => return rebal
  | some progChanged => do
      let st ← get
      let changed := progChanged prog nrThreads st.sched
      set { st with sched := changed.2 }
      return rebal || changed.1

/-- The reading loop of `handle_prog_notifications`, with the rounds that are left.  A read
from the empty pipe would block and ends the loop. -/
def readNotifications (pipes : ReplyPipes) (hooks : NotifyHooks σ) :
    Nat → Nat → Bool → Notify σ (Nat × Bool)
  | 0, cnt, rebal => return (cnt, rebal)
  | rounds + 1, cnt, rebal => do
      let st ← get
      match st.queued with
      | [] => return (cnt, rebal)
      | prog :: later => do
          set { st with queued := later }
          let rebal ← callProgChanged hooks prog (st.requested prog) rebal
          storeFd cnt (pipes.fd prog)
          readNotifications pipes hooks rounds (cnt + 1) rebal

/-- The replying loop of `handle_prog_notifications`. -/
def replyNotifications : Nat → Notify σ Unit
  | 0 => return ()
  | cnt + 1 => do
      let fd ← loadFd cnt
      modify fun st => { st with trace := st.trace ++ [.replied fd] }
      replyNotifications cnt

/-- `handle_prog_notifications`. -/
def handleProgNotifications (pipes : ReplyPipes) (hooks : NotifyHooks σ) : Notify σ Unit := do
  let (cnt, rebal) ← readNotifications pipes hooks sizeofProgFds 0 false
  if rebal then
    modify fun st => { st with
      sched := hooks.rebalance st.sched, trace := st.trace ++ [.rebalanced] }
  replyNotifications cnt

end Server

section Correctness

variable {σ : Type} {pipes : ReplyPipes} {hooks : NotifyHooks σ} {st : NotifyState σ}
variable {E : Overrun → NotifyState σ → Prop}

/-- The array holds the descriptors of the programs read so far. -/
def HoldsFds (pipes : ReplyPipes) (read : List ProgPtr) (fds : Vector Nat progFdsLength) : Prop :=
  ∀ (k : Nat) (prog : ProgPtr), read[k]? = some prog → fds.toList[k]? = some (pipes.fd prog)

theorem storeFd_run {cnt : Nat} (inside : cnt < progFdsLength) (fd : Nat) (st : NotifyState σ) :
    storeFd cnt fd st = .ok () { st with progFds := st.progFds.set cnt fd inside } := by
  unfold storeFd
  rw [dif_pos inside]
  rfl

theorem storeFd_overrun {cnt : Nat} (outside : ¬ cnt < progFdsLength) (fd : Nat)
    (st : NotifyState σ) : storeFd cnt fd st = .error ⟨cnt⟩ st := by
  unfold storeFd
  rw [dif_neg outside]
  rfl

theorem loadFd_run {cnt fd : Nat} (stored : st.progFds.toList[cnt]? = some fd) :
    loadFd cnt st = .ok fd st := by
  have inside : cnt < progFdsLength := by
    have bound := (List.getElem?_eq_some_iff.mp stored).1
    rwa [Vector.length_toList] at bound
  have value : st.progFds[cnt] = fd := by
    rw [← Option.some_inj, ← stored, Vector.getElem?_toList, Vector.getElem?_eq_getElem inside]
  rw [← value]
  unfold loadFd
  simp only [inside, dite_true]
  rfl

theorem HoldsFds.store {read : List ProgPtr} {fds : Vector Nat progFdsLength}
    (holds : HoldsFds pipes read fds) (inside : read.length < progFdsLength) (prog : ProgPtr) :
    HoldsFds pipes (read ++ [prog]) (fds.set read.length (pipes.fd prog) inside) := by
  intro k other atK
  rw [Vector.toList_set, List.getElem?_set]
  by_cases last : k = read.length
  · subst last
    rw [List.getElem?_concat_length, Option.some_inj] at atK
    simp [inside, atK]
  · have earlier : k < read.length := by
      have bound := (List.getElem?_eq_some_iff.mp atK).1
      rw [List.length_append, List.length_singleton] at bound
      omega
    rw [List.getElem?_append_left earlier] at atK
    rw [if_neg (Ne.symm last)]
    exact holds k other atK

/-- Where the reading loop stands. -/
structure Reading (pipes : ReplyPipes) (start : NotifyState σ) (read : List ProgPtr)
    (st : NotifyState σ) : Prop where
  split : start.queued = read ++ st.queued
  holds : HoldsFds pipes read st.progFds
  trace : st.trace = start.trace

/-- The hook only changes the data of the policy. -/
theorem callProgChanged_spec (prog : ProgPtr) (nrThreads : Nat) (rebal : Bool)
    (st : NotifyState σ) : wp (callProgChanged hooks prog nrThreads rebal)
      (fun _ st' => st'.queued = st.queued ∧ st'.progFds = st.progFds ∧ st'.trace = st.trace)
      E st := by
  unfold callProgChanged
  cases hooks.progChanged with
  | none => exact Wp.pure ⟨rfl, rfl, rfl⟩
  | some progChanged => exact ⟨rfl, rfl, rfl⟩

/-- As long as the array has room, the loop reads what is queued. -/
theorem readNotifications_spec (start : NotifyState σ) (fits : start.queued.length ≤ progFdsLength)
    (rounds : Nat) : ∀ (read : List ProgPtr) (rebal : Bool) (st : NotifyState σ),
      Reading pipes start read st → st.queued.length < rounds →
      wp (readNotifications pipes hooks rounds read.length rebal)
        (fun ended st' => ended.1 = start.queued.length ∧ st'.queued = [] ∧
          Reading pipes start start.queued st') E st := by
  induction rounds with
  | zero => exact fun _ _ _ _ enough => absurd enough (Nat.not_lt_zero _)
  | succ rounds ih =>
      intro read rebal st reading enough
      refine Wp.bind_ok rfl ?_
      cases queue : st.queued with
      | nil =>
          have all : start.queued = read := by rw [reading.split, queue, List.append_nil]
          exact Wp.pure ⟨by rw [all], queue, all ▸ reading⟩
      | cons prog later =>
          have split : start.queued = (read ++ [prog]) ++ later := by
            rw [reading.split, queue, List.append_assoc, List.singleton_append]
          have inside : read.length < progFdsLength := by
            rw [split, List.length_append, List.length_append, List.length_singleton] at fits
            omega
          refine Wp.bind_ok rfl ?_
          refine Wp.bind (callProgChanged_spec prog _ rebal _) ?_
          intro rebal st' called
          have left : st'.queued = later := called.1
          refine Wp.bind_ok (storeFd_run inside _ st') ?_
          have counted : read.length + 1 = (read ++ [prog]).length := by simp
          rw [counted]
          apply ih (read ++ [prog]) rebal
          · exact {
              split := by rw [split, ← left]
              holds := HoldsFds.store (called.2.1 ▸ reading.holds) inside prog
              trace := called.2.2.trans reading.trace }
          · rw [queue, List.length_cons, ← left] at enough
            exact Nat.lt_of_succ_lt_succ enough

/-- With more handles than the array has elements, the loop stores behind its end. -/
theorem readNotifications_overrun (rounds : Nat) :
    ∀ (cnt : Nat) (rebal : Bool) (st : NotifyState σ),
      progFdsLength < cnt + st.queued.length → progFdsLength < cnt + rounds →
      cnt ≤ progFdsLength →
      wp (readNotifications pipes hooks rounds cnt rebal) (fun _ _ => False)
        (fun overrun _ => overrun = ⟨progFdsLength⟩) st := by
  induction rounds with
  | zero => exact fun cnt _ _ _ enough bound => absurd enough (Nat.not_lt.mpr bound)
  | succ rounds ih =>
      intro cnt rebal st many enough bound
      refine Wp.bind_ok rfl ?_
      cases queue : st.queued with
      | nil =>
          rw [queue, List.length_nil] at many
          exact absurd many (Nat.not_lt.mpr bound)
      | cons prog later =>
          refine Wp.bind_ok rfl ?_
          refine Wp.bind (callProgChanged_spec prog _ rebal _) ?_
          intro rebal st' called
          have left : st'.queued = later := called.1
          rcases Nat.lt_or_eq_of_le bound with inside | full
          · refine Wp.bind_ok (storeFd_run inside _ st') ?_
            rw [queue, List.length_cons, ← left] at many
            apply ih (cnt + 1) rebal
            · change progFdsLength < cnt + 1 + st'.queued.length
              omega
            · omega
            · exact inside
          · subst full
            exact Wp.bind_iff.mpr ((of_error (storeFd_overrun (Nat.lt_irrefl _) _ st')).mpr rfl)

/-- The second loop replies to the programs read, from the last to the first. -/
theorem replyNotifications_spec (read : List ProgPtr) (st : NotifyState σ) :
    HoldsFds pipes read st.progFds →
    wp (replyNotifications read.length) (fun _ st' => st' =
      { st with trace := st.trace ++ read.reverse.map fun prog => .replied (pipes.fd prog) })
      E st := by
  induction read using List.reverseRecOn generalizing st with
  | nil =>
      intro _
      exact Wp.pure (by simp)
  | append_singleton read last ih =>
      intro holds
      rw [List.length_append, List.length_singleton]
      have stored := holds read.length last List.getElem?_concat_length
      refine Wp.bind_ok (loadFd_run stored) ?_
      refine Wp.bind_ok rfl ?_
      have earlier : HoldsFds pipes read st.progFds := fun k prog atK =>
        holds k prog (List.getElem?_append_left (List.getElem?_eq_some_iff.mp atK).1 ▸ atK)
      refine Wp.imp (ih _ earlier) fun _ st' replied => ?_
      rw [replied]
      simp

/-- What the applications can rely on: the call stays in the array; what it has read from
the pipe and what it has left there is what was queued; and, after the rebalance if there
is one, it has written one reply to each program that it has read and none to another. -/
def AnswersWhatItReads (pipes : ReplyPipes) (hooks : NotifyHooks σ) (st : NotifyState σ) : Prop :=
  ∃ (st' : NotifyState σ) (read : List ProgPtr) (rebalanced replies : List NotifyAction),
    handleProgNotifications pipes hooks st = .ok () st' ∧
    st.queued = read ++ st'.queued ∧
    st'.trace = st.trace ++ rebalanced ++ replies ∧
    (rebalanced = [] ∨ rebalanced = [.rebalanced]) ∧
    (∀ action ∈ replies, ∃ prog ∈ read, action = .replied (pipes.fd prog)) ∧
    ∀ prog ∈ read, replies.count (.replied (pipes.fd prog)) = 1

theorem handleProgNotifications_spec (fits : st.queued.length ≤ progFdsLength) :
    wp (handleProgNotifications pipes hooks) (fun _ st' => st'.queued = [] ∧
      ∃ rebalanced, (rebalanced = [] ∨ rebalanced = [.rebalanced]) ∧
        st'.trace = st.trace ++ rebalanced ++
          st.queued.reverse.map fun prog => .replied (pipes.fd prog)) E st := by
  have start : Reading pipes st [] st := ⟨rfl, fun k prog atK => by simp at atK, rfl⟩
  have rounds : st.queued.length < sizeofProgFds := Nat.lt_of_le_of_lt fits (by decide)
  refine Wp.bind (readNotifications_spec st fits sizeofProgFds [] false st start rounds) ?_
  rintro ⟨cnt, rebal⟩ st' ⟨counted, drained, reading⟩
  change cnt = st.queued.length at counted
  subst counted
  cases rebal with
  | false =>
      refine Wp.imp (replyNotifications_spec st.queued st' reading.holds) fun _ ended replied => ?_
      rw [replied]
      exact ⟨drained, [], .inl rfl, by rw [List.append_nil, ← reading.trace]⟩
  | true =>
      refine Wp.bind_ok rfl ?_
      refine Wp.imp (replyNotifications_spec st.queued _ reading.holds) fun _ ended replied => ?_
      rw [replied]
      exact ⟨drained, [.rebalanced], .inr rfl, by rw [← reading.trace]⟩

/-- Distinct programs have distinct reply pipes, so each one gets a single reply. -/
theorem count_replies {read : List ProgPtr} (distinct : read.Nodup) {prog : ProgPtr}
    (isRead : prog ∈ read) :
    (read.reverse.map fun prog => NotifyAction.replied (pipes.fd prog)).count
      (.replied (pipes.fd prog)) = 1 := by
  have reply : Function.Injective fun prog => NotifyAction.replied (pipes.fd prog) :=
    fun _ _ same => pipes.distinct (NotifyAction.replied.inj same)
  rw [List.count_map_of_injective _ _ reply prog]
  exact List.count_eq_one_of_mem (List.nodup_reverse.mpr distinct) (List.mem_reverse.mpr isRead)

/-- A call answers what it reads exactly when the handles that are queued fit in `prog_fds`. -/
theorem answers_what_it_reads_iff (pipes : ReplyPipes) (hooks : NotifyHooks σ)
    (st : NotifyState σ) (oneEach : st.queued.Nodup) :
    AnswersWhatItReads pipes hooks st ↔ st.queued.length ≤ 16 := by
  constructor
  · intro answers
    obtain ⟨st', read, rebalanced, replies, run, -⟩ := answers
    by_contra many
    have overrun : wp (handleProgNotifications pipes hooks) (fun _ _ => False)
        (fun overrun _ => overrun = ⟨progFdsLength⟩) st := by
      refine Wp.bind (readNotifications_overrun sizeofProgFds 0 false st ?_ (by decide) (by decide))
        fun _ _ never => never.elim
      rw [Nat.zero_add]
      exact Nat.not_le.mp many
    exact (of_ok run).mp overrun
  · intro fits
    have spec : wp (handleProgNotifications pipes hooks) _ (fun _ _ => False) st :=
      handleProgNotifications_spec fits
    cases run : handleProgNotifications pipes hooks st with
    | error overrun st' => exact ((of_error run).mp spec).elim
    | ok _ st' =>
        obtain ⟨drained, rebalanced, optional, trace⟩ := (of_ok run).mp spec
        refine ⟨st', st.queued, rebalanced, _, run, by rw [drained, List.append_nil], trace,
          optional, ?_, fun prog isRead => count_replies oneEach isRead⟩
        intro action replied
        obtain ⟨prog, isRead, rfl⟩ := List.mem_map.mp replied
        exact ⟨prog, List.mem_reverse.mp isRead, rfl⟩

/-- An executor with the first `count` programs blocked on a reply. -/
def NotifyState.blocked (count : Nat) : NotifyState Unit where
  sched := ()
  requested _ := 1
  queued := List.range count
  progFds := Vector.replicate progFdsLength 0
  trace := []

/-- The policies have no hook `prog_changed`. -/
def NotifyHooks.none : NotifyHooks Unit := ⟨Option.none, id⟩

/-- Program `k` reads its replies from descriptor `k`. -/
def ReplyPipes.numbered : ReplyPipes := ⟨id, Function.injective_id⟩

theorem answers_what_it_reads_iff_three :
    AnswersWhatItReads ReplyPipes.numbered NotifyHooks.none (NotifyState.blocked 3) ↔ 3 ≤ 16 :=
  answers_what_it_reads_iff ReplyPipes.numbered NotifyHooks.none (NotifyState.blocked 3)
    List.nodup_range

/-- Seventeen blocked applications: the last descriptor is stored behind the array. -/
theorem overruns_at_seventeen :
    ¬ AnswersWhatItReads ReplyPipes.numbered NotifyHooks.none (NotifyState.blocked 17) := by
  intro answers
  obtain ⟨st', _, _, _, run, -⟩ := answers
  have stopped : returnsWith (handleProgNotifications ReplyPipes.numbered NotifyHooks.none)
      (NotifyState.blocked 17) (fun _ => true) = false := by decide +kernel
  rw [returnsWith, run] at stopped
  exact Bool.noConfusion stopped

end Correctness

end BachScheduler
