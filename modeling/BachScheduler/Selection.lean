import BachScheduler.CQsortCorrectness
import BachScheduler.Decision
import Mathlib.Data.Set.List

/-!
# What the selections of the policies pick

Every selection takes programs from `progs_all` until the cores it counts are full or
no program is left.  Programs that differ in nothing but an increasing ratio are taken
in the order of the list; it is enough that the ratio increases at the front, among as
many programs as can matter when each takes a core.
-/

namespace BachScheduler

open BachScheduler.Ring Wp

namespace Decision

variable {d : Decision} {full : Int → Prop} {progs picked rest : List ProgPtr} {st : ExecState}
variable {prog : ProgPtr}

/-- The programs at the front of a list. -/
def leaders (progs : List ProgPtr) : List ProgPtr :=
  progs.take (maxCores.toNat + 1)

/-- The ratio of a program, as `get_value` gives it. -/
def ratio (d : Decision) (prog : ProgPtr) : Int :=
  ((d.traits prog).ratio.setWidth 32).toInt

/-- No rule of a policy prefers one of the programs to the leaders before it. -/
structure Bland (d : Decision) (progs : List ProgPtr) : Prop where
  category : ∀ prog ∈ progs, (d.traits prog).category = .none
  sumMemReads : ∀ prog ∈ progs, (d.traits prog).sumMemReads = 0
  waitingTime : ∀ prog ∈ progs, ∀ other ∈ progs,
    (d.traits prog).waitingTime = (d.traits other).waitingTime
  increasing : (leaders progs).Pairwise fun prog other => d.ratio prog < d.ratio other
  behind : ∀ prog ∈ leaders progs, ∀ other ∈ progs, other ∉ leaders progs →
    d.ratio prog < d.ratio other

/-- Of `progs`, some were picked one after the other, each before the cores were full. -/
structure Chosen (d : Decision) (full : Int → Prop) (progs picked rest : List ProgPtr)
    (st : ExecState) : Prop where
  here : d.At picked rest st
  perm : (picked ++ rest).Perm progs
  ordered : d.Bland progs → leaders (picked ++ rest) = leaders progs
  guarded : ∀ before prog after, picked = before ++ prog :: after → ¬ full (d.cores before)

/-- The end of a selection. -/
def Done (d : Decision) (full : Int → Prop) (progs : List ProgPtr) (st : ExecState) : Prop :=
  ∃ picked rest, d.Chosen full progs picked rest st ∧ (full (d.cores picked) ∨ rest = [])

namespace Chosen

theorem start (here : d.At [] progs st) : d.Chosen full progs [] progs st where
  here := here
  perm := .refl _
  ordered _ := rfl
  guarded before prog after split := by simp at split

theorem extend (chosen : d.Chosen full progs picked rest st) {st' : ExecState}
    {remaining : List ProgPtr} (here : d.At (picked ++ [prog]) remaining st')
    (perm : (prog :: remaining).Perm rest) (notFull : ¬ full (d.cores picked))
    (ordered : d.Bland progs → prog :: remaining = rest) :
    d.Chosen full progs (picked ++ [prog]) remaining st' where
  here := here
  perm := by
    rw [List.append_assoc]
    exact (perm.append_left picked).trans chosen.perm
  ordered bland := by
    rw [List.append_assoc, ← chosen.ordered bland, ← ordered bland]
    rfl
  guarded := by
    intro before first after split
    rcases List.eq_nil_or_concat after with rfl | ⟨front, last, rfl⟩
    · obtain ⟨rfl, -⟩ := List.append_inj' split rfl
      exact notFull
    · have split : picked ++ [prog] = (before ++ first :: front) ++ [last] := by simpa using split
      exact chosen.guarded before first front (List.append_inj' split rfl).1

theorem written (chosen : d.Chosen full progs picked rest st) :
    d.Chosen full progs picked rest st.written :=
  ⟨Has.written chosen.here, chosen.perm, chosen.ordered, chosen.guarded⟩

theorem take (chosen : d.Chosen full progs picked rest st) (listed : prog ∈ rest)
    (notFull : ¬ full (d.cores picked)) (ordered : d.Bland progs → rest.head? = some prog) :
    d.Chosen full progs (picked ++ [prog]) (rest.erase prog)
      ((st.moved prog .progsSch).assigned prog (d.cores picked)) := by
  refine chosen.extend (chosen.here.take listed) (List.perm_cons_erase listed).symm notFull
    fun bland => ?_
  obtain ⟨tail, rfl⟩ := List.head?_eq_some_iff.mp (ordered bland)
  simp

end Chosen

section Sorting

/-- The key of `get_value`, for every node. -/
def ratioKey (st : ExecState) (node : Node) : Int :=
  (getValue st.pds node).getD 0

/-- Elements that may only stand in front make up the front of a list. -/
theorem filter_append_filter_not {α : Type} (front : α → Bool) (l : List α)
    (order : l.Pairwise fun a b => front b → front a) :
    l.filter front ++ l.filter (fun a => !front a) = l := by
  induction l with
  | nil => rfl
  | cons a later ih =>
      obtain ⟨first, order⟩ := List.pairwise_cons.mp order
      cases inFront : front a with
      | true => simp [inFront, ih order]
      | false =>
          have none : later.filter front = [] :=
            List.filter_eq_nil_iff.mpr fun b member there => by
              simp [first b member there] at inFront
          have all : later.filter (fun b => !front b) = later := by
            have rest := ih order
            rwa [none, List.nil_append] at rest
          simp [inFront, none, all]

/-- Sorting by ratio leaves the leaders of bland programs in front. -/
theorem leaders_sorted {sorted : List ProgPtr} (perm : sorted.Perm progs) (nodup : progs.Nodup)
    (order : sorted.Pairwise fun prog other => d.ratio prog ≤ d.ratio other)
    (bland : d.Bland progs) : leaders sorted = leaders progs := by
  let front := fun prog => decide (prog ∈ leaders progs)
  have ahead : sorted.Pairwise fun prog other => front other → front prog := by
    refine order.imp_of_mem fun {prog other} inSorted _ le there => ?_
    by_contra behind
    have less := bland.behind other (by simpa [front] using there) prog (perm.subset inSorted)
      (by simpa [front] using behind)
    omega
  have distinct : (leaders progs).Pairwise fun prog other => d.ratio prog ≠ d.ratio other :=
    bland.increasing.imp fun less => less.ne
  have symm : Std.Symm fun prog other => d.ratio prog ≠ d.ratio other :=
    ⟨fun _ _ differ => differ.symm⟩
  have leading : progs.filter front = leaders progs := by
    have split : leaders progs ++ progs.drop (maxCores.toNat + 1) = progs :=
      List.take_append_drop ..
    have apart := List.disjoint_of_nodup_append (split.symm ▸ nodup)
    calc progs.filter front
        = (leaders progs ++ progs.drop (maxCores.toNat + 1)).filter front := by rw [split]
      _ = leaders progs ++ [] := by
          rw [List.filter_append, List.filter_eq_self.mpr fun prog there => by
            simpa [front] using there, List.filter_eq_nil_iff.mpr fun prog there => by
              simpa [front] using fun ahead => apart ahead there]
      _ = leaders progs := List.append_nil _
  have inFront : sorted.filter front = leaders progs := by
    refine (leading ▸ perm.filter front).eq_of_pairwise (fun a b inSorted inProgs le ge => ?_)
      (order.filter _) (bland.increasing.imp le_of_lt)
    by_contra differ
    exact distinct.forall (by simpa [front] using (List.mem_filter.mp inSorted).2) inProgs differ
      (le_antisymm le ge)
  have split := filter_append_filter_not front sorted ahead
  rw [inFront] at split
  have total := congrArg List.length split
  rw [List.length_append, perm.length_eq, leaders, List.length_take] at total
  rw [← split]
  unfold leaders
  rw [List.take_append, List.take_take, min_self, List.length_take]
  refine (congrArg _ (List.take_eq_nil_iff.mpr ?_)).trans (List.append_nil _)
  rw [← List.length_eq_zero_iff]
  omega

/-- The programs in the order into which the quicksort puts them. -/
def sorted (d : Decision) (progs : List ProgPtr) : List ProgPtr :=
  Hoare.sort (keyOrder .asc d.ratio) progs

theorem sorted_perm (progs : List ProgPtr) : (d.sorted progs).Perm progs := Hoare.sort_perm _ progs

theorem sorted_increasing (progs : List ProgPtr) :
    (d.sorted progs).Pairwise fun prog other => d.ratio prog ≤ d.ratio other :=
  sortedBy_sort .asc d.ratio progs

/-- `qsrt_quicksort(all, ASC)` sorts the programs of `progs_all` by ratio. -/
theorem sortAll_sorts {E : Stop → ExecState → Prop} (here : d.At [] progs st) :
    wp sortAll (fun _ st' => d.At [] (d.sorted progs) st') E st := by
  refine Wp.bind_ok (walkFuel_run st) (Wp.bind_ok rfl ?_)
  have keys : ∀ z ∈ progs.map Node.plNode, getValue st.pds z = some (ratioKey st z) := by
    intro z member
    obtain ⟨prog, -, rfl⟩ := List.mem_map.mp member
    rfl
  have short := here.short
  obtain ⟨heap, run, ring, -, frame⟩ :=
    qsrtQuicksort_eq .asc (fun a b (equal : Node.temp a = Node.temp b) => by simpa using equal)
      (progs.map Node.plNode) .progsAll ⟨st.links, st.brk⟩ (st.progsAllocated + 1) keys here.ring
      (by simp) (by simp; omega)
  rw [run]
  refine Wp.bind_ok rfl (Wp.modify ?_)
  have same : ∀ prog, ratioKey st (.plNode prog) = d.ratio prog := fun prog => by
    rw [ratio, ← here.traits]
    rfl
  have renamed : Hoare.sort (keyOrder .asc (ratioKey st)) (progs.map Node.plNode) =
      (d.sorted progs).map Node.plNode :=
    Hoare.sort_map (fun prog other => by simp only [keyOrder, same]) progs
  rw [renamed] at ring
  have rings := here.rings.permute progsAll_mem (by simpa using sorted_perm progs) ring
    (by simp [heads, d.noTemp])
    fun x outside notTemp => frame x (by simpa using outside) fun k _ => notTemp k
  rw [update_progsAll] at rings
  exact here.relink rings rfl rfl

theorem sortAll_spec {E : Stop → ExecState → Prop} (full : Int → Prop) (here : d.At [] progs st) :
    wp sortAll (fun _ st' => ∃ sorted, d.Chosen full progs [] sorted st') E st :=
  Wp.imp (sortAll_sorts here) fun _ _ after => ⟨d.sorted progs, after, sorted_perm progs,
    leaders_sorted (sorted_perm progs) here.nodup (sorted_increasing progs), by simp⟩

end Sorting

section Pass

variable {ρ : Type}

/-- The body of a loop that picks the programs that a rule admits. -/
def admitBody (cores : ρ → Int) (admits : ProgData → ρ → Option (Int → ρ)) (prog : ProgPtr)
    (acc : ρ) : Exec (ForInStep ρ) := do
  if cores acc = maxCores then
    return .done acc
  else do
    let pd ← readPd prog
    match admits pd acc with
    | none => return .yield acc
    | some next => do
        let cores ← dispatch prog (cores acc)
        return .yield (next cores)

theorem admitBody_refused {cores : ρ → Int} {admits : ProgData → ρ → Option (Int → ρ)} {acc : ρ}
    (notFull : cores acc ≠ maxCores) (refused : admits (st.pds prog) acc = none) :
    admitBody cores admits prog acc st = .ok (.yield acc) st := by
  unfold admitBody
  rw [if_neg notFull]
  simp only [Bind.bind, EStateM.bind, readPd_run, refused]
  rfl

/-- A loop over `progs_all` that picks what a rule admits.  A `lenient` rule passes over no
program, and every rule is lenient with bland programs. -/
theorem pass_spec {E : Stop → ExecState → Prop} {cores : ρ → Int}
    {admits : ProgData → ρ → Option (Int → ρ)} {acc : ρ} (lenient : Prop)
    (counts : ∀ pd acc next taken, admits pd acc = some next → cores (next taken) = taken)
    (admitted : lenient → ∀ prog ∈ progs, ∀ pd, pd.traits = d.traits prog →
      ∀ acc, admits pd acc ≠ none)
    (bland : d.Bland progs → lenient) (chosen : d.Chosen (· = maxCores) progs picked rest st)
    (start : cores acc = d.cores picked) :
    wp (cdsListForEachEntrySafe .progsAll acc (admitBody cores admits))
      (fun acc' st' => ∃ picked' rest', d.Chosen (· = maxCores) progs picked' rest' st' ∧
        cores acc' = d.cores picked' ∧ (d.cores picked' = maxCores ∨ (lenient → rest' = [])))
      E st := by
  refine forEachEntrySafe_spec (fun ahead acc st => ∃ picked skipped,
      d.Chosen (· = maxCores) progs picked (skipped ++ ahead) st ∧ cores acc = d.cores picked ∧
        (lenient → skipped = []))
    chosen.here.ring chosen.here.short ?_ ?_ ?_ ⟨picked, [], chosen, start, fun _ => rfl⟩
  · intro ahead acc st inv
    obtain ⟨picked, skipped, chosen, -⟩ := inv
    exact ⟨skipped, chosen.here.ring⟩
  · intro prog ahead acc st inv
    obtain ⟨picked, skipped, chosen, counted, passed⟩ := inv
    unfold admitBody
    refine Wp.ite (fun isFull => Wp.pure ?_) fun notFull => Wp.bind_ok (readPd_run prog st) ?_
    · exact ⟨picked, _, chosen, counted, .inl (counted ▸ isFull)⟩
    have member : prog ∈ progs := chosen.perm.subset (by simp)
    have traits := chosen.here.traits prog
    cases verdict : admits (st.pds prog) acc with
    | none =>
        refine Wp.pure ⟨picked, skipped ++ [prog], by simpa using chosen, counted, fun mild => ?_⟩
        exact absurd verdict (admitted mild prog member _ traits acc)
    | some next =>
        have listed : prog ∈ skipped ++ prog :: ahead := by simp
        have remaining := erase_middle chosen.here.nodup
        rw [counted] at notFull ⊢
        refine Wp.bind_ok (chosen.here.dispatch_run listed) (Wp.pure ?_)
        have taken := chosen.written.take listed notFull fun same => by simp [passed (bland same)]
        rw [remaining] at taken
        exact ⟨picked ++ [prog], skipped, taken, counts _ _ _ _ verdict, passed⟩
  · intro acc st inv
    obtain ⟨picked, skipped, chosen, counted, passed⟩ := inv
    rw [List.append_nil] at chosen
    exact ⟨picked, skipped, chosen, counted, .inr passed⟩

end Pass

end Decision

end BachScheduler
