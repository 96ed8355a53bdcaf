import BachScheduler.Lib.Words
import BachScheduler.Selection
import Mathlib.Data.List.MinMax
import Mathlib.Order.ConditionallyCompleteLattice.Basic
import Mathlib.Data.Int.ConditionallyCompleteOrder

/-!
# Which program a choice takes

`perf_schedule` and the two functions `good_neighbors` look through a list for the best
program.  Each scan finds the first of the best ones, also where it compares with a field
that it refreshes only as it passes, or where it moves the candidates to a list of its own.
-/

namespace BachScheduler

open BachScheduler.Ring Wp Words

section Scan

variable {α β : Type} [LinearOrder β] {f : α → β} {done ahead : List α} {a best : α}

/-- The best element of what a scan has seen; at the start it is the first one ahead. -/
def Scanned (f : α → β) (done ahead : List α) (best : α) : Prop :=
  done.argmin f = some best ∨ done = [] ∧ ahead.head? = some best

theorem Scanned.step (scanned : Scanned f done (a :: ahead) best) :
    Scanned f (done ++ [a]) ahead (if f a < f best then a else best) := by
  left
  rcases scanned with found | ⟨rfl, first⟩
  · rw [List.argmin_concat, found]
    dsimp only
    split <;> rfl
  · obtain rfl : a = best := by simpa using first
    simp

theorem Scanned.finish (scanned : Scanned f done [] best) : done.argmin f = some best := by
  rcases scanned with found | ⟨-, first⟩
  · exact found
  · simp at first

/-- Two measures that order the elements of a list alike find the same one. -/
theorem argmin_congr {γ : Type} [LinearOrder γ] {g : α → γ} {l : List α}
    (same : ∀ a ∈ l, ∀ b ∈ l, f a < f b ↔ g a < g b) : l.argmin f = l.argmin g := by
  induction l using List.reverseRecOn with
  | nil => rfl
  | append_singleton before last ih =>
      have found := ih fun a first b second =>
        same a (List.mem_append_left _ first) b (List.mem_append_left _ second)
      rw [List.argmin_concat, List.argmin_concat, found]
      cases least : before.argmin g with
      | none => rfl
      | some best =>
          have member : best ∈ before ++ [last] := List.mem_append_left _ (List.argmin_mem least)
          simp only [same last (by simp) best member]

theorem argmax_congr {γ : Type} [LinearOrder γ] {g : α → γ} {l : List α}
    (same : ∀ a ∈ l, ∀ b ∈ l, f a < f b ↔ g a < g b) : l.argmax f = l.argmax g :=
  argmin_congr (f := OrderDual.toDual ∘ f) (g := OrderDual.toDual ∘ g) fun a first b second =>
    same b second a first

/-- The least element by one measure is the greatest one by a measure that orders the other way. -/
theorem argmin_eq_argmax {γ : Type} [LinearOrder γ] {g : α → γ} {l : List α}
    (reverse : ∀ a ∈ l, ∀ b ∈ l, f a < f b ↔ g b < g a) : l.argmin f = l.argmax g :=
  argmin_congr (g := OrderDual.toDual ∘ g) reverse

/-- Among elements that are equally good, the first one is found. -/
theorem argmin_of_even (even : ∀ b ∈ ahead, f b = f a) : (a :: ahead).argmin f = some a := by
  induction ahead using List.reverseRecOn with
  | nil => rfl
  | append_singleton before last ih =>
      have found := ih fun b member => even b (List.mem_append_left _ member)
      have same := even last (by simp)
      rw [← List.cons_append, List.argmin_concat, found]
      simp [same]

end Scan

namespace Traits

/-- The time that a program has waited. -/
def waiting (traits : Traits) : Int := traits.waitingTime.toInt

/-- What a program reads from memory. -/
def memReads (traits : Traits) : Int := traits.sumMemReads.toNat

/-- How far a program is from using the remaining bandwidth. -/
def misfit (bw : Int) (traits : Traits) : Int := |bw - traits.memReads|

/-- The programs that `good_neighbors` of `fair_bw_cache.c` considers. -/
def wanted (bwOn : Bool) (traits : Traits) : Bool :=
  if bwOn then traits.category = .bw else traits.category = .cs || traits.category = .cns

/-- What `good_neighbors` of `fair_bw_cache.c` compares. -/
def demand (bwOn : Bool) (traits : Traits) : Int :=
  if bwOn then traits.memReads else traits.llcAlone.toInt

end Traits

/-- The distance of the fitness functions is that of the integers. -/
theorem bwDistance_toNat {bw reads : Word64} (nonneg : 0 ≤ bw.toInt) :
    ((bwDistance bw reads).toNat : Int) = |bw.toInt - reads.toNat| := by
  rw [← toNat_of_nonneg nonneg]
  unfold bwDistance
  split
  case isTrue le =>
    rw [BitVec.toNat_sub_of_le le, Nat.cast_sub (BitVec.le_def.mp le), abs_of_nonneg]
    have le := BitVec.le_def.mp le
    omega
  case isFalse notLe =>
    have le := BitVec.le_of_lt (BitVec.not_le.mp notLe)
    rw [BitVec.toNat_sub_of_le le, Nat.cast_sub (BitVec.le_def.mp le), abs_of_nonpos]
    · omega
    · have le := BitVec.le_def.mp le
      omega

namespace Decision

variable {d : Decision} {progs picked rest assigned : List ProgPtr} {st : ExecState}
    {prog : ProgPtr}
variable {first : ProgPtr} {later : List ProgPtr} {E : Stop → ExecState → Prop}

theorem readWalk_spec {ρ : Type} {head : Node} {body : ProgPtr → ρ → Exec (ForInStep ρ)} {acc : ρ}
    (I : List ProgPtr → ρ → Prop) (ring : IsRing st.links head (progs.map Node.plNode))
    (short : progs.length ≤ st.progsAllocated)
    (each : ∀ prog ahead acc, I (prog :: ahead) acc →
      ∃ acc', body prog acc st = .ok (.yield acc') st ∧ I ahead acc')
    (start : I progs acc) :
    wp (cdsListForEachEntrySafe head acc body) (fun acc' st' => st' = st ∧ I [] acc') E st := by
  refine forEachEntrySafe_spec
    (fun ahead acc st' => st' = st ∧ (∃ before, progs = before ++ ahead) ∧
      I ahead acc)
    ring short ?_ ?_ ?_ ⟨rfl, ⟨[], rfl⟩, start⟩
  · rintro ahead acc st' ⟨rfl, ⟨before, rfl⟩, -⟩
    exact ⟨before, ring⟩
  · rintro prog ahead acc st' ⟨rfl, ⟨before, split⟩, inv⟩
    obtain ⟨acc', run, next⟩ := each prog ahead acc inv
    exact (of_ok run).mpr ⟨rfl, ⟨before ++ [prog], by simpa using split⟩, next⟩
  · rintro acc st' ⟨rfl, -, inv⟩
    exact ⟨rfl, inv⟩

theorem cdsListFirst_run {head : Node} {first : ProgPtr} {later : List ProgPtr}
    (ring : IsRing st.links head ((first :: later).map Node.plNode)) :
    cdsListFirst head st = .ok first st := by
  have next := next_head_walkPos ring
  change cdsListEntry (st.links.next head) st = _
  rw [next]
  rfl

/-- A walk that compares each program with the best one so far. -/
theorem scanWalk_spec {β : Type} [LinearOrder β] {head : Node}
    {body : ProgPtr → ProgPtr → Exec (ForInStep ProgPtr)} (f : ProgPtr → β)
    (ring : IsRing st.links head ((first :: later).map Node.plNode))
    (short : (first :: later).length ≤ st.progsAllocated)
    (each : ∀ prog best, body prog best st =
      .ok (.yield (if f prog < f best then prog else best)) st) :
    wp (cdsListForEachEntrySafe head first body)
      (fun best st' => st' = st ∧ (first :: later).argmin f = some best) E st := by
  refine Wp.imp (readWalk_spec (fun ahead best => ∃ done, first :: later = done ++ ahead ∧
    Scanned f done ahead best) ring short ?_ ⟨[], rfl, .inr ⟨rfl, rfl⟩⟩) fun best st' found => ?_
  · intro prog ahead best inv
    obtain ⟨done, split, scanned⟩ := inv
    exact ⟨_, each prog best, done ++ [prog], by simpa using split, scanned.step⟩
  · obtain ⟨same, done, split, scanned⟩ := found
    rw [List.append_nil] at split
    exact ⟨same, split ▸ scanned.finish⟩

section Perf

/-- What `plNodeUnlink` does to the state. -/
def unlinked (st : ExecState) (prog : ProgPtr) : ExecState :=
  { st with links := cdsInitListHead (.plNode prog) (cdsListDel (.plNode prog) st.links) }

theorem Has.fitness {among : List Node} {on : Lists} {assigned : List ProgPtr}
    (has : d.Has among on assigned st) (change : ProgData → Word64) :
    wp (modifyPd prog fun pd => { pd with fitness := change pd })
      (fun _ st' => d.Has among on assigned st' ∧ (st'.pds prog).fitness = change (st.pds prog) ∧
        ∀ other, other ≠ prog → (st'.pds other).fitness = (st.pds other).fitness) E st := by
  refine Wp.modify ⟨⟨has.rings, ?_, fun other => ?_⟩, by simp, fun other differs => by
    simp [differs]⟩
  · have quiet : Acts view (modifyPd prog fun pd => { pd with fitness := change pd }) id :=
      modifyPd_quiet fun pd => rfl
    exact (quiet st).trans has.viewed
  · rw [← has.traits]
    by_cases equal : other = prog
    · subst equal
      simp [ProgData.traits]
    · simp [equal]


/-- `perf_max_waiting` takes the first of those that have waited longest. -/
theorem perfMaxWaiting_chooses (here : d.At picked rest st) :
    wp perfMaxWaiting (fun drawn st' => match drawn with
      | none => rest = [] ∧ d.At picked rest st'
      | some prog => rest.argmax (fun prog => (d.traits prog).waiting) = some prog ∧ ∃ before,
          d.At picked rest before ∧
          st' = unlinked before prog) E st := by
  refine Wp.bind_ok (listEmpty_run _ st) (Wp.ite (fun empty => Wp.pure ?_) fun several => ?_)
  · exact ⟨here.empty_iff.mp empty, here⟩
  have several : rest ≠ [] := fun empty => several (here.empty_iff.mpr empty)
  obtain ⟨first, later, rfl⟩ := List.exists_cons_of_ne_nil several
  refine Wp.bind_ok (cdsListFirst_run here.ring) ?_
  refine Wp.bind
    (scanWalk_spec (fun prog => OrderDual.toDual (d.traits prog).waiting) here.ring here.short
    fun prog best => ?_) fun max st' found => ?_
  · simp only [OrderDual.toDual_lt_toDual, ← here.traits]
    rfl
  · obtain ⟨rfl, found⟩ := found
    exact Wp.bind_ok rfl (Wp.pure ⟨found, st', here, rfl⟩)

/-- The fitness that `perf_max_fitness` computes for a program. -/
def score (d : Decision) (bw : Word64) (prog : ProgPtr) : Nat :=
  (bwDistance bw (d.traits prog).sumMemReads).toNat

/-- The walk of `perf_max_fitness` finds the first of the programs that fit best, whatever
fitness values earlier walks have left. -/
theorem perfFitnessWalk_chooses (here : d.At picked (first :: later) st) (bw : Word64) :
    wp (cdsListForEachEntrySafe .progsAll first (perfFitnessBody bw))
      (fun best st' => d.At picked (first :: later) st' ∧
        (first :: later).argmin (d.score bw) = some best) E st := by
  refine forEachEntrySafe_spec (fun ahead best st => d.At picked (first :: later) st ∧
      ∃ done, first :: later = done ++ ahead ∧ Scanned (d.score bw) done ahead best ∧
        ∀ prog ∈ done, (st.pds prog).fitness = bwDistance bw (d.traits prog).sumMemReads)
    here.ring here.short ?_ ?_ ?_ ⟨here, [], rfl, .inr ⟨rfl, rfl⟩, by simp⟩
  · intro ahead best st inv
    obtain ⟨here, done, split, -⟩ := inv
    exact ⟨done, split ▸ here.ring⟩
  · intro prog ahead best st inv
    obtain ⟨here, done, split, scanned, fresh⟩ := inv
    refine Wp.bind (Has.fitness here fun pd => bwDistance bw pd.sumMemReads) fun _ st' changed => ?_
    obtain ⟨here', measured, others⟩ := changed
    refine Wp.bind_ok (writeResults_run st') (Wp.bind_ok (readPd_run prog _) ?_)
    refine Wp.bind_ok (readPd_run best _) (Wp.pure ?_)
    rw [ExecState.written_pds]
    have known : ∀ other ∈ done ++ [prog],
        (st'.pds other).fitness = bwDistance bw (d.traits other).sumMemReads := by
      intro other member
      by_cases equal : other = prog
      · rw [equal, measured, ← here.traits]
        rfl
      · rw [others other equal]
        exact fresh other ((List.mem_append.mp member).resolve_right (by simpa using equal))
    have bestKnown : best ∈ done ++ [prog] := by
      rcases scanned with found | ⟨rfl, isFirst⟩
      · exact List.mem_append_left _ (List.argmin_mem found)
      · obtain rfl : prog = best := by simpa using isFirst
        simp
    have compares : (st'.pds prog).fitness < (st'.pds best).fitness ↔
        d.score bw prog < d.score bw best := by
      rw [known prog (by simp), known best bestKnown, BitVec.lt_def]
      rfl
    have stepped := scanned.step
    simp only [← compares] at stepped
    exact ⟨here'.written, done ++ [prog], by simpa using split, stepped, known⟩
  · intro best st inv
    obtain ⟨here, done, split, scanned, -⟩ := inv
    rw [List.append_nil] at split
    exact ⟨here, split ▸ scanned.finish⟩

/-- `perf_max_fitness` takes the first of the programs that fit best. -/
theorem perfMaxFitness_chooses (here : d.At picked rest st) (bw : Word64) :
    wp (perfMaxFitness bw) (fun drawn st' => match drawn with
      | none => rest = [] ∧ d.At picked rest st'
      | some prog => rest.argmin (d.score bw) = some prog ∧ ∃ before, d.At picked rest before ∧
          st' = (unlinked before prog).written) E st := by
  refine Wp.bind_ok (listEmpty_run _ st) (Wp.ite (fun empty => Wp.pure ?_) fun several => ?_)
  · exact ⟨here.empty_iff.mp empty, here⟩
  have several : rest ≠ [] := fun empty => several (here.empty_iff.mpr empty)
  obtain ⟨first, later, rfl⟩ := List.exists_cons_of_ne_nil several
  refine Wp.bind_ok (cdsListFirst_run here.ring) (Wp.bind_ok (writeResults_run st) ?_)
  refine Wp.bind (perfFitnessWalk_chooses here.written bw) fun best st' found => ?_
  exact Wp.bind_ok rfl (Wp.bind_ok (writeResults_run _) (Wp.pure ⟨found.2, st', found.1, rfl⟩))

end Perf

section PerfFair

/-- `good_neighbors` of `perf_fair.c` takes the first of the programs that fit best. -/
theorem perfFairGoodNeighbors_chooses (ring : IsRing st.links .progsAll (rest.map Node.plNode))
    (short : rest.length ≤ st.progsAllocated) (several : rest ≠ []) (bw : Word64) :
    wp (PerfFair.goodNeighbors bw)
      (fun best st' =>
        rest.argmin (fun prog => (bwDistance bw (st.pds prog).sumMemReads).toInt) = some best ∧
          st' = st.moved best .progsSch) E st := by
  obtain ⟨first, later, rfl⟩ := List.exists_cons_of_ne_nil several
  refine Wp.bind_ok (cdsListFirst_run ring) (Wp.bind_ok (readPd_run first st) ?_)
  refine Wp.bind (readWalk_spec (fun ahead best => (∃ done, first :: later = done ++ ahead ∧
      Scanned (fun prog => (bwDistance bw (st.pds prog).sumMemReads).toInt) done ahead best.1) ∧
        best.2 = bwDistance bw (st.pds best.1).sumMemReads)
    ring short ?_ ⟨⟨[], rfl, .inr ⟨rfl, rfl⟩⟩, rfl⟩) fun best st' found => ?_
  · intro prog ahead best inv
    obtain ⟨⟨done, split, scanned⟩, measured⟩ := inv
    refine ⟨_, rfl, ⟨done ++ [prog], by simpa using split, ?_⟩, ?_⟩
    · rw [measured, apply_ite Prod.fst]
      exact scanned.step
    · split
      · rfl
      · exact measured
  · obtain ⟨rfl, ⟨done, split, scanned⟩, -⟩ := found
    rw [List.append_nil] at split
    exact ⟨split ▸ scanned.finish, rfl⟩

end PerfFair

section FairBwCache

open FairBwCache

/-- The lists while `good_neighbors` has drained some programs. -/
def drainLists (d : Decision) (picked kept drained : List ProgPtr) : Lists
  | .rest => drained
  | head => d.lists picked kept head

/-- A state within `good_neighbors`. -/
abbrev Draining (d : Decision) (picked assigned kept drained : List ProgPtr) : ExecState → Prop :=
  d.Has (.rest :: d.heads) (d.drainLists picked kept drained) assigned

theorem rest_notMem : Node.rest ∉ d.heads := by
  simp [heads, d.noRest]

variable {assigned kept drained : List ProgPtr}

theorem drain_lists : (d.drainLists picked kept drained).move .progsAll .rest prog =
    d.drainLists picked (kept.erase prog) (drained ++ [prog]) := by
  funext head
  cases head <;> simp [Lists.move, Lists.push, Lists.drop, drainLists, lists]

theorem restore_lists : (d.drainLists picked kept drained).move .rest .progsAll prog =
    d.drainLists picked (kept ++ [prog]) (drained.erase prog) := by
  funext head
  cases head <;> simp [Lists.move, Lists.push, Lists.drop, drainLists, lists]

theorem pick_lists : (d.drainLists picked kept drained).move .rest .progsSch prog =
    d.drainLists (picked ++ [prog]) kept (drained.erase prog) := by
  funext head
  cases head <;> simp [Lists.move, Lists.push, Lists.drop, drainLists, lists]

theorem rest_mem : Node.rest ∈ .rest :: d.heads := List.mem_cons_self

theorem progsAll_mem_drain : Node.progsAll ∈ .rest :: d.heads := List.mem_cons_of_mem _ progsAll_mem

theorem Has.drainStart (has : d.Has d.heads (d.lists picked rest) assigned st) :
    wp (modifyLinks (cdsInitListHead .rest))
      (fun _ st' => d.Draining picked assigned rest [] st') E st := by
  have rings := has.rings.addHead rest_notMem fun _ => Node.noConfusion
  have same : Function.update (d.lists picked rest) .rest [] = d.drainLists picked rest [] := by
    funext head
    cases head <;> simp [drainLists, lists]
  exact Wp.modify (has.relink (same ▸ rings) rfl rfl)

theorem Draining.finish (draining : d.Draining picked assigned kept drained st) :
    d.Has d.heads (d.lists picked kept) assigned st := by
  refine draining.congr (fun _ => List.mem_cons_of_mem _) fun head member => ?_
  cases head <;> first | rfl | exact absurd member rest_notMem

/-- The candidates of `good_neighbors`. -/
def wanted (d : Decision) (bwOn : Bool) (prog : ProgPtr) : Bool := (d.traits prog).wanted bwOn

/-- The first loop of `good_neighbors` moves the candidates to `rest`. -/
theorem drain_spec (bwOn : Bool) (draining : d.Draining picked assigned rest [] st) :
    wp (cdsListForEachEntrySafe .progsAll () (drainBody bwOn))
      (fun _ st' => d.Draining picked assigned (rest.filter (!d.wanted bwOn ·))
        (rest.filter (d.wanted bwOn))
        st') E st := by
  refine forEachEntrySafe_spec (fun ahead _ st => ∃ done, rest = done ++ ahead ∧
      d.Draining picked assigned (done.filter (!d.wanted bwOn ·) ++ ahead)
        (done.filter (d.wanted bwOn)) st)
    (draining.rings.ring .progsAll progsAll_mem_drain)
      (Has.short draining progsAll_mem_drain) ?_ ?_ ?_
    ⟨[], rfl, draining⟩
  · intro ahead _ st inv
    obtain ⟨done, -, draining⟩ := inv
    exact ⟨_, draining.rings.ring .progsAll progsAll_mem_drain⟩
  · intro prog ahead _ st inv
    obtain ⟨done, split, draining⟩ := inv
    have same : candidate bwOn (st.pds prog) = d.wanted bwOn prog := by
      rw [wanted, ← draining.traits]
      rfl
    refine Wp.bind_ok (readPd_run prog st) (Wp.bind (R := fun _ st' =>
      d.Draining picked assigned ((done ++ [prog]).filter (!d.wanted bwOn ·) ++ ahead)
        ((done ++ [prog]).filter (d.wanted bwOn)) st') ?_
      fun _ _ next => Wp.pure ⟨done ++ [prog], by simpa using split, next⟩)
    rw [same, List.filter_append, List.filter_append]
    refine Wp.ite (fun drawn => ?_) fun stays => Wp.pure ?_
    · have listed : prog ∈ done.filter (!d.wanted bwOn ·) ++ prog :: ahead := by simp
      have moved := draining.move progsAll_mem_drain rest_mem listed
      rw [drain_lists, erase_middle (draining.rings.nodup progsAll_mem_drain)] at moved
      exact (of_ok (elemMove2tail_run prog .rest st)).mpr (by simpa [drawn] using moved)
    · simpa [stays] using draining
  · intro _ st inv
    obtain ⟨done, split, draining⟩ := inv
    rw [List.append_nil] at split draining
    exact split ▸ draining

/-- The last loop of `good_neighbors` moves the programs of `rest` back. -/
theorem restore_spec (draining : d.Draining picked assigned kept drained st) :
    wp (cdsListForEachEntrySafe .rest () restoreBody)
      (fun _ st' => d.Draining picked assigned (kept ++ drained) [] st') E st := by
  refine forEachEntrySafe_spec (fun ahead _ st => ∃ done, drained = done ++ ahead ∧
      d.Draining picked assigned (kept ++ done) ahead st)
    (draining.rings.ring .rest rest_mem) (Has.short draining rest_mem) ?_ ?_ ?_
    ⟨[], rfl, by simpa [drainLists] using draining⟩
  · intro ahead _ st inv
    obtain ⟨done, -, draining⟩ := inv
    exact ⟨[], draining.rings.ring .rest rest_mem⟩
  · intro prog ahead _ st inv
    obtain ⟨done, split, draining⟩ := inv
    have moved := draining.move rest_mem progsAll_mem_drain List.mem_cons_self
    rw [restore_lists, List.erase_cons_head, List.append_assoc] at moved
    exact Wp.bind_ok (elemMove2tail_run prog .progsAll st)
      (Wp.pure ⟨done ++ [prog], by simpa using split, moved⟩)
  · intro _ st inv
    obtain ⟨done, split, draining⟩ := inv
    rw [List.append_nil] at split
    exact split ▸ draining

/-- What `good_neighbors` of `fair_bw_cache.c` compares. -/
def demand (d : Decision) (bwOn : Bool) (prog : ProgPtr) : Int := (d.traits prog).demand bwOn

/-- The programs of `progs_all` once `good_neighbors` has taken the best candidate. -/
def restored (d : Decision) (bwOn : Bool) (rest : List ProgPtr) (best : ProgPtr) : List ProgPtr :=
  rest.filter (!d.wanted bwOn ·) ++ (rest.filter (d.wanted bwOn)).erase best

theorem restored_perm {bwOn : Bool} (listed : prog ∈ rest.filter (d.wanted bwOn)) :
    (prog :: d.restored bwOn rest prog).Perm rest :=
  calc (prog :: d.restored bwOn rest prog).Perm _ := List.perm_middle.symm
    List.Perm _ (rest.filter (!d.wanted bwOn ·) ++ rest.filter (d.wanted bwOn)) :=
      (List.perm_cons_erase listed).symm.append_left _
    List.Perm _ (rest.filter (d.wanted bwOn) ++ rest.filter (!d.wanted bwOn ·)) :=
      List.perm_append_comm
    List.Perm _ rest := List.filter_append_perm ..

/-- `good_neighbors` of `fair_bw_cache.c` takes the first of the candidates that demand least. -/
theorem fairBwCacheGoodNeighbors_chooses (bwOn : Bool)
    (has : d.Has d.heads (d.lists picked rest) assigned st) :
    wp (FairBwCache.goodNeighbors bwOn) (fun best st' => match best with
      | none => rest.filter (d.wanted bwOn) = [] ∧ d.Has d.heads (d.lists picked rest) assigned st'
      | some prog =>
          (rest.filter (d.wanted bwOn)).argmin (d.demand bwOn) = some prog ∧
            d.Has d.heads (d.lists (picked ++ [prog]) (d.restored bwOn rest prog)) assigned st')
      E st := by
  refine Wp.bind has.drainStart fun _ st₁ start =>
    Wp.bind (drain_spec bwOn start) fun _ st₂ draining => ?_
  refine Wp.bind_ok (listEmpty_run _ st₂) (Wp.ite (fun empty => Wp.pure ?_) fun several => ?_)
  · have none := (draining.rings.cdsListEmpty_iff rest_mem).mp empty
    change rest.filter (d.wanted bwOn) = [] at none
    have all : rest.filter (!d.wanted bwOn ·) = rest := by
      rw [List.filter_eq_nil_iff] at none
      rw [List.filter_eq_self]
      exact fun prog listed => by simpa using none prog listed
    rw [all] at draining
    exact ⟨none, draining.finish⟩
  have several : rest.filter (d.wanted bwOn) ≠ [] := fun empty =>
    several ((draining.rings.cdsListEmpty_iff rest_mem).mpr empty)
  obtain ⟨first, later, split⟩ := List.exists_cons_of_ne_nil several
  unfold restored
  rw [split] at draining ⊢
  have ring := draining.rings.ring .rest rest_mem
  refine Wp.bind_ok (cdsListFirst_run ring) ?_
  refine Wp.bind (scanWalk_spec (d.demand bwOn) ring (Has.short draining rest_mem) fun prog best =>
    ?_)
    fun min st₃ found => ?_
  · have same : better bwOn (st₂.pds prog) (st₂.pds best) = true ↔
        d.demand bwOn prog < d.demand bwOn best := by
      unfold demand
      rw [← draining.traits, ← draining.traits]
      cases bwOn
      · exact decide_eq_true_iff
      · exact decide_eq_true_iff.trans (BitVec.lt_def.trans Int.ofNat_lt.symm)
    simp only [← same]
    rfl
  obtain ⟨rfl, found⟩ := found
  have listed := List.argmin_mem found
  have picks := draining.move rest_mem (List.mem_cons_of_mem _ progsSch_mem) listed
  rw [pick_lists] at picks
  refine Wp.bind_ok (elemMove2tail_run min .progsSch _) (Wp.bind_ok (listEmpty_run _ _) ?_)
  refine Wp.bind (Wp.ite (fun _ => restore_spec picks) fun empty => Wp.pure ?_)
    fun _ st₄ restored => ?_
  · rw [Bool.not_eq_true', Bool.not_eq_false, picks.rings.cdsListEmpty_iff rest_mem] at empty
    change (first :: later).erase min = [] at empty
    rw [empty] at picks ⊢
    simpa using picks
  · exact Wp.pure ⟨found, restored.finish⟩

end FairBwCache

end Decision

end BachScheduler
