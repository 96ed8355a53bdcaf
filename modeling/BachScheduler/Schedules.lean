import BachScheduler.Choices

/-!
# The schedule functions outside of the monitoring phase

Each of the four picks programs until the cores are full or no program is left.  Only
`perf_fair` can ask for a program of an empty list.
-/

namespace BachScheduler

open BachScheduler.Ring Wp

namespace Decision

variable {d : Decision} {progs picked rest : List ProgPtr} {st : ExecState} {prog : ProgPtr}
variable {E : Stop → ExecState → Prop}

/-- `cores_allocated == MAX_CORES`. -/
def Full (cores : Int) : Prop := cores = maxCores

/-- The monitoring phase is over. -/
def Ordinary (d : Decision) : Prop :=
  d.origin.core.sched.progsNr < d.origin.core.sched.monitorWnd

theorem Has.monitoringPhase_run {assigned : List ProgPtr} {among : List Node} {on : Lists}
    (has : d.Has among on assigned st) (ordinary : d.Ordinary) :
    monitoringPhase st = .ok false st := by
  unfold Ordinary at ordinary
  rw [← has.progsNr, ← has.monitorWnd] at ordinary
  change EStateM.Result.ok (!decide (st.sched.progsNr < st.sched.monitorWnd)) st = _
  simp [ordinary]

theorem erase_shorter {fuel : Nat} (listed : prog ∈ rest) (enough : rest.length < fuel + 1) :
    (rest.erase prog).length < fuel := by
  have positive := List.length_pos_of_mem listed
  rw [List.length_erase_of_mem listed]
  omega

/-- A pass that leaves cores free and programs behind has met programs that differ. -/
theorem Chosen.not_bland (chosen : d.Chosen Full progs picked rest st)
    (ended : d.cores picked = maxCores ∨ (d.Bland progs → rest = []))
    (unfinished : d.cores picked ≠ maxCores ∧ (!cdsListEmpty .progsAll st.links) = true) :
    ¬ d.Bland progs := by
  intro bland
  rcases ended with isFull | noRest
  · exact unfinished.1 isFull
  · have empty := chosen.here.empty_iff.mpr (noRest bland)
    simp [empty] at unfinished

theorem Chosen.finished (chosen : d.Chosen Full progs picked rest st)
    (finished : ¬ (d.cores picked ≠ maxCores ∧ (!cdsListEmpty .progsAll st.links) = true)) :
    Full (d.cores picked) ∨ rest = [] := by
  by_cases isFull : d.cores picked = maxCores
  · exact .inl isFull
  · have empty : cdsListEmpty .progsAll st.links = true := by simpa [isFull] using finished
    exact .inr (chosen.here.empty_iff.mp empty)

section Fair

theorem fairTake_eq : fairTake = admitBody id fun _ _ => some id := rfl

theorem fair_counts (_pd : ProgData) (_acc : Int) (next : Int → Int) (taken : Int)
    (same : some id = some next) : id (next taken) = taken := by
  cases same
  rfl

theorem takeAll_spec (chosen : d.Chosen Full progs picked rest st) :
    wp (cdsListForEachEntrySafe .progsAll (d.cores picked) fairTake)
      (fun _ st' => d.Done Full progs st') E st := by
  rw [fairTake_eq]
  refine Wp.imp (pass_spec True fair_counts (by simp) (fun _ => trivial) chosen rfl)
    fun acc st' ends => ?_
  obtain ⟨picked', rest', chosen', -, ended⟩ := ends
  exact ⟨picked', rest', chosen', ended.imp_right fun empty => empty trivial⟩

theorem fillRestCores_spec (chosen : d.Chosen Full progs picked rest st) :
    wp (fillRestCores (d.cores picked)) (fun _ st' => d.Done Full progs st') E st :=
  Wp.bind (takeAll_spec chosen) fun _ _ ends => Wp.pure ends

theorem fairSchedule_spec (here : d.At [] progs st) (ordinary : d.Ordinary) :
    wp fairSchedule (fun _ st' => d.Done Full progs st') E st := by
  refine Wp.bind_ok (Has.monitoringPhase_run here ordinary) (Wp.bind_ok (writeResults_run st) ?_)
  refine Wp.bind (sortAll_spec Full here.written) fun _ st' sorted => ?_
  obtain ⟨sorted, chosen⟩ := sorted
  exact Wp.bind (takeAll_spec chosen) fun _ _ ends => Wp.pure ends

end Fair

section PerfFair

/-- The rule of the first loop in `perf_fair_schedule`. -/
def perfFairAdmits (pd : ProgData) (acc : Int × Word64) : Option (Int → Int × Word64) :=
  if pd.sumMemReads > acc.2 - 271250000 then none
  else some fun cores => (cores, clampBw (acc.2 - pd.sumMemReads))

theorem perfFairPass_eq : PerfFair.passBody = admitBody Prod.fst perfFairAdmits := by
  funext prog acc
  simp only [PerfFair.passBody, admitBody]
  split
  · rfl
  · refine congrArg _ (funext fun pd => ?_)
    by_cases tooMuch : pd.sumMemReads > acc.2 - 271250000
    · have refused : perfFairAdmits pd acc = none := if_pos tooMuch
      simp only [refused, if_pos tooMuch]
    · have admitted : perfFairAdmits pd acc = some _ := if_neg tooMuch
      simp only [admitted, if_neg tooMuch]

theorem perfFair_counts (pd : ProgData) (acc : Int × Word64) (next : Int → Int × Word64)
    (taken : Int) (admitted : perfFairAdmits pd acc = some next) : (next taken).1 = taken := by
  unfold perfFairAdmits at admitted
  split at admitted
  · cases admitted
  · cases admitted
    rfl

theorem perfFairPass_spec (chosen : d.Chosen Full progs [] rest st) (bw : Word64) :
    wp (cdsListForEachEntrySafe .progsAll (0, bw) PerfFair.passBody)
      (fun acc st' => ∃ picked' rest', d.Chosen Full progs picked' rest' st' ∧
        acc.1 = d.cores picked' ∧ (d.cores picked' = maxCores ∨ (d.Bland progs → rest' = [])))
      E st := by
  rw [perfFairPass_eq]
  refine pass_spec (d.Bland progs) perfFair_counts ?_ id chosen rfl
  · intro bland prog member pd same acc
    have reads : pd.sumMemReads = 0 :=
      (congrArg Traits.sumMemReads same).trans (bland.sumMemReads prog member)
    simp [perfFairAdmits, reads]

/-- `good_neighbors` of `perf_fair.c` on a list that is not empty. -/
theorem perfFairGoodNeighbors_spec (here : d.At picked rest st) (several : rest ≠ [])
    (bw : Word64) :
    wp (PerfFair.goodNeighbors bw)
      (fun best st' => best ∈ rest ∧ st' = st.moved best .progsSch) E st :=
  Wp.imp (perfFairGoodNeighbors_chooses here.ring here.short several bw) fun _ _ found =>
    ⟨List.argmin_mem found.1, found.2⟩

/-- The loop over `good_neighbors` goes on until the cores are full or the list is empty. -/
theorem perfFairNeighborsLoop_spec (other : ¬ d.Bland progs) (fuel : Nat)
    {picked rest : List ProgPtr} {st : ExecState} (chosen : d.Chosen Full progs picked rest st)
    (enough : rest.length < fuel) (bw : Word64) :
    wp (PerfFair.neighborsLoop fuel (d.cores picked) bw)
      (fun _ st' => ∃ picked' rest', d.Chosen Full progs picked' rest' st' ∧ Full (d.cores picked'))
      (fun stop st' => stop = .misuse ∧
        ∃ picked', d.Chosen Full progs picked' [] st' ∧ ¬ Full (d.cores picked')) st := by
  induction fuel generalizing picked rest st bw with
  | zero => simp at enough
  | succ fuel ih =>
      unfold PerfFair.neighborsLoop
      refine Wp.ite (fun isFull => Wp.pure ⟨picked, rest, chosen, isFull⟩) fun notFull => ?_
      by_cases empty : rest = []
      · subst empty
        have next := next_head_walkPos chosen.here.ring
        have stops : PerfFair.goodNeighbors bw st = .error .misuse st := by
          change EStateM.bind (cdsListEntry (st.links.next .progsAll)) _ st = _
          rw [next]
          rfl
        exact bind_iff.mpr ((of_error stops).mpr ⟨rfl, picked, chosen, notFull⟩)
      · refine Wp.bind (perfFairGoodNeighbors_spec chosen.here empty bw) fun best st' found => ?_
        obtain ⟨listed, rfl⟩ := found
        refine Wp.bind_ok (readPd_run best _) (Wp.bind_ok (assignCores_run best _ _) ?_)
        have taken := chosen.take listed notFull fun bland => absurd bland other
        refine Wp.bind_ok (readProg_run best _) ?_
        rw [taken.here.coresNeeded]
        have later := ih taken (erase_shorter listed enough)
        rw [cores_concat] at later
        exact later _

theorem perfFairSchedule_spec (here : d.At [] progs st) (ordinary : d.Ordinary) :
    wp perfFairSchedule (fun _ st' => d.Done Full progs st')
      (fun stop st' => stop = .misuse ∧ progs ≠ [] ∧ maxCores < d.origin.core.sched.progsNr ∧
        ∃ picked', d.Chosen Full progs picked' [] st' ∧ ¬ Full (d.cores picked')) st := by
  refine Wp.bind_ok (Has.monitoringPhase_run here ordinary) (Wp.bind_ok (writeResults_run st) ?_)
  refine Wp.bind (sortAll_spec Full here.written) fun _ st' sorted => ?_
  obtain ⟨sorted, chosen⟩ := sorted
  refine Wp.bind (perfFairPass_spec chosen bwLimit) fun acc st'' passed => ?_
  obtain ⟨picked, rest, chosen, counted, ended⟩ := passed
  rw [counted]
  refine Wp.bind_ok (listEmpty_run _ _) (Wp.ite (fun unfinished => ?_) fun finished => ?_)
  · refine Wp.bind_ok (readSched_run st'')
      (Wp.ite (fun few => fillRestCores_spec chosen) fun many => ?_)
    refine Wp.bind_ok (walkFuel_run st'') ?_
    have other := chosen.not_bland ended unfinished
    refine Wp.mono
      (perfFairNeighborsLoop_spec other _ chosen (Nat.lt_succ_of_le chosen.here.short) _) ?_ ?_
    · intro _ st₃ ends
      obtain ⟨picked', rest', chosen', isFull⟩ := ends
      exact ⟨picked', rest', chosen', .inl isFull⟩
    · intro stop st₃ stopped
      refine ⟨stopped.1, fun none => other ?_, ?_, stopped.2⟩
      · subst none
        constructor <;> simp [leaders]
      · rw [← chosen.here.progsNr]
        exact not_le.mp many
  · exact Wp.pure ⟨picked, rest, chosen, chosen.finished finished⟩

end PerfFair

section Perf

/-- `perf_schedule` goes on while `cores_allocated < MAX_CORES`. -/
def Reached (cores : Int) : Prop := maxCores ≤ cores

/-- A program was chosen from `progs_all` and taken off it, if there was one. -/
def Drawn (d : Decision) (progs picked rest : List ProgPtr) (drawn : Option ProgPtr)
    (st : ExecState) : Prop :=
  match drawn with
  | none => rest = [] ∧ d.At picked rest st
  | some prog => prog ∈ rest ∧ (d.Bland progs → rest.head? = some prog) ∧
      ∃ before, d.At picked rest before ∧ st = unlinked before prog

/-- A program that is best by a measure that does not tell bland programs apart. -/
theorem drawn_of_best {β : Type} [LinearOrder β] {f : ProgPtr → β}
    (found : rest.argmin f = some prog) (even : d.Bland progs → ∀ a ∈ rest, ∀ b ∈ rest, f a = f b)
    {before : ExecState} (here : d.At picked rest before) (unlinks : st = unlinked before prog) :
    d.Drawn progs picked rest (some prog) st := by
  refine ⟨List.argmin_mem found, fun bland => ?_, before, here, unlinks⟩
  cases rest with
  | nil => simp at found
  | cons first later =>
      have same := argmin_of_even fun b member =>
        even bland b (List.mem_cons_of_mem _ member) first (by simp)
      rwa [found, Option.some.injEq, eq_comm, ← Option.some.injEq] at same

theorem perfMaxWaiting_spec (here : d.At picked rest st) (subset : rest ⊆ progs) :
    wp perfMaxWaiting (d.Drawn progs picked rest) E st := by
  refine Wp.imp (perfMaxWaiting_chooses here) fun drawn st' found => ?_
  cases drawn with
  | none => exact found
  | some prog =>
      obtain ⟨longest, before, here, unlinks⟩ := found
      refine drawn_of_best (f := fun prog => OrderDual.toDual (d.traits prog).waiting) longest
        (fun bland a listed b other => ?_) here unlinks
      exact congrArg (OrderDual.toDual ∘ BitVec.toInt)
        (bland.waitingTime a (subset listed) b (subset other))

theorem perfMaxFitness_spec (here : d.At picked rest st) (subset : rest ⊆ progs) (bw : Word64) :
    wp (perfMaxFitness bw) (d.Drawn progs picked rest) E st := by
  refine Wp.imp (perfMaxFitness_chooses here bw) fun drawn st' found => ?_
  cases drawn with
  | none => exact found
  | some prog =>
      obtain ⟨best, before, here, unlinks⟩ := found
      refine drawn_of_best best (fun bland a listed b other => ?_) here.written unlinks
      have reads := (bland.sumMemReads a (subset listed)).trans
        (bland.sumMemReads b (subset other)).symm
      simp only [score, reads]

theorem perfNext_spec (here : d.At picked rest st) (subset : rest ⊆ progs) (cores : Int)
    (bw : Word64) : wp (perfNext cores bw) (d.Drawn progs picked rest) E st :=
  Wp.ite (fun _ => perfMaxWaiting_spec here subset) fun _ => perfMaxFitness_spec here subset bw

theorem perfLoop_spec (fuel : Nat) {picked rest : List ProgPtr} {st : ExecState}
    (chosen : d.Chosen Reached progs picked rest st) (enough : rest.length < fuel) (bw : Word64) :
    wp (perfLoop fuel (d.cores picked) bw) (fun _ st' => d.Done Reached progs st') E st := by
  induction fuel generalizing picked rest st bw with
  | zero => simp at enough
  | succ fuel ih =>
      unfold perfLoop
      refine Wp.ite (fun free => ?_) fun full =>
        Wp.pure ⟨picked, rest, chosen, .inl (not_lt.mp full)⟩
      have subset : rest ⊆ progs := fun prog listed =>
        chosen.perm.subset (List.mem_append_right _ listed)
      refine Wp.bind (perfNext_spec chosen.here subset _ bw) fun drawn st' outcome => ?_
      cases drawn with
      | none =>
          obtain ⟨rfl, here⟩ := outcome
          exact Wp.pure ⟨picked, [], ⟨here, chosen.perm, chosen.ordered, chosen.guarded⟩, .inr rfl⟩
      | some prog =>
          obtain ⟨listed, first, before, here, rfl⟩ := outcome
          have chosen : d.Chosen Reached progs picked rest before :=
            ⟨here, chosen.perm, chosen.ordered, chosen.guarded⟩
          have taken := chosen.written.take listed (not_le.mpr free) first
          have relinked : modifyLinks (cdsListAddTail (.plNode prog) .progsSch)
            (unlinked before prog).written = .ok () (before.written.moved prog .progsSch) := rfl
          refine Wp.bind_ok (readPd_run prog _) (Wp.bind_ok (writeResults_run _) ?_)
          refine Wp.bind_ok relinked ?_
          refine Wp.bind_ok (assignCores_run prog _ _) (Wp.bind_ok (readProg_run prog _) ?_)
          rw [taken.here.coresNeeded]
          have later := ih taken (erase_shorter listed enough)
          rw [cores_concat] at later
          exact later _

theorem perfSchedule_spec (here : d.At [] progs st) (ordinary : d.Ordinary) :
    wp perfSchedule (fun _ st' => d.Done Reached progs st') E st := by
  refine Wp.bind_ok (Has.monitoringPhase_run here ordinary) (Wp.bind_ok (writeResults_run st) ?_)
  refine Wp.bind_ok (walkFuel_run _) ?_
  exact perfLoop_spec _ (Chosen.start here.written) (Nat.lt_succ_of_le here.short) _

end Perf

section FairBwCache

open FairBwCache

/-- The rule of the first loop in `fair_bw_cache_schedule`. -/
def fairBwCacheAdmits (pd : ProgData) (pass : Pass) : Option (Int → Pass) :=
  (admitClass pd pass).map fun next cores => { next with cores := cores }

theorem admit_cores {pd : ProgData} {pass next : Pass} (admitted : admitClass pd pass = some next) :
    next.cores = pass.cores := by
  unfold admitClass at admitted
  grind

theorem fairBwCachePass_eq : FairBwCache.passBody = admitBody Pass.cores fairBwCacheAdmits := by
  funext prog pass
  unfold FairBwCache.passBody admitBody fairBwCacheAdmits
  split
  · rfl
  · refine congrArg _ (funext fun pd => ?_)
    cases verdict : admitClass pd pass with
    | none => rfl
    | some next =>
        simp only [Option.map_some, admit_cores verdict]

theorem fairBwCache_counts (pd : ProgData) (pass : Pass) (next : Int → Pass) (taken : Int)
    (verdict : fairBwCacheAdmits pd pass = some next) : (next taken).cores = taken := by
  obtain ⟨passed, -, rfl⟩ := Option.map_eq_some_iff.mp verdict
  rfl

theorem fairBwCachePass_spec (chosen : d.Chosen Full progs [] rest st) (pass : Pass)
    (start : pass.cores = 0) : wp (cdsListForEachEntrySafe .progsAll pass FairBwCache.passBody)
      (fun pass' st' => ∃ picked' rest', d.Chosen Full progs picked' rest' st' ∧
        pass'.cores = d.cores picked' ∧ (d.cores picked' = maxCores ∨ (d.Bland progs → rest' = [])))
      E st := by
  rw [fairBwCachePass_eq]
  refine pass_spec (d.Bland progs) fairBwCache_counts ?_ id chosen start
  · intro bland prog member pd same pass
    have category : pd.category = .none :=
      (congrArg Traits.category same).trans (bland.category prog member)
    simp [fairBwCacheAdmits, admitClass, category]

/-- What `good_neighbors` of `fair_bw_cache.c` returns and leaves. -/
def Neighbor (d : Decision) (picked rest : List ProgPtr) (best : Option ProgPtr) (st : ExecState) :
    Prop :=
  match best with
  | none => ∃ remaining, d.At picked remaining st ∧ remaining.Perm rest
  | some prog => ∃ remaining, d.Has d.heads (d.lists (picked ++ [prog]) remaining) picked st ∧
      (prog :: remaining).Perm rest

theorem fairBwCacheGoodNeighbors_spec (bwOn : Bool) (here : d.At picked rest st) :
    wp (FairBwCache.goodNeighbors bwOn) (d.Neighbor picked rest) E st := by
  refine Wp.imp (fairBwCacheGoodNeighbors_chooses bwOn here) fun best st' found => ?_
  cases best with
  | none => exact ⟨rest, found.2, .refl _⟩
  | some prog =>
      obtain ⟨best, has⟩ := found
      exact ⟨_, has, restored_perm (List.argmin_mem best)⟩

/-- The loop over `good_neighbors` in `fair_bw_cache_schedule`. -/
theorem fairBwCacheNeighborsLoop_spec (other : ¬ d.Bland progs) (bwOn : Bool) (fuel : Nat)
    {picked rest : List ProgPtr} {st : ExecState} (chosen : d.Chosen Full progs picked rest st)
    (enough : rest.length < fuel) :
    wp (FairBwCache.neighborsLoop bwOn fuel (d.cores picked))
      (fun _ st' => d.Done Full progs st') E st := by
  induction fuel generalizing picked rest st with
  | zero => simp at enough
  | succ fuel ih =>
      unfold FairBwCache.neighborsLoop
      refine Wp.ite (fun isFull => Wp.pure ⟨picked, rest, chosen, .inl isFull⟩) fun notFull => ?_
      refine Wp.bind (fairBwCacheGoodNeighbors_spec bwOn chosen.here) fun best st' outcome => ?_
      cases best with
      | none =>
          obtain ⟨remaining, here, perm⟩ := outcome
          exact fillRestCores_spec ⟨here, (perm.append_left picked).trans chosen.perm,
            fun bland => absurd bland other, chosen.guarded⟩
      | some prog =>
          obtain ⟨remaining, has, perm⟩ := outcome
          have taken := chosen.extend (has.assign prog) perm notFull fun bland => absurd bland other
          refine Wp.bind_ok (assignCores_run prog _ st') (Wp.bind_ok (readProg_run prog _) ?_)
          rw [taken.here.coresNeeded]
          have shorter := perm.length_eq
          rw [List.length_cons] at shorter
          have later := ih taken (by omega)
          rw [cores_concat] at later
          exact later

theorem fairBwCacheSchedule_spec (here : d.At [] progs st) (ordinary : d.Ordinary) :
    wp fairBwCacheSchedule (fun _ st' => d.Done Full progs st') E st := by
  refine Wp.bind_ok (Has.monitoringPhase_run here ordinary) (Wp.bind_ok (writeResults_run st) ?_)
  refine Wp.bind (sortAll_spec Full here.written) fun _ st' sorted => ?_
  obtain ⟨sorted, chosen⟩ := sorted
  refine Wp.bind (fairBwCachePass_spec chosen _ rfl) fun pass st'' passed => ?_
  obtain ⟨picked, rest, chosen, counted, ended⟩ := passed
  rw [counted]
  refine Wp.bind_ok (listEmpty_run _ _) (Wp.ite (fun unfinished => ?_) fun finished => ?_)
  · refine Wp.bind_ok (readSched_run st'')
      (Wp.ite (fun few => fillRestCores_spec chosen) fun many => ?_)
    refine Wp.bind_ok (walkFuel_run st'') ?_
    exact fairBwCacheNeighborsLoop_spec (chosen.not_bland ended unfinished) _ _ chosen
      (Nat.lt_succ_of_le chosen.here.short)
  · exact Wp.pure ⟨picked, rest, chosen, chosen.finished finished⟩

end FairBwCache

end Decision

end BachScheduler
