import BachScheduler.ListWalk
import BachScheduler.Run

/-!
# The counters and the result files once they are closed

`sched_finalization` frees the counters and closes the result files, but it is called
from deep inside of a freeze or of a rebalance, and the code around these calls goes on
with both.  A run without a use after the close is one that has not closed them.
-/

namespace BachScheduler

open Wp

/-- What is known of the counters and of the result files. -/
structure Closing where
  finalized : Prop
  live : Bool
  resultsOpen : Bool
  staleUses : Nat
  closedWrites : Nat

def ExecState.closing (st : ExecState) : Closing where
  finalized := .finalization ∈ st.log
  live := st.sched.cntrs.live
  resultsOpen := st.sched.resultsOpen
  staleUses := st.sched.cntrs.staleUses
  closedWrites := st.sched.closedWrites

namespace Closing

/-- A use of the counters. -/
def use (c : Closing) : Closing :=
  if c.live then c else { c with staleUses := c.staleUses + 1 }

/-- A write to a result file. -/
def write (c : Closing) : Closing :=
  if c.resultsOpen then c else { c with closedWrites := c.closedWrites + 1 }

/-- Nothing was closed. -/
structure Untouched (c : Closing) : Prop where
  notFinalized : ¬ c.finalized
  live : c.live = true
  resultsOpen : c.resultsOpen = true
  noStaleUses : c.staleUses = 0
  noClosedWrites : c.closedWrites = 0

/-- Everything was closed. -/
structure Closed (c : Closing) : Prop where
  finalized : c.finalized
  notLive : c.live = false
  notOpen : c.resultsOpen = false

/-- Everything was closed, and something closed was used. -/
structure Misused (c : Closing) : Prop extends c.Closed where
  used : 0 < c.staleUses + c.closedWrites

/-- Within a handler: closed or not. -/
def Within (c : Closing) : Prop := c.Untouched ∨ c.Closed

/-- Between two handlers: what was closed was used. -/
def Between (c : Closing) : Prop := c.Untouched ∨ c.Misused

theorem Between.within {c : Closing} (between : c.Between) : c.Within :=
  between.imp_right Misused.toClosed

/-- What neither a use of the counters nor a write to a file invalidates. -/
structure Lasting (I : Closing → Prop) : Prop where
  use : ∀ c, I c → I c.use
  write : ∀ c, I c → I c.write

theorem Untouched.use {c : Closing} (untouched : c.Untouched) : c.use = c :=
  if_pos untouched.live

theorem Untouched.write {c : Closing} (untouched : c.Untouched) : c.write = c :=
  if_pos untouched.resultsOpen

theorem Closed.use {c : Closing} (closed : c.Closed) : c.use.Misused := by
  obtain ⟨finalized, notLive, notOpen⟩ := closed
  unfold Closing.use
  rw [if_neg (by simp [notLive])]
  exact ⟨⟨finalized, notLive, notOpen⟩, by dsimp only; omega⟩

theorem Closed.write {c : Closing} (closed : c.Closed) : c.write.Misused := by
  obtain ⟨finalized, notLive, notOpen⟩ := closed
  unfold Closing.write
  rw [if_neg (by simp [notOpen])]
  exact ⟨⟨finalized, notLive, notOpen⟩, by dsimp only; omega⟩

/-- A use shows that everything was closed. -/
theorem Within.use {c : Closing} (within : c.Within) : c.use.Between := by
  rcases within with untouched | closed
  · exact .inl (untouched.use.symm ▸ untouched)
  · exact .inr closed.use

theorem Within.write {c : Closing} (within : c.Within) : c.write.Between := by
  rcases within with untouched | closed
  · exact .inl (untouched.write.symm ▸ untouched)
  · exact .inr closed.write

theorem untouched_lasting : Lasting Untouched where
  use _ untouched := untouched.use.symm ▸ untouched
  write _ untouched := untouched.write.symm ▸ untouched

theorem within_lasting : Lasting Within where
  use _ within := within.use.within
  write _ within := within.write.within

theorem between_lasting : Lasting Between where
  use _ between := between.within.use
  write _ between := between.within.write

end Closing

open Closing

/-- The program keeps what is known of the counters and files. -/
abbrev Steady (I : Closing → Prop) {α : Type} (m : Exec α) : Prop :=
  Leads (fun st => I st.closing) (fun st => I st.closing) m

/-- The program brings the counters and files from one condition into another. -/
abbrev Brings (I J : Closing → Prop) {α : Type} (m : Exec α) : Prop :=
  Leads (fun st => I st.closing) (fun st => J st.closing) m

section Basics

variable {I : Closing → Prop} {prog : ProgPtr}

theorem modify_steady {g : ExecState → ExecState} (same : ∀ st, (g st).closing = st.closing) :
    Steady I (modify g) :=
  Leads.modify fun st holds => (same st).symm ▸ holds

theorem modifySched_steady {change : Sched → Sched}
    (live : ∀ sched, (change sched).cntrs.live = sched.cntrs.live)
    (staleUses : ∀ sched, (change sched).cntrs.staleUses = sched.cntrs.staleUses)
    (resultsOpen : ∀ sched, (change sched).resultsOpen = sched.resultsOpen)
    (closedWrites : ∀ sched, (change sched).closedWrites = sched.closedWrites) :
    Steady I (modifySched change) :=
  modify_steady fun st => by
    simp [ExecState.closing, live, staleUses, resultsOpen, closedWrites]

theorem modifyPd_steady (change : ProgData → ProgData) : Steady I (modifyPd prog change) :=
  modify_steady fun _ => rfl

theorem modifyProg_steady (change : AffProg → AffProg) : Steady I (modifyProg prog change) :=
  modify_steady fun _ => rfl

theorem modifyLinks_steady (change : Ring.Links Node → Ring.Links Node) :
    Steady I (modifyLinks change) :=
  modify_steady fun _ => rfl

theorem emit_steady {event : Event} (other : event ≠ .finalization) : Steady I (emit event) :=
  modify_steady fun st => by
    simp [ExecState.closing, other.symm]

theorem readEnv_steady {α : Type} (value : Env → Nat → α) : Steady I (readEnv value) :=
  fun _ holds => holds

theorem noteClock_steady (event : ClockEvent) : Steady I (noteClock event) :=
  fun _ holds => holds

theorem schedulingTime_steady : Steady I schedulingTime :=
  (readEnv_steady _).bind fun _ => readSched_leads.bind fun _ => Leads.pure _

theorem useCntrs_brings {J : Closing → Prop} (step : ∀ c, I c → J c.use) : Brings I J useCntrs := by
  refine Leads.modify fun st holds => ?_
  have used := step _ holds
  unfold use at used
  by_cases live : st.sched.cntrs.live = true
  · simpa [ExecState.closing, live] using used
  · simpa [ExecState.closing, live] using used

theorem writeResults_brings {J : Closing → Prop} (step : ∀ c, I c → J c.write) :
    Brings I J writeResults := by
  refine Leads.modify fun st holds => ?_
  have written := step _ holds
  unfold write at written
  by_cases isOpen : st.sched.resultsOpen = true
  · simpa [ExecState.closing, isOpen] using written
  · simpa [ExecState.closing, isOpen] using written

theorem plNodeUnlink_steady : Steady I (plNodeUnlink prog) :=
  (modifyLinks_steady _).bind fun _ => modifyLinks_steady _

theorem modifyMcInfo_steady (change : UncMc → UncMc) : Steady I (modifyMcInfo change) :=
  modifySched_steady (fun _ => rfl) (fun _ => rfl) (fun _ => rfl) fun _ => rfl

theorem readPrfcnts_steady (selected : ExecState → Nat → Bool) : Steady I (readPrfcnts selected) :=
  (readEnv_steady _).bind fun _ => modify_steady fun _ => rfl

theorem storeCounter_steady {m : Exec Word64} (steady : Steady I m) (prog : ProgPtr)
    (store : Word64 → ProgData → ProgData) {rest : Exec Unit} (later : Steady I rest) :
    Steady I (m >>= fun value => modifyPd prog (store value) >>= fun _ => rest) :=
  steady.bind fun _ => (modifyPd_steady _).bind fun _ => later

theorem listEmpty_steady (head : Node) : Steady I (listEmpty head) := fun _ holds => holds

theorem udiv_steady (a b : Word64) : Steady I (udiv a b) :=
  (Leads.throw _).ite (Leads.pure _)

end Basics

section Counters

variable {I : Closing → Prop} (lasting : Lasting I)

include lasting

theorem useCntrs_steady : Steady I useCntrs := useCntrs_brings lasting.use

theorem writeResults_steady : Steady I writeResults := writeResults_brings lasting.write

theorem startMCCounters_steady : Steady I startMCCounters :=
  (useCntrs_steady lasting).bind fun _ => (readEnv_steady _).bind fun _ =>
    (modifyMcInfo_steady _).bind fun _ => (readEnv_steady _).bind fun _ =>
      modifyMcInfo_steady _

theorem stopMCCounters_steady : Steady I stopMCCounters :=
  (useCntrs_steady lasting).bind fun _ => (readEnv_steady _).bind fun _ =>
    (readEnv_steady _).bind fun _ => modifyMcInfo_steady _

theorem ssAffReadCounter_steady (cpu : Int) : Steady I (ssAffReadCounter cpu) :=
  (useCntrs_steady lasting).bind fun _ => readPrfcnts_steady _

theorem ssAffReadCounters_steady : Steady I ssAffReadCounters :=
  (useCntrs_steady lasting).bind fun _ => readPrfcnts_steady _

theorem ssAffZeroCntrs_steady : Steady I ssAffZeroCntrs :=
  (useCntrs_steady lasting).bind fun _ =>
    modifySched_steady (fun _ => rfl) (fun _ => rfl) (fun _ => rfl) fun _ => rfl

theorem modifyRunning_steady (prog : ProgPtr) (change : Word64 → Tsc → Tsc) :
    Steady I (modifyRunning prog change) :=
  (useCntrs_steady lasting).bind fun _ => (readEnv_steady _).bind fun _ => Leads.get.bind fun _ =>
    modifyPd_steady _

theorem ssAffStatsRead_steady (prog : ProgPtr) : Steady I (ssAffStatsRead prog) :=
  (useCntrs_steady lasting).bind fun _ => Leads.get.bind fun _ => modifyPd_steady _

theorem ssAffZeroStats_steady (prog : ProgPtr) : Steady I (ssAffZeroStats prog) :=
  (useCntrs_steady lasting).bind fun _ => modifyPd_steady _

theorem ssGetCounter_steady (prog : ProgPtr) (counter : Nat) :
    Steady I (ssGetCounter prog counter) :=
  (useCntrs_steady lasting).bind fun _ => Leads.get.bind fun _ => Leads.pure _

theorem ssGetOccupancy_steady (prog : ProgPtr) : Steady I (ssGetOccupancy prog) :=
  (useCntrs_steady lasting).bind fun _ => Leads.get.bind fun _ => Leads.pure _

theorem getTotal_steady (prog : ProgPtr) (event : Nat) : Steady I (getTotal prog event) :=
  (useCntrs_steady lasting).bind fun _ => Leads.get.bind fun _ => Leads.pure _

theorem getOffcoreMetrics_steady : Steady I getOffcoreMetrics :=
  (useCntrs_steady lasting).bind fun _ => (writeResults_steady lasting).bind fun _ =>
    modifySched_steady (fun _ => rfl) (fun _ => rfl) (fun _ => rfl) fun _ => rfl

theorem schedInitialMetrics_steady : Steady I schedInitialMetrics := by
  have metrics : Steady I printProExecutionMetrics :=
    schedulingTime_steady.bind fun _ => (useCntrs_steady lasting).bind fun _ =>
      writeResults_steady lasting
  exact (readSched_leads).bind fun _ => (when_leads metrics).bind fun _ =>
    writeResults_steady lasting

theorem schedInitCountersOutput_steady : Steady I schedInitCountersOutput :=
  (writeResults_steady lasting).bind fun _ => (useCntrs_steady lasting).bind fun _ =>
    writeResults_steady lasting

theorem schedUpdatePrfm_steady (prog : ProgPtr) : Steady I (schedUpdatePrfm prog) := by
  refine storeCounter_steady (ssGetCounter_steady lasting prog 0) _ _ ?_
  refine storeCounter_steady (ssGetCounter_steady lasting prog 1) _ _ ?_
  refine storeCounter_steady (ssGetCounter_steady lasting prog 3) _ _ ?_
  refine storeCounter_steady (ssGetCounter_steady lasting prog 4) _ _ ?_
  refine storeCounter_steady (ssGetCounter_steady lasting prog 5) _ _ ?_
  refine storeCounter_steady (ssGetCounter_steady lasting prog 6) _ _ ?_
  refine Leads.get.bind fun st => when_leads ?_
  exact (ssGetOccupancy_steady lasting prog).bind fun _ => modifyPd_steady _

end Counters

section Clocks

variable {I : Closing → Prop}

theorem schedUpdateClock_steady (prog : ProgPtr) : Steady I (schedUpdateClock prog) := by
  have start : Steady I (schedStartClock prog) :=
    (readPd_leads prog).bind fun _ => when_leads ((readEnv_steady _).bind fun _ =>
      (noteClock_steady _).bind fun _ => modifyPd_steady _)
  have stop : Steady I (schedStopClock prog) :=
    (readPd_leads prog).bind fun _ => when_leads ((readEnv_steady _).bind fun _ =>
      (noteClock_steady _).bind fun _ => modifyPd_steady _)
  exact start.bind fun _ => stop.bind fun _ => (readPd_leads prog).bind fun _ => noteClock_steady _

theorem schedUpdateWaiting_steady (prog : ProgPtr) : Steady I (schedUpdateWaiting prog) :=
  (readEnv_steady _).bind fun _ => (noteClock_steady _).bind fun _ => modifyPd_steady _

theorem schedClearProg_steady (prog : ProgPtr) : Steady I (schedClearProg prog) := by
  refine (readProg_leads prog).bind fun _ => Leads.keep (modify_steady fun _ => rfl) fun _ => ?_
  refine Leads.keep (modify_steady fun _ => rfl) fun _ => ?_
  exact Leads.keep (modify_steady fun _ => rfl) fun _ => emit_steady nofun

end Clocks

section Totals

variable {I : Closing → Prop} (lasting : Lasting I)

include lasting

theorem schedUpdateTotals_steady (prog : ProgPtr) : Steady I (schedUpdateTotals prog) := by
  refine schedulingTime_steady.bind fun _ => (getTotal_steady lasting prog 0).bind fun _ => ?_
  refine (getTotal_steady lasting prog 1).bind fun _ => (readPd_leads prog).bind fun _ => ?_
  refine Leads.keep ?_ fun _ => (writeResults_steady lasting).bind fun _ => emit_steady nofun
  exact modifySched_steady (fun _ => rfl) (fun _ => rfl) (fun _ => rfl) fun _ => rfl

theorem schedPrintTotals_steady : Steady I schedPrintTotals :=
  schedulingTime_steady.bind fun _ =>
    Leads.keep (modifySched_steady (fun _ => rfl) (fun _ => rfl) (fun _ => rfl) fun _ => rfl)
      fun _ =>
      (writeResults_steady lasting).bind fun _ => emit_steady nofun

end Totals

theorem schedFinalization_closes : Steady Within schedFinalization := by
  have use := useCntrs_steady within_lasting
  have free : Brings Within (fun c => c.live = false) ssAffCountersFree :=
    use.bind fun _ => Leads.modify fun _ _ => rfl
  have files : Brings (fun c => c.live = false) (fun c => c.live = false ∧ c.resultsOpen = false)
      schedCloseResultsFiles :=
    Leads.modify fun _ notLive => ⟨notLive, rfl⟩
  have note : Brings (fun c => c.live = false ∧ c.resultsOpen = false) Within
      (emit .finalization) :=
    Leads.modify fun st closed => .inr ⟨by simp [ExecState.closing], closed.1, closed.2⟩
  exact use.bind fun _ => use.bind fun _ => use.bind fun _ => free.bind fun _ => files.bind fun _ =>
    note

theorem closeResults_closes : Steady Within closeResults :=
  (schedPrintTotals_steady within_lasting).bind fun _ => schedFinalization_closes

section Decisions

variable {I : Closing → Prop} (lasting : Lasting I)

theorem monitoringPhase_steady : Steady I monitoringPhase :=
  readSched_leads.bind fun _ => Leads.pure _

theorem elemMove2tail_steady (prog : ProgPtr) (toList : Node) :
    Steady I (elemMove2tail prog toList) :=
  plNodeUnlink_steady.bind fun _ => modifyLinks_steady _

theorem moveProgsToAll_steady : Steady I moveProgsToAll :=
  (listEmpty_steady _).bind fun _ => when_leads <| forEachEntrySafe_leads _ _ fun prog _ =>
    (elemMove2tail_steady prog _).bind fun _ => Leads.pure _

theorem sortAll_steady : Steady I sortAll :=
  Leads.get.bind fun _ => Leads.get.bind fun _ => (orElseStop_leads _ _).bind fun _ =>
    modify_steady fun _ => rfl

theorem scheduleSetcpurange_steady (prog : ProgPtr) (rstart rend : Int) :
    Steady I (scheduleSetcpurange prog rstart rend) :=
  Leads.keep (emit_steady nofun) fun _ => Leads.get.bind fun _ => modifyProg_steady _

theorem assignCores_steady (prog : ProgPtr) (rstart : Int) : Steady I (assignCores prog rstart) :=
  (readProg_leads prog).bind fun _ => (scheduleSetcpurange_steady prog _ _).bind fun _ =>
    Leads.keep ((readProg_leads prog).bind fun _ => Leads.pure _) fun _ => modifyPd_steady _

theorem monitor_steady : Steady I monitor := by
  refine readSched_leads.bind fun _ => (cdsListFirst_leads _).bind fun prog => ?_
  refine (elemMove2tail_steady prog _).bind fun _ => (assignCores_steady prog _).bind fun _ => ?_
  exact modifySched_steady (fun _ => rfl) (fun _ => rfl) (fun _ => rfl) fun _ => rfl

theorem updateProgress_steady (prog : ProgPtr) (unhCycles : Word64) :
    Steady I (updateProgress prog unhCycles) :=
  when_leads <| (modifyPd_steady _).bind fun _ => (readPd_leads prog).bind fun _ =>
    (udiv_steady _ _).bind fun _ => modifyPd_steady _

theorem collectIpc_steady (prog : ProgPtr) : Steady I (collectIpc prog) :=
  (readPd_leads prog).bind fun _ => (udiv_steady _ _).bind fun _ => modifyPd_steady _

theorem collectMemReads_steady (prog : ProgPtr) : Steady I (collectMemReads prog) :=
  readSched_leads.bind fun _ => modifyPd_steady _

theorem ratioProgress_steady (prog : ProgPtr) (unhCycles : Word64) :
    Steady I (ratioProgress prog unhCycles) :=
  monitoringPhase_steady.bind fun _ => when_leads (updateProgress_steady prog _)

theorem ratioFinish_steady (prog : ProgPtr) : Steady I (ratioFinish prog) :=
  (readPd_leads prog).bind fun _ => updateProgress_steady prog _

include lasting

theorem dispatch_steady (prog : ProgPtr) (cores : Int) : Steady I (dispatch prog cores) := by
  refine (writeResults_steady lasting).bind fun _ => (elemMove2tail_steady prog _).bind fun _ => ?_
  exact (assignCores_steady prog _).bind fun _ => (readProg_leads prog).bind fun _ => Leads.pure _

theorem fairTake_steady (prog : ProgPtr) (cores : Int) : Steady I (fairTake prog cores) :=
  (Leads.pure _).ite ((dispatch_steady lasting prog cores).bind fun _ => Leads.pure _)

theorem fairSchedule_steady : Steady I fairSchedule := by
  refine monitoringPhase_steady.bind fun _ => monitor_steady.ite ?_
  refine (writeResults_steady lasting).bind fun _ => sortAll_steady.bind fun _ => ?_
  exact (forEachEntrySafe_leads _ _ (fairTake_steady lasting)).bind fun _ => Leads.pure _

theorem fillRestCores_steady (cores : Int) : Steady I (fillRestCores cores) :=
  (forEachEntrySafe_leads _ _ (fairTake_steady lasting)).bind fun _ => Leads.pure _

theorem perfFairSchedule_steady : Steady I perfFairSchedule := by
  refine monitoringPhase_steady.bind fun _ => monitor_steady.ite ?_
  refine (writeResults_steady lasting).bind fun _ => sortAll_steady.bind fun _ => ?_
  refine (forEachEntrySafe_leads _ _ fun prog acc => ?_).bind fun acc => ?_
  · refine (Leads.pure _).ite ((readPd_leads prog).bind fun _ => (Leads.pure _).ite ?_)
    exact (dispatch_steady lasting prog _).bind fun _ => Leads.pure _
  refine (listEmpty_steady _).bind fun _ => when_leads (readSched_leads.bind fun _ => ?_)
  refine (fillRestCores_steady lasting _).ite (Leads.get.bind fun fuel => ?_)
  have neighbors : ∀ bw, Steady I (PerfFair.goodNeighbors bw) := fun bw =>
    (cdsListFirst_leads _).bind fun min => (readPd_leads min).bind fun _ =>
      (forEachEntrySafe_leads _ _ fun prog _ => (readPd_leads prog).bind fun _ => Leads.pure _).bind
        fun _ => (elemMove2tail_steady _ _).bind fun _ => Leads.pure _
  have loop : ∀ fuel cores bw, Steady I (PerfFair.neighborsLoop fuel cores bw) := by
    intro fuel
    induction fuel with
    | zero => exact fun _ _ => Leads.throw _
    | succ fuel ih =>
        intro cores bw
        refine (Leads.pure _).ite
          ((neighbors bw).bind fun prog => (readPd_leads prog).bind fun _ => ?_)
        exact (assignCores_steady prog _).bind fun _ => (readProg_leads prog).bind fun _ => ih _ _
  exact loop _ _ _

theorem perfNext_steady (cores : Int) (bwRem : Word64) : Steady I (perfNext cores bwRem) := by
  have write := writeResults_steady lasting
  refine Leads.ite ?_ ?_
  · refine (listEmpty_steady _).bind fun _ =>
      (Leads.pure _).ite ((cdsListFirst_leads _).bind fun _ => ?_)
    refine (forEachEntrySafe_leads _ _ fun prog max => ?_).bind fun _ =>
      plNodeUnlink_steady.bind fun _ => Leads.pure _
    exact (readPd_leads prog).bind fun _ => (readPd_leads max).bind fun _ => Leads.pure _
  · refine (listEmpty_steady _).bind fun _ =>
      (Leads.pure _).ite ((cdsListFirst_leads _).bind fun _ => ?_)
    refine write.bind fun _ => (forEachEntrySafe_leads _ _ fun prog min => ?_).bind fun _ =>
      plNodeUnlink_steady.bind fun _ => write.bind fun _ => Leads.pure _
    refine (modifyPd_steady _).bind fun _ => write.bind fun _ => (readPd_leads prog).bind fun _ =>
      ?_
    exact (readPd_leads min).bind fun _ => Leads.pure _

theorem perfSchedule_steady : Steady I perfSchedule := by
  have write := writeResults_steady lasting
  have loop : ∀ fuel cores bw, Steady I (perfLoop fuel cores bw) := by
    intro fuel
    induction fuel with
    | zero => exact fun _ _ => Leads.throw _
    | succ fuel ih =>
        intro cores bw
        refine Leads.ite ((perfNext_steady lasting cores bw).bind fun next => ?_) (Leads.pure _)
        cases next with
        | none => exact Leads.pure _
        | some prog =>
            refine (readPd_leads prog).bind fun _ => write.bind fun _ =>
              (modifyLinks_steady _).bind fun _ => ?_
            exact (assignCores_steady prog _).bind fun _ => (readProg_leads prog).bind fun _ =>
              ih _ _
  exact monitoringPhase_steady.bind fun _ => monitor_steady.ite <|
    write.bind fun _ => Leads.get.bind fun _ => loop _ _ _

theorem fairBwCacheSchedule_steady : Steady I fairBwCacheSchedule := by
  refine monitoringPhase_steady.bind fun _ => monitor_steady.ite ?_
  refine (writeResults_steady lasting).bind fun _ => sortAll_steady.bind fun _ => ?_
  refine (forEachEntrySafe_leads _ _ fun prog pass => ?_).bind fun pass => ?_
  · refine (Leads.pure _).ite ((readPd_leads prog).bind fun pd => ?_)
    cases FairBwCache.admitClass pd pass with
    | none => exact Leads.pure _
    | some pass => exact (dispatch_steady lasting prog _).bind fun _ => Leads.pure _
  refine (listEmpty_steady _).bind fun _ => when_leads (readSched_leads.bind fun _ => ?_)
  refine (fillRestCores_steady lasting _).ite (Leads.get.bind fun fuel => ?_)
  have neighbors : ∀ bwOn, Steady I (FairBwCache.goodNeighbors bwOn) := by
    intro bwOn
    refine (modifyLinks_steady _).bind fun _ =>
      (forEachEntrySafe_leads _ _ fun prog _ => ?_).bind fun _ => ?_
    · exact (readPd_leads prog).bind fun _ => (when_leads (elemMove2tail_steady _ _)).bind fun _ =>
        Leads.pure _
    refine (listEmpty_steady _).bind fun _ =>
      (Leads.pure _).ite ((cdsListFirst_leads _).bind fun _ => ?_)
    refine (forEachEntrySafe_leads _ _ fun prog min => ?_).bind fun min => ?_
    · exact (readPd_leads prog).bind fun _ => (readPd_leads min).bind fun _ => Leads.pure _
    refine (elemMove2tail_steady min _).bind fun _ => (listEmpty_steady _).bind fun _ => ?_
    refine (when_leads (forEachEntrySafe_leads _ _ fun prog _ => ?_)).bind fun _ => Leads.pure _
    exact (elemMove2tail_steady prog _).bind fun _ => Leads.pure _
  have loop : ∀ fuel bwOn cores, Steady I (FairBwCache.neighborsLoop bwOn fuel cores) := by
    intro fuel
    induction fuel with
    | zero => exact fun _ _ => Leads.throw _
    | succ fuel ih =>
        intro bwOn cores
        refine (Leads.pure _).ite ((neighbors bwOn).bind fun best => ?_)
        cases best with
        | none => exact fillRestCores_steady lasting _
        | some prog =>
            exact (assignCores_steady prog _).bind fun _ => (readProg_leads prog).bind fun _ =>
              ih _ _
  exact loop _ _ _

theorem PolicyName.schedule_steady (name : PolicyName) : Steady I name.policy.schedule := by
  cases name with
  | fair => exact fairSchedule_steady lasting
  | perf => exact perfSchedule_steady lasting
  | perfFair => exact perfFairSchedule_steady lasting
  | fairBwCache => exact fairBwCacheSchedule_steady lasting

end Decisions

section Quanta

variable {I : Closing → Prop} (lasting : Lasting I) (name : PolicyName)

include lasting

theorem freezeCounters_steady : Steady I freezeCounters := by
  have use := useCntrs_steady lasting
  refine use.bind fun _ => (ssAffReadCounters_steady lasting).bind fun _ => ?_
  refine (stopMCCounters_steady lasting).bind fun _ => use.bind fun _ => ?_
  refine (getOffcoreMetrics_steady lasting).bind fun _ => readSched_leads.bind fun _ => ?_
  exact when_leads (schedInitialMetrics_steady lasting)

omit lasting in
theorem stopProg_steady (prog : ProgPtr) : Steady I (stopProg prog) :=
  (modifyProg_steady _).bind fun _ => (schedUpdateClock_steady prog).bind fun _ => modifyPd_steady _

theorem sampleProg_steady (prog : ProgPtr) : Steady I (sampleProg prog) := by
  refine (modifyRunning_steady lasting prog _).bind fun _ => ?_
  refine (ssAffStatsRead_steady lasting prog).bind fun _ => ?_
  refine (schedUpdatePrfm_steady lasting prog).bind fun _ => (modifyPd_steady _).bind fun _ => ?_
  refine (readPd_leads prog).bind fun _ => (udiv_steady _ _).bind fun _ => ?_
  exact (modifyPd_steady _).bind fun _ => writeResults_steady lasting

theorem progressProg_steady (unhCycles : Word64) (prog : ProgPtr) :
    Steady I (progressProg name.policy unhCycles prog) := by
  refine (schedUpdateWaiting_steady prog).bind fun _ => Leads.keep ?_ fun _ =>
    writeResults_steady lasting
  have waiting : Steady I (perfProgress prog unhCycles) := modifyPd_steady _
  cases name with
  | perf => exact waiting
  | fair => exact ratioProgress_steady prog _
  | perfFair => exact ratioProgress_steady prog _
  | fairBwCache => exact ratioProgress_steady prog _

theorem thawSched_steady : Steady I thawSched := by
  have use := useCntrs_steady lasting
  refine (forEachEntry_leads _ fun prog => ?_).bind fun _ => ?_
  · refine (ssAffZeroStats_steady lasting prog).bind fun _ => ?_
    refine (modifyRunning_steady lasting prog _).bind fun _ =>
      (schedUpdateClock_steady prog).bind fun _ => ?_
    refine (modifyPd_steady _).bind fun _ => Leads.get.bind fun _ => ?_
    exact Leads.keep (emit_steady nofun) fun _ => (noteClock_steady _).bind fun _ =>
      modifyProg_steady _
  · refine (ssAffZeroCntrs_steady lasting).bind fun _ => use.bind fun _ => ?_
    exact (startMCCounters_steady lasting).bind fun _ => use

omit lasting

theorem PolicyName.collect_steady (prog : ProgPtr) : Steady I (name.policy.collect prog) := by
  have llc : Steady I (collectLlc prog) := modifyPd_steady _
  cases name with
  | fair => exact collectIpc_steady prog
  | perf => exact (collectIpc_steady prog).bind fun _ => collectMemReads_steady prog
  | perfFair =>
      exact (collectIpc_steady prog).bind fun _ => (collectMemReads_steady prog).bind fun _ => llc
  | fairBwCache =>
      exact (collectIpc_steady prog).bind fun _ => (collectMemReads_steady prog).bind fun _ => llc

theorem PolicyName.finishProgress_steady (prog : ProgPtr) :
    Steady I (name.policy.finishProgress prog) := by
  cases name with
  | perf => exact Leads.pure _
  | fair => exact ratioFinish_steady prog
  | perfFair => exact ratioFinish_steady prog
  | fairBwCache => exact ratioFinish_steady prog

theorem addRetired_steady (prog : ProgPtr) : Steady I (addRetired prog) :=
  Leads.get.bind fun _ => Leads.keep (emit_steady nofun) fun _ => modifyPd_steady _

theorem chargeTarget_steady (prog : ProgPtr) : Steady I (chargeTarget prog) :=
  (readPd_leads prog).bind fun _ =>
    modifySched_steady (fun _ => rfl) (fun _ => rfl) (fun _ => rfl) fun _ => rfl

theorem readTarget_steady (prog : ProgPtr) : Steady I (readTarget prog) :=
  (readPd_leads prog).bind fun _ => readSched_leads.bind fun _ => Leads.pure _

theorem killApp_closes (prog : ProgPtr) : Steady Within (killApp prog) := by
  refine (readEnv_steady _).bind fun _ => plNodeUnlink_steady.bind fun _ =>
    (modifyPd_steady _).bind fun _ => ?_
  refine (schedUpdateTotals_steady within_lasting prog).bind fun _ => ?_
  refine (schedClearProg_steady prog).bind fun _ => Leads.keep ?_ fun _ => ?_
  · exact modifySched_steady (fun _ => rfl) (fun _ => rfl) (fun _ => rfl) fun _ => rfl
  · exact Leads.keep (emit_steady nofun) fun _ => readSched_leads.bind fun _ =>
      when_leads closeResults_closes

theorem settleProg_closes (prog : ProgPtr) (unhCycles : Word64) :
    Steady Within (settleProg name.policy prog unhCycles) := by
  refine (sampleProg_steady within_lasting prog).bind fun _ => (readPd_leads prog).bind fun _ => ?_
  refine Leads.keep ?_ fun _ => Leads.pure _
  refine monitoringPhase_steady.bind fun _ => Leads.ite ?_ ?_
  · exact Leads.keep (emit_steady nofun) fun _ => name.collect_steady prog
  · refine (addRetired_steady prog).bind fun _ => (chargeTarget_steady prog).bind fun _ => ?_
    exact (readTarget_steady prog).bind fun _ => when_leads (killApp_closes prog)

/-- A freeze that closes the result files writes to one of them afterwards. -/
theorem freezeSched_misuses : Brings Within Between (freezeSched name.policy) := by
  refine (freezeCounters_steady within_lasting).bind fun _ => ?_
  refine (forEachEntrySafe_leads _ _ fun prog _ => ?_).bind fun _ => ?_
  · exact (stopProg_steady prog).bind fun _ => Leads.pure _
  refine (forEachEntrySafe_leads _ _ (settleProg_closes name)).bind fun _ => ?_
  refine moveProgsToAll_steady.bind fun _ =>
    (writeResults_brings fun _ => Within.write).bind fun _ => ?_
  refine (forEachEntry_leads _ (progressProg_steady between_lasting name _)).bind fun _ => ?_
  refine readSched_leads.bind fun _ => when_leads ?_
  exact modifySched_steady (fun _ => rfl) (fun _ => rfl) (fun _ => rfl) fun _ => rfl

theorem eventsHeapPush_steady (evnt : EvntPtr) : Steady I (eventsHeapPush evnt) :=
  Leads.get.bind fun _ => (orElseStop_leads _ _).bind fun _ => modify_steady fun _ => rfl

theorem qexpired_misuses (now : Timeval) : Steady Between (qexpired name.policy now) := by
  refine Leads.keep ?_ fun _ => Leads.keep (modify_steady fun _ => rfl) fun _ => ?_
  · exact modifySched_steady (fun _ => rfl) (fun _ => rfl) (fun _ => rfl) fun _ => rfl
  refine ((freezeSched_misuses name).weaken (fun _ => Between.within) fun _ => id).bind fun _ => ?_
  refine (name.schedule_steady between_lasting).bind fun _ => ?_
  refine (thawSched_steady between_lasting).bind fun _ => ?_
  exact Leads.keep (modify_steady fun _ => rfl) fun _ => eventsHeapPush_steady _

end Quanta

section Rebalance

variable {I : Closing → Prop} (name : PolicyName)

theorem launch_steady (prog : ProgPtr) : Steady I (launch prog) := by
  refine Leads.keep ?_ fun _ => (readProg_leads prog).bind fun _ => Leads.keep ?_ fun evnt => ?_
  · refine (readEnv_steady _).bind fun _ => (modifyProg_steady _).bind fun _ => ?_
    refine (modifyProg_steady _).bind fun _ => (readEnv_steady _).bind fun _ => ?_
    exact (modifyProg_steady _).bind fun _ => Leads.get.bind fun _ =>
      scheduleSetcpurange_steady prog _ _
  · exact fun _ holds => holds
  · exact (eventsHeapPush_steady _).bind fun _ => modify_steady fun _ => rfl

theorem affProgAlloc_steady (id : Int) : Steady I (affProgAlloc id) := fun _ holds => holds

theorem progRespawn_steady (prog : ProgPtr) (id : Int) : Steady I (progRespawn prog id) := by
  refine Leads.keep ((readEnv_steady _).bind fun _ => Leads.get.bind fun _ => Leads.pure _) fun _ =>
    ?_
  refine (affProgAlloc_steady id).bind fun _ => (readProg_leads prog).bind fun _ => ?_
  refine (modifyProg_steady _).bind fun _ => Leads.keep (emit_steady nofun) fun _ => launch_steady _

theorem stopRun_closes : Steady Within (stopRun name.policy) := by
  refine Leads.keep (modify_steady fun _ => rfl) fun _ => Leads.keep ?_ fun _ => ?_
  · exact modifySched_steady (fun _ => rfl) (fun _ => rfl) (fun _ => rfl) fun _ => rfl
  refine ((freezeSched_misuses name).weaken (fun _ => id) fun _ => Between.within).bind fun _ => ?_
  refine Leads.keep ?_ fun _ => closeResults_closes
  refine moveProgsToAll_steady.bind fun _ => (listEmpty_steady _).bind fun _ => when_leads ?_
  refine forEachEntrySafe_leads _ _ fun prog _ => Leads.keep ?_ fun _ => Leads.pure _
  refine Leads.keep (emit_steady nofun) fun _ => plNodeUnlink_steady.bind fun _ => ?_
  refine (readPd_leads prog).bind fun _ => (getTotal_steady within_lasting prog 0).bind fun _ => ?_
  refine (getTotal_steady within_lasting prog 1).bind fun _ =>
    (schedUpdateClock_steady prog).bind fun _ => ?_
  refine (readPd_leads prog).bind fun _ => Leads.keep ?_ fun _ => schedClearProg_steady prog
  exact modifySched_steady (fun _ => rfl) (fun _ => rfl) (fun _ => rfl) fun _ => rfl

theorem respawn_closes (prog : ProgPtr) : Steady Within (respawn name.policy prog) := by
  refine (readPd_leads prog).bind fun _ => (modifyProg_steady _).bind fun _ => ?_
  refine (readTarget_steady prog).bind fun _ => Leads.keep (when_leads ?_) fun _ => ?_
  · refine Leads.keep ?_ fun _ => emit_steady nofun
    exact modifySched_steady (fun _ => rfl) (fun _ => rfl) (fun _ => rfl) fun _ => rfl
  refine readSched_leads.bind fun _ => (when_leads (stopRun_closes name)).bind fun _ => ?_
  refine readSched_leads.bind fun _ => when_leads (readSched_leads.bind fun _ => ?_)
  exact (readProg_leads prog).bind fun _ => (when_leads (Leads.throw _)).bind fun _ =>
    progRespawn_steady _ _

theorem finishProg_closes (prog : ProgPtr) : Steady Within (finishProg name.policy prog) := by
  have use := useCntrs_steady within_lasting
  refine Leads.keep ?_ fun _ => (addRetired_steady prog).bind fun _ => ?_
  · refine (readPd_leads prog).bind fun _ => use.bind fun _ =>
      (ssAffReadCounter_steady within_lasting _).bind fun _ => ?_
    refine (stopMCCounters_steady within_lasting).bind fun _ => use.bind fun _ => ?_
    refine (getOffcoreMetrics_steady within_lasting).bind fun _ => use.bind fun _ => ?_
    refine (modifyRunning_steady within_lasting prog _).bind fun _ => ?_
    refine (ssAffStatsRead_steady within_lasting prog).bind fun _ =>
      (schedUpdateClock_steady prog).bind fun _ => ?_
    exact (schedUpdatePrfm_steady within_lasting prog).bind fun _ => modifyPd_steady _
  refine (writeResults_steady within_lasting).bind fun _ =>
    (name.finishProgress_steady prog).bind fun _ => ?_
  refine (chargeTarget_steady prog).bind fun _ =>
    (schedUpdateTotals_steady within_lasting prog).bind fun _ => ?_
  exact respawn_closes name prog

/-- A finished program that closes the counters is freed with them. -/
theorem rebalanceFinished_misuses (prog : ProgPtr) :
    Brings Within Between (rebalanceFinished name.policy prog) := by
  refine plNodeUnlink_steady.bind fun _ => (readPd_leads prog).bind fun _ =>
    readSched_leads.bind fun _ => ?_
  refine (when_leads (finishProg_closes name prog)).bind fun _ => Leads.keep ?_ fun _ => ?_
  · exact modifySched_steady (fun _ => rfl) (fun _ => rfl) (fun _ => rfl) fun _ => rfl
  · exact (useCntrs_brings fun _ => Within.use).bind fun _ => emit_steady nofun

theorem rebalanceNew_steady (lasting : Lasting I) (prog : ProgPtr) :
    Steady I (rebalanceNew prog) := by
  refine readSched_leads.bind fun _ => Leads.ite ?_ (Leads.keep ?_ fun _ => ?_)
  · exact Leads.keep (emit_steady nofun) fun _ => modify_steady fun _ => rfl
  · refine Leads.keep ?_ fun _ => (readProg_leads prog).bind fun _ => readSched_leads.bind fun _ =>
      ?_
    · refine (readEnv_steady _).bind fun _ => (useCntrs_steady lasting).bind fun _ => ?_
      refine (readProg_leads prog).bind fun _ => (modifyPd_steady _).bind fun _ => ?_
      exact (readEnv_steady _).bind fun _ => (noteClock_steady _).bind fun _ => modifyPd_steady _
    · refine (when_leads (Leads.throw _)).bind fun _ => (modifyPd_steady _).bind fun _ => ?_
      exact when_leads (modifyPd_steady _)
  · refine Leads.keep ?_ fun _ => (elemMove2tail_steady prog _).bind fun _ => ?_
    · exact modifySched_steady (fun _ => rfl) (fun _ => rfl) (fun _ => rfl) fun _ => rfl
    · refine Leads.keep (modify_steady fun _ => rfl) fun _ =>
        Leads.keep (modify_steady fun _ => rfl) fun _ => ?_
      refine (readProg_leads prog).bind fun _ => Leads.keep (modify_steady fun _ => rfl) fun _ => ?_
      exact emit_steady nofun

theorem rebalance_misuses : Steady Between (rebalance name.policy) := by
  refine (forEachEntrySafe_leads _ _ fun prog _ => ?_).bind fun _ =>
    forEachEntrySafe_leads _ _ fun prog _ => ?_
  · have finished := (rebalanceFinished_misuses name prog).weaken (fun _ => Between.within) fun _ =>
      id
    exact finished.bind fun _ => Leads.pure _
  · exact (rebalanceNew_steady between_lasting prog).bind fun _ => Leads.pure _

end Rebalance

section Runs

variable (name : PolicyName)

theorem checkShutdown_steady {I : Closing → Prop} : Steady I checkShutdown :=
  Leads.get.bind fun _ => when_leads (Leads.get.bind fun _ => Leads.throw _)

theorem selectReadyEvents_misuses (now : Timeval) (fuel : Nat) (nextWakeup : Option Timeval) :
    Steady Between (selectReadyEvents (qexpired name.policy) now fuel nextWakeup) := by
  induction fuel generalizing nextWakeup with
  | zero => exact Leads.throw _
  | succ fuel ih =>
      refine Leads.get.bind fun st => (orElseStop_leads _ _).bind fun first => ?_
      cases first with
      | none => exact Leads.pure _
      | some evnt =>
          refine (Leads.pure _).ite ((orElseStop_leads _ _).bind fun popped => ?_)
          refine Leads.keep (modify_steady fun _ => rfl) fun _ => Leads.keep ?_ fun _ => ih _
          refine Leads.get.bind fun st => ?_
          dsimp only
          cases (st.events evnt).type with
          | newprog =>
              refine Leads.keep (modify_steady fun _ => rfl) fun _ =>
                (modifyLinks_steady _).bind fun _ => ?_
              exact modify_steady fun _ => rfl
          | sampling => exact Leads.pure _
          | qexpired => exact qexpired_misuses name now

theorem sigchldLoop_steady {I : Closing → Prop} (reports : List WaitStatus) (deaths : Int) :
    Steady I (sigchldLoop reports deaths) := by
  induction reports generalizing deaths with
  | nil => exact Leads.pure _
  | cons status later ih =>
      refine Leads.keep ?_ fun _ => Leads.get.bind fun _ => (Leads.pure _).ite ?_
      · cases status with
        | stopped => exact Leads.pure _
        | exited prog => exact emit_steady nofun
      cases status with
      | stopped => exact ih _
      | exited prog =>
          refine (readProg_leads prog).bind fun _ => Leads.keep ?_ fun _ => ih _
          refine Leads.get.bind fun _ => Leads.keep (modify_steady fun _ => rfl) fun _ => ?_
          refine (orElseStop_leads _ _).bind fun prog =>
            Leads.keep (modify_steady fun _ => rfl) fun _ => ?_
          refine (modifyLinks_steady _).bind fun _ => (modifyLinks_steady _).bind fun _ => ?_
          exact Leads.keep (modify_steady fun _ => rfl) fun _ => emit_steady nofun

/-- Every handler leaves the counters and files untouched, or closed and used again. -/
theorem handle_misuses (input : Input) : Steady Between (handle name.policy input) := by
  cases input with
  | events =>
      refine Leads.keep ?_ fun _ => Leads.pure _
      refine Leads.keep ((readEnv_steady _).bind fun _ => Leads.get.bind fun _ => Leads.pure _)
        fun now => ?_
      refine Leads.get.bind fun _ => (selectReadyEvents_misuses name now _ _).bind fun _ => ?_
      exact Leads.get.bind fun _ => (when_leads (rebalance_misuses name)).bind fun _ => Leads.pure _
  | sigchld reports =>
      refine (sigchldLoop_steady reports 0).bind fun _ => ?_
      exact (when_leads (rebalance_misuses name)).bind fun _ => checkShutdown_steady
  | timeout => exact checkShutdown_steady
  | sigterm => exact modify_steady fun _ => rfl

theorem boot_untouched (confs : List ProgConf) (targets : Int → Word64) :
    Steady Untouched (boot confs targets) := by
  have use := useCntrs_steady untouched_lasting
  refine Leads.keep ?_ fun _ => Leads.keep ?_ fun _ => Leads.get.bind fun _ =>
    (orElseStop_leads _ _).bind fun first => ?_
  · refine (modifyLinks_steady _).bind fun _ => (modifyLinks_steady _).bind fun _ => ?_
    refine Leads.keep (modify_steady fun _ => rfl) fun _ =>
      Leads.keep (modify_steady fun _ => rfl) fun _ => ?_
    refine Leads.forM (fun line => ?_) _
    exact (affProgAlloc_steady _).bind fun _ => (modifyProg_steady _).bind fun _ => launch_steady _
  · refine (modifyLinks_steady _).bind fun _ => (modifyLinks_steady _).bind fun _ =>
      Leads.keep ?_ fun _ => ?_
    · exact Leads.modify fun st untouched => ⟨untouched.notFinalized, rfl, rfl, rfl, rfl⟩
    refine use.bind fun _ => (startMCCounters_steady untouched_lasting).bind fun _ =>
      use.bind fun _ => ?_
    refine (ssAffZeroCntrs_steady untouched_lasting).bind fun _ => ?_
    refine (schedInitCountersOutput_steady untouched_lasting).bind fun _ => ?_
    refine Leads.keep (modify_steady fun _ => rfl) fun _ => (eventsHeapPush_steady _).bind fun _ =>
      ?_
    refine (readEnv_steady _).bind fun _ => ?_
    exact modifySched_steady (fun _ => rfl) (fun _ => rfl) (fun _ => rfl) fun _ => rfl
  · cases first with
    | none => exact Leads.throw _
    | some _ => exact (readEnv_steady _).bind fun _ => modify_steady fun _ => rfl

end Runs

end BachScheduler
