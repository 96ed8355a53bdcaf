import BachScheduler.Closing
import BachScheduler.Exits

/-!
# Uses after the finalization

`sched_finalization` runs within a freeze or within a rebalance, and what follows it there goes on
with the counters and the result files.  This is so wherever a run comes to, also where the handler
that finalizes is the one that exits.
-/

namespace BachScheduler

open Wp

variable {name : PolicyName} {confs : List ProgConf} {env : Env} {cpus : List Int}
    {targets : Int → Word64}
variable {inputs : List Input} {st : ExecState}

/-- Where a run comes to, nothing that was closed was used, or everything was closed and used
again. -/
theorem Reaches.closes (reaches : Reaches name confs targets env cpus inputs st) :
    Closing.Between st.closing := by
  have start : (ExecState.start env cpus).closing.Untouched :=
    ⟨List.not_mem_nil, rfl, rfl, rfl, rfl⟩
  refine reaches.keeps (J := fun st => Closing.Between st.closing) ?_ ?_ ?_ ?_
  · exact Wp.imp (boot_untouched confs targets _ start) fun _ _ => .inl
  · exact fun reports => sigchldLoop_steady reports 0
  · exact rebalance_misuses name
  · exact handle_misuses name

/-- Where a run comes to, in a state between its handlers or by the exit of one, the counters and
the result files were used after their close just if they were closed: every path from
`sched_finalization` uses them once more. -/
theorem unused_after_finalization_iff (name : PolicyName) (confs : List ProgConf)
    (targets : Int → Word64) (inputs : List Input) (env : Env) (cpus : List Int) (st : ExecState)
    (reaches : Reaches name confs targets env cpus inputs st) :
    (st.sched.cntrs.staleUses = 0 ∧ st.sched.closedWrites = 0) ↔ .finalization ∉ st.log := by
  rcases reaches.closes with untouched | misused
  · exact ⟨fun _ => untouched.notFinalized, fun _ =>
      ⟨untouched.noStaleUses, untouched.noClosedWrites⟩⟩
  · refine ⟨fun unused => ?_, fun notFinalized => absurd misused.finalized notFinalized⟩
    have used : 0 < st.sched.cntrs.staleUses + st.sched.closedWrites := misused.used
    omega

/-- The last slot is retired by the end of its program: the handler goes on with what was closed,
and exits. -/
theorem unused_after_finalization_iff_exit :
    ∃ st, runExecutor PolicyName.perf.policy [.single] (fun _ => 7)
      [.events, .events, .sigchld [.exited 0]]
        (ExecState.start (Env.counting 5) [0]) = .error (.exit 42) st ∧
      .finalization ∈ st.log ∧ ¬ (st.sched.cntrs.staleUses = 0 ∧ st.sched.closedWrites = 0) := by
  obtain ⟨st, run, ended⟩ := exists_of_stopsWith (by decide +kernel :
    stopsWith (runExecutor PolicyName.perf.policy [.single] (fun _ => 7)
      [.events, .events, .sigchld [.exited 0]])
      (ExecState.start (Env.counting 5) [0]) (.exit 42) (fun st => .finalization ∈ st.log) = true)
  have finalized : .finalization ∈ st.log := of_decide_eq_true ended
  have unused_iff := unused_after_finalization_iff .perf [.single] (fun _ => 7) _ _ _ st
    (.inr ⟨42, run⟩)
  exact ⟨st, run, finalized, fun unused => unused_iff.mp unused finalized⟩

/-- A single program meets its target in its first ordinary quantum; after the freeze has
killed it and closed everything, the counters and the files are used again. -/
theorem used_after_finalization_single :
    ∃ st, runExecutor PolicyName.fair.policy [.single] (fun _ => 3) [.events, .events, .events]
        (ExecState.start (Env.counting 5) [0]) = .ok () st ∧
      .finalization ∈ st.log ∧ 0 < st.sched.cntrs.staleUses ∧ 0 < st.sched.closedWrites := by
  obtain ⟨st, run, used⟩ := exists_of_returnsWith (by decide +kernel :
    returnsWith
      (runExecutor PolicyName.fair.policy [.single] (fun _ => 3) [.events, .events, .events])
      (ExecState.start (Env.counting 5) [0]) (fun st => .finalization ∈ st.log ∧
        0 < st.sched.cntrs.staleUses ∧ 0 < st.sched.closedWrites) = true)
  exact ⟨st, run, by simpa using used⟩

end BachScheduler
