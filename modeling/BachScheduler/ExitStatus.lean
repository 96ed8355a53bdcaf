import BachScheduler.Drift
import BachScheduler.Exits

/-!
# How the executor exits

Where the system calls do not fail the executor exits in `shutdown` and nowhere else, when the
counters say that nothing is left: the heap that `main` looks into is never empty, as the policy has
put the event of its quantum there.  `prog_respawn` sets `massacre` as a SIGTERM does when it has
retired the last slot; `kill_app`, which can retire it too, does not.  As the counters are off by
the ends that were recorded twice, so many programs may still be there.
-/

namespace BachScheduler

open Wp

variable {exits : ProgPtr → Place → Prop} {name : PolicyName} {start a b : Life}
    {st st' : ExecState}
variable {confs : List ProgConf} {env : Env} {cpus : List Int} {targets : Int → Word64}

section Lives

/-- If `stop_execution` is set, the run is in massacre mode. -/
def Life.Doomed (a : Life) : Prop :=
  a.core.sched.stopExecution = true → a.core.massacre = true

theorem Core.assignAll_massacre (core : Core) (need : ProgPtr → Int) (progs : List ProgPtr)
    (rstart : Int) : (core.assignAll need progs rstart).massacre = core.massacre := by
  induction progs generalizing core rstart with
  | nil => rfl
  | cons prog later ih => exact ih _ _

theorem Life.Doomed.step (doomed : a.Doomed) (step : Step exits a b) : b.Doomed := by
  intro stopped
  cases step with
  | move here move =>
      have before := doomed (move.stopExecution ▸ stopped)
      cases move <;> exact before
  | act act => cases act <;> first | rfl | exact doomed stopped
  | @decide picked _ =>
      have sched := Core.assignAll_sched a.core (fun p => (a.core.progs p).coresNeeded) picked 0
      exact (Core.assignAll_massacre a.core _ picked 0).trans
        (doomed ((congrArg _ sched).symm.trans stopped))
  | _ => exact doomed stopped

theorem Life.Doomed.steps (doomed : a.Doomed) (steps : Steps exits a b) : b.Doomed := by
  induction steps with
  | refl => exact doomed
  | tail _ step ih => exact ih.step step

theorem Life.Boots.doomed (boots : a.Boots cpus confs targets) : a.Doomed := by
  intro stopped
  rw [boots.stopExecution] at stopped
  cases stopped

end Lives

end BachScheduler
