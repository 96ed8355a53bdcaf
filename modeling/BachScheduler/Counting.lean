import BachScheduler.Boot

/-!
# What the policies count

`progs_nr` is changed apart from the lists: when a program is taken over, when it is killed,
and when it is freed at the end of `rebalance`.  A program that was killed and whose exit is
recorded afterwards goes both ways.
-/

namespace BachScheduler

open BachScheduler.Ring Census Wp

variable {exits : ProgPtr → Place → Prop} {name : PolicyName} {start a b : Life} {st : ExecState}
variable {prog : ProgPtr} {source target : Place} {effect : Core → Core}
variable {confs : List ProgConf} {env : Env} {cpus : List Int} {targets : Int → Word64}

/-- Whether the exit of a program has been recorded after it was killed. -/
def Place.endedTwice : Place → Bool
  | .reaped | .passed | .buried => true
  | _ => false

/-- No program has ended twice. -/
def Life.EndsOnce (a : Life) : Prop :=
  ∀ p, (a.place p).endedTwice = false

section Steps

theorem Move.endsOnce (move : Move exits a prog source target effect)
    (spared : ¬ exits prog .killed) (once : source.endedTwice = false) :
    target.endedTwice = false := by
  cases move with
  | reap phase allowed => exact absurd allowed spared
  | pass => exact absurd once (by decide)
  | bury => exact absurd once (by decide)
  | _ => rfl

/-- When no exit of a killed program is recorded, no program ends twice. -/
theorem Life.EndsOnce.steps (once : a.EndsOnce) (spared : ∀ p, ¬ exits p .killed)
    (steps : Steps exits a b) : b.EndsOnce := by
  induction steps with
  | refl => exact once
  | tail _ step ih =>
      have kept := step.places (P := fun k => k.endedTwice = false) ih
      exact kept (fun prog _ _ _ move => move.endsOnce (spared prog)) rfl rfl fun _ => rfl

theorem Life.Boots.endsOnce (boots : a.Boots cpus confs targets) : a.EndsOnce := by
  intro p
  rw [boots.place, Place.atStart]
  split <;> rfl

end Steps

section Lists

/-- What a program on `progs_all` or `progs_sch` adds to their lengths. -/
def Place.scheduled (k : Place) : Int :=
  (if k = .all then 1 else 0) + if k = .sch then 1 else 0

theorem Life.Sound.scheduled (sound : a.Sound) :
    tally Place.scheduled a.core.progsAllocated a.place =
      (a.on .progsAll).length + (a.on .progsSch).length := by
  have all := sound.length_on (by simp [lifeHeads] : Node.progsAll ∈ lifeHeads)
    (k := .all) fun other => by cases other <;> simp [Place.home]
  have sch := sound.length_on (by simp [lifeHeads] : Node.progsSch ∈ lifeHeads)
    (k := .sch) fun other => by cases other <;> simp [Place.home]
  rw [← all, ← sch]
  exact tally_add _ _

/-- Where no program has ended twice, `progs_nr` counts the programs of the two lists. -/
theorem Life.Sound.progsNr (sound : a.Sound) (settled : a.Settled) (once : a.EndsOnce) :
    a.core.sched.progsNr = (a.on .progsAll).length + (a.on .progsSch).length := by
  rw [← sound.scheduled]
  refine (sound.counter .progsNr).trans (tally_congr fun p _ => ?_)
  have stays := settled p
  have single := once p
  cases here : a.place p <;> simp [here, Place.settled, Place.endedTwice] at stays single <;> rfl

end Lists

section Runs

/-- `progs_nr` is the number of the programs on `progs_all` and on `progs_sch`. -/
def ExecState.CountsProgs (st : ExecState) : Prop :=
  ∃ all sch : List ProgPtr, IsRing st.links .progsAll (all.map Node.plNode) ∧
    IsRing st.links .progsSch (sch.map Node.plNode) ∧ st.sched.progsNr = all.length + sch.length

/-- As long as no exit of a program that `kill_app` has killed is recorded, `progs_nr` is the
number of programs on the two lists. -/
theorem progs_nr_counts (name : PolicyName) (confs : List ProgConf) (targets : Int → Word64)
    (inputs : List Input) (env : Env) (cpus : List Int) (st : ExecState)
    (run : runExecutor name.policy confs targets inputs (ExecState.start env cpus) = .ok () st)
    (records : RecordsOnly (fun mid p => (mid.pds p).killed = false) name confs targets env
      cpus inputs) :
    st.CountsProgs := by
  have heard : Heard (fun _ k => k ≠ .killed) name confs targets env cpus inputs := by
    refine records.heard fun mid a b boots between p _ spared killed => ?_
    obtain ⟨xs, shows_, -⟩ := between
    have marked := shows_.tracks.sound.dead p (by rw [killed]; rfl)
    rw [← shows_.tracks.core] at marked
    exact absurd (spared.symm.trans marked) (by decide)
  obtain ⟨a, b, boots, xs, shows_, settled⟩ := runExecutor_between heard run
  have once := boots.endsOnce.steps (fun p spared => spared rfl) shows_.tracks.steps
  refine ⟨b.on .progsAll, b.on .progsSch, shows_.tracks.ring (by simp [lifeHeads]),
    shows_.tracks.ring (by simp [lifeHeads]), ?_⟩
  have progsNr := shows_.tracks.sound.progsNr settled once
  rwa [← shows_.tracks.core] at progsNr

/-- `progs_nr` counts the programs after one of three has exited by itself. -/
theorem progs_nr_counts_three :
    ∃ st, runExecutor PolicyName.perf.policy [.single, .single, .single] oneTarget
        [.events, .events, .sigchld [.exited 1]]
        (ExecState.start (Env.counting 5) [0, 1, 2]) = .ok () st ∧
      st.CountsProgs := by
  obtain ⟨st, run, -⟩ := exists_of_returnsWith (by decide +kernel :
    returnsWith (runExecutor PolicyName.perf.policy [.single, .single, .single] oneTarget
        [.events, .events, .sigchld [.exited 1]])
      (ExecState.start (Env.counting 5) [0, 1, 2]) (fun _ => true) = true)
  obtain ⟨st₂, run₂, spared⟩ := exists_of_returnsWith (by decide +kernel :
    returnsWith
      (runExecutor PolicyName.perf.policy [.single, .single, .single] oneTarget [.events, .events])
      (ExecState.start (Env.counting 5) [0, 1, 2]) (fun mid =>
        ∀ p ∈ hashLookup mid.progPidHash (mid.progs 1).shellPid, (mid.pds p).killed = false) = true)
  have records : RecordsOnly (fun mid p => (mid.pds p).killed = false) .perf
      [.single, .single, .single] oneTarget (Env.counting 5) [0, 1, 2]
      ([.events, .events] ++ [.sigchld [.exited 1]]) :=
    RecordsOnly.lastExit (by simp) run₂ (of_decide_eq_true spared)
  exact ⟨st, run, progs_nr_counts .perf _ _ _ _ _ st run records⟩

/-- A list of at most one program is closed after two steps. -/
theorem next_next_of_short {links : Links Node} {head : Node} {progs : List ProgPtr}
    (ring : IsRing links head (progs.map Node.plNode)) (short : progs.length ≤ 1) :
    links.next (links.next head) = head := by
  match progs with
  | [] =>
      have closed := ring.next_head
      simp only [List.map_nil, List.head?_nil, Option.getD_none] at closed
      rw [closed, closed]
  | [prog] =>
      have first := ring.next_head
      have alone : IsRing links head ([] ++ .plNode prog :: []) := ring
      have last := alone.next_node
      simp_all
  | _ :: _ :: _ => simp at short

/-- The first of three programs is killed by its target; when its exit is recorded,
`progs_nr` is one while two programs run. -/
theorem progs_nr_short_after_exit :
    ∃ st, runExecutor PolicyName.perf.policy [.single, .single, .single] oneTarget
        [.events, .events, .events, .events, .events, .sigchld [.exited 0]]
        (ExecState.start (Env.counting 5) [0, 1, 2]) = .ok () st ∧ ¬ st.CountsProgs := by
  obtain ⟨st, run, seen⟩ := exists_of_returnsWith (by decide +kernel :
    returnsWith (runExecutor PolicyName.perf.policy [.single, .single, .single] oneTarget
        [.events, .events, .events, .events, .events, .sigchld [.exited 0]])
      (ExecState.start (Env.counting 5) [0, 1, 2]) (fun st => st.sched.progsNr = 1 ∧
        st.links.next (st.links.next .progsSch) ≠ .progsSch) = true)
  have seen : st.sched.progsNr = 1 ∧ st.links.next (st.links.next .progsSch) ≠ .progsSch := by
    simpa using seen
  refine ⟨st, run, fun counts => ?_⟩
  obtain ⟨all, sch, -, ring, count⟩ := counts
  exact seen.2 (next_next_of_short ring (by omega))

end Runs

end BachScheduler
