import BachScheduler.Slots

/-!
# The progress of a slot and its target

What is counted for a program is added to its progress and taken from the target of its slot.
The progress goes from one instance of a slot to the next, so that both together stay what the
target was at first.
-/

namespace BachScheduler

open Lineage Wp

variable {exits : ProgPtr → Place → Prop} {name : PolicyName} {a b : Life}
    {prog : ProgPtr} {n : Nat}
variable {source target : Place} {effect : Core → Core} {st : ExecState}
variable {confs : List ProgConf} {env : Env} {cpus : List Int} {targets : Int → Word64}

/-- The progress of a program: its `aff_prog` has it until the scheduler takes the program over. -/
def Life.progress (a : Life) (p : ProgPtr) : Word64 :=
  if Mark.enrolled.borne (a.place p) then (a.core.pds p).instrRetdSum else
    (a.core.progs p).instrRetdSum

/-- The target that is left to a live program and its progress are the target at first. -/
def Life.Balanced (targets : Int → Word64) (n : Nat) (a : Life) : Prop :=
  ∀ p, (a.place p).live = true →
    a.core.sched.targetInstr (a.core.slotOf n p) + a.progress p = targets (a.core.slotOf n p)

section Frames

/-- Neither a target nor the progress of a program changes. -/
structure Core.SameSums (core other : Core) : Prop where
  targetInstr : other.sched.targetInstr = core.sched.targetInstr
  agree : Core.Agree ProgCore.instrRetdSum PdCore.instrRetdSum core other

/-- What happens without a move is a charge, the hand-over of the progress, or leaves both sums
alone. -/
theorem Act.sums (act : Act a effect) :
    (∃ prog batches, effect = Core.charge prog batches ∧
      (a.place prog = .sch ∨ a.place prog = .taken)) ∨
      (∃ prog, effect = Core.carry prog ∧ a.place prog = .reported) ∨ a.core.SameSums
      (effect a.core) := by
  cases act with
  | @charge prog listed batches =>
      exact .inl ⟨prog, batches, rfl, listed.imp And.right id⟩
  | @carry prog listed => exact .inr (.inl ⟨prog, rfl, listed⟩)
  | halt =>
      exact .inr (.inr ⟨rfl, .modPd (.updateClock (.modProg (.refl _) rfl) fun _ _ => rfl) rfl⟩)
  | sample => exact .inr (.inr ⟨rfl, .modPd (.modPd (.refl _) rfl) rfl⟩)
  | @sampleLast prog listed read ticking now instrRetd accumulated =>
      have sampled : Core.Agree ProgCore.instrRetdSum PdCore.instrRetdSum a.core
          ((a.core.updateClock prog now).sample prog instrRetd accumulated) :=
        .modPd (.modPd (.updateClock (.refl _) fun _ _ => rfl) rfl) rfl
      exact .inr (.inr ⟨rfl, sampled⟩)
  | @thaw prog phase listed waits now =>
      have woken : Core.Agree ProgCore.instrRetdSum PdCore.instrRetdSum a.core
          (((a.core.zeroEpochs prog).updateClock prog now).modPd prog fun pd =>
            { pd with runStatus := .running }) :=
        .modPd (.updateClock (.modPd (.refl _) rfl) fun _ _ => rfl) rfl
      exact .inr (.inr ⟨rfl, .modProg (woken.trans (.same rfl rfl)) rfl⟩)
  | _ => exact .inr (.inr ⟨rfl, .same rfl rfl⟩)

/-- A move leaves both sums alone, unless its program gets its `prog_data`. -/
theorem Move.sums (move : Move exits a prog source target effect) :
    a.core.SameSums (effect a.core) ∧ Mark.enrolled.borne target = Mark.enrolled.borne source ∨
      ∃ pd now, effect = Core.enter prog pd now ∧ source = .new ∧ target = .all ∧
        pd.instrRetdSum = (a.core.progs prog).instrRetdSum := by
  cases move with
  | enter some fresh => exact .inr ⟨_, _, rfl, rfl, rfl, fresh.instrRetdSum⟩
  | monitor =>
      have assigned : Core.Agree ProgCore.instrRetdSum PdCore.instrRetdSum a.core
          (a.core.assign prog (a.core.sched.monitorWnd.tmod maxCores)) :=
        .assign _ _ _ (fun _ _ => rfl) fun _ _ => rfl
      exact .inl ⟨⟨rfl, assigned.trans (.same rfl rfl)⟩, rfl⟩
  | kill =>
      have killed : Core.Agree ProgCore.instrRetdSum PdCore.instrRetdSum a.core
          (a.core.modPd prog fun pd => { pd with killed := true }) := .modPd (.refl _) rfl
      exact .inl ⟨⟨rfl, killed.trans (.same rfl rfl)⟩, rfl⟩
  | finish phase allowed found runs =>
      refine .inl ⟨⟨rfl, .same rfl rfl⟩, ?_⟩
      rcases runs with rfl | rfl <;> rfl
  | _ => exact .inl ⟨⟨rfl, .same rfl rfl⟩, rfl⟩

end Frames

section Steps

/-- Where the sums are the same, as well as the places in which a program has its progress. -/
theorem Life.Balanced.congr (balanced : a.Balanced targets n) (keeps : a.core.Keeps b.core)
    (same : a.core.SameSums b.core) (fewer : ∀ p, (b.place p).live = true → (a.place p).live = true)
    (enrolled : ∀ p, (b.place p).live = true →
      Mark.enrolled.borne (b.place p) = Mark.enrolled.borne (a.place p)) :
    b.Balanced targets n := by
  intro p live
  have before := balanced p (fewer p live)
  have slot : b.core.slotOf n p = a.core.slotOf n p := by rw [Core.slotOf, Core.slotOf, keeps.id p]
  have progress : b.progress p = a.progress p := by
    rw [Life.progress, Life.progress, enrolled p live, same.agree.pds p, same.agree.progs p]
  rw [slot, progress, same.targetInstr]
  exact before

theorem Life.Balanced.move (balanced : a.Balanced targets n) (here : a.place prog = source)
    (move : Move exits a prog source target effect) :
    ((a.transfer prog target).act effect).Balanced targets n := by
  have fewer : ∀ p, (((a.transfer prog target).act effect).place p).live = true →
      (a.place p).live = true := by
    intro p live
    by_cases equal : p = prog
    · subst equal
      exact here ▸ move.live (by simpa using live)
    · simpa [equal] using live
  rcases move.sums with ⟨same, enrolled⟩ | ⟨pd, now, rfl, rfl, rfl, carried⟩
  · refine balanced.congr move.keeps same fewer fun p live => ?_
    by_cases equal : p = prog
    · subst equal
      simp [here, enrolled]
    · simp [equal]
  · intro p live
    have before := balanced p (fewer p live)
    by_cases equal : p = prog
    · subst equal
      simpa [Life.progress, here, Core.enter, Mark.borne, Place.spared, Place.dead,
        carried] using before
    · simpa [Life.progress, Core.enter, equal] using before

/-- A charge takes from the target what it adds to the progress. -/
theorem Life.Balanced.charge (balanced : a.Balanced targets n) (lined : a.Lined n)
    (batches : List (Int × Nat)) (listed : a.place prog = .sch ∨ a.place prog = .taken) :
    (a.act (Core.charge prog batches)).Balanced targets n := by
  have live : (a.place prog).live = true := by rcases listed with here | here <;> rw [here] <;> rfl
  have enrolled : Mark.enrolled.borne (a.place prog) = true := by
    rcases listed with here | here <;> rw [here] <;> rfl
  have born : prog < a.line.born := lined.ordered.liveBorn prog live
  have slot : (a.core.pds prog).initId = a.core.slotOf n prog :=
    (lined.initId prog enrolled).trans (slot_eq_tmod (lined.ordered.base_le prog born)).symm
  intro p liveToo
  have before := balanced p liveToo
  have same : (a.act (Core.charge prog batches)).core.slotOf n p = a.core.slotOf n p := rfl
  rw [same]
  by_cases equal : p = prog
  · subst equal
    have bears : Mark.enrolled.borne ((a.act (Core.charge p batches)).place p) = true := enrolled
    simp only [Life.progress, enrolled, bears, if_true, Life.act_core, Core.charge,
      Function.update_self, slot] at before ⊢
    rw [← before]
    ring
  · have apart : a.core.slotOf n p ≠ a.core.slotOf n prog := fun same =>
      equal (lined.ordered.live_unique liveToo live same)
    simpa [Life.progress, Core.charge, slot, apart, equal] using before

theorem Life.Balanced.act (balanced : a.Balanced targets n) (lined : a.Lined n)
    (act : Act a effect) : (a.act effect).Balanced targets n := by
  rcases act.sums with ⟨prog, batches, rfl, listed⟩ | ⟨prog, rfl, here⟩ | same
  · exact balanced.charge lined batches listed
  · intro p live
    have before := balanced p live
    have slot : (a.act (Core.carry prog)).core.slotOf n p = a.core.slotOf n p :=
      congrArg (Lineage.slot idUserOffset n) (act.keeps.id p)
    rw [slot]
    by_cases equal : p = prog
    · subst equal
      have bears : Mark.enrolled.borne (a.place p) = true := by rw [here]; rfl
      simpa [Life.progress, bears, Core.carry, Core.modProg] using before
    · simpa [Life.progress, Core.carry, Core.modProg, equal] using before
  · exact balanced.congr act.keeps same (fun _ live => live) fun _ _ => rfl

/-- The next instance of a slot starts with the progress of the one before. -/
theorem Life.Balanced.respawn (balanced : a.Balanced targets n) (lined : a.Lined n)
    {born : ProgCore} (here : a.place prog = .reported)
    (carried : (a.core.progs prog).instrRetdSum = (a.core.pds prog).instrRetdSum)
    (next : born.Next a.core prog) :
    Life.Balanced targets n { a with
      place := Function.update (Function.update a.place prog .spent) a.core.progsAllocated .waiting
      core := a.core.bear prog born } := by
  obtain ⟨ids, slot⟩ := lined.slots_bear next
  intro p live
  by_cases new : p = a.core.progsAllocated
  · subst new
    have before := balanced prog (by rw [here]; rfl)
    dsimp only
    rw [slot]
    simpa [Life.progress, here, Core.bear, Mark.borne, Place.spared, Place.dead, next.instrRetdSum,
      carried] using before
  · have other : p ≠ prog := fun equal => by
      subst equal
      simp [new, Place.live] at live
    have liveToo : (a.place p).live = true := by simpa [new, other] using live
    have before := balanced p liveToo
    have same : (a.core.bear prog born).slotOf n p = a.core.slotOf n p := by
      rw [Core.slotOf, Core.slotOf, ids p (lined.ordered.liveBorn p liveToo)]
    dsimp only
    rw [same]
    simpa [Life.progress, Core.bear, new, other] using before

theorem Life.Balanced.step (balanced : a.Balanced targets n) (lined : a.Lined n) (sound : a.Sound)
    (step : Step exits a b) : b.Balanced targets n := by
  cases step with
  | move here move => exact balanced.move here move
  | act act => exact balanced.act lined act
  | @decide picked rest phase idle perm =>
      have places : ∀ p ∈ picked, a.place p = .all := fun p member => sound.place_picked perm member
      have same := Core.assignAll_sched a.core (fun p => (a.core.progs p).coresNeeded) picked 0
      refine balanced.congr (Core.assignAll_keeps _ _ _ _) ⟨congrArg SchedCore.targetInstr same,
        .assignAll _ _ _ _ (fun _ _ => rfl) fun _ _ => rfl⟩ (fun p live => ?_) fun p live => ?_
      · by_cases member : p ∈ picked
        · rw [places p member]
          rfl
        · simpa [member] using live
      · by_cases member : p ∈ picked
        · simp [member, places p member, Mark.borne, Place.spared, Place.dead]
        · simp [member]
  | respawn here carried running next => exact balanced.respawn lined here carried next
  | wake => exact balanced
  | _ => exact balanced

theorem Life.Balanced.steps (balanced : a.Balanced targets n) (lined : a.Lined n) (sound : a.Sound)
    (steps : Steps exits a b) : b.Balanced targets n := by
  induction steps with
  | refl => exact balanced
  | tail before step ih => exact ih.step (lined.steps sound before) (sound.steps before) step

theorem Life.Boots.balanced (boots : a.Boots cpus confs targets) :
    a.Balanced targets confs.length := by
  intro p live
  have inside : p < confs.length := by
    by_contra outside
    rw [boots.place, Place.atStart, if_neg outside] at live
    exact absurd live (by decide)
  have none : (a.core.progs p).instrRetdSum = 0 :=
    (boots.parsed.configured p confs[p] (List.getElem?_eq_getElem inside)).instrRetdSum
  have waits : Mark.enrolled.borne (a.place p) = false := by
    rw [boots.place, Place.atStart, if_pos inside]
    rfl
  simp [Life.progress, waits, none, boots.targetInstr]

end Steps

section Runs

/-- Between the handlers, the target left to a slot and the progress of the instance that uses it
are the target at first. -/
theorem target_and_progress (name : PolicyName) (confs : List ProgConf) (targets : Int → Word64)
    (inputs : List Input) (env : Env) (cpus : List Int) (st : ExecState)
    (run : runExecutor name.policy confs targets inputs (ExecState.start env cpus) = .ok () st) :
    ∃ queue on, st.Holds lifeHeads queue on ∧ ∀ p, st.UsesSlot queue on p →
      let i := st.core.slotOf confs.length p
      (st.Waits queue p ∨ p ∈ on .pnewL →
        st.sched.targetInstr i + (st.progs p).instrRetdSum = targets i) ∧
        (¬ (st.Waits queue p ∨ p ∈ on .pnewL) → (st.pds p).initId = i ∧
          st.sched.targetInstr i + (st.pds p).instrRetdSum = targets i) := by
  obtain ⟨a, b, boots, xs, shows_, settled⟩ :=
    runExecutor_between (heard_anywhere name confs targets env cpus inputs) run
  have tracks := shows_.tracks
  have lined := boots.lined.steps boots.sound tracks.steps
  have balanced := boots.balanced.steps boots.lined boots.sound tracks.steps
  have core := tracks.core
  refine ⟨xs, b.on, tracks.holds, fun p uses => ?_⟩
  have live := (tracks.usesSlot_iff settled p).mp uses
  have before := balanced p live
  have early : (st.Waits xs p ∨ p ∈ b.on .pnewL) ↔ (b.place p = .waiting ∨ b.place p = .new) := by
    rw [waits_iff_waiting tracks.models.queue, tracks.sound.listed.mem .pnewL (by simp [lifeHeads])]
    cases b.place p <;> simp [Place.home]
  have target : st.sched.targetInstr = b.core.sched.targetInstr :=
    congrArg (fun core => core.sched.targetInstr) core
  have progress : (st.progs p).instrRetdSum = (b.core.progs p).instrRetdSum :=
    congrArg (fun core => (core.progs p).instrRetdSum) core
  have progress' : (st.pds p).instrRetdSum = (b.core.pds p).instrRetdSum :=
    congrArg (fun core => (core.pds p).instrRetdSum) core
  have initId : (st.pds p).initId = (b.core.pds p).initId :=
    congrArg (fun core => (core.pds p).initId) core
  dsimp only
  rw [early, target, progress, progress', initId, core]
  constructor
  · intro waits
    have none : Mark.enrolled.borne (b.place p) = false := by
      rcases waits with here | here <;> rw [here] <;> rfl
    simpa [Life.progress, none] using before
  · intro late
    have enrolled : Mark.enrolled.borne (b.place p) = true := by
      cases here : b.place p <;> simp [here, Place.live] at live <;> simp [here] at late <;> rfl
    refine ⟨?_, by simpa [Life.progress, enrolled] using before⟩
    exact (lined.initId p enrolled).trans
      (slot_eq_tmod (lined.ordered.base_le p (lined.ordered.liveBorn p live))).symm

/-- A program that has made progress, after another one was started again. -/
theorem target_and_progress_exit :
    ∃ st, runExecutor PolicyName.perf.policy [.single, .single] (fun _ => 2000000000)
        [.events, .events, .events, .events, .sigchld [.exited 1]]
        (ExecState.start (Env.counting 5) [0, 1]) = .ok () st ∧
      (st.pds 1).instrRetdSum ≠ 0 ∧
      ∃ queue on, st.Holds lifeHeads queue on ∧ ∀ p, st.Waits queue p →
        st.sched.targetInstr (st.core.slotOf 2 p) + (st.progs p).instrRetdSum = 2000000000 := by
  obtain ⟨st, run, counted⟩ := exists_of_returnsWith (by decide +kernel :
    returnsWith (runExecutor PolicyName.perf.policy [.single, .single] (fun _ => 2000000000)
        [.events, .events, .events, .events, .sigchld [.exited 1]])
      (ExecState.start (Env.counting 5) [0, 1]) (fun st => (st.pds 1).instrRetdSum ≠ 0) = true)
  obtain ⟨queue, on, holds, balance⟩ := target_and_progress .perf _ _ _ _ _ st run
  exact ⟨st, run, of_decide_eq_true counted, queue, on, holds, fun p waits =>
    (balance p (.inl waits)).1 (.inl waits)⟩

end Runs

end BachScheduler
