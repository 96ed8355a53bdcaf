import BachScheduler.LinuxSlots
import BachScheduler.Notifications

/-!
# Handles in the pipe

A handle that an application writes to the pipe of the executor is the address of its program.
Between the write and the answer of `handle_prog_notifications` the application can die, and the
signal handler, which may run at any point outside of `handle_events`, frees the program.  The
handles denote programs as long as no end is recorded of a program whose handle is on its way.
-/

namespace BachScheduler

open BachScheduler.Ring Wp

variable {handler : Input → Exec Unit} {inv : ExecState → Prop} {st st' : ExecState}
    {prog : ProgPtr}
variable {exits : ProgPtr → Place → Prop} {name : PolicyName} {start a b : Life}
variable {confs : List ProgConf} {env : Env} {cpus : List Int}

section System

/-- The programs whose ends a handler records. -/
def Input.ended (st : ExecState) : Input → List ProgPtr
  | .sigchld reports => (recordedExits reports st.runningNr).filterMap fun shell =>
      hashLookup st.progPidHash (st.progs shell).shellPid
  | _ => []

/-- The executor and its applications: the handles in the pipe, the handles that
`handle_prog_notifications` has read and not answered, whether it answers already, and the
applications that are dead. -/
structure NoticeSystem where
  exec : ExecState
  queued : List ProgPtr
  held : List ProgPtr
  answering : Bool
  dead : List ProgPtr

/-- What can happen: `affhook_region_notify` writes a handle, an application dies, a handler of the
executor runs, `handle_prog_notifications` reads the next handle or answers the last one. -/
inductive NoticeAction where
  | notify (prog : ProgPtr)
  | die (prog : ProgPtr)
  | handle (input : Input)
  | read
  | reply
  deriving DecidableEq, Repr

/-- Only signals come while `handle_prog_notifications` is at work. -/
def Input.interrupts : Input → Bool
  | .sigchld _ | .sigterm => true
  | .events | .timeout => false

namespace NoticeSystem

/-- The handles that are on their way. -/
def pending (s : NoticeSystem) : List ProgPtr := s.queued ++ s.held

/-- One action, if it is possible and the executor survives it.  A dead application writes nothing,
and `waitpid` only reports what is dead.  No scheduler registers `prog_changed`, so that reading a
handle changes nothing else and no `rebalance` follows. -/
def step (handler : Input → Exec Unit) (s : NoticeSystem) : NoticeAction → Option NoticeSystem
  | .notify prog =>
      if prog < s.exec.progsAllocated ∧
        prog ∉ s.dead then some { s with queued := s.queued ++ [prog] } else none
  | .die prog => some { s with dead := prog :: s.dead }
  | .handle input =>
      if (∀ p ∈ input.ended s.exec, p ∈ s.dead) ∧ (input.interrupts = true ∨ s.held = []) then
        match handler input s.exec with
        | .ok _ exec => some { s with exec := exec }
        | .error _ _ => none
      else none
  | .read =>
      match s.queued with
      | [] => none
      | prog :: later =>
          if s.answering = false ∧ s.held.length < sizeofProgFds then
            some { s with queued := later, held := s.held ++ [prog] }
          else none
  | .reply =>
      if s.held ≠ [] ∧ (s.answering = true ∨ s.queued = [] ∨ s.held.length = sizeofProgFds) then
        some { s with held := s.held.dropLast, answering := s.held.dropLast ≠ [] }
      else none

/-- A run of the system. -/
def run (handler : Input → Exec Unit) (s : NoticeSystem) (actions : List NoticeAction) :
    Option NoticeSystem :=
  actions.foldlM (step handler) s

/-- The system when the executor enters its main loop. -/
def begin (exec : ExecState) : NoticeSystem := ⟨exec, [], [], false, []⟩

/-- An action does not record the end of a program whose handle is on its way. -/
def Lets (s : NoticeSystem) : NoticeAction → Prop
  | .handle input => ∀ p ∈ input.ended s.exec, p ∉ s.pending
  | _ => True

instance (s : NoticeSystem) : DecidablePred s.Lets
  | .handle input => inferInstanceAs (Decidable (∀ p ∈ input.ended s.exec, p ∉ s.pending))
  | .notify _ | .die _ | .read | .reply => .isTrue trivial

/-- No action of the run records the end of a program whose handle is on its way. -/
def Spares (handler : Input → Exec Unit) : List NoticeAction → NoticeSystem → Prop
  | [], _ => True
  | action :: later, s =>
      s.Lets action ∧
        match s.step handler action with
        | some s' => Spares handler later s'
        | none => True

instance decidableSpares (handler : Input → Exec Unit) :
    ∀ actions s, Decidable (Spares handler actions s)
  | [], _ => .isTrue trivial
  | action :: later, s =>
      match ran : s.step handler action with
      | some s' =>
          have := decidableSpares handler later s'
          decidable_of_iff (s.Lets action ∧ Spares handler later s') (by simp [Spares, ran])
      | none => decidable_of_iff (s.Lets action) (by simp [Spares, ran])

end NoticeSystem

/-- What is known of the handlers of a scheduler: they record no other ends than those of their
input, and free a program only behind its end. -/
structure Reaps (handler : Input → Exec Unit) (inv : ExecState → Prop) : Prop where
  keeps : ∀ {input st st'}, inv st → handler input st = .ok () st' → inv st'
  recorded : ∀ {input st st'}, inv st → handler input st = .ok () st' →
    ∀ p, .runningFinished p ∈ st'.log →
    .runningFinished p ∈ st.log ∨ p ∈ input.ended st
  freed : ∀ {st}, inv st → ∀ p, .deallocated p ∈ st.log → .runningFinished p ∈ st.log

/-- No end has been recorded of a program whose handle is on its way, nor of a living one. -/
structure NoticeSystem.Sound (inv : ExecState → Prop) (s : NoticeSystem) : Prop where
  exec : inv s.exec
  pending : ∀ p ∈ s.pending, .runningFinished p ∉ s.exec.log
  dead : ∀ p, .runningFinished p ∈ s.exec.log → p ∈ s.dead

namespace NoticeSystem

variable {s s' : NoticeSystem} {action : NoticeAction}

/-- No action brings a handle on its way but that of a living application. -/
theorem Sound.step (sound : s.Sound inv) (reaps : Reaps handler inv)
    (lets : s.Lets action) (run : s.step handler action = some s') : s'.Sound inv := by
  cases action with
  | notify prog =>
      simp only [NoticeSystem.step] at run
      split at run
      · next alive =>
          cases run
          refine ⟨sound.exec, fun p sent => ?_, sound.dead⟩
          simp only [NoticeSystem.pending, List.mem_append, List.mem_singleton] at sent
          by_cases equal : p = prog
          · subst equal
            exact fun ended => alive.2 (sound.dead p ended)
          · exact sound.pending p
              (List.mem_append.mpr (sent.imp_left fun sent => sent.resolve_right equal))
      · cases run
  | die prog =>
      cases run
      exact ⟨sound.exec, sound.pending, fun p ended => List.mem_cons_of_mem _ (sound.dead p ended)⟩
  | handle input =>
      simp only [NoticeSystem.step] at run
      split at run
      · next possible =>
          cases handled : handler input s.exec with
          | error stop exec => simp [handled] at run
          | ok _ exec =>
              rw [handled] at run
              cases run
              have recorded := reaps.recorded sound.exec handled
              refine ⟨reaps.keeps sound.exec handled, fun p sent ended => ?_, fun p ended => ?_⟩
              · rcases recorded p ended with before | now
                · exact sound.pending p sent before
                · exact lets p now sent
              · exact (recorded p ended).elim (sound.dead p) (possible.1 p)
      · cases run
  | read =>
      simp only [NoticeSystem.step] at run
      split at run
      · cases run
      · next prog later queue =>
          split at run
          · cases run
            refine ⟨sound.exec, fun p sent => sound.pending p ?_, sound.dead⟩
            simp only [NoticeSystem.pending, queue, List.mem_append, List.mem_cons] at sent ⊢
            tauto
          · cases run
  | reply =>
      simp only [NoticeSystem.step] at run
      split at run
      · cases run
        refine ⟨sound.exec, fun p sent => sound.pending p ?_, sound.dead⟩
        exact List.mem_append.mpr
          ((List.mem_append.mp sent).imp_right (List.dropLast_subset s.held ·))
      · cases run

theorem Sound.run {actions : List NoticeAction} (sound : s.Sound inv) (reaps : Reaps handler inv)
    (spares : Spares handler actions s) (run : s.run handler actions = some s') : s'.Sound inv := by
  induction actions generalizing s with
  | nil =>
      cases run
      exact sound
  | cons action later ih =>
      simp only [NoticeSystem.run, List.foldlM_cons, Option.bind_eq_bind,
        Option.bind_eq_some_iff] at run
      obtain ⟨next, first, run⟩ := run
      simp only [Spares, first] at spares
      exact ih (sound.step reaps spares.1 first) spares.2 run

/-- No handle on its way denotes a program that was freed. -/
theorem valid {exec : ExecState} {actions : List NoticeAction} (reaps : Reaps handler inv)
    (first : inv exec ∧ ∀ p, .runningFinished p ∉ exec.log)
    (spares : Spares handler actions (begin exec)) (run : (begin exec).run handler actions = some s)
    (p : ProgPtr) (sent : p ∈ s.pending) :
    .deallocated p ∉ s.exec.log := by
  have starts : (begin exec).Sound inv :=
    ⟨first.1, by simp [begin, pending], fun p ended => absurd ended (first.2 p)⟩
  have sound := starts.run reaps spares run
  exact fun freed => sound.pending p sent (reaps.freed sound.exec p freed)

end NoticeSystem

end System

section Policies

/-- An end is recorded of a program that is heard of. -/
theorem Step.recorded (step : Step exits a b) (p : ProgPtr)
    (ended : Mark.recorded.borne (b.place p) = true) :
    Mark.recorded.borne (a.place p) = true ∨ ∃ k, exits p k := by
  cases step with
  | @move prog source target effect here move =>
      by_cases equal : p = prog
      · subst equal
        rw [Life.act_place, Life.transfer_place, Function.update_self] at ended
        rw [here]
        cases move with
        | finish phase allowed => exact .inr ⟨_, allowed⟩
        | reap phase allowed => exact .inr ⟨_, allowed⟩
        | _ => first | exact .inl rfl | exact absurd ended (by decide)
      · exact .inl (by simpa [equal] using ended)
  | @decide picked rest =>
      by_cases member : p ∈ picked
      · have ended : Mark.recorded.borne .sch = true := by simpa [member] using ended
        exact absurd ended (by decide)
      · exact .inl (by simpa [member] using ended)
  | @respawn prog born here =>
      by_cases new : p = a.core.progsAllocated
      · have ended : Mark.recorded.borne .waiting = true := by simpa [new] using ended
        exact absurd ended (by decide)
      · by_cases equal : p = prog
        · rw [equal, here]
          exact .inl rfl
        · exact .inl (by simpa [new, equal] using ended)
  | _ => exact .inl ended

theorem Steps.recorded (steps : Steps exits a b) (p : ProgPtr)
    (ended : Mark.recorded.borne (b.place p) = true) :
    Mark.recorded.borne (a.place p) = true ∨ ∃ k, exits p k := by
  induction steps with
  | refl => exact .inl ended
  | tail _ step ih => exact (step.recorded p ended).elim ih .inr

/-- Between two handlers of a run. -/
def Lives (name : PolicyName) (st : ExecState) : Prop :=
  ∃ start a, Between anywhere name start st a ∧ a.Marked

theorem lives_boot {targets : Int → Word64}
    (booted : boot confs targets (ExecState.start env cpus) = .ok () st) :
    Lives name st ∧ ∀ p, .runningFinished p ∉ st.log := by
  obtain ⟨a, boots, between⟩ := (Wp.of_ok booted).mp
    (boot_spec anywhere name confs targets env cpus)
  refine ⟨⟨a, a, between, boots.marked⟩, fun p noted => ?_⟩
  obtain ⟨xs, shows_, -⟩ := between
  rw [show st.log = a.core.log from congrArg Core.log shows_.tracks.core] at noted
  exact absurd (boots.parsed.early _ noted) (by simp [Event.early])

/-- The handlers under a policy record the ends of their input. -/
theorem handle_reaps (name : PolicyName) : Reaps (handle name.policy) (Lives name) := by
  have goes : ∀ {input : Input} {st st' : ExecState} {a : Life} (exits : ProgPtr → Place → Prop),
      Between anywhere name a st a → a.Marked → a.Hears exits input →
        handle name.policy input st = .ok () st' →
      ∃ b, Between anywhere name b st' b ∧ b.Marked ∧ Steps exits a b := by
    intro input st st' a exits between marked hears run
    obtain ⟨b, xs, shows_, settled⟩ :=
      (Wp.of_ok run).mp ((between.reroot exits).handle_spec input hears)
    have sound : a.Sound := by
      obtain ⟨ys, before, -⟩ := between
      exact before.tracks.sound
    exact ⟨b, Between.reroot ⟨xs, shows_, settled⟩ anywhere, marked.steps sound shows_.tracks.steps,
      shows_.tracks.steps⟩
  have log : ∀ {st : ExecState} {a : Life}, Between anywhere name a st a → st.log = a.core.log := by
    intro st a between
    obtain ⟨xs, shows_, -⟩ := between
    exact congrArg Core.log shows_.tracks.core
  constructor
  case keeps =>
    intro input st st' lives run
    obtain ⟨start, a, between, marked⟩ := lives
    have hears : a.Hears anywhere input := by
      cases input with
      | sigchld reports => exact fun _ _ _ _ => trivial
      | _ => trivial
    obtain ⟨b, between', marked', -⟩ := goes anywhere (between.reroot anywhere) marked hears run
    exact ⟨b, b, between', marked'⟩
  case recorded =>
    intro input st st' lives run p ended
    obtain ⟨start, a, between, marked⟩ := lives
    have between := between.reroot anywhere
    have core : (view st).core = a.core := by
      obtain ⟨xs, shows_, -⟩ := between
      exact shows_.tracks.core
    have hears : a.Hears (fun p _ => p ∈ input.ended st) input := by
      cases input with
      | sigchld reports =>
          intro shell reported q found
          rw [← core] at reported found
          exact List.mem_filterMap.mpr ⟨shell, reported, found⟩
      | _ => trivial
    obtain ⟨b, between', marked', steps⟩ := goes _ between marked hears run
    rw [log between'] at ended
    refine (steps.recorded p ((marked'.mem_iff .recorded p).mp ended)).imp (fun before => ?_)
      fun told => told.elim fun _ told => told
    rw [log between]
    exact (marked.mem_iff .recorded p).mpr before
  case freed =>
    intro st lives p freed
    obtain ⟨start, a, between, marked⟩ := lives
    have between := between.reroot anywhere
    rw [log between] at freed ⊢
    have bears := (marked.mem_iff .freed p).mp freed
    refine (marked.mem_iff .recorded p).mpr ?_
    revert bears
    cases a.place p <;> simp [Mark.borne]

end Policies

section Linux

variable {rules : LinuxRules} {before after : LinuxLife} {events : List Event}

/-- A program whose end has been recorded, or that was freed, is on its way out. -/
def LinuxLife.Ending (a : LinuxLife) : Prop :=
  ∀ p, .runningFinished p ∈ a.core.core.log ∨ .deallocated p ∈ a.core.core.log →
    Mark.recorded.borne (a.place p) = true

theorem LinuxLife.Ending.fade (ending : before.Ending)
    (follows : before.core.Follows after.core events)
    (keeps : ∀ p, Mark.recorded.borne (before.place p) = true →
      Mark.recorded.borne (after.place p) = true)
    (noted : ∀ p, .runningFinished p ∈ events ∨ .deallocated p ∈ events →
      Mark.recorded.borne (after.place p) = true) :
    after.Ending := by
  intro p ended
  rw [follows.log, List.mem_append, List.mem_append] at ended
  rcases ended with (old | new) | (old | new)
  · exact keeps p (ending p (.inl old))
  · exact noted p (.inl new)
  · exact keeps p (ending p (.inr old))
  · exact noted p (.inr new)

theorem LinuxLife.Ending.move (ending : before.Ending) {source target : Place}
    {effect : LinuxCore → LinuxCore} (here : before.place prog = source)
    (move : LinuxMove before prog source target effect) :
    ((before.transfer prog target).act effect).Ending := by
  refine ending.fade move.follows (fun p bears => ?_) fun p noted => ?_
  · by_cases equal : p = prog
    · subst equal
      rw [here] at bears
      rw [LinuxLife.act_place, LinuxLife.transfer_place, Function.update_self]
      cases move <;> first | rfl | exact absurd bears (by decide)
    · simpa [equal] using bears
  · have same : p = prog ∧ Mark.recorded.borne target = true := by
      cases move with
      | conclude =>
          by_cases none : (before.core.retire prog).progsLeft ≤ 0 <;>
            simpa [LinuxMove.notes, none, Mark.borne] using noted
      | finish | reap | bury => simpa [LinuxMove.notes, Mark.borne] using noted
      | arrive | enter => simp [LinuxMove.notes] at noted
    simpa [same.1] using same.2

theorem LinuxLife.Ending.quantum (ending : before.Ending) (fits : before.Fits)
    {doomed : List ProgPtr} (listed : doomed ⊆ before.on .linuxProgs) :
    ((doomed.foldl LinuxLife.kill before).act LinuxCore.settle).Ending := by
  have killed : (doomed.foldl LinuxLife.kill before).Ending ∧
      (doomed.foldl LinuxLife.kill before).Fits ∧
      (doomed.foldl LinuxLife.kill before).on = before.on := by
    refine LinuxLife.kills (P := fun b => b.Ending ∧ b.Fits ∧ b.on = before.on)
      (fun b inv p member => ?_) listed
      ⟨ending, fits, rfl⟩
    obtain ⟨ending, fits, same⟩ := inv
    have runs := fits.runs (same ▸ member : p ∈ b.on .linuxProgs)
    refine ⟨ending.fade (.kill b.core p) (fun q bears => ?_) (by simp), fits.kill runs, same⟩
    by_cases equal : q = p
    · subst equal
      rcases runs with here | here <;>
      · rw [here] at bears
        exact absurd bears (by decide)
    · simpa [equal] using bears
  refine killed.1.fade (.settle _) (fun _ bears => bears) fun p noted => ?_
  split at noted <;> simp at noted

theorem LinuxLife.Ending.respawn (ending : before.Ending) (fits : before.Fits) {born : ProgCore}
    (here : before.place prog = .finished) : (before.respawn prog born).Ending := by
  have follows := before.core.succeed_follows prog born
  have bears : before.core.core.log ++ [.respawned prog before.core.core.progsAllocated,
      .setCpuRange before.core.core.progsAllocated 0 before.core.core.cpus.length] =
        (before.core.lift (Core.bear prog born)).core.log := rfl
  intro p ended
  rw [LinuxLife.respawn_place]
  rw [LinuxLife.respawn_core, follows.log, ← bears] at ended
  have old : .runningFinished p ∈ before.core.core.log ∨ .deallocated p ∈ before.core.core.log ∨
      p = prog := by
    by_cases none : before.core.progsLeft ≤ 0 <;> simp [none] at ended <;> tauto
  have known : Mark.recorded.borne (before.place p) = true := by
    rcases old with recorded | freed | rfl
    · exact ending p (.inl recorded)
    · exact ending p (.inr freed)
    · rw [here]
      rfl
  have allocated : p ≠ before.core.core.progsAllocated := fun new => by
    rw [new, (fits.unborn _).mpr le_rfl] at known
    exact absurd known (by decide)
  rw [if_neg allocated]
  split
  · rfl
  · exact known

theorem LinuxLife.Ending.steps (ending : before.Ending) (fits : before.Fits)
    (steps : LinuxSteps rules before after) : after.Ending := by
  induction steps with
  | refl => exact ending
  | tail earlier step ih =>
      cases step with
      | move here move allowed => exact ih.move here move
      | quantum expires busy listed => exact ih.quantum (fits.steps earlier) listed.subset
      | respawn here next => exact ih.respawn (fits.steps earlier) here
      | wait prog => exact ih.fade (.note _ _) (fun _ bears => bears) (by simp)
      | terminate =>
          exact ih.fade (.same rfl rfl rfl rfl (List.append_nil _).symm)
            (fun _ bears => bears) (by simp)

/-- An end is recorded of a program that is heard of. -/
theorem LinuxSteps.recorded (steps : LinuxSteps rules before after) (p : ProgPtr)
    (ended : Mark.recorded.borne (after.place p) = true) :
    Mark.recorded.borne (before.place p) = true ∨ rules.exits p := by
  induction steps with
  | refl => exact .inl ended
  | @tail mid last earlier step ih =>
      refine Or.elim ?_ ih .inr
      cases step with
      | @move prog source target effect here move allowed =>
          by_cases equal : p = prog
          · subst equal
            rw [LinuxLife.act_place, LinuxLife.transfer_place, Function.update_self] at ended
            rw [here]
            cases move with
            | finish => exact .inr (allowed (.inl rfl))
            | reap => exact .inr (allowed (.inr rfl))
            | _ => first | exact .inl rfl | exact absurd ended (by decide)
          · exact .inl (by simpa [equal] using ended)
      | @quantum doomed expires busy listed =>
          rw [LinuxLife.act_place, LinuxLife.kills_place] at ended
          split at ended
          · exact absurd ended (by decide)
          · exact .inl ended
      | @respawn prog born here next =>
          rw [LinuxLife.respawn_place] at ended
          split at ended
          · exact absurd ended (by decide)
          · split at ended
            · next equal =>
                rw [equal, here]
                exact .inl rfl
            · exact .inl ended
      | wait prog => exact .inl ended
      | terminate => exact .inl ended

/-- Between two handlers of a run under the `linux` policy. -/
def LinuxLives (st : ExecState) : Prop :=
  ∃ a xs n, LinuxTracks ⟨Clear False, fun _ => True⟩ a st xs a ∧ a.Busy ∧ a.Lined n ∧ a.Ending

theorem linuxLives_boot {targets : Int → Rat} (some : confs ≠ [])
    (booted : bootWith (linuxInit targets) confs (ExecState.start env cpus) = .ok () st) :
    LinuxLives st ∧ ∀ p, .runningFinished p ∉ st.log := by
  obtain ⟨a, xs, boots, tracks⟩ := (Wp.of_ok booted).mp
    (bootWith_spec False (fun _ => True) confs targets env cpus)
  refine ⟨⟨a, xs, confs.length, tracks, boots.busy some, boots.lined, fun p ended => ?_⟩,
    fun p noted => ?_⟩
  · rcases ended with noted | noted <;> exact absurd (boots.parsed.early _ noted)
      (by simp [Event.early])
  · rw [show st.log = a.core.core.log from congrArg (fun c => c.core.log) tracks.core] at noted
    exact absurd (boots.parsed.early _ noted) (by simp [Event.early])

/-- The handlers under the `linux` policy record the ends of their input. -/
theorem linuxHandle_reaps : Reaps (handleWith linuxRebalance linuxQexpired) LinuxLives := by
  have goes : ∀ {input : Input} {st st' : ExecState} {a : LinuxLife} {xs : List EvntPtr} {n : Nat}
      (heard : ProgPtr → Prop), LinuxTracks ⟨Clear False, fun _ => True⟩ a st xs a → a.Busy →
        a.Lined n → a.Ending →
      a.Allows False heard st input →
        handleWith linuxRebalance linuxQexpired input st = .ok () st' →
      ∃ b ys, LinuxTracks ⟨Clear False, fun _ => True⟩ b st' ys b ∧ b.Busy ∧ b.Lined n ∧ b.Ending ∧
        LinuxSteps ⟨Clear False, heard⟩ a b := by
    intro input st st' a xs n heard tracks busy lined ending allows run
    have here : LinuxTracks ⟨Clear False, heard⟩ a st xs a :=
      ⟨.refl, tracks.fits, tracks.core, tracks.rings, tracks.queue⟩
    obtain ⟨b, ys, there, busy'⟩ := (Wp.of_ok run).mp (here.handle_spec busy input allows)
    exact ⟨b, ys, ⟨.refl, there.fits, there.core, there.rings, there.queue⟩, busy',
      lined.steps tracks.fits there.steps,
      ending.steps tracks.fits there.steps, there.steps⟩
  have log : ∀ {st : ExecState} {a : LinuxLife} {xs : List EvntPtr},
      LinuxTracks ⟨Clear False, fun _ => True⟩ a st xs a → st.log = a.core.core.log := fun tracks =>
    congrArg (fun c => c.core.log) tracks.core
  constructor
  case keeps =>
    intro input st st' lives run
    obtain ⟨a, xs, n, tracks, busy, lined, ending⟩ := lives
    have allows : a.Allows False (fun _ => True) st input := by
      cases input with
      | events => exact fun _ never => never.elim
      | sigchld reports => exact fun _ _ _ _ => trivial
      | _ => trivial
    obtain ⟨b, ys, tracks', busy', lined', ending', -⟩ := goes _ tracks busy lined ending allows run
    exact ⟨b, ys, n, tracks', busy', lined', ending'⟩
  case recorded =>
    intro input st st' lives run p ended
    obtain ⟨a, xs, n, tracks, busy, lined, ending⟩ := lives
    have allows : a.Allows False (· ∈ input.ended st) st input := by
      cases input with
      | events => exact fun _ never => never.elim
      | sigchld reports =>
          intro shell reported q found
          have runningNr : st.runningNr = a.core.core.runningNr :=
            congrArg (fun c => c.core.runningNr) tracks.core
          have hash : st.progPidHash = a.core.core.progPidHash :=
            congrArg (fun c => c.core.progPidHash) tracks.core
          have shellPid : (st.progs shell).shellPid = (a.core.core.progs shell).shellPid :=
            congrArg (fun c => (c.core.progs shell).shellPid) tracks.core
          rw [← runningNr] at reported
          rw [← hash, ← shellPid] at found
          exact List.mem_filterMap.mpr ⟨shell, reported, found⟩
      | _ => trivial
    obtain ⟨b, ys, tracks', -, -, ending', steps⟩ := goes _ tracks busy lined ending allows run
    rw [log tracks'] at ended
    refine (steps.recorded p (ending' p (.inl ended))).imp_left fun before => ?_
    rw [log tracks]
    exact lined.recorded p before
  case freed =>
    intro st lives p freed
    obtain ⟨a, xs, n, tracks, busy, lined, ending⟩ := lives
    rw [log tracks] at freed ⊢
    exact lined.recorded p (ending p (.inr freed))

end Linux

section Runs

/-- As long as no end is recorded of a program whose handle is on its way, every handle in the pipe
denotes a program that has not been freed, and so does every handle that was read and is not
answered yet. -/
theorem handles_denote_programs (confs : List ProgConf) (some : confs ≠ []) (env : Env)
    (cpus : List Int) (first : ExecState) (actions : List NoticeAction) (s : NoticeSystem) :
    (∀ (name : PolicyName) targets, boot confs targets (ExecState.start env cpus) = .ok () first →
      NoticeSystem.Spares (handle name.policy) actions (.begin first) →
      (NoticeSystem.begin first).run (handle name.policy) actions = .some s →
      ∀ p ∈ s.pending, .deallocated p ∉ s.exec.log) ∧
    ∀ targets, bootWith (linuxInit targets) confs (ExecState.start env cpus) = .ok () first →
      NoticeSystem.Spares (handleWith linuxRebalance linuxQexpired) actions (.begin first) →
      (NoticeSystem.begin first).run (handleWith linuxRebalance linuxQexpired) actions = .some s →
      ∀ p ∈ s.pending, .deallocated p ∉ s.exec.log := by
  constructor
  · exact fun name targets booted spares run =>
      NoticeSystem.valid (handle_reaps name) (lives_boot booted) spares run
  · exact fun targets booted spares run =>
      NoticeSystem.valid linuxHandle_reaps (linuxLives_boot some booted) spares run

/-- The first of two programs is answered before it dies, and the second one writes after that. -/
theorem handles_denote_programs_two : ∃ first s,
    boot [.single, .single] (fun _ => 2000000000) (ExecState.start .slow [0, 1, 2, 3, 4, 5]) =
      .ok () first ∧
    (NoticeSystem.begin first).run (handle PolicyName.perf.policy)
    [.handle .events, .handle .events, .handle .events,
      .notify 0, .read, .reply, .die 0, .handle (.sigchld [.exited 0]), .notify 1] = some s ∧
    .deallocated 0 ∈ s.exec.log ∧ .deallocated 1 ∉ s.exec.log := by
  obtain ⟨first, booted, goes⟩ := exists_of_returnsWith (by decide +kernel :
    returnsWith (boot [.single, .single] (fun _ => 2000000000))
      (ExecState.start .slow [0, 1, 2, 3, 4, 5])
      (fun first => NoticeSystem.Spares (handle PolicyName.perf.policy)
        [.handle .events, .handle .events,
          .handle .events, .notify 0, .read, .reply, .die 0, .handle (.sigchld [.exited 0]),
            .notify 1] (.begin first) ∧
        ∃ s ∈ (NoticeSystem.begin first).run (handle PolicyName.perf.policy) [.handle .events,
          .handle .events,
          .handle .events, .notify 0, .read, .reply, .die 0,
            .handle (.sigchld [.exited 0]), .notify 1],
          s.pending = [1] ∧ .deallocated 0 ∈ s.exec.log) = true)
  obtain ⟨spares, s, run, pending, freed⟩ := of_decide_eq_true goes
  obtain ⟨valid, -⟩ := handles_denote_programs [.single, .single] (by decide) _ _ first _ s
  exact ⟨first, s, booted, run, freed, valid .perf _ booted spares run 1 (by simp [pending])⟩

/-- A program writes its handle and dies, and its end is recorded before `handle_prog_notifications`
comes to the handle: it reads the address of a program that was freed. -/
theorem handle_of_freed_program : ∃ first s,
    boot [.single, .single] (fun _ => 2000000000) (ExecState.start .slow [0, 1, 2, 3, 4, 5]) =
      .ok () first ∧
    (NoticeSystem.begin first).run (handle PolicyName.perf.policy)
    [.handle .events, .handle .events, .handle .events,
      .notify 0, .die 0, .handle (.sigchld [.exited 0])] = some s ∧
    s.queued = [0] ∧ (s.step (handle PolicyName.perf.policy) .read).isSome = true ∧
      .deallocated 0 ∈ s.exec.log := by
  obtain ⟨first, booted, goes⟩ := exists_of_returnsWith (by decide +kernel :
    returnsWith (boot [.single, .single] (fun _ => 2000000000))
      (ExecState.start .slow [0, 1, 2, 3, 4, 5])
      (fun first =>
        ∃ s ∈ (NoticeSystem.begin first).run (handle PolicyName.perf.policy) [.handle .events,
          .handle .events, .handle .events, .notify 0, .die 0, .handle (.sigchld [.exited 0])],
        s.queued = [0] ∧ (s.step (handle PolicyName.perf.policy) .read).isSome = true ∧
          .deallocated 0 ∈ s.exec.log) = true)
  obtain ⟨s, run, stale⟩ := of_decide_eq_true goes
  exact ⟨first, s, booted, run, stale⟩

end Runs

end BachScheduler
