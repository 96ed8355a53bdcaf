import BachScheduler.Expiries

/-!
# Programs take turns under `perf`

As long as no program comes or goes, the expiries are rounds of service by seniority: every
program that ran is younger than the ones it was preferred to.  So no program is passed over
as often as there are programs, whatever `perf_max_fitness` prefers.
-/

namespace BachScheduler

open BachScheduler.Ring Wp Words Seniority

variable {progs all sch : List ProgPtr} {st before st' : ExecState} {since : ProgPtr → Int}
    {last time : Int}

/-- The programs that the policy has on its lists. -/
def ExecState.HasPrograms (st : ExecState) (progs : List ProgPtr) : Prop :=
  ∃ all sch : List ProgPtr, IsRing st.links .progsAll (all.map Node.plNode) ∧
    IsRing st.links .progsSch (sch.map Node.plNode) ∧
    (all ++ sch).Perm progs

theorem ExecState.HasPrograms.perm (holds : st.HasPrograms progs) (waiting : Waiting all sch st) :
    (all ++ sch).Perm progs := by
  obtain ⟨all', sch', allRing, schRing, perm⟩ := holds
  have injective : Function.Injective Node.plNode := fun _ _ => Node.plNode.inj
  have sameAll := List.map_injective_iff.mpr injective (waiting.all.unique allRing)
  have sameSch := List.map_injective_iff.mpr injective (waiting.sch.unique schRing)
  rwa [sameAll, sameSch]

/-- Since when a program waits, in milliseconds, once an expiry at some time has frozen what ran. -/
def restamp (st : ExecState) (time : Int) (since : ProgPtr → Int) (prog : ProgPtr) : Int :=
  if (st.pds prog).runStatus = .running then time else since prog

/-- Nothing happens to the programs: the clock may move, and other events are handled. -/
structure Idles (st before : ExecState) : Prop where
  links : before.links = st.links
  progs : before.progs = st.progs
  pds : before.pds = st.pds
  sched : before.sched = st.sched
  progsAllocated : before.progsAllocated = st.progsAllocated

/-- Expiries of the quantum under `perf`, one after the other, in each of which the clock stands
still and no program comes or goes.  The second argument says since when each program waits,
the third one when the last expiry was, and the list holds the states after the expiries. -/
inductive PerfExpiries (progs : List ProgPtr) :
    (ProgPtr → Int) → Int → ExecState → List ExecState → Prop where
  | none (since : ProgPtr → Int) (last : Int) (st : ExecState) : PerfExpiries progs since last st []
  | next {since : ProgPtr → Int} {last time : Int} {tv : Timeval} {st before st' : ExecState}
      {later : List ExecState} {events : List ClockEvent} :
      Idles st before → perfQexpired tv before = .ok () st' → st'.HasPrograms progs →
      st'.clocks = before.clocks ++ events → StandsStill (BitVec.ofInt 32 time) events →
      last < time → (∀ p ∈ progs, time - restamp st time since p < 2 ^ 31) →
      PerfExpiries progs (restamp st time since) time st' later →
        PerfExpiries progs since last st (st' :: later)

section Turns

/-- The programs take turns: those on `progs_sch` run and the others wait, for as long as `since`
says. -/
structure TakeTurns (progs all sch : List ProgPtr) (since : ProgPtr → Int) (last : Int)
    (st : ExecState) : Prop where
  waiting : Waiting all sch st
  perm : (all ++ sch).Perm progs
  ordinary : st.sched.progsNr < st.sched.monitorWnd
  waits : ∀ p ∈ all, (st.pds p).runStatus = .stoped
  runs : ∀ p ∈ sch, (st.pds p).runStatus = .running
  stamped : ∀ p ∈ all, (st.pds p).tmWstart = BitVec.ofInt 32 (since p)
  past : ∀ p ∈ all, since p ≤ last

namespace TakeTurns

theorem idle (turns : TakeTurns progs all sch since last st) (idles : Idles st before) :
    TakeTurns progs all sch since last before where
  waiting := turns.waiting.congr idles.links idles.progsAllocated
  perm := turns.perm
  ordinary := by rw [idles.sched]; exact turns.ordinary
  waits := by rw [idles.pds]; exact turns.waits
  runs := by rw [idles.pds]; exact turns.runs
  stamped := by rw [idles.pds]; exact turns.stamped
  past := turns.past

theorem expiring (turns : TakeTurns progs all sch since last st) (now : Word32) :
    Expiring now st.clocks (fun p => (st.pds p).runStatus) (fun p => (st.pds p).tmWstart)
      all sch st where
  waiting := turns.waiting
  paced := ⟨turns.ordinary, fun _ => rfl, [], (List.append_nil _).symm, fun _ _ => rfl⟩

theorem restamp_all (turns : TakeTurns progs all sch since last st) {p : ProgPtr}
    (listed : p ∈ all) : restamp st time since p = since p := by
  simp [restamp, turns.waits p listed]

theorem restamp_sch (turns : TakeTurns progs all sch since last st) {p : ProgPtr}
    (listed : p ∈ sch) : restamp st time since p = time := by
  simp [restamp, turns.runs p listed]

theorem restamp_le (turns : TakeTurns progs all sch since last st) (later : last < time)
    {p : ProgPtr} (listed : p ∈ all ++ sch) : restamp st time since p ≤ time := by
  rcases List.mem_append.mp listed with inAll | inSch
  · rw [turns.restamp_all inAll]
    exact (turns.past p inAll).trans later.le
  · exact (turns.restamp_sch inSch).le

/-- The stamps that an expiry leaves. -/
theorem stamp_eq (turns : TakeTurns progs all sch since last st) {p : ProgPtr}
    (listed : p ∈ all ++ sch) :
    overwrite sch (BitVec.ofInt 32 time) (fun p => (st.pds p).tmWstart) p =
      BitVec.ofInt 32 (restamp st time since p) := by
  by_cases inSch : p ∈ sch
  · rw [turns.restamp_sch inSch, overwrite, if_pos inSch]
  · have inAll := (List.mem_append.mp listed).resolve_right inSch
    rw [turns.restamp_all inAll, overwrite, if_neg inSch, turns.stamped p inAll]

/-- A waiting time that is not too long is measured rightly. -/
theorem measured (turns : TakeTurns progs all sch since last st) (later : last < time)
    (recent : ∀ p ∈ progs, time - restamp st time since p < 2 ^ 31) {p : ProgPtr}
    (listed : p ∈ all ++ sch) : (BitVec.ofInt 32 time - overwrite sch (BitVec.ofInt 32 time)
      (fun p => (st.pds p).tmWstart) p).toInt =
      time - restamp st time since p := by
  have short := recent p (turns.perm.subset listed)
  have past := turns.restamp_le later listed
  rw [turns.stamp_eq listed, ofInt_sub, BitVec.toInt_ofInt]
  apply Int.bmod_eq_of_le <;> omega

/-- The programs in the order in which they will be considered at an expiry. -/
def line (turns : TakeTurns progs all sch since last st) (time : Int) : Line ProgPtr Int where
  order := all ++ sch
  nodup := turns.waiting.nodup
  since := restamp st time since

/-- An expiry in which no program comes or goes. -/
theorem expire (turns : TakeTurns progs all sch since last st) {tv : Timeval}
    {events : List ClockEvent} (expires : perfQexpired tv st = .ok () st')
    (stays : st'.HasPrograms progs) (grown : st'.clocks = st.clocks ++ events)
    (still : StandsStill (BitVec.ofInt 32 time) events) (later : last < time)
    (recent : ∀ p ∈ progs, time - restamp st time since p < 2 ^ 31) :
    ∃ picked, ∃ turns' : TakeTurns progs (unpicked (all ++ sch) picked) picked
        (restamp st time since) time st',
      ∀ next, time < next → Seniority.Round (turns.line time) (turns'.line next) picked := by
  have spec := (of_ok expires).mp
    ((turns.expiring (BitVec.ofInt 32 time)).qexpired_spec turns.runs turns.waits tv)
  obtain ⟨kept, picked, fewer, listed, after, chosen⟩ := spec
  have perm := stays.perm after.waiting
  have same : kept = sch := by
    apply fewer.eq_of_length_le
    have back : ∀ p ∈ sch, p ∈ kept := fun p inSch => by
      have known := perm.symm.subset (turns.perm.subset (List.mem_append_right _ inSch))
      have inKept : p ∈ all ++ kept :=
        (List.mem_append.mp known).elim List.mem_of_mem_filter (listed p)
      exact (List.mem_append.mp inKept).resolve_left fun inAll => turns.waiting.apart inAll inSch
    exact ((List.nodup_append.mp turns.waiting.nodup).2.1.subperm back).length_le
  subst same
  have stamps := (after.paced.wstart.and chosen).still grown still
  have status := after.paced.runStatus
  have turns' : TakeTurns progs (unpicked (all ++ kept) picked) picked (restamp st time since)
      time st' := by
    constructor
    case waiting => exact after.waiting
    case perm => exact perm
    case ordinary => exact after.paced.ordinary
    case waits =>
      intro p member
      obtain ⟨here, passed⟩ := List.mem_filter.mp member
      refine (status p).trans ?_
      by_cases inSch : p ∈ kept
      · simp [overwrite, of_decide_eq_true passed, inSch]
      · have inAll := (List.mem_append.mp here).resolve_right inSch
        simp [overwrite, of_decide_eq_true passed, inSch, turns.waits p inAll]
    case runs =>
      intro p member
      exact (status p).trans (if_pos member)
    case stamped =>
      intro p member
      exact (stamps.1 p).trans (turns.stamp_eq (List.mem_of_mem_filter member))
    case past =>
      intro p member
      exact turns.restamp_le later (List.mem_of_mem_filter member)
  refine ⟨picked, turns', fun next following => ?_⟩
  have passedOver : ∀ p ∈ all ++ kept, p ∉ picked →
      restamp st' next (restamp st time since) p = restamp st time since p :=
    fun p here passed => turns'.restamp_all (List.mem_filter.mpr ⟨here, decide_eq_true passed⟩)
  constructor
  case listed => exact listed
  case oldest =>
    intro first oldest
    refine stamps.2 first (Eq.trans ?_ oldest)
    symm
    apply argmin_eq_argmax
    intro one oneListed two twoListed
    rw [turns.measured later recent oneListed, turns.measured later recent twoListed]
    change restamp st time since one < restamp st time since two ↔ _
    omega
  case order => rfl
  case rest => exact passedOver
  case younger =>
    intro p member other here passed
    change restamp st' next _ other < restamp st' next _ p
    rw [turns'.restamp_sch member, passedOver other here passed]
    exact (turns.restamp_le later here).trans_lt following

end TakeTurns

end Turns

section Runs

theorem TakeTurns.running_iff (turns : TakeTurns progs all sch since last st) {p : ProgPtr}
    (listed : p ∈ progs) : (st.pds p).runStatus = .running ↔ p ∈ sch := by
  constructor
  · intro runs
    refine (List.mem_append.mp (turns.perm.symm.subset listed)).resolve_left fun inAll => ?_
    rw [turns.waits p inAll] at runs
    cases runs
  · exact turns.runs p

/-- Expiries in which no program comes or goes are rounds of service by seniority. -/
theorem PerfExpiries.served {states : List ExecState}
    (expiries : PerfExpiries progs since last st states)
    (turns : TakeTurns progs all sch since last st) :
    ∃ time, last < time ∧ ∃ rounds, Served (turns.line time) rounds ∧
      List.Forall₂ (fun st picked => ∀ p ∈ progs, (st.pds p).runStatus = .running ↔ p ∈ picked)
        states rounds := by
  induction expiries generalizing all sch with
  | none since last st => exact ⟨last + 1, by omega, [], .none _, .nil⟩
  | @next since last time tv st before st' later events idles expires stays grown still passes
        recent rest ih =>
      have same : restamp before time since = restamp st time since := by
        funext p
        rw [restamp, restamp, idles.pds]
      have measured := recent
      rw [← same] at measured
      obtain ⟨picked, turns', round⟩ := (turns.idle idles).expire expires stays grown still
        passes measured
      have turned : TakeTurns progs _ picked (restamp st time since) time st' := same ▸ turns'
      obtain ⟨next, following, rounds, served, alike⟩ := ih turned
      have first : Seniority.Round (turns.line time) (turned.line next) picked := by
        have round := round next following
        unfold TakeTurns.line at round ⊢
        simpa only [same] using round
      refine ⟨time, passes, picked :: rounds, .round first served, .cons (fun p listed => ?_) alike⟩
      exact turned.running_iff listed

/-- Between two handlers of a run the programs on `progs_sch` run, and the others wait. -/
theorem takeTurns_of_run {confs : List ProgConf} {targets : Int → Word64} {inputs : List Input}
    {env : Env} {cpus : List Int}
    (run : runExecutor PolicyName.perf.policy confs targets inputs
      (ExecState.start env cpus) = .ok () st)
    (holds : st.HasPrograms progs) (ordinary : st.sched.progsNr < st.sched.monitorWnd)
    (stamped : ∀ p ∈ progs, (st.pds p).runStatus = .stoped →
      (st.pds p).tmWstart = BitVec.ofInt 32 (since p) ∧ since p ≤ last) :
    ∃ all sch, TakeTurns progs all sch since last st := by
  obtain ⟨a, b, boots, xs, shows_, settled⟩ :=
    runExecutor_between (heard_anywhere .perf confs targets env cpus inputs) run
  have tracks := shows_.tracks
  obtain ⟨idle, rings, -⟩ := tracks.models.rings
  have inAll : Node.progsAll ∈ lifeHeads := by simp [lifeHeads]
  have inSch : Node.progsSch ∈ lifeHeads := by simp [lifeHeads]
  have waiting : Waiting (b.on .progsAll) (b.on .progsSch) st := by
    refine ⟨tracks.ring inAll, tracks.ring inSch, fun p listed there => ?_, fun p member => ?_⟩
    · exact Node.noConfusion (rings.apart _ inAll _ inSch p listed there)
    · rw [show st.progsAllocated = b.core.progsAllocated from congrArg
        Core.progsAllocated tracks.core]
      rcases List.mem_append.mp member with listed | listed
      · exact rings.bounded _ inAll p listed
      · exact rings.bounded _ inSch p listed
  have perm := holds.perm waiting
  have status : ∀ p, (st.pds p).runStatus = (b.core.pds p).runStatus := fun p =>
    congrArg (fun core => (core.pds p).runStatus) tracks.core
  have waits : ∀ p ∈ b.on .progsAll, (st.pds p).runStatus = .stoped := fun p listed =>
    (status p).trans (tracks.sound.clocked.idle p (tracks.place_all listed))
  have known : ∀ p ∈ b.on .progsAll, _ := fun p listed =>
    stamped p (perm.subset (List.mem_append_left _ listed)) (waits p listed)
  refine ⟨_, _, waiting, perm, ordinary, waits, fun p listed => ?_, fun p listed =>
    (known p listed).1,
    fun p listed => (known p listed).2⟩
  exact (status p).trans (tracks.sound.clocked.awake shows_.phase p (tracks.place_sch listed))

/-- From any state that a run under `perf` reaches outside of the monitoring phase: as long as
no program comes or goes, no program is passed over as often as there are programs. -/
theorem perf_passes_over (confs : List ProgConf) (targets : Int → Word64) (inputs : List Input)
    (env : Env) (cpus : List Int) (first : ExecState) (progs : List ProgPtr) (since : ProgPtr → Int)
    (last : Int) (states : List ExecState) (prog : ProgPtr)
    (run : runExecutor PolicyName.perf.policy confs targets inputs
      (ExecState.start env cpus) = .ok () first)
    (holds : first.HasPrograms progs) (ordinary : first.sched.progsNr < first.sched.monitorWnd)
    (stamped : ∀ p ∈ progs, (first.pds p).runStatus = .stoped →
      (first.pds p).tmWstart = BitVec.ofInt 32 (since p) ∧ since p ≤ last)
    (expiries : PerfExpiries progs since last first states) (listed : prog ∈ progs) :
    passedOver (fun st => (st.pds prog).runStatus = .running) states ≤ progs.length - 1 := by
  obtain ⟨all, sch, turns⟩ := takeTurns_of_run run holds ordinary stamped
  obtain ⟨time, -, rounds, served, alike⟩ := expiries.served turns
  have counted :
      passedOver (fun st : ExecState => decide ((st.pds prog).runStatus = .running)) states =
        passedOver (fun picked => decide (prog ∈ picked)) rounds := by
    apply passedOver_congr
    exact alike.imp fun st picked same => decide_eq_decide.mpr (same prog listed)
  have bound := served.passedOver_lt (turns.perm.symm.subset listed)
  rw [counted]
  have size : (turns.line time).order.length = progs.length := turns.perm.length_eq
  omega

/-- The same state, but its clock shows one time from now on. -/
def ExecState.standing (st : ExecState) (seconds : Int) : ExecState :=
  { st with env := { st.env with timeOfDay := fun _ => ⟨seconds, 0⟩ } }

/-- What a list has beyond the length of another one. -/
def beyond {α : Type} : List α → List α → List α
  | _ :: first, _ :: second => beyond first second
  | _, second => second

/-- The clock has stood still in an expiry, and the programs of two lists are there after it. -/
def Stood (seconds : Int) (all sch : List ProgPtr) (st st' : ExecState) : Prop :=
  IsRing st'.links .progsAll (all.map Node.plNode) ∧
    IsRing st'.links .progsSch (sch.map Node.plNode) ∧
    st'.clocks = st.clocks ++ beyond st.clocks st'.clocks ∧
    StandsStill (BitVec.ofInt 32 (seconds * 1000)) (beyond st.clocks st'.clocks)

instance (seconds : Int) (all sch : List ProgPtr) (st st' : ExecState) :
    Decidable (Stood seconds all sch st st') :=
  inferInstanceAs (Decidable (IsRing _ _ _ ∧ IsRing _ _ _ ∧ _ = _ ∧ StandsStill _ _))

theorem Stood.next {seconds : Int} (stood : Stood seconds all sch st st')
    (perm : (all ++ sch).Perm progs)
    (run : perfQexpired ⟨seconds, 0⟩ (st.standing seconds) = .ok () st')
    (passes : last < seconds * 1000)
    (recent : ∀ p ∈ progs, seconds * 1000 - restamp st (seconds * 1000) since p < 2 ^ 31)
    {later : List ExecState}
    (rest : PerfExpiries progs (restamp st (seconds * 1000) since) (seconds * 1000) st' later) :
    PerfExpiries progs since last st (st' :: later) := by
  obtain ⟨allRing, schRing, grown, still⟩ := stood
  have idles : Idles st (st.standing seconds) := ⟨rfl, rfl, rfl, rfl, rfl⟩
  have grown : st'.clocks = (st.standing seconds).clocks ++ beyond st.clocks st'.clocks := grown
  exact .next idles run ⟨all, sch, allRing, schRing, perm⟩ grown still passes recent rest

/-- Of seven programs one waits, since 149 s, outside of the monitoring phase. -/
def ExecState.OneWaits (st : ExecState) : Prop :=
  IsRing st.links .progsAll ([3].map Node.plNode) ∧
    IsRing st.links .progsSch ([4, 0, 2, 6, 5, 1].map Node.plNode) ∧
    st.sched.progsNr < st.sched.monitorWnd ∧
    ∀ p ∈ List.range 7, (st.pds p).runStatus = .stoped →
      (st.pds p).tmWstart = BitVec.ofInt 32 149000

instance (st : ExecState) : Decidable st.OneWaits :=
  inferInstanceAs (Decidable (IsRing _ _ _ ∧ IsRing _ _ _ ∧ st.sched.progsNr < st.sched.monitorWnd ∧
    ∀ p ∈ List.range 7, (st.pds p).runStatus = .stoped →
      (st.pds p).tmWstart = BitVec.ofInt 32 149000))

/-- Of seven programs of one core each, six can run at a time: the fifth one is passed over once. -/
theorem perf_passes_over_seven :
    ∃ first states, runExecutor PolicyName.perf.policy (List.replicate 7 .single)
      (fun _ => 1000000000)
        (List.replicate 8 .events) (ExecState.start (Env.counting 5) [0]) = .ok () first ∧
      PerfExpiries (List.range 7) (fun _ => 149000) 250000 first states ∧ states.length = 2 ∧
      passedOver (fun st => (st.pds 4).runStatus = .running) states ≤ 6 := by
  obtain ⟨first, run, seen⟩ := exists_of_returnsWith (by decide +kernel :
    returnsWith (runExecutor PolicyName.perf.policy (List.replicate 7 .single) (fun _ => 1000000000)
        (List.replicate 8 .events)) (ExecState.start (Env.counting 5) [0]) (fun first =>
      decide first.OneWaits && returnsWith (perfQexpired ⟨300, 0⟩) (first.standing 300) (fun st =>
        decide (Stood 300 [4] [3, 0, 2, 6, 5, 1] first st) &&
          returnsWith (perfQexpired ⟨400, 0⟩) (st.standing 400) (fun st' =>
            decide (Stood 400 [1] [4, 3, 0, 2, 6, 5] st st')))) = true)
  have ⟨waits, again⟩ := Bool.and_eq_true_iff.mp seen
  have ⟨all, sch, ordinary, stamped⟩ := of_decide_eq_true waits
  obtain ⟨second, run₂, seen⟩ := exists_of_returnsWith again
  have ⟨stood₂, again⟩ := Bool.and_eq_true_iff.mp seen
  obtain ⟨third, run₃, stood₃⟩ := exists_of_returnsWith again
  have stood₂ := of_decide_eq_true stood₂
  have stood₃ := of_decide_eq_true stood₃
  have expiries : PerfExpiries (List.range 7) (fun _ => 149000) 250000 first [second, third] := by
    refine stood₂.next (by decide) run₂ (by decide) (fun p _ => ?_)
      (stood₃.next (by decide) run₃ (by decide) (fun p _ => ?_) (.none _ _ _))
    · unfold restamp
      split <;> norm_num
    · unfold restamp
      split
      · norm_num
      · split <;> norm_num
  have holds : first.HasPrograms (List.range 7) := ⟨_, _, all, sch, by decide⟩
  exact ⟨first, _, run, expiries, rfl, perf_passes_over _ _ _ _ _ first _ _ _ _ 4 run holds ordinary
    (fun p listed stops => ⟨stamped p listed stops, by decide⟩) expiries (by decide)⟩

end Runs

end BachScheduler
