import BachScheduler.Fields
import BachScheduler.Lib.Lineage
import BachScheduler.Marks
import Mathlib.Data.Set.Card

/-!
# Instances and slots

`prog_respawn` starts the next instance of a program only when the last one has ended, so
the instances of a slot come one after the other, and a slot that is retired is not used
again.
-/

namespace BachScheduler

open BachScheduler.Ring Census Lineage Wp

variable {exits : ProgPtr → Place → Prop} {name : PolicyName} {a b : Life} {prog : ProgPtr}
variable {source target : Place} {effect : Core → Core} {st : ExecState} {n : Nat}
variable {confs : List ProgConf} {env : Env} {cpus : List Int} {targets : Int → Word64}

section Log

/-- Whether an event is the start of the next instance of a program. -/
def Event.births : Event → Bool
  | .respawned .. => true
  | _ => false

/-- Whether an event is the end of a slot. -/
def Event.retires : Event → Bool
  | .retired .. => true
  | _ => false

/-- Whether an event is the end of the run. -/
def Event.closes : Event → Bool
  | .printTotals | .finalization => true
  | _ => false

/-- The programs that have retired their slots. -/
def retirees (log : List Event) : List ProgPtr :=
  log.filterMap fun
    | .retired p => some p
    | _ => none

theorem mem_retirees {log : List Event} {p : ProgPtr} : p ∈ retirees log ↔ .retired p ∈ log := by
  rw [retirees, List.mem_filterMap]
  constructor
  · intro found
    obtain ⟨event, noted, same⟩ := found
    split at same
    · exact Option.some.inj same ▸ noted
    · exact absurd same (by simp)
  · exact fun noted => ⟨_, noted, rfl⟩

theorem retirees_append (log events : List Event) :
    retirees (log ++ events) = retirees log ++ retirees events :=
  List.filterMap_append

theorem retirees_nil_of_plain {events : List Event}
    (plain : ∀ event ∈ events, event.retires = false) :
    retirees events = [] := by
  refine List.filterMap_eq_nil_iff.mpr fun event noted => ?_
  have other := plain event noted
  cases event <;> first | rfl | simp [Event.retires] at other

theorem count_retirees (log : List Event) (p : ProgPtr) :
    (retirees log).count p = log.count (.retired p) := by
  induction log with
  | nil => rfl
  | cons event later ih =>
      rw [← List.singleton_append, retirees_append, List.count_append, List.count_append, ih]
      congr 1
      cases event <;> simp [retirees, List.count_cons]

/-- More events have been noted, and none of them is of this kind. -/
def Core.Extends (kind : Event → Bool) (core other : Core) : Prop :=
  ∃ events, other.log = core.log ++ events ∧ ∀ event ∈ events, kind event = false

namespace Core.Extends

variable {kind : Event → Bool} {core other later : Core}

theorem same (log : other.log = core.log) : core.Extends kind other :=
  ⟨[], by simp [log], by simp⟩

theorem noted {event : Event} (log : other.log = core.log ++ [event]) (plain : kind event = false) :
    core.Extends kind other :=
  ⟨[event], log, by simpa using plain⟩

theorem trans (first : core.Extends kind other) (second : other.Extends kind later) :
    core.Extends kind later := by
  obtain ⟨events, log, plain⟩ := first
  obtain ⟨more, log', plain'⟩ := second
  refine ⟨events ++ more, by rw [log', log, List.append_assoc], fun event noted => ?_⟩
  rcases List.mem_append.mp noted with noted | noted
  · exact plain event noted
  · exact plain' event noted

theorem count (extends_ : core.Extends kind other) {event : Event} (ofKind : kind event = true) :
    other.log.count event = core.log.count event := by
  obtain ⟨events, log, plain⟩ := extends_
  have none : event ∉ events := fun noted => absurd (plain event noted) (by simp [ofKind])
  rw [log, List.count_append, List.count_eq_zero.mpr none, Nat.add_zero]

theorem mem_iff (extends_ : core.Extends kind other) {event : Event} (ofKind : kind event = true) :
    event ∈ other.log ↔ event ∈ core.log := by
  rw [← List.count_pos_iff, ← List.count_pos_iff, extends_.count ofKind]

theorem retirees (extends_ : core.Extends Event.retires other) :
    retirees other.log = retirees core.log := by
  obtain ⟨events, log, plain⟩ := extends_
  rw [log, retirees_append, retirees_nil_of_plain plain, List.append_nil]

end Core.Extends

section Kinds

variable {kind : Event → Bool}

theorem Core.assign_extends (ranges : ∀ p r s, kind (.setCpuRange p r s) = false) (core : Core)
    (prog : ProgPtr) (rstart : Int) : core.Extends kind (core.assign prog rstart) :=
  .noted rfl (ranges _ _ _)

theorem Core.assignAll_extends (ranges : ∀ p r s, kind (.setCpuRange p r s) = false) (core : Core)
    (need : ProgPtr → Int) (progs : List ProgPtr) (rstart : Int) :
    core.Extends kind (core.assignAll need progs rstart) := by
  induction progs generalizing core rstart with
  | nil => exact .same rfl
  | cons prog later ih => exact (core.assign_extends ranges prog rstart).trans (ih _ _)

end Kinds

/-- What comes before the end of the slot when a program is killed. -/
theorem Core.kill_notes (core : Core) (prog : ProgPtr) :
    (core.kill prog).log = core.log ++ [.updateTotals prog, .clearProg prog, .retired prog] := by
  simp [kill, clear, report, modPd]

theorem Core.close_notes (core : Core) :
    core.close.log = core.log ++ [.printTotals, .finalization] := by
  simp [close, print, note]

theorem Act.births (act : Act a effect) : a.core.Extends Event.births (effect a.core) := by
  cases act with
  | close => exact ⟨_, a.core.close_notes, by simp [Event.births]⟩
  | _ => first | exact .same rfl | exact .noted rfl rfl

theorem Move.births (move : Move exits a prog source target effect) :
    a.core.Extends Event.births (effect a.core) := by
  cases move with
  | monitor => exact (a.core.assign_extends (fun _ _ _ => rfl) prog _).trans (.same rfl)
  | kill => exact ⟨_, a.core.kill_notes prog, by simp [Event.births]⟩
  | _ => first | exact .same rfl | exact .noted rfl rfl

theorem Step.log_grows (step : Step exits a b) : a.core.log <+: b.core.log := by
  have grows : ∀ {core other : Core} {kind : Event → Bool}, core.Extends kind other →
      core.log <+: other.log :=
    fun ⟨events, log, _⟩ => ⟨events, log.symm⟩
  cases step with
  | move here move => exact grows move.births
  | act act => exact grows act.births
  | @decide picked rest =>
      have births : a.core.Extends Event.births
          (a.core.assignAll (fun p => (a.core.progs p).coresNeeded) picked 0) :=
        Core.assignAll_extends (fun _ _ _ => rfl) _ _ _ _
      exact grows births
  | respawn here carried running next => exact ⟨_, rfl⟩
  | _ => exact List.prefix_rfl

theorem Act.retires (act : Act a effect) : a.core.Extends Event.retires (effect a.core) := by
  cases act with
  | close => exact ⟨_, a.core.close_notes, by simp [Event.retires]⟩
  | _ => first | exact .same rfl | exact .noted rfl rfl

/-- A move ends a slot when its program is killed, or retired after its end. -/
theorem Move.retires (move : Move exits a prog source target effect) :
    a.core.Extends Event.retires (effect a.core) ∨
      source.live = true ∧ target.live = false ∧ ∃ middle, a.core.Extends Event.retires middle ∧
        (effect a.core).log = middle.log ++ [.retired prog] := by
  cases move with
  | monitor => exact .inl ((a.core.assign_extends (fun _ _ _ => rfl) prog _).trans (.same rfl))
  | kill =>
      refine .inr
        ⟨rfl, rfl, { a.core with log := a.core.log ++ [.updateTotals prog, .clearProg prog] },
        ⟨_, rfl, by simp [Event.retires]⟩, ?_⟩
      simp [a.core.kill_notes]
  | retire => exact .inr ⟨rfl, rfl, a.core, .same rfl, rfl⟩
  | _ => first | exact .inl (.same rfl) | exact .inl (.noted rfl rfl)

theorem Move.closes (move : Move exits a prog source target effect) :
    a.core.Extends Event.closes (effect a.core) := by
  cases move with
  | monitor => exact (a.core.assign_extends (fun _ _ _ => rfl) prog _).trans (.same rfl)
  | kill => exact ⟨_, a.core.kill_notes prog, by simp [Event.closes]⟩
  | _ => first | exact .same rfl | exact .noted rfl rfl

/-- The end of the run is noted once, and then only. -/
theorem Act.closes (act : Act a effect) : a.core.Extends Event.closes (effect a.core) ∨
    Event.printTotals ∉ a.core.log ∧ (effect a.core).log = a.core.log ++
      [.printTotals, .finalization] := by
  cases act with
  | close empty open_ => exact .inr ⟨open_, a.core.close_notes⟩
  | _ => first | exact .inl (.same rfl) | exact .inl (.noted rfl rfl)

end Log

section Line

/-- The instances of a run, of which those are live whose slot they still use. -/
def Life.line (a : Life) : Line where
  born := a.core.progsAllocated
  id := fun p => (a.core.progs p).id
  live := fun p => (a.place p).live = true
  heir := fun p q => .respawned p q ∈ a.core.log

/-- The slot that the id of a program tells. -/
abbrev Core.slotOf (core : Core) (n : Nat) (p : ProgPtr) : Int :=
  slot idUserOffset n (core.progs p).id

/-- The instances have come one after the other in each slot, and `init_id` is their slot. -/
structure Life.Lined (n : Nat) (a : Life) : Prop where
  ordered : a.line.Ordered idUserOffset n
  progsInit : a.core.sched.progsInit = n
  initId : ∀ p, Mark.enrolled.borne (a.place p) = true →
    (a.core.pds p).initId = ((a.core.progs p).id - idUserOffset).tmod n

/-- Nothing is started. -/
theorem Life.Lined.fade (lined : a.Lined n) (keeps : a.core.Keeps b.core)
    (extends_ : a.core.Extends Event.births b.core)
    (fewer : ∀ p, (b.place p).live = true → (a.place p).live = true)
    (initId : ∀ p, Mark.enrolled.borne (b.place p) = true →
      (b.core.pds p).initId = ((a.core.progs p).id - idUserOffset).tmod n) : b.Lined n where
  ordered := lined.ordered.fade keeps.progsAllocated (fun p _ => keeps.id p) fewer fun _ _ =>
    extends_.mem_iff rfl
  progsInit := keeps.progsInit.trans lined.progsInit
  initId p enrolled := by
    rw [keeps.id p]
    exact initId p enrolled

/-- A move gives a program its `init_id` when it is handed to the scheduler, and keeps it. -/
theorem Move.initId (move : Move exits a prog source target effect) :
    ((effect a.core).pds prog).initId =
    ((a.core.progs prog).id - idUserOffset).tmod a.core.sched.progsInit ∨
      ((effect a.core).pds prog).initId = (a.core.pds prog).initId ∧
        (Mark.enrolled.borne target = true → Mark.enrolled.borne source = true) := by
  cases move with
  | enter some fresh => exact .inl (by simpa [Core.enter] using fresh.initId)
  | kill => exact .inr ⟨by simp [Core.kill, Core.clear, Core.report, Core.modPd], fun _ => rfl⟩
  | monitor =>
      exact .inr
        ⟨by simp [Core.bump, Core.modSched, Core.assign, Core.modPd, Core.modProg, Core.note],
          fun _ => rfl⟩
  | finish phase allowed found runs =>
      exact .inr ⟨rfl, fun _ => by rcases runs with rfl | rfl <;> rfl⟩
  | arrive => exact .inr ⟨rfl, fun enrolled => absurd enrolled (by decide)⟩
  | _ => exact .inr ⟨rfl, fun _ => rfl⟩

theorem Life.Lined.move (lined : a.Lined n) (here : a.place prog = source)
    (move : Move exits a prog source target effect) :
    ((a.transfer prog target).act effect).Lined n := by
  refine lined.fade move.keeps move.births (fun p live => ?_) fun p enrolled => ?_
  · by_cases equal : p = prog
    · subst equal
      exact here ▸ move.live (by simpa using live)
    · simpa [equal] using live
  · by_cases equal : p = prog
    · subst equal
      have bears : Mark.enrolled.borne target = true := by simpa using enrolled
      rcases move.initId with fresh | ⟨same, before⟩
      · exact lined.progsInit ▸ fresh
      · exact same.trans (lined.initId p (here ▸ before bears))
    · exact (congrArg PdCore.initId (move.other equal).2).trans
        (lined.initId p (by simpa [equal] using enrolled))

theorem Life.Lined.respawn (lined : a.Lined n) {born : ProgCore} (sound : a.Sound)
    (here : a.place prog = .reported)
    (next : born.Next a.core prog) :
    Life.Lined n { a with
      place := Function.update (Function.update a.place prog .spent) a.core.progsAllocated .waiting
      core := a.core.bear prog born } := by
  have old : prog < a.core.progsAllocated := sound.allocated (by simp [here])
  have live : a.line.live prog := by
    show (a.place prog).live = true
    rw [here]
    rfl
  constructor
  case ordered =>
    refine lined.ordered.succeed live rfl (fun q inside => ?_) ?_ (fun q isLive => ?_) fun x y => ?_
    · exact congrArg ProgCore.id (Function.update_of_ne (Nat.ne_of_lt inside) _ _)
    · refine (congrArg ProgCore.id (Function.update_self ..)).trans (next.id.trans ?_)
      rw [lined.progsInit]
      rfl
    · by_cases new : q = a.core.progsAllocated
      · exact .inl new
      · refine .inr ?_
        by_cases equal : q = prog
        · subst equal
          simp [Life.line, new, Place.live] at isLive
        · exact ⟨by simpa [Life.line, new, equal] using isLive, equal⟩
    · simp [Life.line, Core.bear]
  case progsInit => exact lined.progsInit
  case initId =>
    intro p enrolled
    by_cases new : p = a.core.progsAllocated
    · subst new
      simp [Mark.borne, Place.spared, Place.dead] at enrolled
    · have id : ((a.core.bear prog born).progs p).id = (a.core.progs p).id :=
        congrArg ProgCore.id (Function.update_of_ne new _ _)
      rw [id]
      refine lined.initId p ?_
      by_cases equal : p = prog
      · subst equal
        rw [here]
        rfl
      · simpa [new, equal] using enrolled

theorem Life.Lined.step (lined : a.Lined n) (sound : a.Sound) (step : Step exits a b) :
    b.Lined n := by
  cases step with
  | move here move => exact lined.move here move
  | act act =>
      refine lined.fade act.keeps act.births (fun _ live => live) fun p enrolled => ?_
      exact (act.steady.initId p).trans (lined.initId p enrolled)
  | @decide picked rest phase idle perm =>
      have places : ∀ p ∈ picked, a.place p = .all := fun p member => sound.place_picked perm member
      refine lined.fade (Core.assignAll_keeps _ _ _ _)
        (Core.assignAll_extends (fun _ _ _ => rfl) _ _ _ _) (fun p live => ?_)
        fun p enrolled => ?_
      · by_cases member : p ∈ picked
        · rw [places p member]
          rfl
        · simpa [member] using live
      · refine ((Core.assignAll_steady _ _ _ _).initId p).trans (lined.initId p ?_)
        by_cases member : p ∈ picked
        · rw [places p member]
          rfl
        · simpa [member] using enrolled
  | respawn here carried running next => exact lined.respawn sound here next
  | wake =>
      exact lined.fade (.same rfl rfl rfl rfl rfl) (.same rfl) (fun _ live => live) lined.initId
  | _ => exact lined.fade (.refl _) (.same rfl) (fun _ live => live) lined.initId

theorem Life.Lined.steps (lined : a.Lined n) (sound : a.Sound) (steps : Steps exits a b) :
    b.Lined n := by
  induction steps with
  | refl => exact lined
  | tail before step ih => exact ih.step (sound.steps before) step

theorem Life.Boots.id (boots : a.Boots cpus confs targets) (p : ProgPtr)
    (inside : p < confs.length) : (a.core.progs p).id = 1000 + p :=
  (boots.parsed.configured p confs[p] (List.getElem?_eq_getElem inside)).id

theorem Life.Boots.lined (boots : a.Boots cpus confs targets) : a.Lined confs.length := by
  constructor
  case ordered =>
    refine .start boots.parsed.progsAllocated boots.id (fun p live => ?_) fun p q noted => ?_
    · by_contra outside
      have unborn : a.place p = .unborn := by rw [boots.place, Place.atStart, if_neg outside]
      have live : (a.place p).live = true := live
      rw [unborn] at live
      exact absurd live (by decide)
    · exact absurd (boots.parsed.early _ noted) (by simp [Event.early])
  case progsInit => exact boots.progsInit
  case initId =>
    intro p enrolled
    rw [boots.place, Place.atStart] at enrolled
    split at enrolled <;> exact absurd enrolled (by decide)

/-- What the next instance of a program changes about the slots. -/
theorem Life.Lined.slots_bear (lined : a.Lined n) {born : ProgCore} (next : born.Next a.core prog) :
    (∀ p < a.core.progsAllocated, ((a.core.bear prog born).progs p).id = (a.core.progs p).id) ∧
      (a.core.bear prog born).slotOf n a.core.progsAllocated = a.core.slotOf n prog := by
  refine ⟨fun p inside => congrArg ProgCore.id (Function.update_of_ne (Nat.ne_of_lt inside) _ _),
    ?_⟩
  have id : ((a.core.bear prog born).progs a.core.progsAllocated).id =
      n + (a.core.progs prog).id := by
    refine (congrArg ProgCore.id (Function.update_self ..)).trans (next.id.trans ?_)
    rw [lined.progsInit]
  rw [Core.slotOf, id, slot_add]

theorem Core.bear_notes (core : Core) (old : ProgPtr) (born : ProgCore) :
    (core.bear old born).log = (core.log ++ [.respawned old core.progsAllocated]) ++
      [.setCpuRange core.progsAllocated 0 core.cpus.length] := by
  simp [bear]

end Line

section Moments

/-- A program has been started and its end has not been recorded, when the events of `past`
have been noted. -/
def Underway (n : Nat) (past : List Event) (p : ProgPtr) : Prop :=
  (p < n ∨ ∃ old, .respawned old p ∈ past) ∧ .clearProg p ∉ past ∧ .runningFinished p ∉ past

/-- At every moment at most one instance of a slot is underway. -/
def OneUnderway (n : Nat) (slotOf : ProgPtr → Int) (log : List Event) : Prop :=
  ∀ past, past <+: log → ∀ p q, Underway n past p → Underway n past q → slotOf p = slotOf q → p = q

theorem Underway.earlier {past events : List Event} {p : ProgPtr}
    (underway : Underway n (past ++ events) p) (plain : ∀ event ∈ events, event.births = false) :
    Underway n past p := by
  obtain ⟨born, uncleared, unrecorded⟩ := underway
  refine ⟨born.imp_right fun ⟨old, noted⟩ => ⟨old, ?_⟩,
    fun noted => uncleared (List.mem_append_left events noted),
    fun noted => unrecorded (List.mem_append_left events noted)⟩
  refine (List.mem_append.mp noted).resolve_right fun late => ?_
  exact absurd (plain _ late) (by simp [Event.births])

/-- A moment of a longer log lies in its first part or behind it. -/
theorem prefix_append_cases {past log events : List Event} (before : past <+: log ++ events) :
    past <+: log ∨ ∃ part, past = log ++ part ∧ part <+: events := by
  rcases List.prefix_or_prefix_of_prefix before
    (List.prefix_append log events) with early | ⟨part, rfl⟩
  · exact .inl early
  · exact .inr ⟨part, rfl, (List.prefix_append_right_inj log).mp before⟩

theorem OneUnderway.append {slotOf : ProgPtr → Int} {log events : List Event}
    (single : OneUnderway n slotOf log) (plain : ∀ event ∈ events, event.births = false) :
    OneUnderway n slotOf (log ++ events) := by
  intro past before p q first second same
  rcases prefix_append_cases before with before | ⟨part, rfl, within⟩
  · exact single past before p q first second same
  · have plain : ∀ event ∈ part, event.births = false := fun event noted =>
      plain event (within.subset noted)
    exact single log List.prefix_rfl p q (first.earlier plain) (second.earlier plain) same

/-- It stays so when an instance starts in a slot in which none is underway. -/
theorem OneUnderway.born {slotOf : ProgPtr → Int} {log : List Event} {old new : ProgPtr}
    (single : OneUnderway n slotOf log) (free : ∀ p, Underway n log p → slotOf p ≠ slotOf new) :
    OneUnderway n slotOf (log ++ [.respawned old new]) := by
  intro past before p q first second same
  rcases prefix_append_cases before with before | ⟨part, rfl, within⟩
  · exact single past before p q first second same
  have cases : ∀ r, Underway n (log ++ part) r → r = new ∨ Underway n log r := by
    intro r underway
    by_cases equal : r = new
    · exact .inl equal
    · obtain ⟨born, uncleared, unrecorded⟩ := underway
      refine .inr ⟨born.imp_right fun ⟨parent, noted⟩ => ⟨parent, ?_⟩,
        fun noted => uncleared (List.mem_append_left part noted),
        fun noted => unrecorded (List.mem_append_left part noted)⟩
      refine (List.mem_append.mp noted).resolve_right fun late => ?_
      have same : Event.respawned parent r = .respawned old new :=
        List.mem_singleton.mp (within.subset late)
      exact equal (by simpa using (Event.respawned.inj same).2)
  rcases cases p first with rfl | first
  · rcases cases q second with rfl | second
    · rfl
    · exact absurd same.symm (free q second)
  · rcases cases q second with rfl | second
    · exact absurd same (free p first)
    · exact single log List.prefix_rfl p q first second same

/-- Only the slots of programs that have been started matter. -/
theorem OneUnderway.congr {slotOf other : ProgPtr → Int} {log : List Event}
    (single : OneUnderway n slotOf log)
    (same : ∀ p, (p < n ∨ ∃ old, .respawned old p ∈ log) → other p = slotOf p) :
    OneUnderway n other log := by
  have agree : ∀ past, past <+: log → ∀ p, Underway n past p → other p = slotOf p :=
    fun past before p underway =>
    same p (underway.1.imp_right fun ⟨old, noted⟩ => ⟨old, before.subset noted⟩)
  intro past before p q first second equal
  rw [agree past before p first, agree past before q second] at equal
  exact single past before p q first second equal

/-- A program that is underway is live. -/
theorem Life.Lined.underway (lined : a.Lined n) (sound : a.Sound) (marked : a.Marked) {p : ProgPtr}
    (underway : Underway n a.core.log p) :
    (a.place p).live = true ∧ Mark.recorded.borne (a.place p) = false := by
  obtain ⟨born, uncleared, unrecorded⟩ := underway
  have inside : p < a.core.progsAllocated := by
    rcases born with root | ⟨old, heir⟩
    · exact root.trans_le lined.ordered.roots
    · exact (lined.ordered.heirs old p heir).2.1
  have isBorn : a.place p ≠ .unborn := fun unborn => Nat.not_le.mpr inside
    ((sound.unborn p).mp unborn)
  have cleared : ¬ Mark.cleared.borne (a.place p) = true := fun bears =>
    uncleared ((marked.mem_iff .cleared p).mpr bears)
  have recorded : ¬ Mark.recorded.borne (a.place p) = true := fun bears =>
    unrecorded ((marked.mem_iff .recorded p).mpr bears)
  revert isBorn cleared recorded
  cases a.place p <;> simp [Mark.borne, Place.dead, Place.live]

theorem Life.Lined.single_respawn (lined : a.Lined n) (sound : a.Sound) (marked : a.Marked)
    (single : OneUnderway n (a.core.slotOf n) a.core.log) {born : ProgCore}
    (here : a.place prog = .reported) (next : born.Next a.core prog) :
    OneUnderway n ((a.core.bear prog born).slotOf n) (a.core.bear prog born).log := by
  have old : prog < a.core.progsAllocated := sound.allocated (by simp [here])
  obtain ⟨ids, inherits⟩ := lined.slots_bear next
  have known : ∀ p < a.core.progsAllocated, (a.core.bear prog born).slotOf n p =
      a.core.slotOf n p :=
    fun p inside => by rw [Core.slotOf, ids p inside]
  have started : ∀ p, (p < n ∨ ∃ old, .respawned old p ∈ a.core.log) → p <
      a.core.progsAllocated := by
    intro p born
    rcases born with root | ⟨old, heir⟩
    · exact root.trans_le lined.ordered.roots
    · exact (lined.ordered.heirs old p heir).2.1
  have single' := single.congr fun p born => known p (started p born)
  rw [a.core.bear_notes]
  refine (single'.born fun p underway same => ?_).append (by simp [Event.births])
  obtain ⟨live, unrecorded⟩ := lined.underway sound marked underway
  have taken : a.line.live prog := by
    show (a.place prog).live = true
    rw [here]
    rfl
  rw [known p (started p underway.1), inherits] at same
  have equal : p = prog := lined.ordered.live_unique live taken same
  rw [equal, here] at unrecorded
  exact absurd unrecorded (by decide)

theorem Life.Lined.single_step (lined : a.Lined n) (sound : a.Sound) (marked : a.Marked)
    (single : OneUnderway n (a.core.slotOf n) a.core.log) (step : Step exits a b) :
    OneUnderway n (b.core.slotOf n) b.core.log := by
  have plainly : a.core.Extends Event.births
      b.core → (∀ p, (b.core.progs p).id = (a.core.progs p).id) →
      OneUnderway n (b.core.slotOf n) b.core.log := by
    intro extends_ ids
    obtain ⟨events, log, plain⟩ := extends_
    rw [log]
    refine (single.append plain).congr fun p _ => ?_
    rw [Core.slotOf, ids]
  cases step with
  | move here move => exact plainly move.births move.keeps.id
  | act act => exact plainly act.births act.keeps.id
  | decide =>
      exact plainly (Core.assignAll_extends (fun _ _ _ => rfl) _ _ _ _)
        (Core.assignAll_keeps _ _ _ _).id
  | respawn here carried running next => exact lined.single_respawn sound marked single here next
  | wake => exact plainly (.same rfl) fun _ => rfl
  | _ => exact plainly (.same rfl) fun _ => rfl

/-- At every moment of a run at most one instance of a slot is underway. -/
theorem Life.Lined.single_steps (lined : a.Lined n) (sound : a.Sound) (marked : a.Marked)
    (single : OneUnderway n (a.core.slotOf n) a.core.log) (steps : Steps exits a b) :
    OneUnderway n (b.core.slotOf n) b.core.log := by
  induction steps with
  | refl => exact single
  | tail before step ih =>
      exact (lined.steps sound before).single_step (sound.steps before)
        (marked.steps sound before) ih step

/-- At the start the programs are in different slots. -/
theorem Life.Boots.single (boots : a.Boots cpus confs targets) :
    OneUnderway confs.length (a.core.slotOf confs.length) a.core.log := by
  have lined := boots.lined
  have root : ∀ past, past <+: a.core.log → ∀ p, Underway confs.length past p →
      p < confs.length := by
    intro past before p underway
    refine underway.1.resolve_right fun ⟨old, noted⟩ => ?_
    exact absurd (boots.parsed.early _ (before.subset noted)) (by simp [Event.early])
  intro past before p q first second same
  have atP : a.core.slotOf confs.length p = p := lined.ordered.slot_root (root past before p first)
  have atQ : a.core.slotOf confs.length q = q := lined.ordered.slot_root (root past before q second)
  rw [atP, atQ] at same
  exact Int.ofNat_inj.mp same

end Moments

section Retirement

/-- The slots that have been retired: each by one program, and no other instance follows. -/
structure Life.Retires (n : Nat) (a : Life) : Prop where
  born : ∀ p, .retired p ∈ a.core.log → p < a.core.progsAllocated
  ended : ∀ p, .retired p ∈ a.core.log → ∀ q, (a.place q).live = true →
    a.core.slotOf n q ≠ a.core.slotOf n p
  latest : ∀ p, .retired p ∈ a.core.log → ∀ q < a.core.progsAllocated,
    a.core.slotOf n q = a.core.slotOf n p → (a.core.progs q).id ≤ (a.core.progs p).id
  once : ∀ p, a.core.log.count (.retired p) ≤ 1

/-- The totals have been printed and everything has been closed once, or not yet. -/
structure Life.ClosesOnce (a : Life) : Prop where
  closed : a.core.log.count .printTotals ≤ 1
  finalized : a.core.log.count .finalization = a.core.log.count .printTotals

theorem Life.retires_iff : a.Retires n ↔ a.line.Retired idUserOffset n (retirees a.core.log) := by
  have once : (∀ p, a.core.log.count (.retired p) ≤ 1) ↔ (retirees a.core.log).Nodup := by
    rw [List.nodup_iff_count_le_one]
    exact forall_congr' fun p => by rw [count_retirees]
  constructor
  · intro retires
    exact ⟨fun p member => retires.born p (mem_retirees.mp member), fun p member =>
      retires.ended p (mem_retirees.mp member),
      fun p member => retires.latest p (mem_retirees.mp member), once.mp retires.once⟩
  · intro retired
    exact ⟨fun p noted => retired.born p (mem_retirees.mpr noted), fun p noted =>
      retired.ended p (mem_retirees.mpr noted),
      fun p noted => retired.latest p (mem_retirees.mpr noted), once.mpr retired.nodup⟩

theorem Life.Retires.keep (retires : a.Retires n) (keeps : a.core.Keeps b.core)
    (extends_ : a.core.Extends Event.retires b.core)
    (fewer : ∀ p, (b.place p).live = true → (a.place p).live = true) : b.Retires n := by
  rw [Life.retires_iff, extends_.retirees]
  exact (Life.retires_iff.mp retires).fade keeps.progsAllocated keeps.id fewer

theorem Life.Retires.retire (retires : a.Retires n) (lined : a.Lined n)
    (keeps : a.core.Keeps b.core) (live : (a.place prog).live = true)
    (spent : (b.place prog).live = false) {middle : Core}
    (extends_ : a.core.Extends Event.retires middle)
    (log : b.core.log = middle.log ++ [.retired prog])
    (fewer : ∀ p, (b.place p).live = true → (a.place p).live = true) : b.Retires n := by
  rw [Life.retires_iff, log, retirees_append, extends_.retirees]
  refine (Life.retires_iff.mp retires).retire lined.ordered live keeps.progsAllocated keeps.id
    fun p isLive =>
    ⟨fewer p isLive, fun equal => ?_⟩
  have isLive : (b.place p).live = true := isLive
  rw [equal, spent] at isLive
  exact absurd isLive (by decide)

theorem Life.Retires.move (retires : a.Retires n) (lined : a.Lined n) (here : a.place prog = source)
    (move : Move exits a prog source target effect) :
    ((a.transfer prog target).act effect).Retires n := by
  have fewer : ∀ p, (((a.transfer prog target).act effect).place p).live = true →
      (a.place p).live = true := by
    intro p live
    by_cases equal : p = prog
    · subst equal
      exact here ▸ move.live (by simpa using live)
    · simpa [equal] using live
  rcases move.retires with extends_ | ⟨live, spent, middle, extends_, log⟩
  · exact retires.keep move.keeps extends_ fewer
  · exact retires.retire lined move.keeps (here ▸ live) (by simpa using spent) extends_ log fewer

theorem Life.Retires.respawn (retires : a.Retires n) (lined : a.Lined n) {born : ProgCore}
    (here : a.place prog = .reported) (next : born.Next a.core prog) :
    Life.Retires n { a with
      place := Function.update (Function.update a.place prog .spent) a.core.progsAllocated .waiting
      core := a.core.bear prog born } := by
  have live : a.line.live prog := by
    show (a.place prog).live = true
    rw [here]
    rfl
  have extends_ : a.core.Extends Event.retires (a.core.bear prog born) :=
    ⟨_, (a.core.bear_notes prog born).trans (List.append_assoc ..), by simp [Event.retires]⟩
  rw [Life.retires_iff, extends_.retirees]
  refine (Life.retires_iff.mp retires).succeed lined.ordered live rfl (lined.slots_bear next).1 ?_
    fun q isLive => ?_
  · refine (congrArg ProgCore.id (Function.update_self ..)).trans (next.id.trans ?_)
    rw [lined.progsInit]
    rfl
  · by_cases new : q = a.core.progsAllocated
    · exact .inl new
    · refine .inr ?_
      by_cases equal : q = prog
      · exact equal ▸ live
      · have isLive : (Function.update (Function.update a.place prog .spent) a.core.progsAllocated
            .waiting q).live =
            true := isLive
        rwa [Function.update_of_ne new, Function.update_of_ne equal] at isLive

theorem Life.Retires.step (retires : a.Retires n) (lined : a.Lined n) (sound : a.Sound)
    (step : Step exits a b) : b.Retires n := by
  cases step with
  | move here move => exact retires.move lined here move
  | act act => exact retires.keep act.keeps act.retires fun _ live => live
  | @decide picked rest phase idle perm =>
      refine retires.keep (Core.assignAll_keeps _ _ _ _)
        (Core.assignAll_extends (fun _ _ _ => rfl) _ _ _ _)
        fun p live => ?_
      by_cases member : p ∈ picked
      · rw [sound.place_picked perm member]
        rfl
      · simpa [member] using live
  | respawn here carried running next => exact retires.respawn lined here next
  | wake => exact retires.keep (.same rfl rfl rfl rfl rfl) (.same rfl) fun _ live => live
  | _ => exact retires.keep (.refl _) (.same rfl) fun _ live => live

theorem Life.Retires.steps (retires : a.Retires n) (lined : a.Lined n) (sound : a.Sound)
    (steps : Steps exits a b) : b.Retires n := by
  induction steps with
  | refl => exact retires
  | tail before step ih => exact ih.step (lined.steps sound before) (sound.steps before) step

theorem Life.Boots.retires (boots : a.Boots cpus confs targets) : a.Retires confs.length := by
  have none : ∀ p, .retired p ∉ a.core.log := fun p noted =>
    absurd (boots.parsed.early _ noted) (by simp [Event.early])
  constructor
  case once => exact fun p => (List.count_eq_zero.mpr (none p)).trans_le (Nat.zero_le 1)
  all_goals exact fun p retired => absurd retired (none p)

theorem Life.ClosesOnce.keep (closes : a.ClosesOnce)
    (extends_ : a.core.Extends Event.closes b.core) : b.ClosesOnce where
  closed := (extends_.count rfl).trans_le closes.closed
  finalized := by rw [extends_.count rfl, extends_.count rfl, closes.finalized]

theorem Life.ClosesOnce.act (closes : a.ClosesOnce) (act : Act a effect) :
    (a.act effect).ClosesOnce := by
  rcases act.closes with extends_ | ⟨open_, log⟩
  · exact closes.keep extends_
  · have zero := List.count_eq_zero.mpr open_
    have finalized := closes.finalized
    constructor
    case closed =>
      rw [Life.act_core, log, List.count_append, zero]
      decide
    case finalized =>
      rw [Life.act_core, log, List.count_append, List.count_append, finalized, zero]
      decide

theorem Life.ClosesOnce.steps (closes : a.ClosesOnce) (steps : Steps exits a b) : b.ClosesOnce := by
  induction steps with
  | refl => exact closes
  | tail _ step ih =>
      cases step with
      | move here move => exact ih.keep move.closes
      | act act => exact ih.act act
      | decide => exact ih.keep (Core.assignAll_extends (fun _ _ _ => rfl) _ _ _ _)
      | @respawn prog born =>
          exact ih.keep ⟨_, (Core.bear_notes _ prog born).trans (List.append_assoc ..), by
            simp [Event.closes]⟩
      | wake => exact ih.keep (.same rfl)
      | _ => exact ih.keep (.same rfl)

theorem Life.Boots.closesOnce (boots : a.Boots cpus confs targets) : a.ClosesOnce := by
  have none : ∀ event, event.early = false → event ∉ a.core.log := fun event late noted =>
    absurd (boots.parsed.early event noted) (by simp [late])
  have printed := List.count_eq_zero.mpr (none .printTotals rfl)
  have finalized := List.count_eq_zero.mpr (none .finalization rfl)
  exact ⟨printed.trans_le (Nat.zero_le 1), finalized.trans printed.symm⟩

end Retirement

section Runs

/-- `progs_left` is the number of the slots with a live instance. -/
theorem Life.Lined.progsLeft (lined : a.Lined n) (sound : a.Sound) :
    a.core.sched.progsLeft =
      Set.ncard {i : Nat | i < n ∧ ∃ p, (a.place p).live = true ∧ a.core.slotOf n p = i} := by
  let users := (Finset.range a.core.progsAllocated).filter fun p => (a.place p).live = true
  have born : ∀ p ∈ users, p < a.core.progsAllocated := fun p member =>
    Finset.mem_range.mp (Finset.mem_filter.mp member).1
  have injective : Set.InjOn (fun p => (a.core.slotOf n p).toNat) users := by
    intro p first q second same
    have atP := (lined.ordered.slot_range (born p first)).1
    have atQ := (lined.ordered.slot_range (born q second)).1
    refine lined.ordered.live_unique (Finset.mem_filter.mp first).2
      (Finset.mem_filter.mp second).2 ?_
    exact (Int.toNat_of_nonneg atP).symm.trans
      ((congrArg Int.ofNat same).trans (Int.toNat_of_nonneg atQ))
  have used : {i : Nat | i < n ∧ ∃ p, (a.place p).live = true ∧ a.core.slotOf n p = i} =
      (users.image fun p => (a.core.slotOf n p).toNat : Finset Nat) := by
    ext i
    rw [Finset.mem_coe, Finset.mem_image]
    constructor
    · rintro ⟨-, p, live, slot⟩
      have inside := lined.ordered.liveBorn p live
      exact ⟨p, Finset.mem_filter.mpr ⟨Finset.mem_range.mpr inside, live⟩, by simp [slot]⟩
    · rintro ⟨p, member, rfl⟩
      obtain ⟨atLeast, below⟩ := lined.ordered.slot_range (born p member)
      exact ⟨(Int.toNat_lt atLeast).mpr below, p, (Finset.mem_filter.mp member).2,
        (Int.toNat_of_nonneg atLeast).symm⟩
  rw [used, Set.ncard_coe_finset, Finset.card_image_of_injOn injective, Finset.natCast_card_filter]
  refine (sound.counter .progsLeft).trans (Finset.sum_congr rfl fun p _ => ?_)
  cases a.place p <;> rfl

/-- A program still uses its slot: it waits, is new or may run, or it has exited by itself and
was not processed yet. -/
def ExecState.UsesSlot (st : ExecState) (queue : List EvntPtr) (on : Lists) (p : ProgPtr) : Prop :=
  st.Waits queue p ∨ p ∈ on .pnewL ∨ p ∈ on .progsAll ∨ p ∈ on .progsSch ∨
    p ∈ on .pfinishedL ∧ (st.pds p).killed = false

/-- Between the handlers, the programs that use their slots are the live ones. -/
theorem Tracks.usesSlot_iff {start : Life} {xs : List EvntPtr} (tracks : Tracks exits start st xs a)
    (settled : a.Settled) (p : ProgPtr) : st.UsesSlot xs a.on p ↔ (a.place p).live = true := by
  have mem : ∀ head ∈ lifeHeads, p ∈ a.on head ↔ (a.place p).home = some head := fun head member =>
    tracks.sound.listed.mem head member p
  rw [ExecState.UsesSlot, waits_iff_waiting tracks.models.queue, mem _ (by simp [lifeHeads]),
    mem _ (by simp [lifeHeads]), mem _ (by simp [lifeHeads]), mem _ (by simp [lifeHeads])]
  have stays := settled p
  cases here : a.place p <;> simp [here, Place.settled] at stays <;> simp [Place.home, Place.live]

/-- In every state that is reached, also where the run exits: `progs_left` is the number of the
slots in use, each slot is retired at most once, the run is closed at most once, and when it is to
stop no program is left. -/
theorem slots_retired_once (name : PolicyName) (confs : List ProgConf) (targets : Int → Word64)
    (inputs : List Input) (env : Env) (cpus : List Int) (st : ExecState)
    (reaches : Reaches name confs targets env cpus inputs st) :
    ∃ queue on, st.Holds lifeHeads queue on ∧
      st.sched.progsLeft = Set.ncard {i : Nat | i < confs.length ∧
        ∃ p, st.UsesSlot queue on p ∧ st.core.slotOf confs.length p = i} ∧
      (∀ p q, .retired p ∈ st.log → .retired q ∈ st.log →
        st.core.slotOf confs.length p = st.core.slotOf confs.length q → p = q) ∧
      (∀ p, st.log.count (.retired p) ≤ 1) ∧
      st.log.count .printTotals ≤ 1 ∧ st.log.count .finalization ≤ 1 ∧
      (st.sched.stopExecution = true → (∀ p, ¬ st.Waits queue p) ∧ on .pnewL = [] ∧
        on .progsAll = [] ∧
        on .progsSch = []) ∧
      (∀ p, .killAllMet p ∉ st.log ∧ .newKilled p ∉ st.log) ∧
      st.newNr = (on .pnewL).length := by
  obtain ⟨a, b, boots, xs, shows_, settled⟩ := reaches.between
  have tracks := shows_.tracks
  have sound := tracks.sound
  have lined := boots.lined.steps boots.sound tracks.steps
  have retires := boots.retires.steps boots.lined boots.sound tracks.steps
  have closes := boots.closesOnce.steps tracks.steps
  have marked := boots.marked.steps boots.sound tracks.steps
  have core := tracks.core
  have log : st.log = b.core.log := congrArg Core.log core
  refine ⟨xs, b.on, tracks.holds, ?_, ?_, ?_, ?_, ?_, ?_, ?_, ?_⟩
  · have left : st.sched.progsLeft = _ := (congrArg (fun core => core.sched.progsLeft) core).trans
      (lined.progsLeft sound)
    simp only [left, tracks.usesSlot_iff settled, core]
  · intro p q first second same
    rw [log] at first second
    rw [core] at same
    refine lined.ordered.distinct p (retires.born p first) q (retires.born q second)
      (le_antisymm ?_ ?_)
    · exact retires.latest q second p (retires.born p first) same
    · exact retires.latest p first q (retires.born q second) same.symm
  · exact log ▸ retires.once
  · exact log ▸ closes.closed
  · rw [log, closes.finalized]
    exact closes.closed
  · intro stopped
    have empty := sound.stopped
      ((congrArg (fun core => core.sched.stopExecution) core).symm.trans stopped)
    have none : ∀ head ∈ lifeHeads, (∀ k : Place, k.home = some head → k.live = true) →
        b.on head = [] :=
      fun head member uses => empty.unlisted sound member uses
    refine ⟨fun p waits => ?_, none _ (by simp [lifeHeads]) ?_, none _ (by simp [lifeHeads]) ?_,
      none _ (by simp [lifeHeads]) ?_⟩
    · have here := (waits_iff_waiting tracks.models.queue p).mp waits
      have idle := empty p
      rw [here] at idle
      exact absurd idle (by decide)
    all_goals
      intro k home
      revert home
      cases k <;> simp [Place.home, Place.live]
  · intro p
    rw [log]
    constructor
    · intro met
      exact absurd ((marked.mem_iff .metByKillAll p).mp met) (by cases b.place p <;> decide)
    · intro met
      exact absurd ((marked.mem_iff .killedNew p).mp met) (by cases b.place p <;> decide)
  · have newNr : st.newNr = b.core.counter .newNr := congrArg Core.newNr core
    have counted := sound.length_on (by simp [lifeHeads] : Node.pnewL ∈ lifeHeads)
      (k := .new) fun other => by cases other <;> simp [Place.home]
    rw [newNr, sound.counter .newNr, ← counted]
    exact tally_congr fun p _ => by cases b.place p <;> rfl

/-- The slot of a single program is retired by its end, and the handler that records it exits. -/
theorem slots_retired_once_exit :
    ∃ st, runExecutor PolicyName.perf.policy [.single] (fun _ => 7)
      [.events, .events, .sigchld [.exited 0]]
        (ExecState.start (Env.counting 5) [0]) = .error (.exit 42) st ∧
      st.sched.stopExecution = true ∧ .retired 0 ∈ st.log ∧ st.log.count (.retired 0) ≤ 1 ∧
      .printTotals ∈ st.log ∧ st.log.count .printTotals ≤ 1 ∧ st.log.count .finalization ≤ 1 := by
  obtain ⟨st, run, ended⟩ := exists_of_stopsWith (by decide +kernel :
    stopsWith (runExecutor PolicyName.perf.policy [.single] (fun _ => 7)
      [.events, .events, .sigchld [.exited 0]])
      (ExecState.start (Env.counting 5) [0]) (.exit 42)
      (fun st => st.sched.stopExecution = true ∧ .retired 0 ∈ st.log ∧ .printTotals ∈ st.log) =
        true)
  obtain ⟨stopped, retired, printed⟩ := of_decide_eq_true ended
  obtain ⟨queue, on, -, -, -, once, totals, finalized, -⟩ :=
    slots_retired_once .perf [.single] (fun _ => 7) _ _ _ st (.inr ⟨42, run⟩)
  exact ⟨st, run, stopped, retired, once 0, printed, totals, finalized⟩

end Runs

section Instances

/-- A program descends from another one by respawns. -/
def Descends (log : List Event) : ProgPtr → ProgPtr → Prop :=
  Relation.ReflTransGen fun old new => .respawned old new ∈ log

/-- The instances of the programs of a file with `n` lines: no id is used twice, the id of an
instance tells the program of the file that it descends from, and that is its `init_id` once
the scheduler has it; and at most one instance of a slot is present, or underway at any
moment. -/
structure ExecState.Instances (st : ExecState) (n : Nat) (present : ProgPtr → Prop)
    (initId : ProgPtr → Int) : Prop where
  distinct : ∀ p < st.progsAllocated, ∀ q < st.progsAllocated,
    (st.progs p).id = (st.progs q).id → p = q
  descends : ∀ p < st.progsAllocated, ∃ root < n, Descends st.log root p
  slot : ∀ p < st.progsAllocated, ∀ root < n, Descends st.log root p →
    ((st.progs p).id - idUserOffset).tmod n = root
  initId : ∀ p, .newRunning p ∈ st.log → initId p = ((st.progs p).id - idUserOffset).tmod n
  present : ∀ p q, present p → present q → st.core.slotOf n p = st.core.slotOf n q → p = q
  always : OneUnderway n (st.core.slotOf n) st.log

/-- The instances of a line that is in order. -/
theorem instances_of_ordered {line : Line} {present : ProgPtr → Prop} {initId : ProgPtr → Int}
    (ordered : line.Ordered idUserOffset n) (born : line.born = st.progsAllocated)
    (ids : ∀ p, line.id p = (st.progs p).id)
    (heirs : ∀ p q, line.heir p q ↔ .respawned p q ∈ st.log) (live : ∀ p, present p → line.live p)
    (init : ∀ p, .newRunning p ∈ st.log → initId p = ((st.progs p).id - idUserOffset).tmod n)
    (always : OneUnderway n (st.core.slotOf n) st.log) : st.Instances n present initId where
  distinct p pBorn q qBorn same := by
    rw [← ids p, ← ids q] at same
    exact ordered.distinct p (born ▸ pBorn) q (born ▸ qBorn) same
  descends p pBorn := by
    obtain ⟨root, isRoot, descends⟩ := ordered.exists_root (born ▸ pBorn)
    exact ⟨root, isRoot, Relation.ReflTransGen.mono (fun p q => (heirs p q).mp) _ _ descends⟩
  slot p pBorn root isRoot descends := by
    have lines := ordered.slot_of_descends
      (Relation.ReflTransGen.mono (fun p q => (heirs p q).mpr) _ _ descends)
    rw [ordered.slot_root isRoot, slot_eq_tmod (ordered.base_le p (born ▸ pBorn)), ids p] at lines
    exact lines
  initId := init
  present p q first second same := by
    refine ordered.live_unique (live p first) (live q second) ?_
    rw [ids p, ids q]
    exact same
  always := always

/-- A program waits, is new or is on a list of its scheduler. -/
def ExecState.Present (st : ExecState) (queue : List EvntPtr) (on : Lists) (heads : List Node)
    (p : ProgPtr) : Prop :=
  st.Waits queue p ∨ p ∈ on .pnewL ∨ ∃ head ∈ heads, p ∈ on head

/-- The instances in a run under one of the four policies. -/
theorem Life.Boots.instances (boots : a.Boots cpus confs targets)
    (between : Between anywhere name a st b) :
    ∃ queue on, st.Holds lifeHeads queue on ∧
      st.Instances confs.length (st.Present queue on [.progsAll, .progsSch]) fun p =>
        (st.pds p).initId := by
  obtain ⟨xs, shows_, settled⟩ := between
  have tracks := shows_.tracks
  have lined := boots.lined.steps boots.sound tracks.steps
  have marked := boots.marked.steps boots.sound tracks.steps
  have single := boots.lined.single_steps boots.sound boots.marked boots.single tracks.steps
  have core := tracks.core
  have log : st.log = b.core.log := congrArg Core.log core
  have ids : ∀ p, (st.progs p).id = (b.core.progs p).id := fun p =>
    congrArg (fun core => (core.progs p).id) core
  refine ⟨xs, b.on, tracks.holds, instances_of_ordered lined.ordered tracks.progsAllocated.symm
    (fun p => (ids p).symm) (fun p q => by rw [log]; rfl) (fun p present => ?_)
      (fun p enrolled => ?_) ?_⟩
  · refine (tracks.usesSlot_iff settled p).mp ?_
    rcases present with waits | new | ⟨head, member, listed⟩
    · exact .inl waits
    · exact .inr (.inl new)
    · have heads : head = .progsAll ∨ head = .progsSch := by simpa using member
      rcases heads with rfl | rfl
      · exact .inr (.inr (.inl listed))
      · exact .inr (.inr (.inr (.inl listed)))
  · rw [ids p, ← lined.initId p ((marked.mem_iff .enrolled p).mp (log ▸ enrolled)), ← core]
    rfl
  · rw [core, log]
    exact single

end Instances

end BachScheduler
