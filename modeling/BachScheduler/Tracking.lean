import BachScheduler.EventLoop
import BachScheduler.LifeInvariants

/-!
# States of the executor that show a life of the programs

`Models` says when a state of the executor shows a life of the programs: the same core,
the lists linked as rings, and the arrivals of the waiting programs in the event heap.
`Tracks` adds that this life came about by steps; it survives what the functions of the
source do to the links of one program and to the core.
-/

namespace BachScheduler

open BachScheduler.Ring Wp

/-- The event heap holds the arrivals of the waiting programs, and perhaps `qt_event`. -/
structure Queue (v : View) (xs : List EvntPtr) (place : ProgPtr → Place) : Prop where
  valid : v.eventsHeap.Valid (affEventLeqUl v.events) xs
  nodup : xs.Nodup
  allocated : ∀ evnt ∈ xs, evnt < v.eventsAllocated
  some : 0 < v.eventsAllocated
  quantum : (v.events 0).type = .qexpired
  newprog : ∀ evnt ∈ xs, evnt ≠ 0 → (v.events evnt).type = .newprog
  waits : ∀ p, place p = .waiting ↔ ∃ evnt ∈ xs, evnt ≠ 0 ∧ (v.events evnt).prog = p
  once : ∀ evnt ∈ xs, ∀ other ∈ xs, evnt ≠ 0 → other ≠ 0 →
    (v.events evnt).prog = (v.events other).prog → evnt = other

/-- The state of the executor shows a life of the programs. -/
structure Models (v : View) (xs : List EvntPtr) (a : Life) : Prop where
  core : v.core = a.core
  rings : ∃ idle, PlRings lifeHeads a.core.progsAllocated v.links a.on idle ∧
    ∀ p, a.place p = .killed → p ∈ idle
  queue : Queue v xs a.place

/-- The state shows a sound life of the programs that came about by steps. -/
structure Tracks (exits : ProgPtr → Place → Prop) (start : Life) (st : ExecState)
    (xs : List EvntPtr) (a : Life) : Prop where
  steps : Steps exits start a
  sound : a.Sound
  models : Models (view st) xs a

section Queue

variable {v : View} {xs : List EvntPtr} {place other : ProgPtr → Place}

/-- The queue only depends on which programs wait. -/
theorem Queue.congr (queue : Queue v xs place)
    (same : ∀ p, other p = .waiting ↔ place p = .waiting) : Queue v xs other :=
  { queue with waits := fun p => (same p).trans (queue.waits p) }

theorem Queue.update (queue : Queue v xs place) {prog : ProgPtr} {k : Place}
    (before : place prog ≠ .waiting) (after : k ≠ .waiting) :
    Queue v xs (Function.update place prog k) := by
  apply queue.congr
  intro p
  by_cases equal : p = prog
  · subst equal
    simp [before, after]
  · rw [Function.update_of_ne equal]

/-- The queue survives changes of the links and of the core. -/
theorem Queue.view (queue : Queue v xs place) {w : View} (heap : w.eventsHeap = v.eventsHeap)
    (events : w.events = v.events) (allocated : w.eventsAllocated = v.eventsAllocated) :
    Queue w xs place := by
  constructor
  case valid => rw [heap, events]; exact queue.valid
  case nodup => exact queue.nodup
  case allocated => rw [allocated]; exact queue.allocated
  case some => rw [allocated]; exact queue.some
  case quantum => rw [events]; exact queue.quantum
  case newprog => rw [events]; exact queue.newprog
  case waits => rw [events]; exact queue.waits
  case once => rw [events]; exact queue.once

/-- `qt_event` goes back into the heap, at another time. -/
theorem Queue.requeue (queue : Queue v xs place) {w : View} {ys : List EvntPtr} (outside : 0 ∉ xs)
    (other : ∀ evnt, evnt ≠ 0 → w.events evnt = v.events evnt)
    (type : (w.events 0).type = .qexpired) (allocated : w.eventsAllocated = v.eventsAllocated)
    (valid : w.eventsHeap.Valid (affEventLeqUl w.events) ys) (perm : ys.Perm (0 :: xs)) :
    Queue w ys place := by
  have members : ∀ evnt ∈ ys, evnt ≠ 0 → evnt ∈ xs := fun evnt member differs =>
    (List.mem_cons.mp (perm.subset member)).resolve_left differs
  constructor
  case valid => exact valid
  case nodup => exact perm.nodup_iff.mpr (List.nodup_cons.mpr ⟨outside, queue.nodup⟩)
  case allocated =>
    intro evnt member
    rw [allocated]
    by_cases quantum : evnt = 0
    · exact quantum ▸ queue.some
    · exact queue.allocated evnt (members evnt member quantum)
  case some => exact allocated ▸ queue.some
  case quantum => exact type
  case newprog =>
    intro evnt member differs
    rw [other evnt differs]
    exact queue.newprog evnt (members evnt member differs) differs
  case waits =>
    intro p
    rw [queue.waits p]
    constructor
    · rintro ⟨evnt, member, differs, waits⟩
      exact ⟨evnt, perm.symm.subset (List.mem_cons_of_mem _ member), differs,
        (congrArg AffEvent.prog (other evnt differs)).trans waits⟩
    · rintro ⟨evnt, member, differs, waits⟩
      exact ⟨evnt, members evnt member differs, differs,
        (congrArg AffEvent.prog (other evnt differs)).symm.trans waits⟩
  case once =>
    intro evnt member second secondMember differs secondDiffers same
    rw [other evnt differs, other second secondDiffers] at same
    exact queue.once evnt (members evnt member differs) second
      (members second secondMember secondDiffers)
      differs secondDiffers same

end Queue

theorem Models.act {v : View} {xs : List EvntPtr} {a : Life} {effect : Core → Core}
    (models : Models v xs a) (act : Act a effect) :
    Models (v.modCore effect) xs (a.act effect) := by
  obtain ⟨idle, rings, killed⟩ := models.rings
  refine ⟨congrArg effect models.core, ⟨idle, ?_, killed⟩, models.queue.view rfl rfl rfl⟩
  rw [Life.act_core, act.keeps.progsAllocated]
  exact rings

/-- The event heap and some lists of programs, as they lie in the memory. -/
structure ExecState.Holds (st : ExecState) (heads : List Node) (queue : List EvntPtr) (on : Lists) :
    Prop where
  heap : st.eventsHeap.Valid (affEventLeqUl st.events) queue
  ring : ∀ head ∈ heads, IsRing st.links head ((on head).map Node.plNode)

/-- The start of a program is in the event heap. -/
def ExecState.Waits (st : ExecState) (queue : List EvntPtr) (prog : ProgPtr) : Prop :=
  ∃ evnt ∈ queue, (st.events evnt).type = .newprog ∧ (st.events evnt).prog = prog

theorem waits_iff_waiting {st : ExecState} {xs : List EvntPtr} {place : ProgPtr → Place}
    (queue : Queue (view st) xs place) (p : ProgPtr) : st.Waits xs p ↔ place p = .waiting := by
  rw [queue.waits p]
  constructor
  · rintro ⟨evnt, member, type, same⟩
    refine ⟨evnt, member, fun quantum => ?_, same⟩
    subst quantum
    exact absurd (type.symm.trans queue.quantum) (by decide)
  · rintro ⟨evnt, member, differs, same⟩
    exact ⟨evnt, member, queue.newprog evnt member differs, same⟩

namespace Tracks

variable {exits : ProgPtr → Place → Prop} {start a b : Life} {st st' : ExecState}
    {xs : List EvntPtr} {prog : ProgPtr}
variable {source target : Place} {effect : Core → Core} {head dest : Node}

theorem core (tracks : Tracks exits start st xs a) : st.core = a.core := tracks.models.core

theorem progsAllocated (tracks : Tracks exits start st xs a) :
    st.progsAllocated = a.core.progsAllocated :=
  congrArg Core.progsAllocated tracks.core

theorem ring (tracks : Tracks exits start st xs a) (member : head ∈ lifeHeads) :
    IsRing st.links head ((a.on head).map Node.plNode) := by
  obtain ⟨idle, rings, -⟩ := tracks.models.rings
  exact rings.ring head member

theorem short (tracks : Tracks exits start st xs a) (member : head ∈ lifeHeads) :
    (a.on head).length ≤ st.progsAllocated := by
  obtain ⟨idle, rings, -⟩ := tracks.models.rings
  exact (rings.length_le member).trans tracks.progsAllocated.ge

theorem empty_iff (tracks : Tracks exits start st xs a) (member : head ∈ lifeHeads) :
    cdsListEmpty head st.links = true ↔ a.on head = [] := by
  obtain ⟨idle, rings, -⟩ := tracks.models.rings
  exact rings.cdsListEmpty_iff member

theorem holds (tracks : Tracks exits start st xs a) : st.Holds lifeHeads xs a.on :=
  ⟨tracks.models.queue.valid, fun _ member => tracks.ring member⟩

theorem reroot (tracks : Tracks exits start st xs a) : Tracks unheard a st xs a :=
  ⟨.refl, tracks.sound, tracks.models⟩

theorem since (tracks : Tracks unheard a st xs b) (steps : Steps exits start a) :
    Tracks exits start st xs b :=
  ⟨steps.trans tracks.steps.heard, tracks.sound, tracks.models⟩

theorem act (tracks : Tracks exits start st xs a) (act : Act a effect)
    (same : view st' = (view st).modCore effect) : Tracks exits start st' xs (a.act effect) where
  steps := tracks.steps.tail (.act act)
  sound := tracks.sound.act act
  models := same ▸ tracks.models.act act

theorem acts (tracks : Tracks exits start st xs a) (first : Act a effect) {later : Core → Core}
    (second : Act (a.act effect) later)
    (same : view st' = ((view st).modCore effect).modCore later) :
    Tracks exits start st' xs ((a.act effect).act later) where
  steps := (tracks.steps.tail (.act first)).tail (.act second)
  sound := (tracks.sound.act first).act second
  models := same ▸ (tracks.models.act first).act second

theorem quiet (tracks : Tracks exits start st xs a) (same : view st' = view st) :
    Tracks exits start st' xs a :=
  ⟨tracks.steps, tracks.sound, same ▸ tracks.models⟩

theorem freeze (tracks : Tracks exits start st xs a) (phase : a.phase = .running)
    (none : ∀ p, a.place p ≠ .finished ∧ a.place p ≠ .taken) :
    Tracks exits start st xs { a with phase := .settling } where
  steps := tracks.steps.tail (.freeze phase none)
  sound := tracks.sound.step (.freeze phase none : Step exits a _)
  models := ⟨tracks.models.core, tracks.models.rings, tracks.models.queue⟩

theorem choose (tracks : Tracks exits start st xs a) (phase : a.phase = .settling)
    (idle : a.on .progsSch = []) : Tracks exits start st xs { a with phase := .choosing } where
  steps := tracks.steps.tail (.choose phase idle)
  sound := tracks.sound.step (.choose phase idle : Step exits a _)
  models := ⟨tracks.models.core, tracks.models.rings, tracks.models.queue⟩

theorem abandon (tracks : Tracks exits start st xs a) (phase : a.phase = .settling)
    (idle : a.on .progsSch = []) (empty : a.Empty) :
    Tracks exits start st xs { a with phase := .running } where
  steps := tracks.steps.tail (.abandon phase idle empty)
  sound := tracks.sound.step (.abandon phase idle empty : Step exits a _)
  models := ⟨tracks.models.core, tracks.models.rings, tracks.models.queue⟩

theorem wake (tracks : Tracks exits start st xs a) (phase : a.phase = .choosing)
    (thawing : ∀ p, a.place p = .sch → a.Thawing p)
    (same : view st' = (view st).modCore Core.newEpoch) :
    Tracks exits start st' xs { a with phase := .running, core := a.core.newEpoch } where
  steps := tracks.steps.tail (.wake phase thawing)
  sound := tracks.sound.step (.wake phase thawing : Step exits a _)
  models := by
    rw [same]
    exact ⟨congrArg Core.newEpoch tracks.models.core, tracks.models.rings,
      tracks.models.queue.view rfl rfl rfl⟩

theorem move (tracks : Tracks exits start st xs a) (here : a.place prog = source)
    (move : Move exits a prog source target effect) {links : Links Node → Links Node}
    (same : view st' = ((view st).modLinks links).modCore effect)
    (rings : ∀ idle, PlRings lifeHeads a.core.progsAllocated st.links a.on idle →
      (∀ p, a.place p = .killed → p ∈ idle) →
      ∃ idle, PlRings lifeHeads a.core.progsAllocated (links st.links)
        (a.transfer prog target).on idle ∧
        ∀ p, Function.update a.place prog target p = .killed → p ∈ idle)
    (notWaiting : source ≠ .waiting) (notLater : target ≠ .waiting) :
    Tracks exits start st' xs ((a.transfer prog target).act effect) where
  steps := tracks.steps.tail (.move here move)
  sound := tracks.sound.move here move
  models := by
    rw [same]
    obtain ⟨idle, before, killed⟩ := tracks.models.rings
    obtain ⟨idle', after, killed'⟩ := rings idle before killed
    refine ⟨congrArg effect tracks.models.core, ⟨idle', ?_, killed'⟩, ?_⟩
    · rw [Life.act_core, Life.transfer_core, move.keeps.progsAllocated]
      exact after
    · exact (tracks.models.queue.update (here ▸ notWaiting) notLater).view rfl rfl rfl

theorem listed (tracks : Tracks exits start st xs a) (member : head ∈ lifeHeads)
    (home : (a.place prog).home = some head) : prog ∈ a.on head :=
  (tracks.sound.listed.mem head member prog).mpr home

theorem relocate (tracks : Tracks exits start st xs a) (here : a.place prog = source)
    (step : Move exits a prog source target effect) (fromMember : head ∈ lifeHeads)
    (toMember : dest ∈ lifeHeads) (fromHome : source.home = some head)
    (toHome : target.home = some dest)
    (same : view st' = ((view st).modLinks fun links =>
      cdsListAddTail (.plNode prog) dest (unlinkNode prog links)).modCore effect) :
    Tracks exits start st' xs ((a.transfer prog target).act effect) := by
  refine tracks.move here step same (fun idle rings killed => ⟨idle, ?_, fun p there => ?_⟩) ?_ ?_
  · have moved := rings.move fromMember toMember (tracks.listed fromMember (here ▸ fromHome))
    simpa [Life.transfer, here, fromHome, toHome, Life.leave, Life.join, unlinkNode, Lists.move]
      using moved
  · by_cases equal : p = prog
    · subst equal
      rw [Function.update_self] at there
      rw [there] at toHome
      exact absurd toHome (by simp [Place.home])
    · exact killed p (by simpa [equal] using there)
  · rintro rfl
    exact absurd fromHome (by simp [Place.home])
  · rintro rfl
    exact absurd toHome (by simp [Place.home])

/-- A program is taken off its list. -/
theorem withdraw (tracks : Tracks exits start st xs a) (here : a.place prog = source)
    (step : Move exits a prog source target effect) (fromMember : head ∈ lifeHeads)
    (fromHome : source.home = some head) (toHome : target.home = none)
    (notLater : target ≠ .waiting)
    (same : view st' = ((view st).modLinks (unlinkNode prog)).modCore effect) :
    Tracks exits start st' xs ((a.transfer prog target).act effect) := by
  refine tracks.move here step same (fun idle rings killed => ⟨prog :: idle, ?_, fun p there => ?_⟩)
    ?_
    notLater
  · obtain ⟨dropped, off⟩ := rings.del fromMember (tracks.listed fromMember (here ▸ fromHome))
    have rested := dropped.init off
    simpa [Life.transfer, here, fromHome, toHome, Life.leave, Life.join, unlinkNode] using rested
  · by_cases equal : p = prog
    · simp [equal]
    · exact List.mem_cons_of_mem _ (killed p (by simpa [equal] using there))
  · rintro rfl
    exact absurd fromHome (by simp [Place.home])

/-- A program that is on no list stays off the lists. -/
theorem pass (tracks : Tracks exits start st xs a) (here : a.place prog = source)
    (step : Move exits a prog source target effect) (fromHome : source.home = none)
    (toHome : target.home = none) (notWaiting : source ≠ .waiting) (notLater : target ≠ .waiting)
    (notKilled : target ≠ .killed) (same : view st' = (view st).modCore effect) :
    Tracks exits start st' xs ((a.transfer prog target).act effect) := by
  have same : view st' = ((view st).modLinks id).modCore effect := same
  refine tracks.move here step same (fun idle rings killed => ⟨idle, ?_, fun p there => ?_⟩)
    notWaiting
    notLater
  · simpa [Life.transfer, here, fromHome, toHome, Life.leave, Life.join] using rings
  · by_cases equal : p = prog
    · subst equal
      exact absurd (by simpa using there) notKilled
    · exact killed p (by simpa [equal] using there)

end Tracks

end BachScheduler
