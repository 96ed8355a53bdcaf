import BachScheduler.Launches
import Mathlib.Data.List.Find
import Mathlib.Data.List.Nodup

/-!
# Requests of the applications

An application that has written its handle waits for one reply.  Whatever the processes do, each
application that waits is in the pipe once, or its descriptor is held once, or it has one reply;
nobody else is.  The requests are in good hands as long as no application dies that still waits
for its reply, and the array of descriptors is too short only for more than 16 of them.
-/

namespace BachScheduler

open Interleaving

section Applications

variable {w : Wiring} {a a' : App} {nrThreads : Word32}

/-- The application waits for a reply that the executor has not sent. -/
def App.owed (a : App) : Prop :=
  a.pc = .await ∧ a.replies = 0

instance (a : App) : Decidable a.owed :=
  inferInstanceAs (Decidable (_ ∧ _))

/-- An application that has asked for cpus asks for no more than there are, and the page says so. -/
structure App.Asks (w : Wiring) (a : App) : Prop where
  clamped : a.pc = .request ∨ a.pc = .notify ∨ a.pc = .await →
    a.nrThreads = clampThreads w.cpusNr a.asked
  shown : a.pc = .notify ∨ a.pc = .await → (shmView a.shm).cpusRequested = a.nrThreads

theorem App.Asks.step (asks : a.Asks w) (run : a.step = some a') : a'.Asks w := by
  obtain ⟨clamped, shown⟩ := asks
  unfold App.step at run
  split at run <;> rename_i pc
  all_goals first
    | cases run
    | (split at run <;> cases run)
  all_goals
    rw [pc] at clamped shown
    constructor <;> simp_all

theorem App.Asks.enter (sound : a.Sound w) (run : a.enter nrThreads = some a') : a'.Asks w := by
  unfold App.enter at run
  split at run
  · next pc =>
      cases run
      have arch := sound.wired.gotArch (by rw [pc]; decide)
      constructor
      · intro _
        rw [arch]
      · simp
  · cases run

/-- What the executor does to an application leaves what it has asked for. -/
theorem App.Asks.congr (asks : a.Asks w) (pc : a'.pc = a.pc)
    (nrThreads : a'.nrThreads = a.nrThreads) (asked : a'.asked = a.asked)
    (shown : (shmView a'.shm).cpusRequested = (shmView a.shm).cpusRequested) : a'.Asks w := by
  constructor
  · rw [pc, nrThreads, asked]
    exact asks.clamped
  · rw [pc, nrThreads, shown]
    exact asks.shown

/-- More cpus than there are, or none, are not asked for. -/
theorem clampThreads_le {cpusArch : Word32} (some_ : cpusArch ≠ 0) :
    clampThreads cpusArch nrThreads ≠ 0 ∧
      (clampThreads cpusArch nrThreads).toInt ≤ cpusArch.toInt := by
  unfold clampThreads
  split
  · exact ⟨some_, le_refl _⟩
  · next fits =>
      rw [not_or] at fits
      refine ⟨fits.1, ?_⟩
      simpa [BitVec.slt] using fits.2

/-- A step of an application leaves what is known of its life, and takes a reply that it waits
for. -/
theorem App.step_replies (run : a.step = some a') :
    (a.pc = .await ∧ 0 < a.replies ∧ a'.replies = a.replies - 1 ∧ a'.pc = .assigned) ∨
      a.pc ≠ .await ∧ a'.replies = a.replies ∧ a'.pc ≠ .await := by
  unfold App.step at run
  split at run <;> grind

end Applications

/-- An array that begins with the values of some entries takes the value of one more behind them. -/
theorem stored_push {α β : Type} {n : Nat} {value : α → β} {entries : List α} {stored : Vector β n}
    (holds : ∀ (k : Nat) (x : α), entries[k]? = some x → stored.toList[k]? = some (value x))
    (inside : entries.length < n) (last : α) :
    ∀ (k : Nat) (x : α), (entries ++ [last])[k]? = some x →
      (stored.set entries.length (value last) inside).toList[k]? = some (value x) := by
  intro k x atK
  rw [Vector.toList_set, List.getElem?_set]
  by_cases new : k = entries.length
  · subst new
    rw [List.getElem?_concat_length, Option.some_inj] at atK
    simp [inside, atK]
  · have earlier : k < entries.length := by
      have bound := (List.getElem?_eq_some_iff.mp atK).1
      rw [List.length_append, List.length_singleton] at bound
      omega
    rw [List.getElem?_append_left earlier] at atK
    rw [if_neg (Ne.symm new)]
    exact holds k x atK

section Traffic

variable {w : Wiring} {s s' : System} {action : SysAction} {prog : ProgPtr} {a' : App}
    {queued held : List ProgPtr}

/-- The descriptors that are held are those that `handle_prog_notifications` has counted; only an
array that is too short puts an end to it. -/
def ServePc.Fits (queued held : List ProgPtr) : ServePc → Prop
  | .idle => held = []
  | .reading cnt | .answering cnt => cnt = held.length
  | .ended fate => fate = .overrun ∧ held.length = progFdsLength ∧ queued ≠ []

theorem ServePc.Fits.more {pc : ServePc} {queued held : List ProgPtr} {prog : ProgPtr}
    (fits : pc.Fits queued held) : pc.Fits (queued ++ [prog]) held := by
  cases pc with
  | ended fate => exact ⟨fits.1, fits.2.1, by simp⟩
  | _ => exact fits

/-- The applications in `queued` have their handles in the pipe and those in `held` have their
descriptors in `prog_fds`; they are those that wait, each of them once. -/
structure System.Traffic (s : System) (queued held : List ProgPtr) : Prop where
  pipe : s.pipe = queued.map fun p => (s.app p).wires.handle
  fds : ∀ (k : Nat) (p : ProgPtr), held[k]? = some p →
    s.progFds.toList[k]? = some (s.app p).wires.pipeWr
  nodup : (queued ++ held).Nodup
  owed : ∀ p, p ∈ queued ++ held ↔ p ∈ s.progs ∧ (s.app p).owed
  replies : ∀ p ∈ s.progs, (s.app p).replies = 0 ∨ (s.app p).replies = 1 ∧ (s.app p).pc = .await
  alive : ∀ p ∈ queued ++ held, (s.app p).alive = true
  reads : ∀ p ∈ s.progs, (s.app p).reads = false → (s.app p).alive = false
  handles : ∀ p ∈ s.progs, s.deref (s.app p).wires.handle = some p
  owners : ∀ p ∈ s.progs, s.owner (s.app p).wires.pipeWr = some p
  serve : s.serve.Fits queued held

namespace System

@[simp] theorem set_app_self : (s.set prog a').app prog = a' := by
  simp [System.set]

theorem set_app_apart {p : ProgPtr} (apart : p ≠ prog) : (s.set prog a').app p = s.app p := by
  simp [System.set, apart]

theorem set_wires (wires : a'.wires = (s.app prog).wires) (p : ProgPtr) :
    ((s.set prog a').app p).wires = (s.app p).wires := by
  by_cases same : p = prog
  · subst same
    rw [set_app_self, wires]
  · rw [set_app_apart same]

/-- One application changes, and with it what is on its way. -/
theorem Traffic.change {queued' held' : List ProgPtr} (traffic : s.Traffic queued held)
    (progs : s'.progs = s.progs) (app : s'.app = Function.update s.app prog a')
    (wires : a'.wires = (s.app prog).wires)
    (others : ∀ p, p ≠ prog → (p ∈ queued' ++ held' ↔ p ∈ queued ++ held))
    (own : prog ∈ queued' ++ held' ↔ prog ∈ s.progs ∧ a'.owed) (nodup : (queued' ++ held').Nodup)
    (pipe : s'.pipe = queued'.map fun p => (s.app p).wires.handle)
    (fds : ∀ (k : Nat) (p : ProgPtr), held'[k]? = some p →
      s'.progFds.toList[k]? = some (s.app p).wires.pipeWr)
    (replies : prog ∈ s.progs → a'.replies = 0 ∨ a'.replies = 1 ∧ a'.pc = .await)
    (alive : prog ∈ queued' ++ held' → a'.alive = true)
    (reads : prog ∈ s.progs → a'.reads = false → a'.alive = false)
    (serve : s'.serve.Fits queued' held') :
    s'.Traffic queued' held' := by
  have self : s'.app prog = a' := by rw [app, Function.update_self]
  have other (p : ProgPtr) (apart : p ≠ prog) : s'.app p = s.app p := by
    rw [app, Function.update_of_ne apart]
  have sameWires (p : ProgPtr) : (s'.app p).wires = (s.app p).wires := by
    rw [app]
    exact set_wires wires p
  constructor
  · simpa only [sameWires] using pipe
  · simpa only [sameWires] using fds
  · exact nodup
  · intro p
    rw [progs]
    by_cases same : p = prog
    · subst same
      rw [own, self]
    · rw [others p same, traffic.owed, other p same]
  · intro p member
    rw [progs] at member
    by_cases same : p = prog
    · subst same
      rw [self]
      exact replies member
    · rw [other p same]
      exact traffic.replies p member
  · intro p member
    by_cases same : p = prog
    · subst same
      rw [self]
      exact alive member
    · rw [other p same]
      exact traffic.alive p ((others p same).mp member)
  · intro p member
    rw [progs] at member
    by_cases same : p = prog
    · subst same
      rw [self]
      exact reads member
    · rw [other p same]
      exact traffic.reads p member
  · simpa only [System.deref, progs, sameWires] using traffic.handles
  · simpa only [System.owner, progs, sameWires] using traffic.owners
  · exact serve

theorem Traffic.set (traffic : s.Traffic queued held) (wires : a'.wires = (s.app prog).wires)
    (owed : prog ∈ s.progs → (a'.owed ↔ (s.app prog).owed))
    (replies : prog ∈ s.progs → a'.replies = 0 ∨ a'.replies = 1 ∧ a'.pc = .await)
    (alive : (s.app prog).owed → (s.app prog).alive = true → a'.alive = true)
    (reads : prog ∈ s.progs → a'.reads = false → a'.alive = false) :
    (s.set prog a').Traffic queued held := by
  refine traffic.change rfl rfl wires (fun _ _ => .rfl) ?_ traffic.nodup traffic.pipe traffic.fds
    replies ?_ reads
    traffic.serve
  · rw [traffic.owed]
    exact and_congr_right fun member => (owed member).symm
  · intro member
    exact alive ((traffic.owed prog).mp member).2 (traffic.alive prog member)

theorem Traffic.congr (traffic : s.Traffic queued held) (progs : s'.progs = s.progs)
    (app : s'.app = s.app) (pipe : s'.pipe = s.pipe) (serve : s'.serve = s.serve)
    (progFds : s'.progFds = s.progFds) :
    s'.Traffic queued held := by
  obtain ⟨progs', app', pipe', launch, serve', progFds'⟩ := s'
  cases progs
  cases app
  cases pipe
  cases serve
  cases progFds
  exact { traffic with }

/-- What is found by a part of its wires is found by it when another program has come that has other
wires. -/
theorem find?_launch {α : Type} [DecidableEq α] {key : Wires → α} {progs : List ProgPtr}
    {app : ProgPtr → App} (fresh : prog ∉ progs)
    (apart : ∀ p ∈ progs, key a'.wires ≠ key (app p).wires)
    (found : ∀ p ∈ progs, (progs.find? fun q => key (app q).wires = key (app p).wires) = some p) :
    ∀ p ∈ prog :: progs, ((prog :: progs).find? fun q => key (Function.update app prog a' q).wires =
      key (Function.update app prog a' p).wires) = some p := by
  intro p member
  rcases List.mem_cons.mp member with rfl | earlier
  · simp
  · have other : p ≠ prog := fun same => fresh (same ▸ earlier)
    have rest :
        (progs.find? fun q => key (Function.update app prog a' q).wires = key (app p).wires) =
        progs.find? fun q => key (app q).wires = key (app p).wires := by
      refine List.find?_congr fun q among => ?_
      have otherToo : q ≠ prog := fun same => fresh (same ▸ among)
      rw [Function.update_of_ne otherToo]
    rw [Function.update_of_ne other, List.find?_cons_of_neg, rest]
    · exact found p earlier
    · simpa using apart p earlier

theorem Traffic.launch {wires : Wires} {more : Option LaunchPc} (traffic : s.Traffic queued held)
    (fresh : prog ∉ s.progs) (handle : s.deref wires.handle = none)
    (owner : s.owner wires.pipeWr = none) :
    System.Traffic { s.set prog { wires := wires, shm := affShmAlloc w wires.handle } with
      progs := prog :: s.progs, launch := more } queued held := by
  have apart (p : ProgPtr) (member : p ∈ s.progs) : p ≠ prog := fun same => fresh (same ▸ member)
  have waits (p : ProgPtr) (member : p ∈ queued ++ held) :
      p ≠ prog := apart p ((traffic.owed p).mp member).1
  have handles (p : ProgPtr) (member : p ∈ s.progs) : wires.handle ≠ (s.app p).wires.handle := by
    simpa [eq_comm] using List.find?_eq_none.mp handle p member
  have owners (p : ProgPtr) (member : p ∈ s.progs) : wires.pipeWr ≠ (s.app p).wires.pipeWr := by
    simpa [eq_comm] using List.find?_eq_none.mp owner p member
  obtain ⟨pipe, fds, nodup, owed, replies, alive, reads, deref, owns, serve⟩ := traffic
  constructor
  · rw [show queued.map (fun p => ((s.set prog _).app p).wires.handle) = queued.map fun p =>
      (s.app p).wires.handle from
      List.map_congr_left fun p member => by
        rw [set_app_apart (waits p (List.mem_append_left _ member))]]
    exact pipe
  · intro k p atK
    have member := List.mem_append_right queued (List.mem_of_getElem? atK)
    rw [set_app_apart (waits p member)]
    exact fds k p atK
  · exact nodup
  · intro p
    by_cases same : p = prog
    · subst same
      have idle : p ∉ queued ++ held := fun member => waits p member rfl
      simp [idle, App.owed]
    · rw [set_app_apart same, owed, List.mem_cons]
      simp [same]
  · intro p member
    rcases List.mem_cons.mp member with rfl | earlier
    · simp
    · rw [set_app_apart (apart p earlier)]
      exact replies p earlier
  · intro p member
    rw [set_app_apart (waits p member)]
    exact alive p member
  · intro p member
    rcases List.mem_cons.mp member with rfl | earlier
    · simp
    · rw [set_app_apart (apart p earlier)]
      exact reads p earlier
  · exact find?_launch fresh handles deref
  · exact find?_launch fresh owners owns
  · exact serve

/-- What is found in a list is found when another member is left out of it. -/
theorem find?_without {progs : List ProgPtr} {f : ProgPtr → Bool} {p : ProgPtr}
    (found : progs.find? f = some p) (apart : p ≠ prog) :
    (progs.filter (· ≠ prog)).find? f = some p := by
  obtain ⟨holds, before, after, rfl, none_⟩ := List.find?_eq_some_iff_append.mp found
  refine List.find?_eq_some_iff_append.mpr
    ⟨holds, before.filter (· ≠ prog), after.filter (· ≠ prog), ?_, ?_⟩
  · simp [apart]
  · exact fun q member => none_ q (List.mem_of_mem_filter member)

/-- A program is freed whose shell is gone: it waits for nothing. -/
theorem Traffic.free (traffic : s.Traffic queued held) (member : prog ∈ s.progs)
    (shut : (s.app prog).reads = false) :
    System.Traffic { s with progs := s.progs.filter (· ≠ prog) } queued held := by
  have idle : prog ∉ queued ++ held := fun waits => by
    have dead := traffic.reads prog member shut
    rw [traffic.alive prog waits] at dead
    cases dead
  have left (p : ProgPtr) : p ∈ s.progs.filter (· ≠ prog) ↔ p ∈ s.progs ∧ p ≠ prog := by simp
  constructor
  · exact traffic.pipe
  · exact traffic.fds
  · exact traffic.nodup
  · intro p
    rw [left, traffic.owed]
    refine ⟨fun waits => ⟨⟨waits.1, ?_⟩, waits.2⟩, fun waits => ⟨waits.1.1, waits.2⟩⟩
    rintro rfl
    exact idle ((traffic.owed p).mpr waits)
  · exact fun p among => traffic.replies p ((left p).mp among).1
  · exact traffic.alive
  · exact fun p among => traffic.reads p ((left p).mp among).1
  · exact fun p among => find?_without (traffic.handles p ((left p).mp among).1)
      ((left p).mp among).2
  · exact fun p among => find?_without (traffic.owners p ((left p).mp among).1)
      ((left p).mp among).2
  · exact traffic.serve

theorem Traffic.notify (traffic : s.Traffic queued held) (member : prog ∈ s.progs)
    (pc : (s.app prog).pc = .notify) (alive : (s.app prog).alive = true)
    (handle : (s.app prog).hooks.myhandle = (s.app prog).wires.handle) :
    System.Traffic { s.set prog { s.app prog with pc := .await } with
      pipe := s.pipe ++ [(s.app prog).hooks.myhandle] } (queued ++ [prog]) held := by
  have idle : prog ∉ queued ++ held := by
    rw [traffic.owed]
    rintro ⟨-, waits, -⟩
    rw [pc] at waits
    cases waits
  have none_ : (s.app prog).replies = 0 := by
    rcases traffic.replies prog member with none_ | ⟨-, waits⟩
    · exact none_
    · rw [pc] at waits
      cases waits
  refine traffic.change rfl rfl rfl ?_ ?_ ?_ ?_ traffic.fds ?_ ?_ ?_ traffic.serve.more
  · intro p other
    simp [other]
  · simp [member, none_, App.owed]
  · rw [List.append_assoc, List.singleton_append, List.nodup_middle]
    exact List.nodup_cons.mpr ⟨idle, traffic.nodup⟩
  · rw [List.map_append, ← traffic.pipe, List.map_singleton, handle]
  · exact fun _ => .inl none_
  · exact fun _ => alive
  · exact traffic.reads prog

/-- A handle is read from the pipe, and the descriptor of its program is kept. -/
theorem Traffic.read {cnt : Nat} {handle : Word64} {later : List Word64}
    (traffic : s.Traffic queued held) (inside : cnt < progFdsLength)
    (reading : s.serve = .reading cnt) (pipe : s.pipe = handle :: later)
    (known : s.deref handle = some prog) :
    ∃ rest, queued = prog :: rest ∧ System.Traffic { s with
      pipe := later
      progFds := s.progFds.set cnt (s.app prog).wires.pipeWr inside
      serve := .reading (cnt + 1) } rest (held ++ [prog]) := by
  have counted : cnt = held.length := by
    have fits := traffic.serve
    rwa [reading] at fits
  subst counted
  have queue := traffic.pipe
  rw [pipe] at queue
  cases queued with
  | nil => cases queue
  | cons first rest =>
      obtain ⟨rfl, others⟩ := List.cons.inj queue
      have member : first ∈ s.progs := ((traffic.owed first).mp (by simp)).1
      obtain rfl : first = prog := Option.some.inj ((traffic.handles first member).symm.trans known)
      refine ⟨rest, rfl, ?_⟩
      have same (p : ProgPtr) : p ∈ rest ++ (held ++ [first]) ↔ p ∈ first :: rest ++ held := by
        simp only [List.mem_append, List.mem_cons, List.not_mem_nil, or_false]
        tauto
      have nodup : (rest ++ (held ++ [first])).Nodup := by
        rw [← List.append_assoc, List.nodup_append_comm, List.singleton_append]
        exact traffic.nodup
      exact ⟨others, stored_push traffic.fds inside first, nodup, fun p =>
        (same p).trans (traffic.owed p),
        traffic.replies, fun p among => traffic.alive p ((same p).mp among), traffic.reads,
          traffic.handles,
        traffic.owners, by simp [ServePc.Fits]⟩

/-- The last descriptor is taken, and the application behind it gets its reply. -/
theorem Traffic.reply {cnt : Nat} (traffic : s.Traffic queued held) (inside : cnt < progFdsLength)
    (answering : s.serve = .answering (cnt + 1)) :
    ∃ first last, held = first ++ [last] ∧ s.owner (s.progFds.get ⟨cnt, inside⟩) = some last ∧
      System.Traffic { s.set last { s.app last with replies := (s.app last).replies + 1 } with
        serve := .answering cnt } queued first := by
  have counted : cnt + 1 = held.length := by
    have fits := traffic.serve
    rwa [answering] at fits
  cases held using List.reverseRecOn with
  | nil => cases counted
  | append_singleton first last =>
      rw [List.length_append, List.length_singleton, Nat.add_right_cancel_iff] at counted
      subst counted
      have waits : last ∈ queued ++ (first ++ [last]) := by simp
      obtain ⟨member, pc, none_⟩ := (traffic.owed last).mp waits
      have stored := traffic.fds first.length last List.getElem?_concat_length
      refine ⟨first, last, rfl, ?_, ?_⟩
      · rw [Vector.getElem?_toList, Vector.getElem?_eq_getElem inside, Option.some_inj] at stored
        change s.owner s.progFds[first.length] = _
        rw [stored]
        exact traffic.owners last member
      · have nodup := traffic.nodup
        rw [← List.append_assoc, List.nodup_append_comm, List.singleton_append,
          List.nodup_cons] at nodup
        refine traffic.change rfl rfl rfl ?_ ?_ nodup.2 traffic.pipe ?_ ?_ ?_
          (traffic.reads last) rfl
        · intro p other
          simp [other]
        · simp only [nodup.1, App.owed, none_, false_iff, not_and]
          exact fun _ _ => by decide
        · intro k p atK
          exact traffic.fds k p
            (List.getElem?_append_left (List.getElem?_eq_some_iff.mp atK).1 ▸ atK)
        · intro _
          exact .inr ⟨by rw [none_], pc⟩
        · exact fun among => absurd among nodup.1

/-- No application dies that still waits for its reply. -/
def Orderly (s : System) : SysAction → Prop
  | .die prog => ¬ (s.app prog).owed
  | _ => True

instance (s : System) : DecidablePred s.Orderly
  | .die prog => inferInstanceAs (Decidable (¬ (s.app prog).owed))
  | .launch _ _ | .poll | .record | .spread _ | .assign _ _ | .thaw _ | .freeze _ | .notified
  | .serve | .app _ | .enter _ _ | .stopped _ | .close _ | .free _ => .isTrue trivial

/-- Requests are on their way, somehow. -/
def Flows (s : System) : Prop :=
  ∃ queued held, s.Traffic queued held

theorem Traffic.flows (traffic : s.Traffic queued held) : s.Flows :=
  ⟨queued, held, traffic⟩

theorem Traffic.quiet (traffic : s.Traffic queued held) (wires : a'.wires = (s.app prog).wires)
    (pc : a'.pc = (s.app prog).pc) (replies : a'.replies = (s.app prog).replies)
    (alive : a'.alive = (s.app prog).alive) (reads : a'.reads = (s.app prog).reads) :
    (s.set prog a').Traffic queued held := by
  apply traffic.set wires
  · intro _
    rw [App.owed, App.owed, pc, replies]
  · rw [replies, pc]
    exact traffic.replies prog
  · rw [alive]
    exact fun _ living => living
  · rw [reads, alive]
    exact traffic.reads prog

theorem Traffic.app (traffic : s.Traffic queued held) (run : (s.app prog).step = some a') :
    (s.set prog a').Traffic queued held := by
  obtain ⟨wires, -, -, alive, reads⟩ := App.step_notes run
  have replies := App.step_replies run
  have before := traffic.replies prog
  apply traffic.set wires
  · intro _
    unfold App.owed
    grind
  · grind
  · rw [alive]
    exact fun _ living => living
  · rw [reads, alive]
    exact traffic.reads prog

theorem Traffic.enter {nrThreads : Word32} (traffic : s.Traffic queued held)
    (run : (s.app prog).enter nrThreads = some a') : (s.set prog a').Traffic queued held := by
  have before := traffic.replies prog
  unfold App.enter at run
  split at run
  · next pc =>
      cases run
      refine traffic.set rfl ?_ ?_ (fun _ living => living) (traffic.reads prog)
      · simp [App.owed, pc]
      · simpa [pc] using before
  · cases run

/-- No more descriptors are held than there is room for. -/
theorem Traffic.length_le (traffic : s.Traffic queued held) : held.length ≤ progFdsLength := by
  cases held using List.reverseRecOn with
  | nil => exact Nat.zero_le _
  | append_singleton first last =>
      have stored := traffic.fds first.length last List.getElem?_concat_length
      have inside := (List.getElem?_eq_some_iff.mp stored).1
      rw [Vector.length_toList] at inside
      rw [List.length_append, List.length_singleton]
      exact inside

/-- A handle in the pipe is that of an application that waits. -/
theorem Traffic.head {handle : Word64} {later : List Word64} (traffic : s.Traffic queued held)
    (pipe : s.pipe = handle :: later) :
    ∃ prog rest, queued = prog :: rest ∧ s.deref handle = some prog := by
  have queue := traffic.pipe
  rw [pipe] at queue
  cases queued with
  | nil => cases queue
  | cons first rest =>
      obtain ⟨rfl, -⟩ := List.cons.inj queue
      exact ⟨first, rest, rfl, traffic.handles first ((traffic.owed first).mp (by simp)).1⟩

theorem Traffic.serveStep (traffic : s.Traffic queued held) (move : ServeMove s s') : s'.Flows := by
  have fits := traffic.serve
  cases move with
  | enough cnt reading =>
      rw [reading] at fits
      exact ⟨queued, held, { traffic with serve := fits }⟩
  | wild cnt handle later reading pipe unknown =>
      exfalso
      obtain ⟨prog, rest, -, known⟩ := traffic.head pipe
      rw [unknown] at known
      cases known
  | read cnt handle later prog inside reading pipe known =>
      obtain ⟨rest, -, traffic'⟩ := traffic.read inside reading pipe known
      exact traffic'.flows
  | overrun cnt handle later prog outside reading pipe known =>
      rw [reading] at fits
      obtain ⟨first, rest, rfl, -⟩ := traffic.head pipe
      have full : held.length = progFdsLength := Nat.le_antisymm traffic.length_le (fits ▸ outside)
      exact Traffic.flows { traffic with serve := ⟨rfl, full, List.cons_ne_nil first rest⟩ }
  | done answering =>
      rw [answering] at fits
      exact ⟨queued, held, { traffic with serve := List.length_eq_zero_iff.mp fits.symm }⟩
  | reply cnt prog inside answering known reads =>
      obtain ⟨first, last, -, found, traffic'⟩ := traffic.reply inside answering
      obtain rfl : prog = last := Option.some.inj (known.symm.trans found)
      exact traffic'.flows
  | sigpipe cnt prog inside answering known shut =>
      exfalso
      obtain ⟨first, last, held_, found, -⟩ := traffic.reply inside answering
      obtain rfl : prog = last := Option.some.inj (known.symm.trans found)
      have waits : prog ∈ queued ++ held := by simp [held_]
      have dead := traffic.reads prog ((traffic.owed prog).mp waits).1 shut
      rw [traffic.alive prog waits] at dead
      cases dead
  | badFd cnt inside answering unknown =>
      exfalso
      obtain ⟨first, last, -, found, -⟩ := traffic.reply inside answering
      rw [unknown] at found
      cases found
  | behind cnt outside answering =>
      exfalso
      rw [answering] at fits
      have room := traffic.length_le
      exact absurd (fits ▸ room : cnt + 1 ≤ progFdsLength)
        (Nat.not_le.mpr (Nat.lt_succ_of_le outside))

/-- Every action of a run keeps the requests in good hands, if no application dies that waits. -/
theorem Flows.step (flows : s.Flows) (launches : s.Launches w) (orderly : s.Orderly action)
    (run : System.step w action s = some s') : s'.Flows := by
  obtain ⟨queued, held, traffic⟩ := flows
  cases step_move run with
  | launch prog wires free fresh handle owner => exact (traffic.launch fresh handle owner).flows
  | leave => exact ⟨queued, held, traffic.congr rfl rfl rfl rfl rfl⟩
  | wait => exact traffic.flows
  | record prog recording =>
      have noted :
          (s.set prog { s.app prog with pid := affShmGetAppPid (s.app prog).shm }).Traffic
            queued held :=
        traffic.quiet rfl rfl rfl rfl rfl
      exact ⟨queued, held, noted.congr rfl rfl rfl rfl rfl⟩
  | spread cpus prog spreading =>
      have handed : (s.set prog { s.app prog with
          shm := affShmSetCpusAssigned (s.app prog).shm cpus, handed := true }).Traffic
            queued held :=
        traffic.quiet rfl rfl rfl rfl rfl
      exact ⟨queued, held, handed.congr rfl rfl rfl rfl rfl⟩
  | assign | thaw | freeze | stopped => exact ⟨queued, held, traffic.quiet rfl rfl rfl rfl rfl⟩
  | notified free idle =>
      have fits := traffic.serve
      rw [idle] at fits
      have none_ : held = [] := fits
      exact ⟨queued, held, { traffic with serve := by simp [ServePc.Fits, none_] }⟩
  | serve s' free move => exact traffic.serveStep move
  | notify prog member can pc =>
      simp only [App.canStep, Bool.and_eq_true] at can
      have handle := (launches.sound prog member).wired.gotHandle (by rw [pc]; decide)
      exact (traffic.notify member pc can.1 handle).flows
  | app prog a' member can silent ran => exact (traffic.app ran).flows
  | enter prog nrThreads a' member can ran => exact (traffic.enter ran).flows
  | die prog =>
      have idle : ¬ (s.app prog).owed := orderly
      refine Traffic.flows
        (traffic.set rfl (fun _ => .rfl) (traffic.replies prog) ?_ fun _ _ => rfl)
      exact fun owed => absurd owed idle
  | close prog member dead =>
      refine Traffic.flows
        (traffic.set rfl (fun _ => .rfl) (traffic.replies prog) ?_ fun _ _ => dead)
      exact fun _ living => living
  | free prog free member handed shut => exact (traffic.free member shut).flows

theorem flows_start : Flows {} :=
  ⟨[], [], {
    pipe := rfl
    fds := by simp
    nodup := List.nodup_nil
    owed := by simp
    replies := by simp
    alive := by simp
    reads := by simp
    handles := by simp
    owners := by simp
    serve := rfl }⟩

/-- The requests are in good hands after every run in which no application dies that waits. -/
theorem flows_run {actions : List SysAction} (orderly : Along (System.step w) Orderly actions {})
    (run : System.run w actions = some s) : s.Flows := by
  have both : s.Launches w ∧ s.Flows := by
    apply inv_runAll _ ⟨launches_start w, flows_start⟩ orderly run
    rintro s s' action ⟨launches, flows⟩ allowed ran
    exact ⟨launches.step ran, flows.step launches allowed ran⟩
  exact both.2

/-- All applications ask for what they may ask for. -/
def Modest (w : Wiring) (s : System) : Prop :=
  ∀ p ∈ s.progs, (s.app p).Asks w

theorem Modest.set (modest : s.Modest w) (asks : prog ∈ s.progs → a'.Asks w) :
    (s.set prog a').Modest w := by
  intro p member
  by_cases same : p = prog
  · subst same
    simpa using asks member
  · rw [set_app_apart same]
    exact modest p member

/-- Every action keeps what the applications ask for. -/
theorem Modest.step (modest : s.Modest w) (launches : s.Launches w)
    (run : System.step w action s = some s') : s'.Modest w := by
  cases step_move run with
  | launch prog wires free fresh =>
      intro p member
      rcases List.mem_cons.mp member with rfl | earlier
      · constructor <;> simp
      · have other : p ≠ prog := fun same => fresh (same ▸ earlier)
        simpa [System.set, other] using modest p earlier
  | leave | wait | notified => exact modest
  | record prog recording =>
      have noted :
          (s.set prog { s.app prog with pid := affShmGetAppPid (s.app prog).shm }).Modest w :=
        modest.set fun member => (modest prog member).congr rfl rfl rfl rfl
      exact noted
  | spread cpus prog spreading =>
      have handed : (s.set prog { s.app prog with
          shm := affShmSetCpusAssigned (s.app prog).shm cpus, handed := true }).Modest w :=
        modest.set fun member => (modest prog member).congr rfl rfl rfl (by simp)
      exact handed
  | assign prog | thaw prog | freeze prog | stopped prog | die prog | close prog =>
      exact modest.set fun member => (modest prog member).congr rfl rfl rfl (by simp)
  | free prog => exact fun p member => modest p (List.mem_of_mem_filter member)
  | serve s' free move =>
      cases move with
      | reply cnt prog =>
          have replied :
              (s.set prog { s.app prog with replies := (s.app prog).replies + 1 }).Modest w :=
            modest.set fun member => (modest prog member).congr rfl rfl rfl rfl
          exact replied
      | _ => exact modest
  | notify prog member can pc =>
      have notified : (s.set prog { s.app prog with pc := .await }).Modest w := by
        refine modest.set fun _ => ?_
        obtain ⟨clamped, shown⟩ := modest prog member
        exact ⟨fun _ => clamped (.inr (.inl pc)), fun _ => shown (.inl pc)⟩
      exact notified
  | app prog a' member can silent ran => exact modest.set fun _ => (modest prog member).step ran
  | enter prog nrThreads a' member can ran =>
      exact modest.set fun _ => .enter (launches.sound prog member) ran

theorem modest_run {actions : List SysAction} (run : System.run w actions = some s) :
    s.Modest w := by
  have both : s.Launches w ∧ s.Modest w := by
    apply inv_runAll' _ ⟨launches_start w, by simp [Modest]⟩ run
    rintro s s' action ⟨launches, modest⟩ ran
    exact ⟨launches.step ran, modest.step launches ran⟩
  exact both.2

end System

end Traffic

section Progress

variable {w : Wiring} {s : System} {queued held : List ProgPtr}

namespace System

/-- The applications when some of them have got a reply. -/
def answered (s : System) (progs : List ProgPtr) (p : ProgPtr) : App :=
  if p ∈ progs then { s.app p with replies := (s.app p).replies + 1 } else s.app p

/-- An application that waits can be written to. -/
theorem Traffic.canRead {p : ProgPtr} (traffic : s.Traffic queued held)
    (waits : p ∈ queued ++ held) : (s.app p).reads = true := by
  by_contra shut
  have dead := traffic.reads p ((traffic.owed p).mp waits).1 (by simpa using shut)
  rw [traffic.alive p waits] at dead
  cases dead

/-- The replying loop, if the executor is left to itself: the applications behind the descriptors
get their replies, and nothing else happens. -/
theorem Traffic.answers (traffic : s.Traffic queued held) (free : s.launch = none)
    (answering : s.serve = .answering held.length) :
    ∃ s', runAll (System.step w) (List.replicate (held.length + 1) .serve) s = some s' ∧
      s'.serve = .idle ∧
      s'.launch = none ∧ s'.progs = s.progs ∧ s'.pipe = s.pipe ∧ s'.app = s.answered held ∧
        s'.Traffic queued [] := by
  induction held using List.reverseRecOn generalizing s with
  | nil =>
      have step : System.step w .serve s = some { s with serve := .idle } := by
        simp [System.step, System.free, free, answering, System.serveStep]
      refine ⟨{ s with serve := .idle }, ?_, rfl, free, rfl, rfl, ?_, ?_⟩
      · rw [List.length_nil, List.replicate_one, runAll_cons, step]
        rfl
      · funext p
        simp [answered]
      · exact { traffic with serve := rfl }
  | append_singleton first last ih =>
      rw [List.length_append, List.length_singleton] at answering
      have inside : first.length < progFdsLength := by
        have room := traffic.length_le
        rw [List.length_append, List.length_singleton] at room
        exact room
      obtain ⟨first', last', same, found, traffic'⟩ := traffic.reply inside answering
      obtain ⟨rfl, rfl⟩ : first = first' ∧ last = last' := by simpa using List.append_inj' same rfl
      have step : System.step w .serve s =
          some { s.set last { s.app last with replies := (s.app last).replies + 1 } with
          serve := .answering first.length } := by
        have reads := traffic.canRead (p := last) (by simp)
        simp [System.step, System.free, free, answering, System.serveStep, inside, found, reads]
      obtain ⟨s', run, idle, launch, progs, pipe, app, ended⟩ := ih traffic' free rfl
      refine ⟨s', ?_, idle, launch, progs, pipe, ?_, ended⟩
      · rw [List.length_append, List.length_singleton, List.replicate_succ]
        exact runAll_cons_eq_some.mpr ⟨_, step, run⟩
      · rw [app]
        have once : last ∉ first := by
          have nodup := (List.nodup_append.mp traffic.nodup).2.1
          rw [List.nodup_append_comm, List.singleton_append, List.nodup_cons] at nodup
          exact nodup.1
        funext p
        by_cases same : p = last
        · subst same
          simp [answered, once]
        · simp [answered, same, set_app_apart same]

/-- The reading loop and the replying loop, if the executor is left to itself and the array is long
enough: the pipe is emptied, and all applications that wait get their replies. -/
theorem Traffic.readsAll (traffic : s.Traffic queued held) (free : s.launch = none)
    (reading : s.serve = .reading held.length) (fits : (queued ++ held).length ≤ progFdsLength) :
    ∃ n s', runAll (System.step w) (List.replicate n .serve) s = some s' ∧ s'.serve = .idle ∧
      s'.progs = s.progs ∧
      s'.pipe = [] ∧ s'.app = s.answered (queued ++ held) := by
  induction queued generalizing s held with
  | nil =>
      have step : System.step w .serve s = some { s with serve := .answering held.length } := by
        have inside : held.length < sizeofProgFds :=
          Nat.lt_of_le_of_lt traffic.length_le (by decide)
        simp [System.step, System.free, free, reading, System.serveStep, inside, traffic.pipe]
      have answering : System.Traffic { s with serve := .answering held.length } [] held :=
        { traffic with serve := rfl }
      obtain ⟨s', run, idle, -, progs, pipe, app, -⟩ := answering.answers (w := w) free rfl
      refine ⟨held.length + 1 + 1, s', ?_, idle, progs, pipe.trans traffic.pipe, app⟩
      rw [List.replicate_succ]
      exact runAll_cons_eq_some.mpr ⟨_, step, run⟩
  | cons first rest ih =>
      have inside : held.length < progFdsLength := by
        simp only [List.length_append, List.length_cons] at fits
        omega
      have pipe := traffic.pipe
      have member := ((traffic.owed first).mp (by simp)).1
      have known := traffic.handles first member
      have step : System.step w .serve s = some { s with
          pipe := rest.map fun p => (s.app p).wires.handle
          progFds := s.progFds.set held.length (s.app first).wires.pipeWr inside
          serve := .reading (held.length + 1) } := by
        have bound : held.length < sizeofProgFds := Nat.lt_trans inside (by decide)
        simp [System.step, System.free, free, reading, System.serveStep, bound, pipe, known, inside]
      obtain ⟨rest', same, traffic'⟩ := traffic.read inside reading pipe known
      cases same
      have room : (rest ++ (held ++ [first])).length ≤ progFdsLength := by
        simp only [List.length_append, List.length_cons, List.length_nil] at fits ⊢
        omega
      obtain ⟨n, s', run, idle, progs, empty, app⟩ := ih traffic' free (by simp) room
      refine ⟨n + 1, s', ?_, idle, progs, empty, ?_⟩
      · rw [List.replicate_succ]
        exact runAll_cons_eq_some.mpr ⟨_, step, run⟩
      · rw [app]
        funext p
        simp [answered, or_comm, or_left_comm]

/-- What the executor does on its own, when it has been told of a request or is at work. -/
def Serves (action : SysAction) : Prop :=
  action = .notified ∨ action = .serve

theorem serves_replicate (n : Nat) : ∀ action ∈ List.replicate n SysAction.serve, Serves action :=
  fun _ member => .inr (List.eq_of_mem_replicate member)

/-- The executor is told of the requests in the pipe, and answers them all. -/
theorem Traffic.serves (traffic : s.Traffic queued []) (free : s.launch = none)
    (idle : s.serve = .idle) (fits : queued.length ≤ progFdsLength) :
    ∃ more s', (∀ action ∈ more, Serves action) ∧ runAll (System.step w) more s = some s' ∧
      s'.serve = .idle ∧
      s'.progs = s.progs ∧ s'.pipe = [] ∧ s'.app = s.answered queued := by
  cases queued with
  | nil =>
      refine ⟨[], s, by simp, rfl, idle, rfl, traffic.pipe, ?_⟩
      funext p
      simp [answered]
  | cons first rest =>
      have step : System.step w .notified s = some { s with serve := .reading 0 } := by
        simp [System.step, System.free, free, idle, traffic.pipe]
      have reading : System.Traffic { s with serve := .reading 0 } (first :: rest) [] :=
        { traffic with serve := rfl }
      obtain ⟨n, s', run, ended, progs, empty, app⟩ :=
        reading.readsAll (w := w) free rfl (by simpa using fits)
      refine ⟨.notified :: List.replicate n .serve, s', ?_,
        runAll_cons_eq_some.mpr ⟨_, step, run⟩, ended, progs,
        empty, ?_⟩
      · exact List.forall_mem_cons.mpr ⟨.inl rfl, serves_replicate n⟩
      · rw [app, List.append_nil]
        rfl

/-- Wherever the executor is in `handle_prog_notifications`, it can answer all that wait. -/
theorem Traffic.completes (traffic : s.Traffic queued held) (free : s.launch = none)
    (fits : (queued ++ held).length ≤ progFdsLength) :
    ∃ more s', (∀ action ∈ more, Serves action) ∧ runAll (System.step w) more s = some s' ∧
      s'.serve = .idle ∧
      s'.progs = s.progs ∧ s'.pipe = [] ∧ s'.app = s.answered (queued ++ held) := by
  have counted := traffic.serve
  cases at_ : s.serve with
  | idle =>
      rw [at_] at counted
      cases counted
      rw [List.append_nil] at fits ⊢
      exact traffic.serves free at_ fits
  | reading cnt =>
      rw [at_] at counted
      cases counted
      obtain ⟨n, s', run, rest⟩ := traffic.readsAll (w := w) free at_ fits
      exact ⟨_, s', serves_replicate n, run, rest⟩
  | answering cnt =>
      rw [at_] at counted
      cases counted
      obtain ⟨t, first, idle, launch, progs, pipe, app, traffic'⟩ :=
        traffic.answers (w := w) free at_
      rw [List.length_append] at fits
      obtain ⟨more, s', serves, run, idle', progs', empty, app'⟩ :=
        traffic'.serves (w := w) launch idle (by omega)
      refine ⟨List.replicate (held.length + 1) .serve ++ more, s', ?_,
        runAll_trans first run, idle',
        progs'.trans progs, empty, ?_⟩
      · intro action member
        rcases List.mem_append.mp member with early | late
        · exact serves_replicate _ action early
        · exact serves action late
      · have apart := (List.nodup_append.mp traffic.nodup).2.2
        rw [app']
        funext p
        by_cases waits : p ∈ queued
        · have other : p ∉ held := fun holds => apart p waits p holds rfl
          simp [answered, app, waits, other]
        · simp [answered, app, waits]
  | ended fate =>
      rw [at_] at counted
      obtain ⟨-, full, more⟩ := counted
      have some_ := List.length_pos_iff.mpr more
      rw [List.length_append] at fits
      omega

/-- The state as `handle_prog_notifications` finds it when it is called. -/
def noticed (s : System) (queued : List ProgPtr) : NotifyState Unit where
  sched := ()
  requested p := (affShmGetCpusRequested (s.app p).shm).toNat
  queued := queued
  progFds := s.progFds.map BitVec.toNat
  trace := []

/-- Left to itself, the executor does in steps what a call of `handle_prog_notifications` does. -/
theorem Traffic.called {pipes : ReplyPipes} (traffic : s.Traffic queued []) (free : s.launch = none)
    (idle : s.serve = .idle) (fits : queued.length ≤ progFdsLength) :
    ∃ more s' st', (∀ action ∈ more, Serves action) ∧ runAll (System.step w) more s = some s' ∧
      s'.serve = .idle ∧
      handleProgNotifications pipes NotifyHooks.none (s.noticed queued) = .ok () st' ∧
        st'.queued = [] ∧ s'.pipe = [] ∧
      ∀ p, (s'.app p).replies = (s.app p).replies + st'.trace.count (.replied (pipes.fd p)) := by
  obtain ⟨more, s', serves, ran, idle', -, empty, app⟩ := traffic.serves (w := w) free idle fits
  have spec : Wp.wp (handleProgNotifications pipes NotifyHooks.none) _ (fun _ _ => False)
      (s.noticed queued) :=
    handleProgNotifications_spec fits
  cases call : handleProgNotifications pipes NotifyHooks.none (s.noticed queued) with
  | error overrun st' => exact ((Wp.of_error call).mp spec).elim
  | ok _ st' =>
      obtain ⟨drained, rebalanced, optional, trace⟩ := (Wp.of_ok call).mp spec
      refine ⟨more, s', st', serves, ran, idle', rfl, drained, empty, fun p => ?_⟩
      have nodup : queued.Nodup := by simpa using traffic.nodup
      have silent : rebalanced.count (.replied (pipes.fd p)) = 0 := by
        rcases optional with rfl | rfl
        · rfl
        · rfl
      rw [trace, app, answered]
      simp only [noticed, List.nil_append, List.count_append, silent, Nat.zero_add]
      by_cases waits : p ∈ queued
      · rw [if_pos waits, count_replies nodup waits]
      · rw [if_neg waits, List.count_eq_zero_of_not_mem]
        · rfl
        · intro among
          obtain ⟨other, read, same⟩ := List.mem_map.mp among
          have equal := pipes.distinct (NotifyAction.replied.inj same)
          exact waits (equal ▸ List.mem_reverse.mp read)

end System

end Progress

section Runs

variable {w : Wiring} {s : System}

/-- In every run, in whatever order the processes take their steps, in which no application dies
that waits for its reply: the handles in the pipe and the descriptors in `prog_fds` are those of the
applications that wait, each once and with the cpus that it has asked for in its page, no
application has a reply that it does not wait for, nor a second one, and nothing but more than 16
requests at a time puts an end to `handle_prog_notifications`. -/
theorem requests_answered_once (w : Wiring) (actions : List SysAction) (s : System)
    (orderly : Along (System.step w) System.Orderly actions {})
    (run : System.run w actions = some s) :
    ∃ queued held : List ProgPtr,
      s.pipe = queued.map (fun p => (s.app p).wires.handle) ∧
      (∀ (k : Nat) (p : ProgPtr), held[k]? = some p →
        s.progFds.toList[k]? = some (s.app p).wires.pipeWr) ∧
      (queued ++ held).Nodup ∧ (∀ p, p ∈ queued ++ held ↔ p ∈ s.progs ∧ (s.app p).owed) ∧
      (∀ p ∈ queued ++ held, affShmGetCpusRequested (s.app p).shm =
        clampThreads w.cpusNr (s.app p).asked ∧
        (w.cpusNr ≠ 0 → affShmGetCpusRequested (s.app p).shm ≠ 0 ∧
          (affShmGetCpusRequested (s.app p).shm).toInt ≤ w.cpusNr.toInt)) ∧
      (∀ p ∈ s.progs, (s.app p).replies ≤ 1 ∧ ((s.app p).replies = 1 → (s.app p).pc = .await)) ∧
      ∀ fate, s.serve = .ended fate → fate = .overrun ∧ 16 < (queued ++ held).length := by
  obtain ⟨queued, held, traffic⟩ := System.flows_run orderly run
  refine ⟨queued, held, traffic.pipe, traffic.fds, traffic.nodup, traffic.owed, ?_, ?_, ?_⟩
  · intro p waits
    obtain ⟨member, pc, -⟩ := (traffic.owed p).mp waits
    obtain ⟨clamped, shown⟩ := System.modest_run run p member
    rw [affShmGetCpusRequested_eq, shown (.inr pc), clamped (.inr (.inr pc))]
    exact ⟨rfl, clampThreads_le⟩
  · intro p member
    rcases traffic.replies p member with none_ | ⟨one, pc⟩
    · simp [none_]
    · simp [one, pc]
  · intro fate ended
    have fits := traffic.serve
    rw [ended] at fits
    obtain ⟨overrun, full, more⟩ := fits
    refine ⟨overrun, ?_⟩
    have some_ := List.length_pos_iff.mpr more
    rw [List.length_append, full, show progFdsLength = 16 from rfl]
    omega

/-- An application enters a parallel region with 5 threads, on a machine with two cpus. -/
def firstRequest : List SysAction :=
  relaunch ++ [.thaw 0, .app 0, .enter 0 5, .app 0, .app 0]

/-- It waits, and has asked for the two. -/
theorem requests_answered_once_first :
    ∃ s, System.run twoCpus firstRequest = some s ∧ affShmGetCpusRequested (s.app 0).shm = 2 := by
  obtain ⟨s, run, holds⟩ := (Option.any_eq_true _ _).mp (by decide +kernel :
    (System.run twoCpus firstRequest).any
      (fun s => 0 ∈ s.progs ∧ (s.app 0).owed ∧ (s.app 0).asked = 5) = true)
  obtain ⟨member, owed, asked⟩ := of_decide_eq_true holds
  obtain ⟨queued, held, -, -, -, waits, requested, -⟩ :=
    requests_answered_once twoCpus firstRequest s (by decide +kernel) run
  refine ⟨s, run, ?_⟩
  rw [(requested 0 ((waits 0).mpr ⟨member, owed⟩)).1, asked]
  decide

/-- At any time at which at most 16 applications wait, the executor can answer them all by steps of
its own: each of them gets one reply, and nothing else changes. -/
theorem requests_get_answered (w : Wiring) (actions : List SysAction) (s : System)
    (orderly : Along (System.step w) System.Orderly actions {})
    (run : System.run w actions = some s) (free : s.launch = none)
    (few : (s.progs.filter fun p => (s.app p).owed).length ≤ 16) :
    ∃ more s', (∀ action ∈ more, System.Serves action) ∧ runAll (System.step w) more s = some s' ∧
      s'.serve = .idle ∧
      s'.progs = s.progs ∧ s'.pipe = [] ∧
      ∀ p ∈ s.progs,
        s'.app p = if (s.app p).owed then { s.app p with replies := 1 } else s.app p := by
  obtain ⟨queued, held, traffic⟩ := System.flows_run orderly run
  have among : queued ++ held ⊆ s.progs.filter fun p => (s.app p).owed := by
    intro p waits
    rw [List.mem_filter, decide_eq_true_eq]
    exact (traffic.owed p).mp waits
  have fits := (traffic.nodup.subperm among).length_le.trans few
  obtain ⟨more, s', serves, ran, idle, progs, empty, app⟩ := traffic.completes (w := w) free fits
  refine ⟨more, s', serves, ran, idle, progs, empty, fun p member => ?_⟩
  rw [app, System.answered]
  by_cases owed : (s.app p).owed
  · rw [if_pos ((traffic.owed p).mpr ⟨member, owed⟩), if_pos owed, owed.2]
  · rw [if_neg fun waits => owed ((traffic.owed p).mp waits).2, if_neg owed]

/-- The first application can be answered. -/
theorem requests_get_answered_first :
    ∃ s more s', System.run twoCpus firstRequest = some s ∧
      runAll (System.step twoCpus) more s = some s' ∧
      s'.pipe = [] ∧ (s'.app 0).replies = 1 := by
  obtain ⟨s, run, holds⟩ := (Option.any_eq_true _ _).mp (by decide +kernel :
    (System.run twoCpus firstRequest).any (fun s => s.launch = none ∧ 0 ∈ s.progs ∧ (s.app 0).owed ∧
      (s.progs.filter fun p => (s.app p).owed).length ≤ 16) = true)
  obtain ⟨free, member, owed, few⟩ := of_decide_eq_true holds
  obtain ⟨more, s', -, ran, -, -, empty, apps⟩ :=
    requests_get_answered twoCpus firstRequest s (by decide +kernel) run free few
  refine ⟨s, more, s', run, ran, empty, ?_⟩
  rw [apps 0 member, if_pos owed]

end Runs

end BachScheduler
