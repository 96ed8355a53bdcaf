import BachScheduler.Life

/-!
# Fields that a step keeps

Most of what happens leaves most fields of the programs alone.  `Agree` says so for one field of
`aff_prog` and one of `prog_data`, and a move concerns no program but its own.
-/

namespace BachScheduler

variable {exits : ProgPtr → Place → Prop} {a : Life} {prog : ProgPtr} {source target : Place}
variable {effect : Core → Core} {α β : Type} {f : ProgCore → α} {g : PdCore → β}

/-- A field of `aff_prog` and one of `prog_data` are the same for every program. -/
structure Core.Agree (f : ProgCore → α) (g : PdCore → β) (core other : Core) : Prop where
  progs : ∀ p, f (other.progs p) = f (core.progs p)
  pds : ∀ p, g (other.pds p) = g (core.pds p)

namespace Core.Agree

variable {core other later : Core}

theorem same (progs : other.progs = core.progs) (pds : other.pds = core.pds) :
    Core.Agree f g core other :=
  ⟨fun _ => by rw [progs], fun _ => by rw [pds]⟩

theorem refl (core : Core) : Core.Agree f g core core := .same rfl rfl

theorem trans (first : Core.Agree f g core other) (second : Core.Agree f g other later) :
    Core.Agree f g core later where
  progs p := (second.progs p).trans (first.progs p)
  pds p := (second.pds p).trans (first.pds p)

theorem modProg {change : ProgCore → ProgCore} (agree : Core.Agree f g core other)
    (keeps : f (change (other.progs prog)) = f (other.progs prog)) :
    Core.Agree f g core (other.modProg prog change) := by
  refine agree.trans ⟨fun p => ?_, fun _ => rfl⟩
  by_cases equal : p = prog
  · subst equal
    simpa [Core.modProg] using keeps
  · simp [Core.modProg, equal]

theorem modPd {change : PdCore → PdCore} (agree : Core.Agree f g core other)
    (keeps : g (change (other.pds prog)) = g (other.pds prog)) :
    Core.Agree f g core (other.modPd prog change) := by
  refine agree.trans ⟨fun _ => rfl, fun p => ?_⟩
  by_cases equal : p = prog
  · subst equal
    simpa [Core.modPd] using keeps
  · simp [Core.modPd, equal]

theorem updateClock {now : Word32} (agree : Core.Agree f g core other)
    (keeps : ∀ (pd : PdCore) clock, g { pd with clock := clock } = g pd) :
    Core.Agree f g core (other.updateClock prog now) := by
  have noted : Core.Agree f g core (other.noteClocks [.read prog now]) :=
    agree.trans (.same rfl rfl)
  have read : Core.Agree f g core (other.readClock prog now) := noted.modPd (keeps _ _)
  exact read.trans (.same rfl rfl)

theorem assign (core : Core) (prog : ProgPtr) (rstart : Int)
    (progs : ∀ (p : ProgCore) cpuset, f { p with cpuset := cpuset } = f p)
    (pds : ∀ (pd : PdCore) cpu, g { pd with cpu := cpu } = g pd) :
    Core.Agree f g core (core.assign prog rstart) := by
  unfold Core.assign
  exact .modPd (.modProg (.same rfl rfl) (progs _ _)) (pds _ _)

theorem assignAll (core : Core) (need : ProgPtr → Int) (among : List ProgPtr) (rstart : Int)
    (progs : ∀ (p : ProgCore) cpuset, f { p with cpuset := cpuset } = f p)
    (pds : ∀ (pd : PdCore) cpu, g { pd with cpu := cpu } = g pd) :
    Core.Agree f g core (core.assignAll need among rstart) := by
  induction among generalizing core rstart with
  | nil => exact .refl core
  | cons prog later ih => exact (assign core prog rstart progs pds).trans (ih _ _)

end Core.Agree

theorem Move.other (move : Move exits a prog source target effect) {p : ProgPtr}
    (other : p ≠ prog) :
    (effect a.core).progs p = a.core.progs p ∧ (effect a.core).pds p = a.core.pds p := by
  cases move with
  | enter => simp [Core.enter, other]
  | kill => simp [Core.kill, Core.clear, Core.report, Core.modPd, other]
  | monitor =>
      simp [Core.bump, Core.modSched, Core.assign, Core.modPd, Core.modProg, Core.note, other]
  | _ => exact ⟨rfl, rfl⟩

end BachScheduler
