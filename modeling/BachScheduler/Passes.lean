import BachScheduler.Selection

/-!
# What a pass over the programs picks

The loops over `progs_all` that fill the cores differ in the rule by which they admit a
program.  What such a loop picks and leaves is a function of the list.
-/

namespace BachScheduler

open BachScheduler.Ring Wp

/-- What a pass has come to: its variables, the programs it picked and those it left behind. -/
structure Passed (ρ : Type) where
  acc : ρ
  picked : List ProgPtr
  left : List ProgPtr

namespace Passed

variable {ρ : Type}

/-- The pass has picked one program more, before the others. -/
def pick (prog : ProgPtr) (passed : Passed ρ) : Passed ρ :=
  { passed with picked := prog :: passed.picked }

/-- The pass has left one program more, before the others. -/
def skip (prog : ProgPtr) (passed : Passed ρ) : Passed ρ :=
  { passed with left := prog :: passed.left }

@[simp] theorem pick_acc (prog : ProgPtr) (passed : Passed ρ) :
    (passed.pick prog).acc = passed.acc := rfl

@[simp] theorem pick_picked (prog : ProgPtr) (passed : Passed ρ) :
    (passed.pick prog).picked = prog :: passed.picked := rfl

@[simp] theorem pick_left (prog : ProgPtr) (passed : Passed ρ) :
    (passed.pick prog).left = passed.left := rfl

@[simp] theorem skip_acc (prog : ProgPtr) (passed : Passed ρ) :
    (passed.skip prog).acc = passed.acc := rfl

@[simp] theorem skip_picked (prog : ProgPtr) (passed : Passed ρ) :
    (passed.skip prog).picked = passed.picked := rfl

@[simp] theorem skip_left (prog : ProgPtr) (passed : Passed ρ) :
    (passed.skip prog).left = prog :: passed.left := rfl

end Passed

section PassOver

variable {ρ : Type} (cores : ρ → Int) (admits : ProgData → ρ → Option (Int → ρ))
variable (need : ProgPtr → Int) (pd : ProgPtr → ProgData)

/-- A pass over some programs: it ends once the cores are full, and picks what the rule admits. -/
def passOver : List ProgPtr → ρ → Passed ρ
  | [], acc => ⟨acc, [], []⟩
  | prog :: later, acc =>
      if cores acc = maxCores then
        ⟨acc, [], prog :: later⟩
      else
        match admits (pd prog) acc with
        | none => (passOver later acc).skip prog
        | some next => (passOver later (next (cores acc + need prog))).pick prog

variable {cores admits need pd} {progs before after : List ProgPtr} {prog : ProgPtr} {acc : ρ}

theorem passOver_full (isFull : cores acc = maxCores) :
    passOver cores admits need pd progs acc = ⟨acc, [], progs⟩ := by
  cases progs with
  | nil => rfl
  | cons prog later => simp [passOver, isFull]

theorem passOver_skip (notFull : cores acc ≠ maxCores) (refused : admits (pd prog) acc = none) :
    passOver cores admits need pd (prog :: after) acc =
      (passOver cores admits need pd after acc).skip prog := by
  simp [passOver, notFull, refused]

theorem passOver_pick {next : Int → ρ} (notFull : cores acc ≠ maxCores)
    (admitted : admits (pd prog) acc = some next) :
    passOver cores admits need pd (prog :: after) acc =
      (passOver cores admits need pd after (next (cores acc + need prog))).pick prog := by
  simp [passOver, notFull, admitted]

/-- A pass goes on from where it stands. -/
theorem passOver_append (before after : List ProgPtr) (acc : ρ) :
    passOver cores admits need pd (before ++ after) acc =
      let first := passOver cores admits need pd before acc
      let second := passOver cores admits need pd after first.acc
      ⟨second.acc, first.picked ++ second.picked, first.left ++ second.left⟩ := by
  induction before generalizing acc with
  | nil => rfl
  | cons prog later ih =>
      rw [List.cons_append]
      by_cases isFull : cores acc = maxCores
      · simp only [passOver_full isFull]
        simp
      cases verdict : admits (pd prog) acc with
      | none =>
          rw [passOver_skip isFull verdict, passOver_skip isFull verdict, ih]
          rfl
      | some next =>
          rw [passOver_pick isFull verdict, passOver_pick isFull verdict, ih]
          rfl

/-- What every admitted program keeps, the pass keeps; `I` speaks about the programs picked so
far. -/
theorem passOver_induction (I : List ProgPtr → ρ → Prop)
    (step : ∀ picked prog acc next, (picked ++ [prog]).Sublist progs → cores acc ≠ maxCores →
      admits (pd prog) acc = some next → I picked acc →
        I (picked ++ [prog]) (next (cores acc + need prog)))
    (start : I [] acc) : I (passOver cores admits need pd progs acc).picked
      (passOver cores admits need pd progs acc).acc := by
  suffices goes : ∀ (before after picked : List ProgPtr) (acc : ρ), before ++ after = progs →
      picked.Sublist before → I picked acc →
      I (picked ++ (passOver cores admits need pd after acc).picked)
        (passOver cores admits need pd after acc).acc by
    exact goes [] progs [] acc rfl (List.Sublist.refl _) start
  intro before after
  induction after generalizing before with
  | nil =>
      intro picked acc _ _ here
      simpa [passOver] using here
  | cons prog later ih =>
      intro picked acc split inside here
      have ih := ih (before ++ [prog])
      by_cases isFull : cores acc = maxCores
      · simpa [passOver_full isFull] using here
      cases verdict : admits (pd prog) acc with
      | none =>
          rw [passOver_skip isFull verdict]
          exact ih picked acc (by simpa using split)
            (inside.trans (List.sublist_append_left ..)) here
      | some next =>
          have inside : (picked ++ [prog]).Sublist (before ++ [prog]) := inside.append_right _
          have split : (before ++ [prog]) ++ later = progs := by simpa using split
          have whole := inside.trans (split ▸ List.sublist_append_left ..)
          rw [passOver_pick isFull verdict]
          simpa using ih _ _ split inside (step picked prog acc next whole isFull verdict here)

theorem passOver_perm (progs : List ProgPtr) (acc : ρ) :
    ((passOver cores admits need pd progs acc).picked ++
      (passOver cores admits need pd progs acc).left).Perm progs := by
  induction progs generalizing acc with
  | nil => exact .nil
  | cons prog later ih =>
      by_cases isFull : cores acc = maxCores
      · simp [passOver_full isFull]
      cases verdict : admits (pd prog) acc with
      | none =>
          rw [passOver_skip isFull verdict]
          exact List.perm_middle.trans ((ih acc).cons prog)
      | some next =>
          rw [passOver_pick isFull verdict]
          exact (ih _).cons prog

theorem notMem_picked (outside : prog ∉ progs) :
    prog ∉ (passOver cores admits need pd progs acc).picked :=
  fun member => outside ((passOver_perm progs acc).subset (List.mem_append_left _ member))

theorem notMem_left (outside : prog ∉ progs) :
    prog ∉ (passOver cores admits need pd progs acc).left :=
  fun member => outside ((passOver_perm progs acc).subset (List.mem_append_right _ member))

/-- A program that the pass comes to is left behind if the rule refuses it, and picked if not. -/
theorem passOver_refused_iff (nodup : (before ++ prog :: after).Nodup)
    (notFull : cores (passOver cores admits need pd before acc).acc ≠ maxCores) :
    let passed := passOver cores admits need pd (before ++ prog :: after) acc
    let here := passOver cores admits need pd before acc
    (prog ∈ passed.left ↔ admits (pd prog) here.acc = none) ∧
      (prog ∈ passed.picked ↔ admits (pd prog) here.acc ≠ none) := by
  have notBefore : prog ∉ before := fun member =>
    (List.nodup_append.mp nodup).2.2 prog member prog List.mem_cons_self rfl
  have notAfter : prog ∉ after := (List.nodup_cons.mp (List.nodup_append.mp nodup).2.1).1
  rw [passOver_append]
  dsimp only
  cases verdict : admits (pd prog) (passOver cores admits need pd before acc).acc with
  | none =>
      rw [passOver_skip notFull verdict]
      simp [notMem_picked notBefore, notMem_picked notAfter]
  | some next =>
      rw [passOver_pick notFull verdict]
      simp [notMem_left notBefore, notMem_left notAfter]

end PassOver

namespace Decision

variable {d : Decision} {ρ : Type} {cores : ρ → Int} {admits : ProgData → ρ → Option (Int → ρ)}
variable {progs : List ProgPtr} {st : ExecState} {E : Stop → ExecState → Prop}

/-- The loop of a pass does to the lists what the pass over its programs says. -/
theorem passOver_spec
    (counts : ∀ pd acc next taken, admits pd acc = some next → cores (next taken) = taken)
    (here : d.At [] progs st) {acc : ρ} (start : cores acc = 0) :
    wp (cdsListForEachEntrySafe .progsAll acc (admitBody cores admits))
      (fun acc' st' =>
        let passed := passOver cores admits d.need st.pds progs acc
        acc' = passed.acc ∧ d.At passed.picked passed.left st' ∧ cores acc' = d.cores passed.picked)
      E st := by
  refine forEachEntrySafe_spec (fun ahead acc' st' => ∃ picked skipped,
      d.At picked (skipped ++ ahead) st' ∧ cores acc' = d.cores picked ∧
        (∀ prog ∈ ahead, st'.pds prog = st.pds prog) ∧
        passOver cores admits d.need st.pds progs acc =
          let passed := passOver cores admits d.need st.pds ahead acc'
          ⟨passed.acc, picked ++ passed.picked, skipped ++ passed.left⟩)
    here.ring here.short ?_ ?_ ?_ ⟨[], [], here, start, fun _ _ => rfl, rfl⟩
  · intro ahead acc' st' inv
    obtain ⟨picked, skipped, here, -⟩ := inv
    exact ⟨skipped, here.ring⟩
  · intro prog ahead acc' st' inv
    obtain ⟨picked, skipped, here, counted, same, total⟩ := inv
    unfold admitBody
    refine Wp.ite (fun isFull => Wp.pure ?_) fun notFull => Wp.bind_ok (readPd_run prog st') ?_
    · rw [passOver_full isFull] at total
      simp only [List.append_nil] at total
      rw [total]
      exact ⟨rfl, here, counted⟩
    rw [same prog List.mem_cons_self]
    cases verdict : admits (st.pds prog) acc' with
    | none =>
        rw [passOver_skip notFull verdict] at total
        exact Wp.pure ⟨picked, skipped ++ [prog], by simpa using here, counted,
          fun other member => same other (List.mem_cons_of_mem _ member), by simpa using total⟩
    | some next =>
        have listed : prog ∈ skipped ++ prog :: ahead := by simp
        have nodup := here.nodup
        rw [passOver_pick notFull verdict] at total
        rw [counted] at notFull total ⊢
        refine Wp.bind_ok (here.dispatch_run listed) (Wp.pure ?_)
        have taken := At.take here.written listed
        rw [erase_middle nodup] at taken
        rw [← cores_concat] at total
        refine ⟨picked ++ [prog], skipped, taken, counts _ _ _ _ verdict, fun other member => ?_,
          by simpa using total⟩
        have differs : other ≠ prog := by
          rintro rfl
          exact (List.nodup_cons.mp (List.nodup_append.mp nodup).2.1).1 member
        rw [← same other (List.mem_cons_of_mem _ member)]
        simp [ExecState.assigned, ExecState.moved, ExecState.written, differs]
  · intro acc' st' inv
    obtain ⟨picked, skipped, here, counted, -, total⟩ := inv
    rw [List.append_nil] at here
    rw [total]
    simpa [passOver] using ⟨here, counted⟩

end Decision

end BachScheduler
